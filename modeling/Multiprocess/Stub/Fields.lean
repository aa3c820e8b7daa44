import Mathlib.Data.List.Nodup

/-!
# The fields of a method

What `mpgen` makes of the parameter and result structs of a method (`src/src/mp/gen.cpp`): fields of
one name are merged, `has` and `want` companions are skipped, and each field left gets an accessor
with flags and a piece of the client's and of the server's stub.

The text that `mpgen` writes is not modelled, nor the C++ types it writes there. `Slices` is about
how many arguments each field stands for.
-/

namespace Multiprocess.Stub

/-- A field of a params or results struct: what `addField` reads of it. `typeCount` is the
annotation of its struct or interface type. -/
structure SchemaField where
  name : String
  skip : Bool
  exception : Option String
  count : Option Int
  typeCount : Option Int
  boxed : Bool
  deriving DecidableEq

/-- A field after merging. -/
structure Field where
  name : String
  param : Option SchemaField
  result : Option SchemaField
  args : Int
  retval : Bool
  optional : Bool
  requested : Bool
  skip : Bool
  exception : String
  deriving DecidableEq

def Field.empty (name : String) : Field where
  name := name
  param := none
  result := none
  args := 0
  retval := false
  optional := false
  requested := false
  skip := false
  exception := ""

/-- The first letter made a capital. -/
def cap (s : String) : String :=
  match s.toList with
  | c :: cs => String.ofList (c.toUpper :: cs)
  | [] => s

/-- `int32_t count` of `addField`. -/
def SchemaField.argCount (schema_field : SchemaField) : Int :=
  (schema_field.count <|> schema_field.typeCount).getD 1

/-- What `addField` does to the entry of the name. -/
def Field.add (field : Field) (schema_field : SchemaField) (param result inserted : Bool) : Field :=
  let retval := field.retval || !param && schema_field.name == "result"
  let exception := schema_field.exception.getD field.exception
  { field with
    param := if param then some schema_field else field.param
    result := if result then some schema_field else field.result
    retval
    skip := field.skip || schema_field.skip
    exception
    args := if inserted && !retval && exception.isEmpty then schema_field.argCount else field.args }

/-- The entries in order; a name has one at most, so that the list serves as `field_idx` too. -/
abbrev FieldList := List Field

namespace FieldList

def find? (fields : FieldList) (name : String) : Option Field :=
  List.find? (fun field => field.name == name) fields

/-- The entry of the name is changed. -/
def update (fields : FieldList) (name : String) (f : Field → Field) : FieldList :=
  fields.map fun field => if field.name = name then f field else field

def addField (fields : FieldList) (schema_field : SchemaField) (param result : Bool) : FieldList :=
  if (fields.find? schema_field.name).isSome then
    fields.update schema_field.name fun field => field.add schema_field param result false
  else fields ++ [(Field.empty schema_field.name).add schema_field param result true]

/-- The `has` half of the loop of `mergeFields`. -/
def mergeHas (fields : FieldList) (name : String) : FieldList :=
  let has_field := "has" ++ cap name
  if (fields.find? has_field).isSome then
    (fields.update has_field ({ · with skip := true })).update name ({ · with optional := true })
  else fields

/-- The `want` half. -/
def mergeWant (fields : FieldList) (name : String) : FieldList :=
  let want_field := "want" ++ cap name
  if (fields.find? want_field).any (·.param.isSome) then
    (fields.update want_field ({ · with skip := true })).update name ({ · with requested := true })
  else fields

def mergeFields (fields : FieldList) : FieldList :=
  (fields.map Field.name).foldl (fun fields name => mergeWant (mergeHas fields name) name) fields

def addFields (param result : Bool) (fields : FieldList) (schema : List SchemaField) : FieldList :=
  schema.foldl (fun fields f => addField fields f param result) fields

/-- The fields of a method with these params and results. -/
def ofMethod (params results : List SchemaField) : FieldList :=
  mergeFields (addFields false true (addFields true false [] params) results)

end FieldList

/-- The flags of an `Accessor`. -/
structure Accessor where
  inp : Bool
  out : Bool
  optional : Bool
  requested : Bool
  boxed : Bool
  deriving DecidableEq

/-- `AccessorType`. -/
def Field.accessor (field : Field) : Accessor where
  inp := field.param.isSome
  out := field.param.isNone || field.result.isSome
  optional := field.optional
  requested := field.requested
  boxed := ((field.param <|> field.result).map (·.boxed)).getD false

/-- Which pieces a field gets: `ClientException` and `ServerExcept`; or `ServerRet`, with the
client's variable `result`; or `ServerField` and the client's arguments. -/
inductive Kind where
  | exception
  | retval
  | param
  deriving DecidableEq

def Field.kind (field : Field) : Kind :=
  if !field.exception.isEmpty then .exception else if field.retval then .retval else .param

/-! ## Names -/

/-- Every name has one entry, and only an entry named `result` is a return value. -/
structure Named (fields : FieldList) : Prop where
  nodup : (fields.map Field.name).Nodup
  result : ∀ field ∈ fields, field.retval = true → field.name = "result"

theorem named_nil : Named [] where
  nodup := List.nodup_nil
  result _ hf := absurd hf List.not_mem_nil

theorem update_names (fields : FieldList) (name : String) {f : Field → Field}
    (keep : ∀ field, (f field).name = field.name) :
    (fields.update name f).map Field.name = fields.map Field.name := by
  unfold FieldList.update
  rw [List.map_map]
  apply List.map_congr_left
  intro field _
  simp only [Function.comp]
  split
  · exact keep field
  · rfl

/-- A change of one entry that keeps its name. -/
theorem named_update {fields : FieldList} (h : Named fields) (name : String) {f : Field → Field}
    (keep : ∀ field, (f field).name = field.name)
    (result : ∀ field ∈ fields, field.name = name → (f field).retval = true →
      field.retval = true ∨ name = "result") : Named (fields.update name f) where
  nodup := by
    rw [update_names fields name keep]
    exact h.nodup
  result field hf hr := by
    obtain ⟨old, ho, rfl⟩ := List.mem_map.mp hf
    split at hr
    · next hn =>
      rw [if_pos hn, keep]
      rcases result old ho hn hr with hret | hname
      · exact h.result old ho hret
      · rw [hn, hname]
    · next hn =>
      rw [if_neg hn]
      exact h.result old ho hr

theorem named_addField {fields : FieldList} (h : Named fields) (schema_field : SchemaField)
    (param result : Bool) : Named (fields.addField schema_field param result) := by
  have hresult : ∀ {field : Field} {inserted : Bool},
      (field.add schema_field param result inserted).retval = true →
        field.retval = true ∨ schema_field.name = "result" := by
    intro field inserted hr
    simp only [Field.add, Bool.or_eq_true, Bool.and_eq_true, beq_iff_eq] at hr
    exact hr.imp_right And.right
  unfold FieldList.addField
  split
  · apply named_update h
    · exact fun _ => rfl
    · exact fun field _ _ hr => hresult hr
  · next hnone =>
    have hfresh : schema_field.name ∉ fields.map Field.name := by
      intro hmem
      obtain ⟨field, hf, hn⟩ := List.mem_map.mp hmem
      apply hnone
      rw [FieldList.find?, List.find?_isSome]
      exact ⟨field, hf, by rw [beq_iff_eq]; exact hn⟩
    constructor
    · rw [List.map_append, List.nodup_append_comm]
      exact List.nodup_cons.mpr ⟨hfresh, h.nodup⟩
    · intro field hf hr
      rcases List.mem_append.mp hf with hf | hf
      · exact h.result field hf hr
      · obtain rfl := List.mem_singleton.mp hf
        exact (hresult hr).resolve_left nofun

/-- A companion is skipped and its field marked. -/
theorem named_companion {fields : FieldList} (h : Named fields) (companion name : String)
    (mark : Field → Field) (keep : ∀ field, (mark field).name = field.name)
    (retval : ∀ field, (mark field).retval = field.retval) :
    Named ((fields.update companion ({ · with skip := true })).update name mark) := by
  apply named_update
  · exact named_update h companion (fun _ => rfl) fun _ _ _ hr => .inl hr
  · exact keep
  · intro field _ _ hr
    rw [retval] at hr
    exact .inl hr

/-- What is kept when a companion is skipped and the field it belongs to is marked is kept by
`mergeFields`. -/
theorem mergeFields_keeps {P : FieldList → Prop}
    (optional : ∀ {fields} companion name, P fields →
      P ((fields.update companion ({ · with skip := true })).update name
        ({ · with optional := true })))
    (requested : ∀ {fields} companion name, P fields →
      P ((fields.update companion ({ · with skip := true })).update name
        ({ · with requested := true })))
    {fields : FieldList} (h : P fields) : P fields.mergeFields := by
  unfold FieldList.mergeFields
  generalize fields.map Field.name = names
  induction names generalizing fields with
  | nil => exact h
  | cons name names ih =>
    apply ih
    have hhas : P (fields.mergeHas name) := by
      unfold FieldList.mergeHas
      simp only
      split
      · exact optional _ name h
      · exact h
    unfold FieldList.mergeWant
    simp only
    split
    · exact requested _ name hhas
    · exact hhas

theorem named_mergeFields {fields : FieldList} (h : Named fields) : Named fields.mergeFields :=
  mergeFields_keeps (P := Named)
    (fun companion name h => named_companion h companion name _ (fun _ => rfl) fun _ => rfl)
    (fun companion name h => named_companion h companion name _ (fun _ => rfl) fun _ => rfl) h

theorem named_addFields {fields : FieldList} (h : Named fields) (param result : Bool)
    (schema : List SchemaField) : Named (FieldList.addFields param result fields schema) := by
  induction schema generalizing fields with
  | nil => exact h
  | cons f schema ih => exact ih (named_addField h f param result)

/-- The fields of a method are named. -/
theorem named_ofMethod (params results : List SchemaField) :
    Named (FieldList.ofMethod params results) :=
  named_mergeFields (named_addFields (named_addFields named_nil true false params) false true results)

/-- A method has one return value at most. -/
theorem retval_unique {fields : FieldList} (h : Named fields) :
    (fields.filter (·.retval)).length ≤ 1 := by
  have hnodup : ((fields.filter (·.retval)).map Field.name).Nodup :=
    h.nodup.sublist (List.filter_sublist.map _)
  have hall : ∀ name ∈ (fields.filter (·.retval)).map Field.name, name = "result" := by
    intro name hn
    obtain ⟨field, hf, rfl⟩ := List.mem_map.mp hn
    obtain ⟨hf, hr⟩ := List.mem_filter.mp hf
    exact h.result field hf hr
  rw [← List.length_map Field.name]
  generalize (fields.filter (·.retval)).map Field.name = names at hnodup hall
  match names with
  | [] => exact Nat.zero_le 1
  | [_] => exact Nat.le_refl 1
  | a :: b :: _ =>
    have hab : a = b := (hall a (by simp)).trans (hall b (by simp)).symm
    simp only [List.nodup_cons, hab, List.mem_cons, true_or, not_true_eq_false, false_and] at hnodup

/-! ## The fields one by one -/

/-- What a new entry has and every step of the generator keeps. -/
structure Kept (P : Field → Prop) : Prop where
  empty : ∀ name, P (.empty name)
  params : ∀ field schema_field inserted, P field → P (field.add schema_field true false inserted)
  results : ∀ field schema_field inserted, P field → P (field.add schema_field false true inserted)
  skip : ∀ field, P field → P { field with skip := true }
  optional : ∀ field, P field → P { field with optional := true }
  requested : ∀ field, P field → P { field with requested := true }

theorem update_forall {P : Field → Prop} {fields : FieldList} {f : Field → Field}
    (h : ∀ field ∈ fields, P field) (name : String) (hf : ∀ field, P field → P (f field)) :
    ∀ field ∈ fields.update name f, P field := by
  intro field hmem
  obtain ⟨old, ho, rfl⟩ := List.mem_map.mp hmem
  split
  · exact hf old (h old ho)
  · exact h old ho

theorem addFields_forall {P : Field → Prop} {param result : Bool} (empty : ∀ name, P (.empty name))
    (add : ∀ field schema_field inserted, P field → P (field.add schema_field param result inserted))
    (schema : List SchemaField) {fields : FieldList} (h : ∀ field ∈ fields, P field) :
    ∀ field ∈ FieldList.addFields param result fields schema, P field := by
  induction schema generalizing fields with
  | nil => exact h
  | cons f schema ih =>
    have hadd : ∀ field ∈ fields.addField f param result, P field := by
      unfold FieldList.addField
      split
      · exact update_forall h _ fun field => add field f false
      · intro field hmem
        rcases List.mem_append.mp hmem with hmem | hmem
        · exact h field hmem
        · obtain rfl := List.mem_singleton.mp hmem
          exact add _ f true (empty _)
    exact ih hadd

theorem mergeFields_forall {P : Field → Prop} (hP : Kept P) {fields : FieldList}
    (h : ∀ field ∈ fields, P field) : ∀ field ∈ fields.mergeFields, P field :=
  mergeFields_keeps (P := fun fields => ∀ field ∈ fields, P field)
    (fun companion name h => update_forall (update_forall h companion hP.skip) name hP.optional)
    (fun companion name h => update_forall (update_forall h companion hP.skip) name hP.requested) h

theorem ofMethod_forall {P : Field → Prop} (hP : Kept P) (params results : List SchemaField) :
    ∀ field ∈ FieldList.ofMethod params results, P field := by
  apply mergeFields_forall hP
  apply addFields_forall hP.empty hP.results
  apply addFields_forall hP.empty hP.params
  exact fun _ hmem => absurd hmem List.not_mem_nil

/-- A return value is one of the results. -/
theorem retval_out (params results : List SchemaField) :
    ∀ field ∈ FieldList.ofMethod params results, field.retval = true → field.accessor.out = true := by
  have hkept : Kept fun field => field.retval = true → field.result.isSome = true :=
    { empty := fun _ => nofun
      params := by
        intro field schema_field inserted h hr
        simp only [Field.add, Bool.not_true, Bool.false_and, Bool.or_false] at hr
        exact h hr
      results := fun _ _ _ _ _ => rfl
      skip := fun _ h => h
      optional := fun _ h => h
      requested := fun _ h => h }
  intro field hmem hr
  simp only [Field.accessor, ofMethod_forall hkept params results field hmem hr, Bool.or_true]

end Multiprocess.Stub
