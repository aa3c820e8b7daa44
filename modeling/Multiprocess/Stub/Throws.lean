import Multiprocess.Stub.Transparent

/-!
# A call that may throw

A method with `$Proxy.exception` fields, called through both stubs. On the server an exception
leaves the callables one after the other: no `PassField` it goes through writes its argument, and
the `ServerExcept` that catches it writes its field and ends as if the method had returned. On the
client the field objects are read in their order, so that the outputs are stored before a
`ClientException` throws (`src/include/mp/proxy-types.h`).

`call_rethrows` takes that the types of the method round-trip and that an exception field tells
whether it is set. There is no `Proxy.Context` parameter, no encoder throws, and the call is
neither canceled nor disconnected. `Exceptions` has throwing encoders and a `Proxy.Context`, and
says nothing of the arguments.
-/

namespace Multiprocess.Stub

variable {T W X : Type} {V : T → Type}

/-- A method that may throw. In no other order of its fields do the stubs compile
(`order_of_compiles`). -/
structure Throwing (T : Type) where
  params : List SchemaField
  results : List SchemaField
  parameters : List (Param T)
  exceptions : List Field
  result : Option (Field × T)
  fields : (emit 0 (.ofMethod params results)).map Piece.field =
    parameters.map Param.field ++ exceptions ++ (result.map Prod.fst).toList
  fits : ∀ p ∈ parameters, p.Fits
  exception : ∀ e ∈ exceptions, e.kind = .exception
  retval : ∀ r ∈ result, r.1.kind = .retval

/-- The server's side of a call: the results struct, by the fields of arguments and return value and
by those of exceptions; the arguments of each call of the method; and the exception that is on its
way out. -/
structure Served (W X A : Type) where
  results : Message W
  errors : Results W
  calls : List A
  thrown : Option X

/-- How the client call ends. -/
inductive Ending (R X : Type) where
  | returned (ret : R)
  /-- the `ClientException` of a field throws -/
  | declared (field : String) (x : X)
  /-- the call failed with a `kj::Exception` -/
  | kjException

/-! ## The server -/

/-- A callable writes to the results, if it comes to that. -/
def Served.write {A : Type} (run : Served W X A) (f : Message W → Message W) : Served W X A :=
  match run.thrown with
  | some _ => run
  | none => { run with results := f run.results }

/-- `ServerField::invoke` of nested fields around a callable that may throw. `E` is what the
callable leaves in the variables of the fields outside these. -/
def passFields {A : Type} (codec : FieldCodec V W) (params : Message W) :
    (ps : List (Param T)) → {E : Type} →
    (List.TProd (Param.Arg V) ps → Served W X A →
      (Served W X A × E) × List.TProd (Param.Final V) ps) →
    Served W X A → Served W X A × E
  | [], _, fn, run => (fn ⟨⟩ run).1
  | p :: ps, _, fn, run =>
    let arg := p.receive codec params
    let (run, outer, final) := passFields codec params ps (fun args run =>
      let ((run, outer), finals) := fn (arg, args) run
      ((run, outer, finals.1), finals.2)) run
    (run.write (p.respond codec arg final), outer)

/-- `ServerExcept::invoke`, after its parent has ended. -/
def Served.catch_ {A : Type} (types : Exceptions X W) (field : Field) (run : Served W X A) :
    Served W X A :=
  match run.thrown with
  | some x =>
    if types.catches field.exception x then
      { run with
        thrown := none
        errors := run.errors.build field.name (types.build field.exception x)
          (field.accessor.optional && types.setsHas field.exception) }
    else run
  | none => run

/-- Nested `ServerExcept` around a callable, the first field outermost. -/
def passExceptions {A : Type} (types : Exceptions X W) (fields : List Field)
    (run : Served W X A) : Served W X A :=
  fields.foldr (Served.catch_ types) run

namespace Throwing

variable (method : Throwing T)

abbrev Args (V : T → Type) : Type := List.TProd (Param.Arg V) method.parameters

abbrev Finals (V : T → Type) : Type := List.TProd (Param.Final V) method.parameters

abbrev Targets : Type := List.TProd Param.Target method.parameters

/-- `Result`. -/
abbrev Ret (V : T → Type) : Type := ∀ r ∈ method.result, V r.2

/-- The method on the server: it returns or throws, and leaves its arguments with some values. -/
abbrev Impl (V : T → Type) (X : Type) : Type :=
  method.Args V → Except X (method.Ret V) × method.Finals V

variable (codec : FieldCodec V W) (types : Exceptions X W)

/-- The client's request. -/
def request (mem : Memory V) (targets : method.Targets) : Message W :=
  clientRequest codec mem method.parameters targets method.result

/-- `ServerRet::invoke` of a `ServerCall` of a method that comes to `result`. -/
def serverRet (result : Except X (method.Ret V)) (run : Served W X (method.Args V)) :
    Served W X (method.Args V) :=
  match result with
  | .error x => { run with thrown := some x }
  | .ok ret =>
    match h : method.result with
    | some (field, type) =>
      { run with results := run.results.set field (codec.build field.accessor type
          (ret (field, type) h)) }
    | none => run

/-- The callables inside the fields. -/
def serverCall (impl : method.Impl V X) (args : method.Args V)
    (run : Served W X (method.Args V)) : (Served W X (method.Args V) × Unit) × method.Finals V :=
  let (result, finals) := impl args
  ((passExceptions types method.exceptions
    (method.serverRet codec result { run with calls := run.calls ++ [args] }), ()), finals)

/-- `serverInvoke`. -/
def serve (impl : method.Impl V X) (params : Message W) : Served W X (method.Args V) :=
  (passFields codec params method.parameters (method.serverCall codec types impl)
    ⟨.blank codec.unset, .blank, [], none⟩).1

/-! ## The client -/

/-- How a call ends that is neither canceled nor disconnected. -/
structure Outcome (V : T → Type) (X : Type) where
  calls : List (method.Args V)
  ending : Ending (method.Ret V) X
  mem : Memory V

/-- `ClientException::ReadResults` of one field after the other. -/
def readExceptions (errors : Results W) (fields : List Field) : Option (String × X) :=
  (fields.find? errors.present).map fun field =>
    (field.name, types.throwField field.exception
      ((errors.value field.name).getD (types.unset field.name)))

/-- `clientInvoke`. The results of a call that failed are not read. -/
def call [DecidableEq T] (impl : method.Impl V X) (mem : Memory V) (targets : method.Targets) :
    method.Outcome V X :=
  let run := method.serve codec types impl (method.request codec mem targets)
  match run.thrown with
  | some _ => ⟨run.calls, .kjException, mem⟩
  | none =>
    { calls := run.calls
      mem := readParams codec run.results method.parameters targets mem
      ending := match readExceptions types run.errors method.exceptions with
        | some (field, x) => .declared field x
        | none => .returned fun (field, type) _ =>
          if field.accessor.out then
            codec.update field.accessor type (run.results.value field.name) (codec.declared type)
          else codec.declared type }

end Throwing

/-! ## Rethrown exceptions -/

/-- The declared exception that catches an object: of several, the innermost one. -/
def handler (types : Exceptions X W) (x : X) : List Field → Option Field
  | [] => none
  | field :: fields =>
    (handler types x fields).or (if types.catches field.exception x then some field else none)

/-- The client's `has()` of an exception field tells whether the server has written it. -/
structure Field.Told (types : Exceptions X W) (field : Field) : Prop where
  absent : field.alwaysPresent = false
  present : field.neverPresent types = false

namespace Throwing

variable {method : Throwing T} {codec : FieldCodec V W} {types : Exceptions X W}

/-- How the client call should end. -/
def ending (method : Throwing T) (types : Exceptions X W) :
    Except X (method.Ret V) → Ending (method.Ret V) X
  | .ok ret => .returned ret
  | .error x =>
    match handler types x method.exceptions with
    | some field => .declared field.name
        (types.throwField field.exception (types.build field.exception x))
    | none => .kjException

/-- The method is called once, with what the client passed. The client call ends as the method did,
with a declared exception rethrown. Unless the exception is not a declared one, the output variables
get what the method left in them, also when it threw; every other variable stays as it was. -/
structure Rethrown [DecidableEq T] (method : Throwing T) (codec : FieldCodec V W)
    (types : Exceptions X W) (impl : method.Impl V X) (mem : Memory V) (targets : method.Targets)
    (outcome : method.Outcome V X) : Prop where
  once : outcome.calls = [sent codec mem method.parameters targets]
  ending : outcome.ending = method.ending types (impl (sent codec mem method.parameters targets)).1
  written : outcome.ending ≠ .kjException → ∀ location value,
    outputs method.parameters targets (impl (sent codec mem method.parameters targets)).2 location =
      some value → outcome.mem location = value
  failed : outcome.ending = .kjException → outcome.mem = mem
  unchanged : ∀ location,
    outputs method.parameters targets (impl (sent codec mem method.parameters targets)).2 location =
      none → outcome.mem location = mem location

end Throwing

/-! ## The order of the fields -/

section Order

variable {sig : Signature T} {is_destroy : Bool} {pieces : List Piece}

/-- What is inside a `ServerRet`, with fields of one argument each: the method. -/
theorem nil_of_returns (single : ∀ p ∈ pieces, p.field.kind = .param → p.field.args = 1)
    (returns : (serverStub is_destroy pieces).returns sig = true)
    (compiles : (serverStub is_destroy pieces).slices sig [] ≠ none) : pieces = [] := by
  cases pieces with
  | nil => rfl
  | cons p pieces =>
    cases hk : p.field.kind with
    | param =>
      have hargs := single p List.mem_cons_self hk
      simp only [serverStub, hk, ServerStub.slices, hargs] at compiles
      exact absurd rfl compiles
    | exception | retval =>
      simp only [serverStub, hk, ServerStub.returns] at returns
      cases returns

/-- Where no arguments are left: the exceptions, and then the return value if there is one. -/
theorem order_of_no_args (single : ∀ p ∈ pieces, p.field.kind = .param → p.field.args = 1)
    (compiles : (serverStub is_destroy pieces).slices sig [] ≠ none) :
    ∃ (es : List Piece) (ret : Option Piece), pieces = es ++ ret.toList ∧
      (∀ e ∈ es, e.field.kind = .exception) ∧ ∀ r ∈ ret, r.field.kind = .retval := by
  induction pieces with
  | nil =>
    exact ⟨[], none, rfl, fun _ h => absurd h List.not_mem_nil,
      fun _ h => absurd h (Option.not_mem_none _)⟩
  | cons p pieces ih =>
    have hrest := fun q hq => single q (List.mem_cons_of_mem p hq)
    cases hk : p.field.kind with
    | param =>
      have hargs := single p List.mem_cons_self hk
      simp only [serverStub, hk, ServerStub.slices, hargs] at compiles
      exact absurd rfl compiles
    | exception =>
      simp only [serverStub, hk, ServerStub.slices, ne_eq, Option.map_eq_none_iff] at compiles
      obtain ⟨es, ret, rfl, hes, hret⟩ := ih hrest compiles
      refine ⟨p :: es, ret, rfl, fun e he => ?_, hret⟩
      rcases List.mem_cons.mp he with rfl | he
      · exact hk
      · exact hes e he
    | retval =>
      simp only [serverStub, hk, ServerStub.slices] at compiles
      split at compiles
      · next hreturns =>
        have hinner : (serverStub is_destroy pieces).slices sig [] ≠ none :=
          fun hn => compiles (by rw [hn]; rfl)
        obtain rfl := nil_of_returns hrest hreturns hinner
        refine ⟨[], some p, rfl, fun _ h => absurd h List.not_mem_nil, fun r hr => ?_⟩
        obtain rfl := Option.some.inj hr
        exact hk
      · exact absurd rfl compiles

/-- A stub that compiles has the parameters first, then the exceptions, and the return value
last. -/
theorem order_of_compiles (single : ∀ p ∈ pieces, p.field.kind = .param → p.field.args = 1)
    {types : List (T × Nat)}
    (compiles : (serverStub is_destroy pieces).slices sig types ≠ none) :
    ∃ (ps es : List Piece) (ret : Option Piece), pieces = ps ++ es ++ ret.toList ∧
      (∀ p ∈ ps, p.field.kind = .param) ∧ (∀ e ∈ es, e.field.kind = .exception) ∧
      ∀ r ∈ ret, r.field.kind = .retval := by
  induction pieces generalizing types with
  | nil =>
    exact ⟨[], [], none, rfl, fun _ h => absurd h List.not_mem_nil,
      fun _ h => absurd h List.not_mem_nil, fun _ h => absurd h (Option.not_mem_none _)⟩
  | cons p pieces ih =>
    cases hk : p.field.kind with
    | param =>
      have hargs := single p List.mem_cons_self hk
      simp only [serverStub, hk, ServerStub.slices, hargs] at compiles
      rw [split_eq] at compiles
      split at compiles
      · exact absurd rfl compiles
      · split at compiles
        · next first second _ =>
          have hinner : (serverStub is_destroy pieces).slices sig second ≠ none :=
            fun hn => compiles (by rw [hn]; rfl)
          obtain ⟨ps, es, ret, rfl, hps, hes, hret⟩ :=
            ih (fun q hq => single q (List.mem_cons_of_mem p hq)) hinner
          refine ⟨p :: ps, es, ret, rfl, fun q hq => ?_, hes, hret⟩
          rcases List.mem_cons.mp hq with rfl | hq
          · exact hk
          · exact hps q hq
        · exact absurd rfl compiles
    | exception | retval =>
      cases types with
      | nil =>
        obtain ⟨es, ret, h, hes, hret⟩ := order_of_no_args single compiles
        exact ⟨[], es, ret, h, fun _ h => absurd h List.not_mem_nil, hes, hret⟩
      | cons _ _ =>
        simp only [serverStub, hk, ServerStub.slices] at compiles
        exact absurd rfl compiles

end Order

/-! ## The server's callables -/

section Server

variable {A : Type} {codec : FieldCodec V W} {types : Exceptions X W} {run : Served W X A} {x : X}

@[simp] theorem Served.write_thrown (run : Served W X A) (f : Message W → Message W) :
    (run.write f).thrown = run.thrown := by
  unfold write
  split <;> rfl

@[simp] theorem Served.write_calls (run : Served W X A) (f : Message W → Message W) :
    (run.write f).calls = run.calls := by
  unfold write
  split <;> rfl

@[simp] theorem Served.write_errors (run : Served W X A) (f : Message W → Message W) :
    (run.write f).errors = run.errors := by
  unfold write
  split <;> rfl

theorem Served.write_results (h : run.thrown = none) (f : Message W → Message W) :
    (run.write f).results = f run.results := by
  unfold write
  rw [h]

theorem Served.write_write (run : Served W X A) (f g : Message W → Message W) :
    (run.write f).write g = run.write (g ∘ f) := by
  cases h : run.thrown with
  | some x =>
    unfold write
    simp only [h]
  | none =>
    unfold write
    simp only [h]
    rfl

/-- The nest of callables reads every argument and invokes its callable once. It writes every field
if that ends without an exception, and none otherwise. -/
theorem passFields_eq (params : Message W) (ps : List (Param T)) {E : Type}
    (fn : List.TProd (Param.Arg V) ps → Served W X A →
      (Served W X A × E) × List.TProd (Param.Final V) ps) (run : Served W X A) :
    passFields codec params ps fn run =
      let args := List.TProd.mk ps fun p => p.receive codec params
      let ((run, outer), finals) := fn args run
      (run.write (respondParams codec ps args finals), outer) := by
  induction ps generalizing E with
  | nil =>
    have hid : ∀ run : Served W X A, run.write id = run := by
      intro run
      unfold Served.write
      split <;> rfl
    exact Prod.ext (hid _).symm rfl
  | cons p ps ih =>
    unfold passFields
    simp only [ih, Served.write_write]
    rfl

theorem passExceptions_returned (h : run.thrown = none) (fields : List Field) :
    passExceptions types fields run = run := by
  induction fields with
  | nil => rfl
  | cons field fields ih =>
    have hstep : passExceptions types (field :: fields) run = run.catch_ types field := by
      unfold passExceptions at ih ⊢
      rw [List.foldr_cons, ih]
    rw [hstep]
    unfold Served.catch_
    rw [h]

/-- The results when the field has caught the object. -/
def Served.caught (types : Exceptions X W) (field : Field) (x : X) (run : Served W X A) :
    Served W X A :=
  { run with
    thrown := none
    errors := run.errors.build field.name (types.build field.exception x)
      (field.accessor.optional && types.setsHas field.exception) }

/-- The innermost `ServerExcept` of those that catch the object is the one that does. -/
theorem passExceptions_threw (h : run.thrown = some x) (fields : List Field) :
    passExceptions types fields run =
      match handler types x fields with
      | some field => run.caught types field x
      | none => run := by
  induction fields with
  | nil => rfl
  | cons field fields ih =>
    have hstep : passExceptions types (field :: fields) run =
        (passExceptions types fields run).catch_ types field := rfl
    rw [hstep, ih, handler]
    cases handler types x fields with
    | some inner => rfl
    | none =>
      simp only [Option.none_or, Served.catch_, h]
      split <;> rfl

theorem handler_mem {fields : List Field} {field : Field}
    (h : handler types x fields = some field) : field ∈ fields := by
  induction fields with
  | nil => cases h
  | cons outer fields ih =>
    unfold handler at h
    rcases Option.or_eq_some_iff.mp h with hinner | ⟨-, houter⟩
    · exact List.mem_cons_of_mem _ (ih hinner)
    · split at houter
      · obtain rfl := Option.some.inj houter
        exact List.mem_cons_self
      · cases houter

end Server

/-! ## The client's field objects -/

section Client

variable {types : Exceptions X W} {fields : List Field} {x : X}

/-- No field is present in a struct nobody wrote, but for those that always are. -/
theorem present_blank (field : Field) :
    (Results.blank : Results W).present field = field.alwaysPresent := by
  unfold Results.present Field.alwaysPresent
  cases field.accessor.optional <;> cases field.accessor.boxed <;> rfl

/-- Writing one exception field makes no other present. -/
theorem present_build_other {field other : Field} (hne : other.name ≠ field.name) (value : W)
    (setsHas : Bool) :
    (Results.blank.build field.name value setsHas).present other = other.alwaysPresent := by
  have hsame : (Results.blank.build field.name value setsHas).SameAt .blank other.name :=
    .build hne value setsHas
  rw [← present_blank (W := W)]
  unfold Results.present
  rw [hsame.value, hsame.has]

/-- The field itself is present, unless its companion stays unset. -/
theorem present_build_self (types : Exceptions X W) (field : Field) (value : W) :
    (Results.blank.build field.name value
      (field.accessor.optional && types.setsHas field.exception)).present field =
        !field.neverPresent types := by
  unfold Results.present Field.neverPresent
  cases field.accessor.optional <;> cases types.setsHas field.exception <;>
    simp [Results.build, Results.blank]

/-- After a method that returned, no exception field is seen as present. -/
theorem readExceptions_blank (told : ∀ field ∈ fields, field.Told types) :
    Throwing.readExceptions types .blank fields = none := by
  have hnone : fields.find? (Results.blank : Results W).present = none := by
    rw [List.find?_eq_none]
    intro field hf hpresent
    rw [present_blank, (told field hf).absent] at hpresent
    cases hpresent
  unfold Throwing.readExceptions
  rw [hnone]
  rfl

/-- After one that threw, the field that caught it is, and no other. -/
theorem readExceptions_caught (told : ∀ field ∈ fields, field.Told types)
    (nodup : (fields.map Field.name).Nodup) {field : Field} (hf : field ∈ fields) (value : W) :
    Throwing.readExceptions types (Results.blank.build field.name value
      (field.accessor.optional && types.setsHas field.exception)) fields =
        some (field.name, types.throwField field.exception value) := by
  have hself : (Results.blank.build field.name value
      (field.accessor.optional && types.setsHas field.exception)).present field = true := by
    rw [present_build_self, (told field hf).present]
    rfl
  have hfind : fields.find? (Results.blank.build field.name value
      (field.accessor.optional && types.setsHas field.exception)).present = some field := by
    cases hfind : fields.find? (Results.blank.build field.name value
        (field.accessor.optional && types.setsHas field.exception)).present with
    | none => exact absurd hself (List.find?_eq_none.mp hfind field hf)
    | some other =>
      have hmem := List.mem_of_find?_eq_some hfind
      have hpresent := List.find?_some hfind
      by_cases hname : other.name = field.name
      · exact congrArg some (List.inj_on_of_nodup_map nodup hmem hf hname)
      · rw [present_build_other hname, (told other hmem).absent] at hpresent
        cases hpresent
  have hvalue : (Results.blank.build field.name value
      (field.accessor.optional && types.setsHas field.exception)).value field.name = some value :=
    Function.update_self _ _ _
  unfold Throwing.readExceptions
  simp only [hfind, Option.map_some, hvalue, Option.getD_some]

end Client

/-! ## The whole call -/

namespace Throwing

variable {codec : FieldCodec V W} {types : Exceptions X W} {method : Throwing T}

/-- The names of a method's fields, in their order. -/
theorem names_nodup (method : Throwing T) :
    ((method.parameters.map Param.field ++ method.exceptions ++
      (method.result.map Prod.fst).toList).map Field.name).Nodup := by
  have h := fields_nodup method.params method.results
  rwa [method.fields] at h

/-- The parameters of a method have different names, -/
theorem params_nodup (method : Throwing T) : (method.parameters.map (·.field.name)).Nodup := by
  have h := method.names_nodup
  rw [List.map_append, List.map_append, List.map_map] at h
  exact (List.nodup_append.mp (List.nodup_append.mp h).1).1

/-- its exceptions have, -/
theorem exceptions_nodup (method : Throwing T) : (method.exceptions.map Field.name).Nodup := by
  have h := method.names_nodup
  rw [List.map_append, List.map_append] at h
  exact (List.nodup_append.mp (List.nodup_append.mp h).1).2.1

/-- and its return value has another one than its parameters. -/
theorem result_name {r : Field × T} (h : r ∈ method.result) :
    r.1.name ∉ method.parameters.map (·.field.name) := by
  have hnot := result_name_notMem method.names_nodup h
  rw [List.map_append, List.map_map, List.mem_append, not_or] at hnot
  exact hnot.1

theorem result_out {r : Field × T} (h : r ∈ method.result) : r.1.accessor.out = true := by
  refine @out_of_retval method.params method.results r.1 ?_ (method.retval r h)
  rw [method.fields, h]
  exact List.mem_append_right _ List.mem_cons_self

/-- The server reads what the client passed. -/
theorem receive_request (hcodec : ∀ p ∈ method.parameters, codec.RoundTrips p.field.accessor p.type)
    (mem : Memory V) (targets : method.Targets) :
    List.TProd.mk method.parameters (fun p => p.receive codec (method.request codec mem targets)) =
      sent codec mem method.parameters targets :=
  receive_clientRequest method.fits hcodec method.params_nodup (fun _ h => result_name h) mem targets

variable (codec) in
/-- What the callables inside the fields make of a method that returns. -/
theorem serverRet_ok (ret : method.Ret V) (run : Served W X (method.Args V)) :
    ∃ results : Message W, method.serverRet codec (.ok ret) run = { run with results := results } ∧
      ∀ r, (h : r ∈ method.result) →
        results.value r.1.name = codec.build r.1.accessor r.2 (ret r h) := by
  unfold serverRet
  simp only
  split
  · next field type hr =>
    refine ⟨_, rfl, fun r h => ?_⟩
    obtain rfl : r = (field, type) := Option.some.inj (h.symm.trans hr)
    exact Function.update_self _ _ _
  · next hr => exact ⟨_, rfl, fun r h => by cases h.symm.trans hr⟩

/-- What the server makes of the client's request. -/
theorem serve_request (types : Exceptions X W) (impl : method.Impl V X) (mem : Memory V)
    (targets : method.Targets)
    (hcodec : ∀ p ∈ method.parameters, codec.RoundTrips p.field.accessor p.type) :
    method.serve codec types impl (method.request codec mem targets) =
      let args := sent codec mem method.parameters targets
      (passExceptions types method.exceptions (method.serverRet codec (impl args).1
        ⟨.blank codec.unset, .blank, [args], none⟩)).write
          (respondParams codec method.parameters args (impl args).2) := by
  unfold serve
  rw [passFields_eq, receive_request hcodec]
  rfl

variable [DecidableEq T] {impl : method.Impl V X} {mem : Memory V} {targets : method.Targets}
  {run : Served W X (method.Args V)}

/-- A call whose results the client reads: the outputs are those of the method. -/
theorem call_mem (hcodec : ∀ p ∈ method.parameters, codec.RoundTrips p.field.accessor p.type)
    (hserve : method.serve codec types impl (method.request codec mem targets) =
      run.write (respondParams codec method.parameters (sent codec mem method.parameters targets)
        (impl (sent codec mem method.parameters targets)).2))
    (hthrown : run.thrown = none) (location : T × Nat) :
    (method.call codec types impl mem targets).mem location =
      (outputs method.parameters targets (impl (sent codec mem method.parameters targets)).2
        location).getD (mem location) := by
  unfold call
  simp only [hserve, Served.write_thrown, hthrown, Served.write_results]
  apply readParams_eq hcodec
  exact respondParams_answered method.parameters method.params_nodup targets _ _

/-- A call that is reported to the client as it ended, with the outputs. -/
theorem Rethrown.of_mem {outcome : method.Outcome V X}
    (once : outcome.calls = [sent codec mem method.parameters targets])
    (ending : outcome.ending =
      method.ending types (impl (sent codec mem method.parameters targets)).1)
    (reported : outcome.ending ≠ .kjException)
    (hmem : ∀ location, outcome.mem location = (outputs method.parameters targets
      (impl (sent codec mem method.parameters targets)).2 location).getD (mem location)) :
    Rethrown method codec types impl mem targets outcome where
  once := once
  ending := ending
  written _ location value h := by rw [hmem, h, Option.getD_some]
  failed h := absurd h reported
  unchanged location h := by rw [hmem, h, Option.getD_none]

theorem call_returned (params : ∀ p ∈ method.parameters, codec.RoundTrips p.field.accessor p.type)
    (result : ∀ r ∈ method.result, codec.RoundTrips r.1.accessor r.2)
    (told : ∀ field ∈ method.exceptions, field.Told types) {ret : method.Ret V}
    (hret : (impl (sent codec mem method.parameters targets)).1 = .ok ret) :
    Rethrown method codec types impl mem targets (method.call codec types impl mem targets) := by
  obtain ⟨results, hcall, hvalue⟩ := serverRet_ok codec ret
    (⟨.blank codec.unset, .blank, [sent codec mem method.parameters targets], none⟩ :
      Served W X (method.Args V))
  have hserve := serve_request types impl mem targets params
  simp only [hret, hcall] at hserve
  rw [passExceptions_returned rfl] at hserve
  have hending : (method.call codec types impl mem targets).ending = .returned ret := by
    unfold call
    simp only [hserve, Served.write_thrown, Served.write_errors, readExceptions_blank told,
      Served.write_results]
    congr 1
    funext r hr
    have hslot : (respondParams codec method.parameters (sent codec mem method.parameters targets)
        (impl (sent codec mem method.parameters targets)).2 results).value r.1.name =
          codec.build r.1.accessor r.2 (ret r hr) :=
      (respondParams_other method.parameters _ _ results (result_name hr)).1.trans (hvalue r hr)
    simp only [hslot, result_out hr, if_true]
    exact (result r hr).update _ _
  refine .of_mem ?_ ?_ ?_ (call_mem params hserve rfl)
  · unfold call
    simp only [hserve, Served.write_thrown, Served.write_calls]
  · rw [hending, hret]
    rfl
  · rw [hending]
    nofun

theorem call_declared (params : ∀ p ∈ method.parameters, codec.RoundTrips p.field.accessor p.type)
    (told : ∀ field ∈ method.exceptions, field.Told types) {x : X} {field : Field}
    (hthrew : (impl (sent codec mem method.parameters targets)).1 = .error x)
    (hcaught : handler types x method.exceptions = some field) :
    Rethrown method codec types impl mem targets (method.call codec types impl mem targets) := by
  have hserve := serve_request types impl mem targets params
  simp only [hthrew, serverRet] at hserve
  rw [passExceptions_threw rfl, hcaught] at hserve
  have hread : readExceptions types (Served.caught types field x
      ⟨.blank codec.unset, .blank, [sent codec mem method.parameters targets], some x⟩).errors
      method.exceptions = some (field.name, types.throwField field.exception
        (types.build field.exception x)) :=
    readExceptions_caught told method.exceptions_nodup (handler_mem hcaught) _
  have hending : (method.call codec types impl mem targets).ending = .declared field.name
      (types.throwField field.exception (types.build field.exception x)) := by
    have hthrown : (Served.caught types field x (A := method.Args V)
      ⟨.blank codec.unset, .blank, [sent codec mem method.parameters targets], some x⟩).thrown =
        none := rfl
    unfold call
    simp only [hserve, Served.write_thrown, hthrown, Served.write_errors, hread]
  refine .of_mem ?_ ?_ ?_ (call_mem params hserve rfl)
  · unfold call
    simp only [hserve, Served.write_thrown, Served.write_calls, Served.caught]
  · rw [hending, hthrew]
    simp only [Throwing.ending, hcaught]
  · rw [hending]
    nofun

theorem call_undeclared (params : ∀ p ∈ method.parameters, codec.RoundTrips p.field.accessor p.type)
    {x : X} (hthrew : (impl (sent codec mem method.parameters targets)).1 = .error x)
    (hcaught : handler types x method.exceptions = none) :
    Rethrown method codec types impl mem targets (method.call codec types impl mem targets) := by
  have hserve := serve_request types impl mem targets params
  simp only [hthrew, serverRet] at hserve
  rw [passExceptions_threw rfl, hcaught] at hserve
  have hcall : method.call codec types impl mem targets =
      ⟨[sent codec mem method.parameters targets], .kjException, mem⟩ := by
    unfold call
    simp only [hserve, Served.write_thrown, Served.write_calls]
  rw [hcall]
  exact {
    once := rfl
    ending := by
      rw [hthrew]
      simp only [Throwing.ending, hcaught]
    written := fun h => absurd rfl h
    failed := fun _ => rfl
    unchanged := fun _ _ => rfl }

/-- A call of any method, whatever the method does: it runs once, a declared exception comes through
like a return, with the outputs the method left, and any other exception leaves the client's
variables alone. The types are to round-trip, and the exception fields to tell whether they are
set. -/
theorem call_rethrows (method : Throwing T) (codec : FieldCodec V W) (types : Exceptions X W)
    (params : ∀ p ∈ method.parameters, codec.RoundTrips p.field.accessor p.type)
    (result : ∀ r ∈ method.result, codec.RoundTrips r.1.accessor r.2)
    (told : ∀ field ∈ method.exceptions, field.Told types)
    (impl : method.Impl V X) (mem : Memory V) (targets : method.Targets) :
    Rethrown method codec types impl mem targets (method.call codec types impl mem targets) := by
  cases hr : (impl (sent codec mem method.parameters targets)).1 with
  | ok ret => exact call_returned params result told hr
  | error x =>
    cases hh : handler types x method.exceptions with
    | none => exact call_undeclared params hr hh
    | some field => exact call_declared params told hr hh

end Throwing

/-! ## The same chain, field by field

`serve` and `readResults` are about any fields in any order; `passExceptions` and `readExceptions`
are what they come to where a method's exceptions lie together. -/

section Agree

variable {A : Type} {types : Exceptions X W} {outcome : Outcome X} {pieces : List Piece}
  {piece : Piece}

/-- Both models of the server have come to the same exception and the same exception fields. -/
structure Agrees (run : Stub.Outcome X × Results W) (served : Served W X A) : Prop where
  thrown : run.1.thrown = served.thrown
  value : run.2.value = served.errors.value
  has : run.2.has = served.errors.has

/-- A `ServerExcept` takes both to the same. -/
theorem Agrees.catch_ {run : Stub.Outcome X × Results W} {served : Served W X A}
    (h : Agrees run served) (field : Field) :
    Agrees (serverExcept types field run) (served.catch_ types field) := by
  obtain ⟨outcome, r⟩ := run
  obtain ⟨hthrown, hvalue, hhas⟩ := h
  cases outcome with
  | returned =>
    have hnone : served.thrown = none := hthrown.symm
    simp only [serverExcept, Served.catch_, hnone]
    exact ⟨hthrown, hvalue, hhas⟩
  | threw x =>
    have hsome : served.thrown = some x := hthrown.symm
    simp only [serverExcept, Served.catch_, hsome]
    cases types.catches field.exception x with
    | false => exact ⟨hthrown, hvalue, hhas⟩
    | true =>
      simp only at hvalue hhas
      simp only [if_true, Results.build]
      exact ⟨rfl, by rw [hvalue], by rw [hhas]⟩

/-- The callable of another field, whose encoder does not throw, changes neither. -/
theorem Agrees.result {run : Stub.Outcome X × Results W} {served : Served W X A}
    (h : Agrees run served) (hk : piece.field.kind ≠ .exception)
    (hc : piece.isContext types = false) :
    Agrees (piece.invoke types (quietCall outcome) run) served := by
  obtain ⟨ended, r⟩ := run
  rw [Piece.invoke_result hk hc]
  cases ended with
  | threw x => exact h
  | returned =>
    unfold buildResult
    simp only [quietCall]
    split
    · exact ⟨h.thrown, h.value, h.has⟩
    · exact h

/-- So the whole chains agree, with the exception fields picked out of the method's. -/
theorem agrees_serve (context : ∀ p ∈ pieces, p.isContext types = false) {start : Served W X A}
    (h : Agrees (outcome, .blank) start) :
    Agrees (serve types (quietCall outcome) pieces)
      (passExceptions types ((pieces.map Piece.field).filter (·.kind = .exception)) start) := by
  induction pieces with
  | nil => exact h
  | cons piece pieces ih =>
    rw [List.forall_mem_cons] at context
    have hrest := ih context.2
    by_cases hk : piece.field.kind = .exception
    · rw [List.map_cons, List.filter_cons_of_pos (by simpa using hk)]
      have hstep : serve types (quietCall outcome) (piece :: pieces) =
          serverExcept types piece.field (serve types (quietCall outcome) pieces) :=
        Piece.invoke_exception hk _
      rw [hstep]
      exact hrest.catch_ piece.field
    · rw [List.map_cons, List.filter_cons_of_neg (by simpa using hk)]
      exact hrest.result hk context.1

/-- And the client's field objects read the same, where no reader throws. -/
theorem readResults_eq_readExceptions {r r' : Results W} (value : r.value = r'.value)
    (has : r.has = r'.has) (pieces : List Piece) :
    readResults types (quietCall outcome) r pieces =
      match Throwing.readExceptions types r'
        ((pieces.map Piece.field).filter (·.kind = .exception)) with
      | some (field, x) => .declared field x
      | none => .returned := by
  have hpresent : ∀ field : Field, r.present field = r'.present field := by
    intro field
    unfold Results.present
    rw [value, has]
  induction pieces with
  | nil => rfl
  | cons piece pieces ih =>
    by_cases hk : piece.field.kind = .exception
    · rw [List.map_cons, List.filter_cons_of_pos (by simpa using hk)]
      simp only [readResults, hk, hpresent, value]
      unfold Throwing.readExceptions at ih ⊢
      cases hp : r'.present piece.field with
      | true => simp only [if_true, List.find?_cons, hp, Option.map_some]
      | false =>
        simp only [Bool.false_eq_true, if_false, List.find?_cons, hp]
        exact ih
    · rw [List.map_cons, List.filter_cons_of_neg (by simpa using hk), ← ih]
      cases hkind : piece.field.kind with
      | exception => exact absurd hkind hk
      | retval | param => simp only [readResults, hkind, quietCall, ite_self]

end Agree

/-- The reply of a call, without the value that is returned. -/
def Ending.reply {R : Type} : Ending R X → Reply X
  | .returned _ => .returned
  | .declared field x => .declared field x
  | .kjException => .kjException

namespace Throwing

variable {codec : FieldCodec V W} {types : Exceptions X W} {method : Throwing T}

/-- How the method of the implementation ends. -/
def outcomeOf {R : Type} : Except X R → Stub.Outcome X
  | .ok _ => .returned
  | .error x => .threw x

/-- The exception fields of a method are those in the middle. -/
theorem filter_exceptions (method : Throwing T) :
    ((emit 0 (.ofMethod method.params method.results)).map Piece.field).filter
      (·.kind = .exception) = method.exceptions := by
  have hparameters : (method.parameters.map Param.field).filter (·.kind = .exception) = [] := by
    rw [List.filter_eq_nil_iff]
    intro field hf
    obtain ⟨p, hp, rfl⟩ := List.mem_map.mp hf
    simp only [(method.fits p hp).kind, reduceCtorEq, decide_false, Bool.false_eq_true,
      not_false_eq_true]
  have hresult : ((method.result.map Prod.fst).toList).filter (·.kind = .exception) = [] := by
    rw [List.filter_eq_nil_iff]
    intro field hf
    obtain ⟨r, hr, rfl⟩ := Option.map_eq_some_iff.mp (Option.mem_toList.mp hf)
    simp only [method.retval r hr, reduceCtorEq, decide_false, Bool.false_eq_true,
      not_false_eq_true]
  have hexceptions : method.exceptions.filter (·.kind = .exception) = method.exceptions := by
    rw [List.filter_eq_self]
    exact fun field hf => by simpa using method.exception field hf
  rw [method.fields, List.filter_append, List.filter_append, hparameters, hresult, hexceptions,
    List.nil_append, List.append_nil]

/-- Without a context parameter no piece is a `Proxy.Context`. -/
theorem not_isContext (context : ∀ p ∈ method.parameters, types.context p.field.name = false) :
    ∀ piece ∈ emit 0 (.ofMethod method.params method.results), piece.isContext types = false := by
  intro piece hpiece
  have hfield : piece.field ∈ method.parameters.map Param.field ++ method.exceptions ++
      (method.result.map Prod.fst).toList := by
    rw [← method.fields]
    exact List.mem_map_of_mem hpiece
  unfold Piece.isContext
  rcases List.mem_append.mp hfield with hfront | hresult
  · rcases List.mem_append.mp hfront with hparam | hexception
    · obtain ⟨p, hp, he⟩ := List.mem_map.mp hparam
      rw [← he, context p hp, Bool.and_false]
    · rw [method.exception _ hexception]
      rfl
  · obtain ⟨r, hr, he⟩ := Option.map_eq_some_iff.mp (Option.mem_toList.mp hresult)
    rw [← he, method.retval r hr]
    rfl

/-- A call ends as `reply` says of its fields and of the outcome of the method. -/
theorem reply_call [DecidableEq T] (method : Throwing T)
    (context : ∀ p ∈ method.parameters, types.context p.field.name = false)
    (params : ∀ p ∈ method.parameters, codec.RoundTrips p.field.accessor p.type)
    (impl : method.Impl V X) (mem : Memory V) (targets : method.Targets) :
    Stub.reply types (emit 0 (.ofMethod method.params method.results))
        (quietCall (outcomeOf (impl (sent codec mem method.parameters targets)).1)) =
      (method.call codec types impl mem targets).ending.reply := by
  have hcontext := not_isContext context
  have hstart : Agrees (outcomeOf (impl (sent codec mem method.parameters targets)).1, .blank)
      (method.serverRet codec (impl (sent codec mem method.parameters targets)).1
        ⟨.blank codec.unset, .blank, [sent codec mem method.parameters targets], none⟩) := by
    cases (impl (sent codec mem method.parameters targets)).1 with
    | error x => exact ⟨rfl, rfl, rfl⟩
    | ok ret =>
      obtain ⟨results, hret, -⟩ := serverRet_ok codec ret
        (⟨.blank codec.unset, .blank, [sent codec mem method.parameters targets], none⟩ :
          Served W X (method.Args V))
      rw [hret]
      exact ⟨rfl, rfl, rfl⟩
  have hagree := agrees_serve hcontext hstart
  rw [method.filter_exceptions] at hagree
  have hcalled : Called types (emit 0 (.ofMethod method.params method.results)) :=
    fun piece hpiece => hcontext piece (List.mem_of_mem_tail hpiece)
  unfold Stub.reply call
  simp only [if_pos hcalled, serve_request types impl mem targets params, Served.write_thrown,
    Served.write_errors]
  cases hserve : Stub.serve types
      (quietCall (outcomeOf (impl (sent codec mem method.parameters targets)).1))
      (emit 0 (.ofMethod method.params method.results)) with
  | mk ended r =>
    rw [hserve] at hagree
    cases ended with
    | threw x =>
      have hthrown := hagree.thrown.symm
      simp only [Stub.Outcome.thrown] at hthrown
      simp only [hthrown]
      rfl
    | returned =>
      have hthrown := hagree.thrown.symm
      simp only [Stub.Outcome.thrown] at hthrown
      simp only [hthrown]
      rw [readResults_eq_readExceptions hagree.value hagree.has, method.filter_exceptions]
      cases readExceptions types _ method.exceptions with
      | none => rfl
      | some thrown => rfl

end Throwing

/-- One exception type, whose objects and fields are numbers. -/
def numberErrors : Exceptions Int (Option Int) where
  catches exception x := exception = "DivideError" && x < 100
  build _ x := some x
  setsHas _ := false
  throwField _ value := value.getD 0
  unset _ := none
  interrupt _ := false
  context _ := false

/-- `int divide(int value, int& by)`, which may throw a `DivideError`. -/
def tryDivide : Throwing Unit where
  params := [plainField "value", plainField "by"]
  results := [plainField "by",
    { plainField "error" with exception := some "DivideError", boxed := true }, plainField "result"]
  parameters := [.value (plain "value" (plainField "value") none 1) (),
    .reference (plain "by" (plainField "by") (plainField "by") 1) ()]
  exceptions := [{ plain "error" none (some { plainField "error" with
    exception := some "DivideError", boxed := true }) 0 with exception := "DivideError" }]
  result := divide.result
  fields := by decide
  fits p hp := by
    simp only [List.mem_cons, List.not_mem_nil, or_false] at hp
    rcases hp with rfl | rfl
    · exact ⟨by decide, by decide, by decide⟩
    · exact ⟨by decide, by decide, by decide⟩
  exception := by decide
  retval := divide.retval

/-- Leaves one more in `by`, and throws it if it was zero. -/
def tryDivideImpl : tryDivide.Impl (fun _ => Int) Int := fun (value, by_, _) =>
  (if by_ = 0 then .error by_ else .ok fun _ _ => value / by_, value, by_ + 1, ⟨⟩)

/-- 17 by 0: the exception comes through, and so does the output. -/
theorem tryDivide_rethrows :
    let mem : Memory fun _ : Unit => Int := fun (_, n) => if n = 0 then 17 else 0
    let outcome := tryDivide.call intCodec numberErrors tryDivideImpl mem (0, 1, ⟨⟩)
    outcome.ending = .declared "error" 0 ∧ outcome.mem ((), 1) = 1 := by
  intro mem outcome
  have h : Throwing.Rethrown tryDivide intCodec numberErrors tryDivideImpl mem (0, 1, ⟨⟩) outcome :=
    Throwing.call_rethrows tryDivide intCodec numberErrors
      (fun _ _ => ⟨fun _ => rfl, fun _ _ => rfl⟩) (fun _ _ => ⟨fun _ => rfl, fun _ _ => rfl⟩)
      (fun field hf => by
        obtain rfl := List.mem_singleton.mp hf
        exact ⟨by decide, by decide⟩) tryDivideImpl mem (0, 1, ⟨⟩)
  have hending : outcome.ending = .declared "error" 0 := h.ending.trans rfl
  exact ⟨hending, h.written (by rw [hending]; nofun) ((), 1) 1 rfl⟩

end Multiprocess.Stub
