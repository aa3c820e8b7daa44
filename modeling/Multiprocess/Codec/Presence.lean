import Multiprocess.Codec.RoundTrip

/-!
# Null and not null

The types with a null value are `std::optional`, `std::shared_ptr` and `std::shared_ptr` to
`const`. A field tells null from not null by its has-companion (`FIELD_OPTIONAL`), or else by
whether its pointer is null (`FIELD_BOXED`), and a field with both is asked for its companion
alone. The reader is the same for all three types. Of the builders only that of `std::optional`
calls `setHas()`.

Presence is kept for every previous content of the destination, also for one whose pointers share
their pointees, of which `round_trip` says nothing. So it takes that the readers do not fail
(`completes_of_supported`). The value is another matter: two pointers of the destination to one
object lose it (`presence_aliased`), whatever the type around them, so `presence_iff` says of the
value only what `round_trip` does.
-/

namespace Multiprocess.Codec

variable {S : Store} {α β μ : Type}

/-! ## Pointers on any field -/

/-- `std::shared_ptr<T>`, on a field with a has-companion if `companion`. -/
def sharedPtrField (companion : Bool) (c : Overload S Msg α) :
    Overload S Slot (SharedPtr S α) where
  layout := c.layout.sharedPtr
  boxed := c.boxed
  buildField := buildShared c
  readField slot dest := dest.update .null fun value =>
    if !hasField companion c.boxed slot then pure .null
    else match value with
      | .null => c.readField slot.1 (makeShared false) value
      | _ => c.readField slot.1 (.readDestUpdate .pointee) value

/-- `std::shared_ptr<const T>`. -/
def sharedPtrConstField (companion : Bool) (c : Overload S Msg α) :
    Overload S Slot (SharedPtr S α) where
  layout := c.layout.sharedPtrConst
  boxed := c.boxed
  buildField := buildShared c
  readField slot dest := dest.update .null fun value =>
    if !hasField companion c.boxed slot then pure .null
    else c.readField slot.1 (makeShared true) value

def SharedPtr.isNull : SharedPtr S α → Bool
  | .null => true
  | _ => false

/-- A `std::shared_ptr` that is null holds nothing. -/
theorem SharedPtr.eq_null {p : SharedPtr S α} (h : p.isNull = true) : p = .null := by
  cases p with
  | null => rfl
  | own => cases h
  | shared => cases h

/-- The types with a null value. -/
inductive Nullable where
  | optional
  | sharedPtr
  | sharedPtrConst
  deriving DecidableEq

namespace Nullable

/-- The objects of the type over an element type. -/
def Obj (S : Store) (α : Type) : Nullable → Type
  | optional => Option α
  | sharedPtr | sharedPtrConst => SharedPtr S α

def isNull : (n : Nullable) → n.Obj S α → Bool
  | optional => Option.isNone
  | sharedPtr | sharedPtrConst => SharedPtr.isNull

/-- The builder and the reader on a field. -/
def overload (companion : Bool) (c : Overload S Msg α) :
    (n : Nullable) → Overload S Slot (n.Obj S α)
  | optional => Codec.optional companion c
  | sharedPtr => sharedPtrField companion c
  | sharedPtrConst => sharedPtrConstField companion c

end Nullable

/-! ## Readers that do not fail -/

/-- The update succeeds whatever the object is. -/
def Total (f : α → M S α) : Prop := ∀ h a, ∃ a' h', f a h = .ok (a', h')

/-- An object of the type can be updated to anything that was built. -/
def Completes (c : Overload S μ α) : Prop :=
  ∀ h v m, c.buildField h v = .ok m → Total (c.readUpdate m)

/-- A constant is total. -/
theorem Total.const (a : α) : Total (S := S) fun _ : α => pure a := fun h _ => ⟨a, h, rfl⟩

/-- Two total updates one after the other are. -/
theorem Total.prod {f : α → M S α} {g : β → M S β} (hf : Total f) (hg : Total g) :
    Total (fun p : α × β => (do
      let first ← f p.1
      let second ← g p.2
      pure (first, second) : M S (α × β))) := by
  intro h p
  obtain ⟨x, h₁, hx⟩ := hf h p.1
  obtain ⟨y, h₂, hy⟩ := hg h₁ p.2
  refine ⟨(x, y), h₂, ?_⟩
  show (f p.1 >>= fun first => g p.2 >>= fun second => pure (first, second)) h = _
  simp only [bind, StateT.bind, Except.bind, hx, hy]
  rfl

/-- Where nothing is updated in place, reading what was built never meets two pointers to one
object. -/
theorem completes_of_inPlace {c : Overload S μ α} (hc : RoundTrips c)
    (hnil : ∀ h a, c.layout.inPlace h a = []) : Completes c := by
  intro h v m hm h' a
  obtain ⟨a', h'', hrun, -⟩ := (hc h v m hm).assigns h' a (by rw [hnil]; exact List.nodup_nil)
  exact ⟨a', h'', hrun⟩

/-- A tuple completes if its members do. -/
theorem completes_tuple {key : Overload S Slot α} {value : Overload S Slot β}
    (hk : Completes key) (hv : Completes value) : Completes (tuple key value) := by
  intro h p m hm
  obtain ⟨first, second, rfl, hfirst, hsecond⟩ := buildPair_spec hm
  exact (hk h _ _ hfirst).prod (hv h _ _ hsecond)

/-- The members of a struct from one on, whatever is before them. -/
def MembersComplete (members : Members S β) : Prop :=
  ∀ h v slots, members.buildOne h v = .ok slots → ∀ before : List Slot,
    Total (members.readOne before.length (.struct (before ++ slots)))

/-- So does a struct. -/
theorem completes_struct {members : Members S β} (hmembers : MembersComplete members) :
    Completes (struct members) := by
  intro h v m hm
  obtain ⟨slots, rfl, hslots⟩ := buildStruct_spec hm
  exact hmembers h v slots hslots []

theorem members_complete_cons {c : Overload S Slot α} {rest : Members S β} (hc : Completes c)
    (hrest : MembersComplete rest) : MembersComplete (Members.cons c rest) := by
  intro h v slots hbuild before
  obtain ⟨slot, others, rfl, hslot, hothers⟩ := buildOne_cons_spec hbuild
  rw [readOne_cons]
  exact (hc h v.1 slot hslot).prod (hrest h v.2 others hothers (before ++ [slot]))

/-- A field completes if its type does. -/
theorem completes_field {c : Overload S Msg α} (hc : Completes c) : Completes (field c) := by
  intro h v slot hslot
  obtain ⟨m, rfl, hm⟩ := buildSlot_spec hslot
  exact hc h v m hm

/-- An object that is there is updated by what `readUpdate` does. -/
theorem Reads.update_at {c : Overload S μ α} {m : μ} {v : α} (h : Reads c m v) {τ : Type}
    (ref : Ref S τ α) (t : τ) (hlawful : (Dest.readDestUpdate ref).Lawful t) :
    c.readField m (.readDestUpdate ref) t = ref.modify (c.readUpdate m) t := by
  obtain ⟨f, -, hread⟩ := h.update
  have hf : c.readUpdate m = f := funext fun a => hread .self a (lawful_self a)
  rw [hread ref t hlawful, hf]

/-- Reading a value leaves the `std::optional` with one. -/
theorem optional_present {c : Overload S Msg α} {m : Msg} {v : α} (h : Reads c m v)
    (total : Total (c.readUpdate m)) (heap : S.Heap) (o : Option α) :
    ∃ a heap', readOptional c m o heap = .ok (some a, heap') := by
  cases o with
  | none =>
    have hnew : c.readField m emplaceOptional none = pure (some v) :=
      h.emplace _ _ _ (lawful_emplaceOptional none)
    exact ⟨v, heap, congrFun hnew heap⟩
  | some a =>
    obtain ⟨a', heap', hrun⟩ := total heap a
    refine ⟨a', heap', ?_⟩
    show c.readField m (.readDestUpdate .value) (some a) heap = _
    rw [h.update_at .value (some a) (lawful_value a)]
    show (some <$> c.readUpdate m a) heap = _
    simp only [Functor.map, StateT.map, bind, Except.bind, hrun]
    rfl

/-- Reading a value leaves the `std::shared_ptr` with a pointee. -/
theorem sharedPtr_present {c : Overload S Msg α} {m : Msg} {v : α} (h : Reads c m v)
    (total : Total (c.readUpdate m)) (heap : S.Heap) (o : SharedPtr S α) :
    ∃ o' heap', readShared c m o heap = .ok (o', heap') ∧ o' ≠ .null := by
  cases o with
  | null =>
    have hnew : c.readField m (makeShared false) .null = pure (.own v) :=
      h.emplace _ _ _ (lawful_makeShared false .null)
    exact ⟨.own v, heap, congrFun hnew heap, nofun⟩
  | own a =>
    obtain ⟨a', heap', hrun⟩ := total heap a
    refine ⟨.own a', heap', ?_, nofun⟩
    show c.readField m (.readDestUpdate .pointee) (.own a) heap = _
    rw [h.update_at .pointee (.own a) (lawful_pointee nofun)]
    show (c.readUpdate m a >>= fun a => pure (SharedPtr.own a)) heap = _
    simp only [bind, StateT.bind, Except.bind, hrun]
    rfl
  | shared p =>
    obtain ⟨a', heap', hrun⟩ := total heap (p.load heap)
    refine ⟨.shared p, p.store a' heap', ?_, nofun⟩
    show c.readField m (.readDestUpdate .pointee) (.shared p) heap = _
    rw [h.update_at .pointee (.shared p) (lawful_pointee nofun), modify_shared, hrun]
    rfl

/-- The reader of a `std::optional`, by whether the field has a value. -/
theorem readUpdate_optional (companion : Bool) (c : Overload S Msg α) (slot : Slot) :
    (optional companion c).readUpdate slot = fun value =>
      if hasField companion c.boxed slot then readOptional c slot.1 value else pure none := by
  funext value
  show (if !hasField companion c.boxed slot then pure none else readOptional c slot.1 value) = _
  cases hasField companion c.boxed slot <;> rfl

/-- That of a `std::shared_ptr`. -/
theorem readUpdate_sharedPtr (companion : Bool) (c : Overload S Msg α) (slot : Slot) :
    (sharedPtrField companion c).readUpdate slot = fun value =>
      if hasField companion c.boxed slot then readShared c slot.1 value else pure .null := by
  funext value
  show (if !hasField companion c.boxed slot then pure .null else readShared c slot.1 value) = _
  cases hasField companion c.boxed slot <;> rfl

/-- A `std::optional` completes where its field tells whether it is set. -/
theorem completes_optional {c : Overload S Msg α} (hc : Carries c) (total : Completes c)
    {companion : Bool} (hhas : companion = true ∨ c.boxed = true) :
    Completes (optional companion c) := by
  intro h o slot hslot heap value
  rw [readUpdate_optional]
  cases o with
  | none =>
    cases hslot
    simp only [hasField_null companion hhas]
    exact ⟨none, heap, rfl⟩
  | some v =>
    obtain ⟨m, rfl, hm⟩ := buildSlot_spec hslot
    obtain ⟨a, heap', hrun⟩ := optional_present (hc.reads h v m hm) (total h v m hm) heap value
    simp only [hasField_built hc companion hhas hm]
    exact ⟨some a, heap', hrun⟩

/-- A `std::shared_ptr` does through a boxed field. -/
theorem completes_sharedPtr {c : Overload S Msg α} (hc : Carries c) (total : Completes c)
    (hboxed : c.boxed = true) : Completes (sharedPtr c) := by
  intro h o slot hslot heap value
  show ∃ a' h', (sharedPtrField false c).readUpdate slot value heap = .ok (a', h')
  rw [readUpdate_sharedPtr]
  obtain ⟨rfl, -⟩ | ⟨v, m, hm, rfl, -⟩ := buildShared_spec hslot
  · simp only [hasField_null false (.inr hboxed)]
    exact ⟨.null, heap, rfl⟩
  · obtain ⟨o', heap', hrun, -⟩ := sharedPtr_present (hc.reads h v m hm) (total h v m hm) heap value
    simp only [hasField_built hc false (.inr hboxed) hm]
    exact ⟨o', heap', hrun⟩

/-- Every supported type round-trips, and reading into an object of it does not fail, by induction
over how it is composed. -/
theorem completes_of_supported {c : Overload S Msg α} (h : Supported c) :
    Carries c ∧ Completes c := by
  have plain : ∀ {α : Type} {c : Overload S Msg α}, Carries c →
      (∀ h a, c.layout.inPlace h a = []) → Carries c ∧ Completes c :=
    fun hc hnil => ⟨hc, completes_of_inPlace hc.reads hnil⟩
  refine @Supported.rec S (fun c _ => Carries c ∧ Completes c)
    (fun c _ => RoundTrips c ∧ Completes c) (fun members _ => MembersRead members ∧
      MembersComplete members) ?number ?enum ?duration ?string ?data ?vector ?vectorBool ?set ?map
    ?pair ?tuple ?struct ?field ?optional ?sharedPtr ?sharedPtrConst ?nil ?cons α c h
  case number => exact fun h => plain (number_carries h) fun _ _ => rfl
  case enum => exact fun h => plain (enum_carries h) fun _ _ => rfl
  case duration => exact fun hrep h => plain (duration_carries hrep h) fun _ _ => rfl
  case string => exact plain string_carries fun _ _ => rfl
  case data => exact fun b => plain (data_carries b) fun _ _ => rfl
  case vector => exact fun _ ih => plain (vector_carries ih.1) fun _ _ => rfl
  case vectorBool => exact plain vectorBool_carries fun _ _ => rfl
  case set => exact fun _ o ih => plain (set_carries ih.1 o) fun _ _ => rfl
  case map => exact fun _ _ o ihk ihv => plain (map_carries ihk.1 ihv.1 o) fun _ _ => rfl
  case pair => exact fun _ _ ihk ihv => plain (pair_carries ihk.1 ihv.1) fun _ _ => rfl
  case tuple =>
    exact fun _ _ ihk ihv => ⟨tuple_carries ihk.1 ihv.1, completes_tuple ihk.2 ihv.2⟩
  case struct => exact fun _ ih => ⟨struct_carries ih.1, completes_struct ih.2⟩
  case field => exact fun _ ih => ⟨field_roundTrips ih.1, completes_field ih.2⟩
  case optional =>
    exact fun _ _ hhas ih => ⟨optional_roundTrips ih.1 hhas, completes_optional ih.1 ih.2 hhas⟩
  case sharedPtr =>
    exact fun _ hboxed ih =>
      ⟨sharedPtr_roundTrips ih.1 hboxed, completes_sharedPtr ih.1 ih.2 hboxed⟩
  case sharedPtrConst =>
    exact fun _ hboxed ih => ⟨sharedPtrConst_roundTrips ih.1 hboxed,
      completes_of_inPlace (sharedPtrConst_roundTrips ih.1 hboxed) fun _ _ => rfl⟩
  case nil => exact ⟨members_nil, fun _ _ _ _ _ => .const ()⟩
  case cons =>
    exact fun _ _ ih ihrest => ⟨members_cons ih.1 ihrest.1, members_complete_cons ih.2 ihrest.2⟩

/-! ## Presence -/

/-- What an update that did not fail leaves stands for what was built. -/
theorem RoundTrips.value {c : Overload S μ α} (hc : RoundTrips c) {h h' h'' : S.Heap} {v a a' : α}
    {m : μ} (built : c.buildField h v = .ok m) (run : c.readUpdate m a h' = .ok (a', h''))
    (hnodup : (c.layout.inPlace h' a).Nodup) : c.layout.resolve h'' a' = c.layout.resolve h v := by
  obtain ⟨b, g, hrun, -, hvalue, -⟩ := (hc h v m built).assigns h' a hnodup
  have hsame := hrun.symm.trans run
  cases hsame
  exact hvalue h'' fun _ _ => rfl

/-- The read does not fail, and what it leaves in the destination is null when `v` is. -/
def KeepsPresence (c : Overload S Slot β) (isNull : β → Bool) (v : β) (slot : Slot) (h' : S.Heap)
    (a : β) : Prop :=
  ∃ a' h'', c.readUpdate slot a h' = .ok (a', h'') ∧ isNull a' = isNull v

/-- The read does not fail, and what it leaves in the destination is null when `v` is and stands for
`v`, as it was on the heap `h`. -/
def Preserves (c : Overload S Slot β) (isNull : β → Bool) (h : S.Heap) (v : β) (slot : Slot)
    (h' : S.Heap) (a : β) : Prop :=
  ∃ a' h'', c.readUpdate slot a h' = .ok (a', h'') ∧ isNull a' = isNull v ∧
    c.layout.resolve h'' a' = c.layout.resolve h v

/-- Where every read that keeps the presence leaves the value as well, the two are the same. -/
theorem preserves_iff_keepsPresence {c : Overload S Slot β} {isNull : β → Bool} {h h' : S.Heap}
    {v a : β} {slot : Slot}
    (value : ∀ a' h'', c.readUpdate slot a h' = .ok (a', h'') → isNull a' = isNull v →
      c.layout.resolve h'' a' = c.layout.resolve h v) :
    Preserves c isNull h v slot h' a ↔ KeepsPresence c isNull v slot h' a := by
  constructor
  · rintro ⟨a', h'', hrun, hnull, -⟩
    exact ⟨a', h'', hrun, hnull⟩
  · rintro ⟨a', h'', hrun, hnull⟩
    exact ⟨a', h'', hrun, hnull, value a' h'' hrun hnull⟩

/-- A `std::optional` always keeps its presence. -/
theorem keepsPresence_optional {c : Overload S Msg α} (hc : Supported c) {companion : Bool}
    (hhas : companion = true ∨ c.boxed = true) {h : S.Heap} {v : Option α} {slot : Slot}
    (built : (optional companion c).buildField h v = .ok slot) (h' : S.Heap) (a : Option α) :
    KeepsPresence (optional companion c) Option.isNone v slot h' a := by
  obtain ⟨hcarries, htotal⟩ := completes_of_supported hc
  have hread := readUpdate_optional companion c slot
  cases v with
  | none =>
    cases built
    refine ⟨none, h', ?_, rfl⟩
    rw [hread, hasField_null companion hhas]
    rfl
  | some v =>
    obtain ⟨m, rfl, hm⟩ := buildSlot_spec built
    obtain ⟨a', h'', hpresent⟩ :=
      optional_present (hcarries.reads h v m hm) (htotal h v m hm) h' a
    refine ⟨some a', h'', ?_, rfl⟩
    rw [hread, hasField_built hcarries companion hhas hm]
    exact hpresent

/-- What the two kinds of pointers have in common. -/
structure IsPointer (companion : Bool) (c : Overload S Msg α)
    (p : Overload S Slot (SharedPtr S α)) : Prop where
  build : p.buildField = buildShared c
  null : ∀ h, p.layout.resolve h .null = .null
  unset : ∀ slot, hasField companion c.boxed slot = false → p.readUpdate slot = fun _ => pure .null
  present : ∀ {m v}, Reads c m v → Total (c.readUpdate m) →
    hasField companion c.boxed (m, false) = true → ∀ heap o, ∃ o' heap',
      p.readUpdate (m, false) o heap = .ok (o', heap') ∧ o'.isNull = false
  value : companion = false → c.boxed = true → Carries c → RoundTrips p

/-- The reader of `std::shared_ptr` is that of a pointer, -/
theorem isPointer_sharedPtr (companion : Bool) (c : Overload S Msg α) :
    IsPointer companion c (sharedPtrField companion c) where
  build := rfl
  null _ := rfl
  unset slot hunset := by
    funext value
    rw [readUpdate_sharedPtr, hunset]
    rfl
  present hread total hset heap o := by
    obtain ⟨o', heap', hrun, hpresent⟩ := sharedPtr_present hread total heap o
    refine ⟨o', heap', ?_, by cases o' <;> first | rfl | exact absurd rfl hpresent⟩
    rw [readUpdate_sharedPtr, hset]
    exact hrun
  value hfalse hboxed hc := by
    subst hfalse
    exact sharedPtr_roundTrips hc hboxed

/-- as is that of a pointer to `const`. -/
theorem isPointer_sharedPtrConst (companion : Bool) (c : Overload S Msg α) :
    IsPointer companion c (sharedPtrConstField companion c) where
  build := rfl
  null _ := rfl
  unset slot hunset := by
    funext value
    show (if !hasField companion c.boxed slot then pure SharedPtr.null
      else c.readField slot.1 (makeShared true) value) = _
    rw [hunset]
    rfl
  present {m v} hread _ hset heap o := by
    refine ⟨.own v, heap, ?_, rfl⟩
    have hnew : c.readField m (makeShared true) o = pure (.own v) :=
      hread.emplace _ _ _ (lawful_makeShared true o)
    show (if !hasField companion c.boxed (m, false) then pure SharedPtr.null
      else c.readField m (makeShared true) o) heap = _
    rw [hset, hnew]
    rfl
  value hfalse hboxed hc := by
    subst hfalse
    exact sharedPtrConst_roundTrips hc hboxed

/-- What the builder leaves in the field: nothing of a null pointer, and the object without the
companion of any other. -/
theorem buildShared_isNull {c : Overload S Msg α} {h : S.Heap} {o : SharedPtr S α} {slot : Slot}
    (hslot : buildShared c h o = .ok slot) :
    (slot = (.null, false) ∧ o = .null) ∨
      ∃ v m, c.buildField h v = .ok m ∧ slot = (m, false) ∧ o.isNull = false := by
  obtain ⟨heq, hnull⟩ | ⟨v, m, hm, heq, hown⟩ := buildShared_spec hslot
  · refine .inl ⟨heq, ?_⟩
    cases o with
    | null => rfl
    | own x => cases hnull h
    | shared p => cases hnull h
  · refine .inr ⟨v, m, hm, heq, ?_⟩
    cases o with
    | null => cases hown
    | own x => rfl
    | shared p => rfl

/-- A pointer keeps its presence unless it is not null and the field is asked for a companion. -/
theorem keepsPresence_pointer_iff {companion : Bool} {c : Overload S Msg α}
    {p : Overload S Slot (SharedPtr S α)} (hp : IsPointer companion c p) (hc : Supported c)
    (hhas : companion = true ∨ c.boxed = true) {h : S.Heap} {v : SharedPtr S α} {slot : Slot}
    (built : p.buildField h v = .ok slot) (h' : S.Heap) (a : SharedPtr S α) :
    KeepsPresence p SharedPtr.isNull v slot h' a ↔ companion = false ∨ v.isNull = true := by
  obtain ⟨hcarries, htotal⟩ := completes_of_supported hc
  rw [hp.build] at built
  obtain ⟨rfl, rfl⟩ | ⟨x, m, hm, rfl, hnull⟩ := buildShared_isNull built
  · refine iff_of_true ⟨.null, h', ?_, rfl⟩ (.inr rfl)
    rw [hp.unset _ (hasField_null companion hhas)]
    rfl
  · rw [KeepsPresence, hnull]
    cases companion with
    | true =>
      -- the companion that the reader looks at was not set
      refine iff_of_false ?_ (by simp)
      rintro ⟨a', h'', hrun, hsame⟩
      rw [hp.unset (m, false) rfl] at hrun
      cases hrun
      cases hsame
    | false =>
      have hboxed : c.boxed = true := hhas.resolve_left nofun
      obtain ⟨o', heap', hrun, hpresent⟩ := hp.present (hcarries.reads h x m hm)
        (htotal h x m hm) (hasField_built hcarries false hhas hm) h' a
      exact iff_of_true ⟨o', heap', hrun, hpresent⟩ (.inl rfl)

/-- A pointer that kept its presence stands for what was built. -/
theorem IsPointer.value_of_run {companion : Bool} {c : Overload S Msg α}
    {p : Overload S Slot (SharedPtr S α)} (hp : IsPointer companion c p) (hc : Supported c)
    (hhas : companion = true ∨ c.boxed = true) {h h' h'' : S.Heap} {v a a' : SharedPtr S α}
    {slot : Slot} (built : p.buildField h v = .ok slot)
    (keeps : companion = false ∨ v.isNull = true)
    (hnodup : (p.layout.inPlace h' a).Nodup) (run : p.readUpdate slot a h' = .ok (a', h''))
    (same : a'.isNull = v.isNull) : p.layout.resolve h'' a' = p.layout.resolve h v := by
  rcases keeps with hfalse | hnull
  · have hboxed : c.boxed = true := hhas.resolve_left (by rw [hfalse]; nofun)
    exact (hp.value hfalse hboxed (completes_of_supported hc).1).value built run hnodup
  · rw [SharedPtr.eq_null hnull, SharedPtr.eq_null (same.trans hnull), hp.null, hp.null]

/-- A struct of two pointers to strings, in a `std::optional`. -/
def twoPointers : Overload oneString Msg (SharedPtr oneString (List UInt8) ×
    SharedPtr oneString (List UInt8) × Unit) :=
  struct (.cons (sharedPtr string) (.cons (sharedPtr string) .nil))

theorem twoPointers_supported : Supported twoPointers :=
  .struct (.cons (.sharedPtr .string rfl) (.cons (.sharedPtr .string rfl) .nil))

/-- A `std::optional` whose object has two pointers to one string is present afterwards, but not
with the value of the message: both pointers point to the second string. -/
theorem presence_aliased :
    let slot : Slot := (.struct [(.blob [65], false), (.blob [66], false)], true)
    let v := some (.own [65], .own [66], ())
    let a := some (.shared ⟨(), rfl⟩, .shared ⟨(), rfl⟩, ())
    (Nullable.optional.overload true twoPointers).buildField (fun _ => []) v = .ok slot ∧
      KeepsPresence (Nullable.optional.overload true twoPointers) Nullable.optional.isNull v slot
        (fun _ => []) a ∧
      ¬ Preserves (Nullable.optional.overload true twoPointers) Nullable.optional.isNull
        (fun _ => []) v slot (fun _ => []) a := by
  refine ⟨rfl, ?_, ?_⟩
  · exact keepsPresence_optional twoPointers_supported (.inl rfl) (h := fun _ => []) rfl _ _
  · rintro ⟨a', h'', hrun, -, hvalue⟩
    cases hrun
    have hfirst : SharedPtr.own (S := oneString) [(66 : UInt8)] = .own [65] :=
      congrArg Prod.fst (Option.some.inj hvalue)
    simp at hfirst

end Multiprocess.Codec
