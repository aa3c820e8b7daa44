import Multiprocess.Codec.Overloads

/-!
# Round trip

Reading what was built gives the object that was built, with all its pointers followed. Into a new
destination it is that object itself. An object that is updated stands for it afterwards, if no two
of the pointers that the update writes through share their pointee: `std::shared_ptr<T>` is read
into the object it points to, and a second pointer to that object would read over it.

The induction is over the types. For each overload a lemma shows `Reads` for its own messages from
`Reads` for those of its parts.
-/

namespace Multiprocess.Codec

open Integral

variable {S : Store} {α β κ μ τ : Type}

/-- `f` updates any object whose pointers share nothing to one that stands for `v`, and writes to
nothing but the pointees of that object. -/
def Assigns (L : Layout S α) (f : α → M S α) (v : α) : Prop :=
  ∀ h a, (L.inPlace h a).Nodup → ∃ a' h', f a h = .ok (a', h') ∧
    (∀ x, x ∉ L.inPlace h a → h' x = h x) ∧
    (∀ h'', (∀ x ∈ L.inPlace h a, h'' x = h' x) → L.resolve h'' a' = v) ∧
    (L.inPlace h a = [] → a' = v)

/-- Reading `m` gives `v`: a new destination becomes `v`, and an object is updated to it. -/
structure Reads (c : Overload S μ α) (m : μ) (v : α) : Prop where
  emplace : ∀ {τ : Type} (isConst : Bool) (fn : α → τ → M S (τ × Ref S τ α)) (t : τ),
    (Dest.readDestEmplace isConst fn).Lawful t →
      c.readField m (.readDestEmplace isConst fn) t = (Dest.readDestEmplace isConst fn).put v t
  update : ∃ f, Assigns c.layout f v ∧ ∀ {τ : Type} (ref : Ref S τ α) (t : τ),
    (Dest.readDestUpdate ref).Lawful t → c.readField m (.readDestUpdate ref) t = ref.modify f t

/-- What is built from an object reads as what the object stands for. -/
def RoundTrips (c : Overload S μ α) : Prop :=
  ∀ h v m, c.buildField h v = .ok m → Reads c m (c.layout.resolve h v)

/-- It does, and a pointer field that was built is not null. -/
structure Carries (c : Overload S Msg α) : Prop where
  reads : RoundTrips c
  built : ∀ h v m, c.boxed = true → c.buildField h v = .ok m → m.isNull = false

/-- The reader constructs its destination from `v`, wherever that is. -/
def Puts (c : Overload S μ α) (m : μ) (v : α) : Prop :=
  ∀ {τ : Type} (d : Dest S τ α) (t : τ), c.readField m d t = d.put v t

/-! ## The two kinds of readers -/

/-- The object has no pointer to the heap: it stands for itself whatever is there. What was read
is so. -/
def Settled (L : Layout S α) (a : α) : Prop := ∀ h, L.resolve h a = a

/-- A value that was resolved is as a reader leaves it. -/
theorem settled_resolve (L : Layout S α) (h : S.Heap) (a : α) : Settled L (L.resolve h a) :=
  fun h' => L.resolve_resolve h h' a

/-- An update that makes any object the same settled one. -/
theorem Assigns.of_settled {L : Layout S α} {v : α} (hv : Settled L v) :
    Assigns L (fun _ => pure v) v :=
  fun h' _ _ => ⟨_, h', rfl, fun _ _ => rfl, fun h'' _ => hv h'', fun _ => rfl⟩

/-- A constant read assigns its value. -/
theorem Assigns.const (L : Layout S α) (h : S.Heap) (a : α) :
    Assigns L (fun _ => pure (L.resolve h a)) (L.resolve h a) :=
  .of_settled (settled_resolve L h a)

/-- The update of a default object does nothing but to make it `v`. -/
theorem Assigns.dflt {L : Layout S α} {f : α → M S α} {v : α} (hf : Assigns L f v) :
    f L.dflt = pure v := by
  funext h
  obtain ⟨a', h', hrun, hframe, -, hnew⟩ := hf h L.dflt (by simp [L.inPlace_dflt])
  have hh : h' = h := funext fun x => hframe x (by simp [L.inPlace_dflt])
  rw [hrun, hnew (L.inPlace_dflt h), hh]
  rfl

/-- A reader that constructs its destination. -/
theorem Reads.of_put {c : Overload S μ α} {m : μ} {v : α} (hv : Settled c.layout v)
    (hput : ∀ {τ : Type} (d : Dest S τ α) (t : τ), d.Lawful t →
      c.readField m d t = d.put v t) : Reads c m v where
  emplace _ _ t hd := hput _ t hd
  update := by
    refine ⟨fun _ => pure v, .of_settled hv, fun ref t hd => ?_⟩
    rw [hput _ t hd]
    simp only [Dest.put, Dest.construct, map_bind, map_pure, bind_pure]

/-- A reader that updates it. -/
theorem Reads.of_update {c : Overload S μ α} {m : μ} {v : α} {f : α → M S α}
    (hf : Assigns c.layout f v)
    (hupdate : ∀ {τ : Type} (d : Dest S τ α), c.readField m d = d.update c.layout.dflt f) :
    Reads c m v where
  emplace isConst fn t hd := by
    rw [hupdate]
    exact Dest.update_emplace hf.dflt isConst fn hd
  update := ⟨f, hf, fun ref t _ => by rw [hupdate]; rfl⟩

/-- What is read stands for itself. -/
theorem Assigns.resolve_eq {L : Layout S α} {f : α → M S α} {v : α} (hf : Assigns L f v)
    (h : S.Heap) : L.resolve h v = v := by
  obtain ⟨a', h', -, -, hvalue, hnew⟩ := hf h L.dflt (by simp [L.inPlace_dflt])
  rw [← hnew (L.inPlace_dflt h)]
  exact (hvalue h (by simp [L.inPlace_dflt])).trans (hnew (L.inPlace_dflt h)).symm

/-- An object that is updated where it is. -/
theorem Reads.assigns {c : Overload S μ α} {m : μ} {v : α} (h : Reads c m v) :
    Assigns c.layout (c.readUpdate m) v := by
  obtain ⟨f, hf, hread⟩ := h.update
  have : c.readUpdate m = f := funext fun a => hread .self a (lawful_self a)
  rwa [this]

/-- A temporary is a lawful destination. -/
theorem lawful_temp (t : Option α) : (readDestTemp (S := S)).Lawful t := by
  intro _ a f a' hf
  simp only [readDestTemp, Dest.construct, Ref.value, pure_bind, hf, map_pure]

/-- Reading into a temporary gives the value. -/
theorem Reads.temp {c : Overload S μ α} {m : μ} {v : α} (h : Reads c m v) :
    c.readTemp m = pure v := by
  have := h.emplace false _ none (lawful_temp (α := α) none)
  simp only [Overload.readTemp, readDestTemp, this, Dest.put, Dest.construct, map_pure, pure_bind]

/-! ## Scalars, strings and byte containers -/

/-- A number is read from the wire as it was written. -/
theorem getNumber_val {wire : Integral} (x : Number wire) : (Msg.number x.val).getNumber wire = x :=
  cast_val x

/-- The field represents every value of the type. -/
def Represents (loc wire : Integral) : Prop := ∀ x, loc.Holds x → wire.Holds x

/-- Then the builder's assertions hold, and no sign is lost. -/
theorem Represents.within {loc wire : Integral} (h : Represents loc wire) :
    limitsWithin loc wire = true ∧ (loc.signed = true → wire.signed = true) := by
  have hlow := (h _ (lowest_holds loc)).1
  have hmax := (h _ (max_holds loc)).2
  revert hlow hmax
  cases loc <;> cases wire <;> decide

/-- A number that its wire type can hold comes back as it was. -/
theorem number_puts {loc wire : Integral} (h : Represents loc wire) {heap : S.Heap}
    {v : Number loc} {m : Msg} (hm : (number (S := S) loc wire).buildField heap v = .ok m) :
    Puts (number (S := S) loc wire) m v := by
  cases hm
  intro τ d t
  simp only [number, getNumber_val, readIntegral_buildIntegral h.within.1 h.within.2]
  rfl

/-- So the overload for numbers carries its values. -/
theorem number_carries {loc wire : Integral} (h : Represents loc wire) :
    Carries (number (S := S) loc wire) where
  reads _ _ _ hm := .of_put (fun _ => rfl) fun d t _ => number_puts h hm d t
  built _ _ _ hboxed := by cases hboxed

/-- An enumerator whose wire type is as wide comes back as it was. -/
theorem enum_puts {loc wire : Integral} (h : enumWithin loc wire = true) {heap : S.Heap}
    {v : Enum loc} {m : Msg} (hm : (enum (S := S) loc wire).buildField heap v = .ok m) :
    Puts (enum (S := S) loc wire) m v := by
  cases hm
  obtain ⟨hloc, hwire, hbits⟩ := enumWithin_spec h
  have hback : readEnum loc (buildEnum wire v) = v := by
    simp only [readEnum, buildEnum, cast, Integral.convert_convert hloc hwire hbits,
      Integral.convert_eq_self v.value.property]
    rfl
  intro τ d t
  simp only [enum, getNumber_val, hback]

/-- So does that for enums. -/
theorem enum_carries {loc wire : Integral} (h : enumWithin loc wire = true) :
    Carries (enum (S := S) loc wire) where
  reads _ _ _ hm := .of_put (fun _ => rfl) fun d t _ => enum_puts h hm d t
  built _ _ _ hboxed := by cases hboxed

/-- A duration whose count fits the wire type comes back as it was. -/
theorem duration_puts {rep wire : Integral} (hrep : rep ≠ .bool)
    (h : limitsWithin rep wire = true) {heap : S.Heap} {v : Duration rep} {m : Msg}
    (hm : (duration (S := S) rep wire).buildField heap v = .ok m) :
    Puts (duration (S := S) rep wire) m v := by
  cases hm
  have hwire : wire ≠ .bool := by
    revert hrep h
    cases rep <;> cases wire <;> decide
  have hback : readDuration rep (buildDuration wire v) = v := by
    simp only [readDuration, buildDuration, cast,
      Integral.convert_convert hrep hwire (Integral.bits_le_of_limitsWithin h),
      Integral.convert_eq_self v.count.property]
    rfl
  intro τ d t
  simp only [duration, getNumber_val, hback]

/-- And that for durations. -/
theorem duration_carries {rep wire : Integral} (hrep : rep ≠ .bool)
    (h : limitsWithin rep wire = true) : Carries (duration (S := S) rep wire) where
  reads _ _ _ hm := .of_put (fun _ => rfl) fun d t _ => duration_puts hrep h hm d t
  built _ _ _ hboxed := by cases hboxed

/-- A builder that fails when the list does not fit, and otherwise gives its message. -/
theorem of_init {limit count : Nat} {m m' : α}
    (h : (do initCount limit count; return m' : Except Error α) = .ok m) : m = m' := by
  cases hinit : initCount limit count with
  | error e => rw [hinit] at h; cases h
  | ok _ => rw [hinit] at h; exact (Except.ok.inj h).symm

/-- A string comes back byte for byte. -/
theorem string_puts {heap : S.Heap} {v : List UInt8} {m : Msg}
    (hm : (string (S := S)).buildField heap v = .ok m) : Puts (string (S := S)) m v := by
  obtain rfl := of_init hm
  exact fun d t => rfl

/-- Strings are carried. -/
theorem string_carries : Carries (string (S := S)) where
  reads _ _ _ hm := .of_put (fun _ => rfl) fun d t _ => string_puts hm d t
  built _ _ m _ hm := by
    obtain rfl := of_init hm
    rfl

/-- So does a container of bytes. -/
theorem data_puts {b : ByteContainer α} {heap : S.Heap} {v : α} {m : Msg}
    (hm : (data (S := S) b).buildField heap v = .ok m) : Puts (data (S := S) b) m v := by
  obtain rfl := of_init hm
  intro τ d t
  simp only [data, Msg.getBlob, b.ofBytes_bytes]

/-- As are containers of bytes. -/
theorem data_carries (b : ByteContainer α) : Carries (data (S := S) b) where
  reads _ _ _ hm := .of_put (fun _ => rfl) fun d t _ => data_puts hm d t
  built _ _ m _ hm := by
    obtain rfl := of_init hm
    rfl

/-! ## Lists -/

/-- The items of a list are built one by one, in the values' order. -/
theorem buildEach_spec {build : α → Except Error Msg} {values : List α} {items : List Msg}
    (h : buildEach build values = .ok items) :
    List.Forall₂ (fun v m => build v = .ok m) values items := by
  induction values generalizing items with
  | nil =>
    cases h
    exact .nil
  | cons v vs ih =>
    simp only [buildEach] at h
    cases hv : build v with
    | error e => rw [hv] at h; cases h
    | ok m =>
      cases hvs : buildEach build vs with
      | error e => rw [hv, hvs] at h; cases h
      | ok ms =>
        rw [hv, hvs] at h
        cases h
        exact .cons hv (ih hvs)

/-- A list that was built holds them all. -/
theorem buildList_spec {build : α → Except Error Msg} {values : List α} {m : Msg}
    (h : buildList build values = .ok m) :
    ∃ items, m = .list items ∧ List.Forall₂ (fun v m => build v = .ok m) values items := by
  simp only [buildList] at h
  cases hitems : buildEach build values with
  | error e =>
    rw [hitems] at h
    cases hinit : initCount maxCount values.length <;> rw [hinit] at h <;> cases h
  | ok items =>
    rw [hitems] at h
    exact ⟨items, of_init h, buildEach_spec hitems⟩

/-- The loop over the received items. Each item makes one more element, as long as the elements so
far and those to come keep `good`. -/
theorem foldlM_append {σ : Type} (step : σ → Msg → M S σ) (elems : σ → List β)
    (good : List β → Prop) {g : α → β} {R : α → Msg → Prop} {values : List α} {items : List Msg}
    (hitems : List.Forall₂ R values items)
    (hstep : ∀ acc v m rest, R v m → good (elems acc ++ g v :: rest) →
      ∃ acc', step acc m = pure acc' ∧ elems acc' = elems acc ++ [g v])
    (acc : σ) (hgood : good (elems acc ++ values.map g)) :
    ∃ acc', items.foldlM step acc = pure acc' ∧ elems acc' = elems acc ++ values.map g := by
  induction hitems generalizing acc with
  | nil => exact ⟨acc, rfl, by simp⟩
  | @cons v m vs ms hvm _ ih =>
    obtain ⟨acc₁, hrun, helems⟩ := hstep acc v m (vs.map g) hvm hgood
    obtain ⟨acc₂, hrest, helems₂⟩ := ih acc₁ (by simpa [helems] using hgood)
    refine ⟨acc₂, ?_, by simp [helems₂, helems]⟩
    rw [List.foldlM_cons, hrun, pure_bind, hrest]

/-- `emplace_back` is a lawful destination. -/
theorem lawful_emplaceBack (l : List α) : (emplaceBack (S := S)).Lawful l := by
  intro _ a f a' hf
  simp [emplaceBack, Dest.construct, back, hf]

/-- A vector carries what its elements do. -/
theorem vector_carries {c : Overload S Msg α} (hc : Carries c) :
    Carries (vector c) where
  reads h v m hm := by
    obtain ⟨items, rfl, hitems⟩ := buildList_spec hm
    obtain ⟨l, hrun, hl⟩ := foldlM_append (fun value item => c.readField item emplaceBack value)
      id (fun _ => True) (g := c.layout.resolve h) hitems
      (by
        intro acc a item _ hitem _
        refine ⟨acc ++ [c.layout.resolve h a], ?_, rfl⟩
        exact (hc.reads h a item hitem).emplace _ _ acc (lawful_emplaceBack acc)) [] trivial
    obtain rfl : l = v.map (c.layout.resolve h) := hl
    refine .of_update (.const (vector c).layout h v) fun d => ?_
    simp only [vector, Msg.getList, hrun]
    rfl
  built _ _ _ _ hm := by
    obtain ⟨items, rfl, -⟩ := buildList_spec hm
    rfl

/-- `bool` is its own wire type. -/
theorem bool_represents : Represents .bool .bool := fun _ h => h

/-- `std::vector<bool>` carries its elements by value. -/
theorem vectorBool_carries : Carries (vectorBool (S := S)) where
  reads h v m hm := by
    obtain ⟨items, rfl, hitems⟩ := buildList_spec hm
    obtain ⟨l, hrun, hl⟩ := foldlM_append (S := S) (fun value item => do
        let a ← (number .bool .bool).readTemp item
        pure (value ++ [a])) id (fun _ => True) (g := id) hitems
      (by
        intro acc a item _ hitem _
        refine ⟨acc ++ [a], ?_, rfl⟩
        have hread := ((number_carries (S := S) bool_represents).reads h a item hitem).temp
        simp only [hread, pure_bind]
        rfl) [] trivial
    obtain rfl : l = v := by simpa using hl
    refine .of_update (.const (vectorBool (S := S)).layout h l) fun d => ?_
    simp only [vectorBool, Msg.getList, hrun]
    rfl
  built _ _ _ _ hm := by
    obtain ⟨items, rfl, -⟩ := buildList_spec hm
    rfl

/-! ## Sets -/

/-- A strict order is asymmetric. -/
theorem StrictOrder.asymm (o : StrictOrder α) {a b : α} (h : o.less a b = true) :
    o.less b a = false := by
  by_contra hba
  have := o.trans a b a h (by simpa using hba)
  rw [o.irrefl] at this
  cases this

/-- What comes after all elements is inserted at the end. -/
theorem insert_eq_append (o : StrictOrder α) {a : α} {l : List α}
    (h : ∀ b ∈ l, o.less b a = true) : Tree.insert o.less a l = l ++ [a] := by
  induction l with
  | nil => rfl
  | cons b bs ih =>
    have hb := h b (.head _)
    simp only [Tree.insert, o.asymm hb, hb, if_true, Bool.false_eq_true, if_false,
      ih fun x hx => h x (.tail _ hx), List.cons_append]

/-- With the next elements in order, the first of them is after all that are there. -/
theorem less_of_pairwise {o : StrictOrder α} {l rest : List α} {a : α}
    (h : (l ++ a :: rest).Pairwise fun x y => o.less x y = true) : ∀ b ∈ l, o.less b a = true :=
  fun b hb => (List.pairwise_append.mp h).2.2 b hb a (.head _)

/-- Two trees with the same elements are one. -/
theorem Tree.ext {o : StrictOrder α} {s t : Tree o} (h : s.elems = t.elems) : s = t := by
  cases s
  cases t
  simpa using h

/-- A set carries what its elements do, in their order. -/
theorem set_carries {c : Overload S Msg α} (hc : Carries c)
    (o : KeyOrder c.layout) : Carries (set c o) where
  reads h v m hm := by
    obtain ⟨items, rfl, hitems⟩ := buildList_spec hm
    have hsorted := ((set c o).layout.resolve h v).sorted
    obtain ⟨t, hrun, ht⟩ := foldlM_append
      (fun value item => c.readField item (emplaceSet (o := o.toStrictOrder)) value) Tree.elems
      (fun l => l.Pairwise fun x y => o.less x y = true) (g := c.layout.resolve h) hitems
      (by
        intro acc a item rest hitem hgood
        refine ⟨acc.emplace (c.layout.resolve h a), ?_, ?_⟩
        · exact (hc.reads h a item hitem).emplace _ _ acc (Dest.lawful_const _ acc)
        · exact insert_eq_append _ (less_of_pairwise hgood)) ⟨[], .nil⟩ hsorted
    obtain rfl : t = (set c o).layout.resolve h v := Tree.ext ht
    refine .of_update (.const (set c o).layout h v) fun d => ?_
    simp only [set, Msg.getList, hrun]
    rfl
  built _ _ _ _ hm := by
    obtain ⟨items, rfl, -⟩ := buildList_spec hm
    rfl

/-! ## Pairs -/

/-- What an update of one member is to the whole pair. -/
def onFirst (f : κ → M S κ) (p : Pair κ α) : M S (Pair κ α) := do
  let first ← f p.first
  pure { p with first := first }

def onSecond (f : α → M S α) (p : Pair κ α) : M S (Pair κ α) := do
  let second ← f p.second
  pure { p with second := second }

/-- The inner destination behaves when an update of the second member reaches the pair. -/
theorem lawful_emplaceValue {d : Dest S τ (Pair κ α)} {t : τ} {k : κ}
    (hsecond : d.isConst = false → ∀ v f, d.Tracks t ⟨k, v⟩ (onSecond f)) :
    (emplaceValue d k).Lawful (t, none) := by
  intro hconst v f v' hf
  have htracks := hsecond hconst v f ⟨k, v'⟩ (by simp [onSecond, hf])
  simp only [emplaceValue, Dest.construct, bind_assoc, pure_bind] at htracks ⊢
  rw [← htracks]
  simp only [Ref.beside, Ref.second, bind_assoc, pure_bind]
  rfl

/-- Constructing the first member reads the second one and constructs the pair. -/
theorem construct_emplaceKey {value : Overload S Slot α} {m : Msg} {v : α}
    (hv : Reads value (m.getSlot 1) v) (constKey : Bool) {d : Dest S τ (Pair κ α)} {t : τ} {k : κ}
    (hsecond : d.isConst = false → ∀ v f, d.Tracks t ⟨k, v⟩ (onSecond f)) :
    (emplaceKey constKey value m d).construct k t = (do
      let (t, ret) ← d.construct ⟨k, v⟩ t
      pure (t, ret.first)) := by
  have hread : value.readField (m.getSlot 1) (emplaceValue d k) (t, none) =
      (emplaceValue d k).put v (t, none) :=
    hv.emplace _ _ _ (lawful_emplaceValue hsecond)
  have hinner : (emplaceValue d k).construct v (t, none) = (do
      let (t, ret) ← d.construct ⟨k, v⟩ t
      pure ((t, some ret.first), ret.second.beside)) := rfl
  rw [emplaceKey, Dest.construct]
  simp only [hread, Dest.put, hinner, map_bind, map_pure, bind_assoc, pure_bind]

/-- The two nested reads construct the pair of what they read. -/
theorem readPair_eq_put {key : Overload S Slot κ} {value : Overload S Slot α} {m : Msg} {k : κ}
    {v : α} (hk : Reads key (m.getSlot 0) k) (hv : Reads value (m.getSlot 1) v) {constKey : Bool}
    {d : Dest S τ (Pair κ α)} {t : τ}
    (hfirst : (constKey || d.isConst) = false → ∀ p f, d.Tracks t p (onFirst f))
    (hsecond : d.isConst = false → ∀ k', ((constKey || d.isConst) = true → k' = k) →
      ∀ v f, d.Tracks t ⟨k', v⟩ (onSecond f)) :
    readPair constKey key value m d t = d.put ⟨k, v⟩ t := by
  have hconstruct := fun k' hk' =>
    construct_emplaceKey (k := k') hv constKey fun hc => hsecond hc k' hk'
  have hlawful : (emplaceKey constKey value m d).Lawful t := by
    intro hconst k₁ f k₂ hf
    have hfree : ∀ k', (constKey || d.isConst) = true → k' = k :=
      fun _ h => absurd (hconst.symm.trans h) nofun
    have htracks := hfirst hconst ⟨k₁, v⟩ f ⟨k₂, v⟩ (by simp [onFirst, hf])
    rw [hconstruct k₁ (hfree k₁), hconstruct k₂ (hfree k₂), ← htracks]
    simp only [bind_assoc, pure_bind, Ref.first]
    rfl
  have hread : readPair constKey key value m d t = (emplaceKey constKey value m d).put k t :=
    hk.emplace _ _ _ hlawful
  rw [hread, Dest.put, hconstruct k fun _ => rfl]
  simp only [Dest.put, map_eq_pure_bind, bind_assoc, pure_bind]

/-- A pair is built as a struct of its two members. -/
theorem buildPair_spec {key : Overload S Slot κ} {value : Overload S Slot α} {h : S.Heap} {k : κ}
    {v : α} {m : Msg} (hm : buildPair key value h k v = .ok m) :
    ∃ first second, m = .struct [first, second] ∧ key.buildField h k = .ok first ∧
      value.buildField h v = .ok second := by
  simp only [buildPair] at hm
  cases hfirst : key.buildField h k with
  | error e => rw [hfirst] at hm; cases hm
  | ok first =>
    cases hsecond : value.buildField h v with
    | error e => rw [hfirst, hsecond] at hm; cases hm
    | ok second =>
      rw [hfirst, hsecond] at hm
      exact ⟨first, second, (Except.ok.inj hm).symm, rfl, rfl⟩

/-- It carries what they do. -/
theorem pair_carries {key : Overload S Slot κ} {value : Overload S Slot α}
    (hk : RoundTrips key) (hv : RoundTrips value) :
    Carries (pair key value) where
  reads h p m hm := by
    obtain ⟨first, second, rfl, hfirst, hsecond⟩ := buildPair_spec hm
    refine .of_put (settled_resolve (key.layout.pair value.layout) h p) fun d t hd => ?_
    refine readPair_eq_put (hk h _ _ hfirst) (hv h _ _ hsecond) ?_ ?_
    · exact fun hc p f => hd (by simpa using hc) p _
    · exact fun hc k' _ v f => hd hc _ _
  built _ _ _ _ hm := by
    obtain ⟨_, _, rfl, -⟩ := buildPair_spec hm
    rfl

/-! ## Objects updated in place -/

/-- Two members are updated one after the other. What the first update wrote stays as it is. -/
theorem Assigns.prod {K : Layout S α} {L : Layout S β} {f : α → M S α} {g : β → M S β} {a : α}
    {b : β} (hf : Assigns K f a) (hg : Assigns L g b) :
    Assigns (K.prod L) (fun p => do
      let first ← f p.1
      let second ← g p.2
      pure (first, second)) (a, b) := by
  rintro h ⟨x, y⟩ hnodup
  obtain ⟨hx, hy, hdisjoint⟩ := List.nodup_append.mp hnodup
  obtain ⟨x', h₁, hrun, hframe, hvalue, hnew⟩ := hf h x hx
  have hkept : ∀ i ∈ L.inPlace h y, h₁ i = h i := fun i hi =>
    hframe i fun hi' => hdisjoint i hi' i hi rfl
  have hsame : L.inPlace h₁ y = L.inPlace h y := L.inPlace_congr h h₁ y hkept
  obtain ⟨y', h₂, hrun₂, hframe₂, hvalue₂, hnew₂⟩ := hg h₁ y (hsame ▸ hy)
  rw [hsame] at hframe₂ hvalue₂ hnew₂
  refine ⟨(x', y'), h₂, ?_, ?_, ?_, ?_⟩
  · change (f x >>= fun first => g y >>= fun second => pure (first, second)) h = _
    simp only [bind, StateT.bind, Except.bind, hrun, hrun₂]
    rfl
  · intro i hi
    have hi' := not_or.mp (mt List.mem_append.mpr hi)
    rw [hframe₂ i hi'.2, hframe i hi'.1]
  · intro h'' heq
    refine Prod.ext (hvalue h'' fun i hi => ?_) (hvalue₂ h'' fun i hi => ?_)
    · have hiy : i ∉ L.inPlace h y := fun hi' => hdisjoint i hi i hi' rfl
      rw [heq i (List.mem_append_left _ hi), hframe₂ i hiy]
    · exact heq i (List.mem_append_right _ hi)
  · intro hnil
    obtain ⟨hnilx, hnily⟩ := List.append_eq_nil_iff.mp hnil
    rw [hnew hnilx, hnew₂ hnily]

/-- So does a tuple of two members. -/
theorem tuple_carries {key : Overload S Slot α} {value : Overload S Slot β}
    (hk : RoundTrips key) (hv : RoundTrips value) :
    Carries (tuple key value) where
  reads h p m hm := by
    obtain ⟨first, second, rfl, hfirst, hsecond⟩ := buildPair_spec hm
    exact .of_update ((hk h _ _ hfirst).assigns.prod (hv h _ _ hsecond).assigns)
      fun d => rfl
  built _ _ _ _ hm := by
    obtain ⟨_, _, rfl, -⟩ := buildPair_spec hm
    rfl

/-! ## Structs -/

/-- The slots of the members from one on are read at their places, whatever is before them. -/
def MembersRead (members : Members S β) : Prop :=
  ∀ h v slots, members.buildOne h v = .ok slots → ∀ before : List Slot,
    Assigns members.layout (members.readOne before.length (.struct (before ++ slots)))
      (members.layout.resolve h v)

/-- A struct is built as the slots of its members. -/
theorem buildStruct_spec {members : Members S β} {h : S.Heap} {v : β} {m : Msg}
    (hm : (struct members).buildField h v = .ok m) :
    ∃ slots, m = .struct slots ∧ members.buildOne h v = .ok slots := by
  simp only [struct] at hm
  cases hslots : members.buildOne h v with
  | error e => rw [hslots] at hm; cases hm
  | ok slots =>
    rw [hslots] at hm
    exact ⟨slots, (Except.ok.inj hm).symm, rfl⟩

/-- It carries what its members do. -/
theorem struct_carries {members : Members S β} (hmembers : MembersRead members) :
    Carries (struct members) where
  reads h v m hm := by
    obtain ⟨slots, rfl, hslots⟩ := buildStruct_spec hm
    exact .of_update (hmembers h v slots hslots []) fun d => rfl
  built h v m _ hm := by
    obtain ⟨slots, rfl, -⟩ := buildStruct_spec hm
    rfl

/-- With no members there is nothing to read. -/
theorem members_nil : MembersRead (Members.nil (S := S)) := by
  intro h v slots _ before
  exact .const (Layout.plain ()) h v

/-- The slots of members are that of the first and those of the rest. -/
theorem buildOne_cons_spec {c : Overload S Slot α} {rest : Members S β} {h : S.Heap} {v : α × β}
    {slots : List Slot} (hbuild : (Members.cons c rest).buildOne h v = .ok slots) :
    ∃ slot others, slots = slot :: others ∧ c.buildField h v.1 = .ok slot ∧
      rest.buildOne h v.2 = .ok others := by
  simp only [Members.cons] at hbuild
  cases hslot : c.buildField h v.1 with
  | error e => rw [hslot] at hbuild; cases hbuild
  | ok slot =>
    cases hslots : rest.buildOne h v.2 with
    | error e => rw [hslot, hslots] at hbuild; cases hbuild
    | ok others =>
      rw [hslot, hslots] at hbuild
      exact ⟨slot, others, (Except.ok.inj hbuild).symm, rfl, rfl⟩

/-- The first member is read from the slot after those before it, and the rest after that one. -/
theorem readOne_cons (c : Overload S Slot α) (rest : Members S β) (before : List Slot) (slot : Slot)
    (others : List Slot) :
    (Members.cons c rest).readOne before.length (.struct (before ++ slot :: others)) =
      fun v => (do
        let first ← c.readUpdate slot v.1
        let others ← rest.readOne (before ++ [slot]).length
          (.struct (before ++ [slot] ++ others)) v.2
        pure (first, others) : M S (α × β)) := by
  have hget : (Msg.struct (before ++ slot :: others)).getSlot before.length = slot := by
    simp [Msg.getSlot]
  simp only [Members.cons, hget, List.append_assoc, List.singleton_append, List.length_append,
    List.length_singleton]

/-- One member more. -/
theorem members_cons {c : Overload S Slot α} {rest : Members S β} (hc : RoundTrips c)
    (hrest : MembersRead rest) : MembersRead (Members.cons c rest) := by
  intro h v slots hbuild before
  obtain ⟨slot, others, rfl, hslot, hothers⟩ := buildOne_cons_spec hbuild
  rw [readOne_cons]
  exact (hc h v.1 slot hslot).assigns.prod (hrest h v.2 others hothers (before ++ [slot]))

/-! ## Maps -/

/-- Keys of which one is less are not equivalent. -/
theorem StrictOrder.equiv_of_less (o : StrictOrder κ) {a b : κ} (h : o.less a b = true) :
    o.equiv a b = false := by
  simp only [StrictOrder.equiv, h, Bool.not_true, Bool.false_and]

/-- Every key is equivalent to itself. -/
theorem StrictOrder.equiv_self (o : StrictOrder κ) (a : κ) : o.equiv a a = true := by
  simp only [StrictOrder.equiv, o.irrefl, Bool.not_false, Bool.and_self]

/-- Where a new key goes does not depend on its value. -/
theorem insert_new (o : StrictOrder κ) {l : List (Pair κ α)} {k : κ}
    (h : ∀ e ∈ l, o.equiv e.first k = false) :
    ∃ before after, l = before ++ after ∧ ∀ v : α,
      Tree.insert (o.on Pair.first).less ⟨k, v⟩ l = before ++ ⟨k, v⟩ :: after := by
  induction l with
  | nil => exact ⟨[], [], rfl, fun _ => rfl⟩
  | cons b bs ih =>
    by_cases hkb : o.less k b.first = true
    · exact ⟨[], b :: bs, rfl, fun v => if_pos hkb⟩
    · by_cases hbk : o.less b.first k = true
      · obtain ⟨before, after, rfl, hinsert⟩ := ih fun e he => h e (.tail _ he)
        refine ⟨b :: before, after, rfl, fun v => ?_⟩
        rw [List.cons_append, ← hinsert v]
        exact (if_neg hkb).trans (if_pos hbk)
      · have hb := h b (.head _)
        simp only [StrictOrder.equiv, hkb, hbk, Bool.not_false, Bool.and_self] at hb
        cases hb

/-- A new entry is found by its key. -/
theorem find_insert (o : StrictOrder κ) {l : List (Pair κ α)} {k : κ} (v : α)
    (h : ∀ e ∈ l, o.equiv e.first k = false) :
    (Tree.insert (o.on Pair.first).less ⟨k, v⟩ l).find? (fun e => o.equiv e.first k) =
      some ⟨k, v⟩ := by
  obtain ⟨before, after, rfl, hinsert⟩ := insert_new o h
  have hnone : before.find? (fun e => o.equiv e.first k) = none := by
    refine List.find?_eq_none.mpr fun e he => ?_
    rw [h e (List.mem_append_left _ he)]
    nofun
  rw [hinsert, List.find?_append, hnone, List.find?_cons, o.equiv_self]
  rfl

/-- And it alone gets another value. -/
theorem set_insert (o : StrictOrder κ) {l : List (Pair κ α)} {k : κ} (v v' : α)
    (h : ∀ e ∈ l, o.equiv e.first k = false) :
    (Tree.insert (o.on Pair.first).less ⟨k, v⟩ l).map
        (fun e => if o.equiv e.first k then { e with second := v' } else e) =
      Tree.insert (o.on Pair.first).less ⟨k, v'⟩ l := by
  obtain ⟨before, after, rfl, hinsert⟩ := insert_new o h
  have hrest : ∀ es ⊆ before ++ after,
      es.map (fun e => if o.equiv e.first k then { e with second := v' } else e) = es := by
    intro es hes
    refine (List.map_congr_left fun e he => ?_).trans (List.map_id es)
    rw [h e (hes he)]
    rfl
  rw [hinsert, hinsert, List.map_append, List.map_cons, o.equiv_self,
    hrest before (List.subset_append_left _ _), hrest after (List.subset_append_right _ _)]
  rfl

/-- An update of the value of a new entry reaches the map. -/
theorem tracks_emplaceMap {o : StrictOrder κ} {t : Tree (o.on (Pair.first (α := α)))} {k : κ}
    (hk : ∀ e ∈ t.elems, o.equiv e.first k = false) (v : α) (f : α → M S α) :
    emplaceMap.Tracks t ⟨k, v⟩ (onSecond f) := by
  intro p hp
  funext h
  have hrun := congrFun hp h
  simp only [onSecond, bind, StateT.bind, Except.bind] at hrun
  cases hf : f v h with
  | error e => rw [hf] at hrun; cases hrun
  | ok r =>
    rw [hf] at hrun
    obtain ⟨w, h'⟩ := r
    cases hrun
    have hset : (t.emplace ⟨k, v⟩).setSecond k w = t.emplace ⟨k, w⟩ := by
      refine Tree.ext ?_
      simp only [Tree.setSecond, Tree.emplace]
      exact set_insert o v w hk
    have hfind : (t.emplace ⟨k, v⟩).elems.find? (fun e => o.equiv e.first k) = some ⟨k, v⟩ :=
      find_insert o v hk
    simp only [emplaceMap, Dest.construct, pure_bind, Tree.entry, hfind, onSecond, bind_assoc]
    simp only [bind, StateT.bind, Except.bind, hf]
    rw [hset]

/-- A map carries what its keys and values do, in the order of the keys. -/
theorem map_carries {key : Overload S Slot κ} {value : Overload S Slot α} (hk : RoundTrips key)
    (hv : RoundTrips value) (o : KeyOrder key.layout) : Carries (map key value o) where
  reads h v m hm := by
    obtain ⟨items, rfl, hitems⟩ := buildList_spec hm
    have hsorted := ((map key value o).layout.resolve h v).sorted
    obtain ⟨t, hrun, ht⟩ := foldlM_append
      (fun t item => readPair true key value item (emplaceMap (o := o.toStrictOrder)) t) Tree.elems
      (fun l => l.Pairwise fun x y => (o.toStrictOrder.on Pair.first).less x y = true)
      (g := (key.layout.pair value.layout).resolve h) hitems
      (by
        intro acc p item rest hitem hgood
        obtain ⟨first, second, rfl, hfirst, hsecond⟩ := buildPair_spec hitem
        have hafter := less_of_pairwise (o := o.toStrictOrder.on Pair.first) hgood
        refine ⟨acc.emplace ((key.layout.pair value.layout).resolve h p), ?_,
          insert_eq_append _ hafter⟩
        refine readPair_eq_put (hk h _ _ hfirst) (hv h _ _ hsecond) (fun hc => ?_) ?_
        · simp at hc
        · rintro - k hkey v f
          obtain rfl := hkey rfl
          exact tracks_emplaceMap (fun e he => o.equiv_of_less (hafter e he)) v f) ⟨[], .nil⟩ hsorted
    obtain rfl : t = (map key value o).layout.resolve h v := Tree.ext ht
    refine .of_update (.const (map key value o).layout h v) fun d => ?_
    simp only [map, Msg.getList, hrun]
    rfl
  built _ _ _ _ hm := by
    obtain ⟨items, rfl, -⟩ := buildList_spec hm
    rfl

/-! ## Fields -/

/-- What a builder leaves in a field for an object it has. -/
theorem buildSlot_spec {c : Overload S Msg α} {h : S.Heap} {v : α} {companion : Bool} {slot : Slot}
    (hslot : (do return (← c.buildField h v, companion) : Except Error Slot) = .ok slot) :
    ∃ m, slot = (m, companion) ∧ c.buildField h v = .ok m := by
  cases hm : c.buildField h v with
  | error e => rw [hm] at hslot; cases hslot
  | ok m =>
    rw [hm] at hslot
    exact ⟨m, (Except.ok.inj hslot).symm, rfl⟩

/-- A field of a type that is carried round-trips. -/
theorem field_roundTrips {c : Overload S Msg α} (hc : Carries c) : RoundTrips (field c) := by
  intro h v slot hslot
  obtain ⟨m, rfl, hm⟩ := buildSlot_spec hslot
  have hread := hc.reads h v m hm
  exact ⟨hread.emplace, hread.update⟩

/-- A field is found unset where nothing was built. -/
theorem hasField_null (companion : Bool) {boxed : Bool} (h : companion = true ∨ boxed = true) :
    hasField companion boxed (.null, false) = false := by
  cases companion <;> cases boxed <;> first | rfl | simp at h

/-- And set where the object was built. -/
theorem hasField_built {c : Overload S Msg α} (hc : Carries c) (companion : Bool)
    (h : companion = true ∨ c.boxed = true) {heap : S.Heap} {v : α} {m : Msg}
    (hm : c.buildField heap v = .ok m) : hasField companion c.boxed (m, companion) = true := by
  cases companion with
  | true => rfl
  | false =>
    have hboxed : c.boxed = true := h.resolve_left nofun
    simp [hasField, hboxed, hc.built heap v m hboxed hm]

/-- What the reader of a `std::optional` does with a field that has a value. -/
def readOptional (c : Overload S Msg α) (m : Msg) (value : Option α) : M S (Option α) :=
  match value with
  | some _ => c.readField m (.readDestUpdate .value) value
  | none => c.readField m emplaceOptional value

/-- What the reader of a `std::shared_ptr` does with a field that has a value. -/
def readShared (c : Overload S Msg α) (m : Msg) (value : SharedPtr S α) : M S (SharedPtr S α) :=
  match value with
  | .null => c.readField m (makeShared false) value
  | _ => c.readField m (.readDestUpdate .pointee) value

/-- `emplace` of a `std::optional` is a lawful destination. -/
theorem lawful_emplaceOptional (o : Option α) : (emplaceOptional (S := S)).Lawful o :=
  lawful_temp o

/-- So is its value, where it has one. -/
theorem lawful_value (a : α) : (Dest.readDestUpdate (Ref.value (S := S))).Lawful (some a) := by
  intro _ x f x' hf
  simp only [Dest.construct, Ref.value, map_pure, pure_bind, hf]

/-- Reading into the object of a `std::optional`, or making one. -/
theorem assigns_optional {c : Overload S Msg α} {m : Msg} {v : α} (h : Reads c m v) :
    Assigns c.layout.option (readOptional c m) (some v) := by
  obtain ⟨f, hf, hread⟩ := h.update
  intro heap o hnodup
  cases o with
  | none =>
    have hnew : c.readField m emplaceOptional none = pure (some v) :=
      h.emplace _ _ _ (lawful_emplaceOptional none)
    exact ⟨some v, heap, congrFun hnew heap, fun _ _ => rfl,
      fun h'' _ => congrArg some (hf.resolve_eq h''), fun _ => rfl⟩
  | some a =>
    obtain ⟨a', heap', hrun, hframe, hvalue, hnew⟩ := hf heap a hnodup
    refine ⟨some a', heap', ?_, hframe, fun h'' heq => congrArg some (hvalue h'' heq),
      fun hnil => congrArg some (hnew hnil)⟩
    have hupdate : c.readField m (.readDestUpdate .value) (some a) = some <$> f a :=
      hread .value (some a) (lawful_value a)
    change c.readField m (.readDestUpdate .value) (some a) heap = _
    rw [hupdate]
    simp only [Functor.map, StateT.map, bind, Except.bind, hrun]
    rfl

/-- A `std::optional` round-trips where the field tells whether it is set. -/
theorem optional_roundTrips {c : Overload S Msg α} (hc : Carries c) {companion : Bool}
    (hhas : companion = true ∨ c.boxed = true) : RoundTrips (optional companion c) := by
  intro h o slot hslot
  cases o with
  | none =>
    cases hslot
    refine .of_update (.const (optional companion c).layout h none) fun d => ?_
    simp only [optional, hasField_null companion hhas]
    rfl
  | some v =>
    obtain ⟨m, rfl, hm⟩ := buildSlot_spec hslot
    refine .of_update (assigns_optional (hc.reads h v m hm)) fun d => ?_
    simp only [optional, hasField_built hc companion hhas hm]
    rfl

/-! ## Shared pointers -/

/-- `make_shared` is a lawful destination. -/
theorem lawful_makeShared (isConst : Bool) (o : SharedPtr S α) :
    (makeShared isConst).Lawful o := by
  intro _ a f a' hf
  simp only [makeShared, Dest.construct, Ref.pointee, pure_bind, hf]

/-- What an update of an object on the heap does to the heap. -/
theorem modify_shared (f : α → M S α) (p : Ptr S α) (h : S.Heap) :
    Ref.pointee.modify f (.shared p) h = (do
      let (a, h') ← f (p.load h) h
      return (.shared p, p.store a h')) := rfl

/-- So is the pointee, where there is one. -/
theorem lawful_pointee {o : SharedPtr S α} (ho : o ≠ .null) :
    (Dest.readDestUpdate (Ref.pointee (S := S))).Lawful o := by
  intro _ a f a' hf
  cases o with
  | null => exact absurd rfl ho
  | own b => simp only [Dest.construct, Ref.pointee, pure_bind, hf]
  | shared p =>
    have hmade : ∀ (x : α) (h : S.Heap), Ref.pointee.modify (fun _ => pure x) (.shared p) h =
        .ok (.shared p, p.store x h) := fun _ _ => rfl
    have hupdated : ∀ h : S.Heap, Ref.pointee.modify f (.shared p) (p.store a h) =
        .ok (.shared p, p.store a' h) := by
      intro h
      rw [modify_shared, Ptr.load_store, hf]
      show Except.ok (SharedPtr.shared p, p.store a' (p.store a h)) = _
      rw [Ptr.store_store]
    funext h
    simp only [Dest.construct, bind, StateT.bind, Except.bind, hmade]
    exact congrArg (Except.bind · fun v => .ok ((v.1, Ref.pointee), v.2)) (hupdated h)

/-- Reading into the object behind a `std::shared_ptr`, or making one. The object on the heap is
none of those its own update writes to. -/
theorem assigns_sharedPtr {c : Overload S Msg α} {m : Msg} {v : α} (h : Reads c m v) :
    Assigns c.layout.sharedPtr (readShared c m) (.own v) := by
  obtain ⟨f, hf, hread⟩ := h.update
  intro heap o hnodup
  cases o with
  | null =>
    have hnew : c.readField m (makeShared false) .null = pure (.own v) :=
      h.emplace _ _ _ (lawful_makeShared false .null)
    exact ⟨.own v, heap, congrFun hnew heap, fun _ _ => rfl,
      fun h'' _ => congrArg SharedPtr.own (hf.resolve_eq h''), fun _ => rfl⟩
  | own a =>
    obtain ⟨a', heap', hrun, hframe, hvalue, hnew⟩ := hf heap a hnodup
    refine ⟨.own a', heap', ?_, hframe, fun h'' heq => congrArg SharedPtr.own (hvalue h'' heq),
      fun hnil => congrArg SharedPtr.own (hnew hnil)⟩
    have hupdate : c.readField m (.readDestUpdate .pointee) (.own a) = (do
        let a ← f a
        pure (.own a)) := hread .pointee (.own a) (lawful_pointee nofun)
    change c.readField m (.readDestUpdate .pointee) (.own a) heap = _
    rw [hupdate]
    simp only [bind, StateT.bind, Except.bind, hrun]
    rfl
  | shared p =>
    obtain ⟨hp, hnodup'⟩ := List.nodup_cons.mp hnodup
    obtain ⟨a', heap', hrun, hframe, hvalue, -⟩ := hf heap (p.load heap) hnodup'
    refine ⟨.shared p, p.store a' heap', ?_, ?_, ?_, nofun⟩
    · have hupdate := hread .pointee (.shared p) (lawful_pointee nofun)
      change c.readField m (.readDestUpdate .pointee) (.shared p) heap = _
      rw [hupdate, modify_shared, hrun]
      rfl
    · intro x hx
      obtain ⟨hxp, hx'⟩ := not_or.mp (mt List.mem_cons.mpr hx)
      rw [p.store_other a' heap' hxp, hframe x hx']
    · intro h'' heq
      have hload : p.load h'' = a' := by
        rw [p.load_congr (heq p.addr (.head _)), p.load_store]
      refine congrArg SharedPtr.own ?_
      rw [hload]
      refine hvalue h'' fun x hx => ?_
      have hxp : x ≠ p.addr := fun hxp => hp (hxp ▸ hx)
      rw [heq x (.tail _ hx), p.store_other a' heap' hxp]

/-- The builder of a `std::shared_ptr` builds what it points to. -/
theorem buildShared_spec {c : Overload S Msg α} {h : S.Heap} {o : SharedPtr S α} {slot : Slot}
    (hslot : buildShared c h o = .ok slot) :
    (slot = (.null, false) ∧ ∀ h', c.layout.sharedPtr.resolve h' o = .null) ∨
      ∃ v m, c.buildField h v = .ok m ∧ slot = (m, false) ∧
        c.layout.sharedPtr.resolve h o = .own (c.layout.resolve h v) := by
  cases o with
  | null => exact .inl ⟨(Except.ok.inj hslot).symm, fun _ => rfl⟩
  | own v =>
    obtain ⟨m, rfl, hm⟩ := buildSlot_spec hslot
    exact .inr ⟨v, m, hm, rfl, rfl⟩
  | shared p =>
    obtain ⟨m, rfl, hm⟩ := buildSlot_spec hslot
    exact .inr ⟨p.load h, m, hm, rfl, rfl⟩

/-- A `std::shared_ptr` round-trips through a boxed field. -/
theorem sharedPtr_roundTrips {c : Overload S Msg α} (hc : Carries c) (hboxed : c.boxed = true) :
    RoundTrips (sharedPtr c) := by
  intro h o slot hslot
  obtain ⟨rfl, hnull⟩ | ⟨v, m, hm, rfl, hown⟩ := buildShared_spec hslot
  · change Reads _ _ (c.layout.sharedPtr.resolve h o)
    have hf := Assigns.const c.layout.sharedPtr h o
    rw [hnull] at hf ⊢
    refine .of_update hf fun d => ?_
    simp only [sharedPtr, hasField_null false (.inr hboxed)]
    rfl
  · change Reads _ _ (c.layout.sharedPtr.resolve h o)
    rw [hown]
    refine .of_update (assigns_sharedPtr (hc.reads h v m hm)) fun d => ?_
    simp only [sharedPtr, hasField_built hc false (.inr hboxed) hm]
    rfl

/-- So does one to `const`. -/
theorem sharedPtrConst_roundTrips {c : Overload S Msg α} (hc : Carries c)
    (hboxed : c.boxed = true) : RoundTrips (sharedPtrConst c) := by
  intro h o slot hslot
  have hf := Assigns.const c.layout.sharedPtrConst h o
  refine .of_update hf fun d => ?_
  obtain ⟨rfl, hnull⟩ | ⟨v, m, hm, rfl, hown⟩ := buildShared_spec hslot
  · change _ = d.update .null fun _ => pure (c.layout.sharedPtr.resolve h o)
    simp only [hnull, sharedPtrConst, hasField_null false (.inr hboxed)]
    rfl
  · change _ = d.update .null fun _ => pure (c.layout.sharedPtr.resolve h o)
    have hnew : ∀ o', c.readField m (makeShared true) o' =
        pure (.own (c.layout.resolve h v)) := fun o' =>
      (hc.reads h v m hm).emplace _ _ _ (lawful_makeShared true o')
    simp only [hown, sharedPtrConst, hasField_built hc false (.inr hboxed) hm, hnew]
    rfl

/-! ## All types -/

mutual

/-- The types supported on any field and as elements of lists. -/
inductive Supported : {α : Type} → Overload S Msg α → Prop
  | number {loc wire : Integral} (h : Represents loc wire) : Supported (number loc wire)
  | enum {loc wire : Integral} (h : enumWithin loc wire = true) : Supported (enum loc wire)
  | duration {rep wire : Integral} (hrep : rep ≠ .bool) (h : limitsWithin rep wire = true) :
    Supported (duration rep wire)
  | string : Supported string
  | data {α : Type} (b : ByteContainer α) : Supported (data b)
  | vector {α : Type} {c : Overload S Msg α} (h : Supported c) : Supported (vector c)
  | vectorBool : Supported vectorBool
  | set {α : Type} {c : Overload S Msg α} (h : Supported c) (o : KeyOrder c.layout) :
    Supported (set c o)
  | map {κ α : Type} {key : Overload S Slot κ} {value : Overload S Slot α}
    (hk : SupportedField key) (hv : SupportedField value) (o : KeyOrder key.layout) :
    Supported (map key value o)
  | pair {κ α : Type} {key : Overload S Slot κ} {value : Overload S Slot α}
    (hk : SupportedField key) (hv : SupportedField value) : Supported (pair key value)
  | tuple {α β : Type} {key : Overload S Slot α} {value : Overload S Slot β}
    (hk : SupportedField key) (hv : SupportedField value) : Supported (tuple key value)
  | struct {β : Type} {members : Members S β} (h : SupportedMembers members) :
    Supported (struct members)

/-- Those supported on a field of a struct, pair or tuple. -/
inductive SupportedField : {α : Type} → Overload S Slot α → Prop
  | field {α : Type} {c : Overload S Msg α} (h : Supported c) : SupportedField (field c)
  | optional {α : Type} {c : Overload S Msg α} (h : Supported c) {companion : Bool}
    (hhas : companion = true ∨ c.boxed = true) : SupportedField (optional companion c)
  | sharedPtr {α : Type} {c : Overload S Msg α} (h : Supported c) (hboxed : c.boxed = true) :
    SupportedField (sharedPtr c)
  | sharedPtrConst {α : Type} {c : Overload S Msg α} (h : Supported c) (hboxed : c.boxed = true) :
    SupportedField (sharedPtrConst c)

/-- The members of a struct. -/
inductive SupportedMembers : {β : Type} → Members S β → Prop
  | nil : SupportedMembers Members.nil
  | cons {α β : Type} {c : Overload S Slot α} {rest : Members S β} (h : SupportedField c)
    (hrest : SupportedMembers rest) : SupportedMembers (Members.cons c rest)

end

/-- Every supported type round-trips, by induction over how it is composed. -/
theorem roundTrips_of_supported {c : Overload S Slot α} (h : SupportedField c) :
    RoundTrips c := by
  refine @SupportedField.rec S (fun c _ => Carries c) (fun c _ => RoundTrips c)
    (fun members _ => MembersRead members) ?number ?enum ?duration ?string ?data ?vector ?vectorBool
    ?set ?map ?pair ?tuple ?struct ?field ?optional ?sharedPtr ?sharedPtrConst ?nil ?cons α c h
  case number => exact fun h => number_carries h
  case enum => exact fun h => enum_carries h
  case duration => exact fun hrep h => duration_carries hrep h
  case string => exact string_carries
  case data => exact fun b => data_carries b
  case vector => exact fun _ ih => vector_carries ih
  case vectorBool => exact vectorBool_carries
  case set => exact fun _ o ih => set_carries ih o
  case map => exact fun _ _ o ihk ihv => map_carries ihk ihv o
  case pair => exact fun _ _ ihk ihv => pair_carries ihk ihv
  case tuple => exact fun _ _ ihk ihv => tuple_carries ihk ihv
  case struct => exact fun _ ih => struct_carries ih
  case field => exact fun _ ih => field_roundTrips ih
  case optional => exact fun _ _ hhas ih => optional_roundTrips ih hhas
  case sharedPtr => exact fun _ hboxed ih => sharedPtr_roundTrips ih hboxed
  case sharedPtrConst => exact fun _ hboxed ih => sharedPtrConst_roundTrips ih hboxed
  case nil => exact members_nil
  case cons => exact fun _ _ ih ihrest => members_cons ih ihrest

/-- Reading what was built from `v`: into a temporary, into a `const` object, into any place that
constructs, and into an object that is there. `v` is what the object built from stands for. -/
structure ReadsBack (c : Overload S μ α) (m : μ) (v : α) : Prop where
  temp : c.readTemp m = pure v
  const : ∀ {τ : Type} (fn : α → τ → M S (τ × Ref S τ α)) (t : τ),
    c.readField m (.readDestEmplace true fn) t = Prod.fst <$> fn v t
  emplace : ∀ {τ : Type} (fn : α → τ → M S (τ × Ref S τ α)) (t : τ),
    (Dest.readDestEmplace false fn).Lawful t →
      c.readField m (.readDestEmplace false fn) t = Prod.fst <$> fn v t
  update : ∀ (h : S.Heap) (a : α), (c.layout.inPlace h a).Nodup →
    ∃ a' h', c.readUpdate m a h = .ok (a', h') ∧ c.layout.resolve h' a' = v

/-- **Round trip.** Reading what was built from a value of a supported type gives that value, into
every kind of destination. An object that is updated must not have two pointers to one object among
those it is updated through. Nor may one of these point to a part of another object or of the object
itself, which `Ptr` leaves no way to express. -/
theorem round_trip {c : Overload S Slot α} (hc : SupportedField c) {h : S.Heap} {v : α} {slot : Slot}
    (hbuild : c.buildField h v = .ok slot) : ReadsBack c slot (c.layout.resolve h v) := by
  have hread := roundTrips_of_supported hc h v slot hbuild
  refine ⟨hread.temp, fun fn t => hread.emplace true fn t (Dest.lawful_const fn t),
    fun fn t hlawful => hread.emplace false fn t hlawful, fun h' a hnodup => ?_⟩
  obtain ⟨a', h'', hrun, -, hvalue, -⟩ := hread.assigns h' a hnodup
  exact ⟨a', h'', hrun, hvalue h'' fun _ _ => rfl⟩

/-- One string on the heap. -/
abbrev oneString : Store := ⟨Unit, fun _ => List UInt8⟩

/-- `std::less<int>`. -/
def int32Less : StrictOrder (Number .int32) where
  less a b := decide (a.val < b.val)
  irrefl a := by simp
  trans a b c hab hbc := by
    simp only [decide_eq_true_eq] at *
    omega
  weak a b c hab hba hbc hcb := by
    simp only [decide_eq_false_iff_not] at *
    omega

/-- `FooStruct` of the tests: `std::string name; std::set<int> setint; std::vector<bool> vbool;
std::optional<int> optional_int;`. -/
abbrev FooStruct : Type :=
  List UInt8 × Tree int32Less × List (Number .bool) × Option (Number .int32) × Unit

def fooStruct : Overload S Msg FooStruct :=
  struct (.cons (field string) (.cons (field (set (number .int32 .int32) ⟨int32Less, fun _ _ _ h => h⟩))
    (.cons (field vectorBool) (.cons (optional true (number .int32 .int32)) .nil))))

theorem fooStruct_supported : SupportedField (field (fooStruct (S := S))) :=
  .field (.struct (.cons (.field .string) (.cons (.field (.set (.number fun _ h => h) _))
    (.cons (.field .vectorBool) (.cons (.optional (.number fun _ h => h) (.inl rfl)) .nil)))))

/-- Named "name", with the numbers 1 and 2, the flags false and true, and the optional number 3. -/
def foo : FooStruct :=
  ([110, 97, 109, 101], ⟨[cast .int32 1, cast .int32 2], by decide⟩, [cast .bool 0, cast .bool 1],
    some (cast .int32 3), ())

/-- One value of it, with a repeated string and an empty option, is read back. -/
theorem foo_round_trip : ∃ slot, ReadsBack (field (fooStruct (S := oneString))) slot foo :=
  ⟨_, round_trip fooStruct_supported (h := fun _ => []) (v := foo) rfl⟩

/-- Two pointers of an object to one string: the second is read over the first. -/
theorem aliased_update :
    ¬ ∀ (S : Store) (α : Type) (c : Overload S Slot α), SupportedField c →
      ∀ (h : S.Heap) (v : α) (slot : Slot), c.buildField h v = .ok slot →
        ∀ (h' : S.Heap) (a : α), ∃ a' h'', c.readUpdate slot a h' = .ok (a', h'') ∧
          c.layout.resolve h'' a' = c.layout.resolve h v := by
  intro hall
  obtain ⟨a', h'', hrun, hvalue⟩ := hall oneString _
    (field (struct (.cons (sharedPtr string) (.cons (sharedPtr string) .nil))))
    (.field (.struct (.cons (.sharedPtr .string rfl) (.cons (.sharedPtr .string rfl) .nil))))
    (fun _ => []) (.own [1], .own [2], ()) _ rfl (fun _ => []) (.shared ⟨(), rfl⟩, .shared ⟨(), rfl⟩, ())
  cases hrun
  have hfirst : SharedPtr.own (S := oneString) [(2 : UInt8)] = .own [1] := congrArg Prod.fst hvalue
  simp at hfirst

end Multiprocess.Codec
