import Multiprocess.Codec.MapEntries

/-!
# What a reader does with any message

`RoundTrip` is about messages that were built. A message that was received need not have been: a
number may be out of the range of its C++ type, a list of pairs may repeat a key, a pointer may be
null. For each supported type and any message at all there are two cases:

* the message reads as a value (`Reads`), and where the reader finds an object instead of making one
  it leaves what a function `f` makes of the two (`Leaves`);
* or the read throws (`Throws`), whatever the destination.

`Decodes` says so of one type with its `f`, and `exists_decodes` of all of them, by induction over
how a type is composed. Destinations are restricted to those the readers themselves use (`Place`):
a temporary, an element or a member that is made, an entry that is found, an object without pointers
to the heap that is updated. The exceptions are not told apart.
-/

namespace Multiprocess.Codec

open Integral

variable {S : Store} {α β κ μ τ : Type}

/-! ## Objects that were read

An object that was read has no pointer to the heap of before, so updating it in place writes to
nothing else. -/

/-- Objects that were read are updated through no pointer. -/
def Inline (L : Layout S α) : Prop := ∀ a, Settled L a → ∀ h, L.inPlace h a = []

/-- A type without pointees is inline. -/
theorem inline_of_nil {L : Layout S α} (h : ∀ heap a, L.inPlace heap a = []) : Inline L :=
  fun a _ heap => h heap a

/-- The members of an object that was read were read. -/
theorem inline_prod {K : Layout S α} {L : Layout S β} (hK : Inline K) (hL : Inline L) :
    Inline (K.prod L) := by
  intro p hp h
  have hfirst : Settled K p.1 := fun h' => congrArg Prod.fst (hp h')
  have hsecond : Settled L p.2 := fun h' => congrArg Prod.snd (hp h')
  show K.inPlace h p.1 ++ L.inPlace h p.2 = []
  rw [hK p.1 hfirst h, hL p.2 hsecond h]
  rfl

/-- An option is, if its value is. -/
theorem inline_option {L : Layout S α} (hL : Inline L) : Inline L.option := by
  intro o ho h
  cases o with
  | none => rfl
  | some a =>
    have ha : Settled L a := fun h' => Option.some.inj (ho h')
    exact hL a ha h

/-- A pointer that was read owns its object. -/
theorem inline_sharedPtr {L : Layout S α} (hL : Inline L) : Inline L.sharedPtr := by
  intro o ho h
  cases o with
  | null => rfl
  | own a =>
    have ha : Settled L a := fun h' => SharedPtr.own.inj (ho h')
    exact hL a ha h
  | shared p => cases ho h

/-! ## Reads that throw -/

/-- The read throws, whatever is on the heap. -/
def Throws (x : M S α) : Prop := ∀ h r, x h ≠ .ok r

/-- An error throws. -/
theorem throws_error (e : Error) : Throws (throw e : M S α) := fun _ _ => nofun

/-- What comes after a read that throws is not reached. -/
theorem throws_bind {x : M S α} {f : α → M S β} (hx : Throws x) : Throws (x >>= f) := by
  intro h r hrun
  simp only [bind, StateT.bind, Except.bind] at hrun
  cases hresult : x h with
  | error e =>
    rw [hresult] at hrun
    cases hrun
  | ok p => exact hx h p hresult

/-- What comes after may throw as well. -/
theorem throws_bind_of {x : M S α} {f : α → M S β} (hf : ∀ a, Throws (f a)) :
    Throws (x >>= f) := by
  intro h r hrun
  simp only [bind, StateT.bind, Except.bind] at hrun
  cases hresult : x h with
  | error e =>
    rw [hresult] at hrun
    cases hrun
  | ok p =>
    rw [hresult] at hrun
    exact hf p.1 p.2 r hrun

/-- So does what is made of one. -/
theorem throws_map {x : M S α} (hx : Throws x) (f : α → β) : Throws (f <$> x) := by
  rw [map_eq_pure_bind]
  exact throws_bind hx

/-! ## Destinations -/

/-- The reference is to the place whose object `set` changes. -/
def Lens (ref : Ref S τ α) (set : α → τ) : Prop := ∀ y f, ref.modify f (set y) = set <$> f y

/-- `fn` makes the object it is asked for in a place. -/
def Makes (fn : α → τ → M S (τ × Ref S τ α)) (t : τ) (set : α → τ) : Prop :=
  ∃ ref : Ref S τ α, (∀ a, fn a t = pure (set a, ref)) ∧ Lens ref set

/-- In place of making an object, `fn` finds `x`. -/
def Finds (fn : α → τ → M S (τ × Ref S τ α)) (t : τ) (x : α) (set : α → τ) : Prop :=
  ∃ ref : Ref S τ α, (∀ a, fn a t = pure (set x, ref)) ∧ Lens ref set

/-- The destinations of the readers: one that makes a `const` object, by any `fn`; one that makes
its object; one that finds an object that was read; and such an object that is updated. -/
inductive Place (L : Layout S α) : {τ : Type} → Dest S τ α → τ → Prop
  | const {τ : Type} (fn : α → τ → M S (τ × Ref S τ α)) (t : τ) :
    Place L (.readDestEmplace true fn) t
  | makes {τ : Type} {fn : α → τ → M S (τ × Ref S τ α)} {t : τ} {set : α → τ}
    (h : Makes fn t set) : Place L (.readDestEmplace false fn) t
  | finds {τ : Type} {fn : α → τ → M S (τ × Ref S τ α)} {t : τ} {x : α} {set : α → τ}
    (h : Finds fn t x set) (hx : Settled L x) : Place L (.readDestEmplace false fn) t
  | update {τ : Type} {ref : Ref S τ α} {set : α → τ} {x : α} (h : Lens ref set)
    (hx : Settled L x) : Place L (.readDestUpdate ref) (set x)

/-- A destination that makes its object is lawful. -/
theorem Makes.lawful {fn : α → τ → M S (τ × Ref S τ α)} {t : τ} {set : α → τ}
    (h : Makes fn t set) (isConst : Bool) : (Dest.readDestEmplace isConst fn).Lawful t := by
  obtain ⟨ref, hfn, hlens⟩ := h
  intro _ a f a' hf
  simp only [Dest.construct, hfn, pure_bind, hlens a f, hf, map_pure]

/-- A variable is updated as a whole. -/
theorem lens_self : Lens (Ref.self (S := S) (α := α)) id := fun y f => (id_map (f y)).symm

/-- The value of an option is updated in place. -/
theorem lens_value : Lens (Ref.value (S := S) (α := α)) some := fun _ _ => rfl

/-- A temporary is made. -/
theorem makes_temp (t : Option α) :
    Makes (S := S) (fun a _ => pure (some a, Ref.value)) t some := ⟨.value, fun _ => rfl, lens_value⟩

/-- `emplace_back` makes the last element. -/
theorem makes_back (l : List α) :
    Makes (S := S) (fun a value => pure (value ++ [a], back)) l fun a => l ++ [a] := by
  refine ⟨back, fun _ => rfl, fun y f => ?_⟩
  simp [back]

/-- The pointee of a `std::shared_ptr` of its own is updated in place. -/
theorem lens_pointee : Lens (Ref.pointee (S := S) (α := α)) .own := fun y f => by
  show (do
    let a ← f y
    pure (SharedPtr.own a)) = _
  rw [map_eq_pure_bind]

/-- `make_shared` makes a pointee. -/
theorem makes_shared (o : SharedPtr S α) :
    Makes (fun a _ => pure (.own a, .pointee)) o .own := ⟨.pointee, fun _ => rfl, lens_pointee⟩

/-! ## What one type does -/

/-- Reading `m` where an object is found leaves what `f` makes of it. -/
def Leaves (c : Overload S μ α) (m : μ) (f : α → α) : Prop :=
  ∀ (τ : Type) (fn : α → τ → M S (τ × Ref S τ α)) (t : τ) (x : α) (set : α → τ),
    Finds fn t x set → Settled c.layout x →
      c.readField m (.readDestEmplace false fn) t = pure (set (f x))

/-- Reading `m` throws. -/
def Fails (c : Overload S μ α) (m : μ) : Prop :=
  ∀ {τ : Type} (d : Dest S τ α) (t : τ), Place c.layout d t → Throws (c.readField m d t)

/-- A reader that makes its object calls `fn`, so it throws when that does. -/
def Calls (c : Overload S μ α) : Prop :=
  ∀ {τ : Type} (m : μ) (isConst : Bool) (fn : α → τ → M S (τ × Ref S τ α)) (t : τ),
    (∀ a, Throws (fn a t)) → Throws (c.readField m (.readDestEmplace isConst fn) t)

/-- Any message reads as a value, and over another one it leaves what `f` makes of the two; or the
read throws. -/
structure Decodes (c : Overload S μ α) (f : α → α → α) : Prop where
  total : ∀ m, (∃ v, Reads c m v ∧ Leaves c m fun old => f old v) ∨ Fails c m
  calls : Calls c
  inline : Inline c.layout
  settled : ∀ a b, Settled c.layout a → Settled c.layout b → Settled c.layout (f a b)

/-- What is read stands for itself. -/
theorem Reads.value_settled {c : Overload S μ α} {m : μ} {v : α} (h : Reads c m v) :
    Settled c.layout v := h.assigns.resolve_eq

/-- A message that fails everywhere fails into a temporary. -/
theorem Fails.temp {c : Overload S μ α} {m : μ} (h : Fails c m) : Throws (c.readTemp m) :=
  throws_bind (h readDestTemp none (.makes (makes_temp none)))

/-- A message that can be read into a temporary reads as what is there then. -/
theorem Decodes.reads {c : Overload S μ α} {f : α → α → α} (hc : Decodes c f) {m : μ} {v : α}
    {h h' : S.Heap} (hv : c.readTemp m h = .ok (v, h')) :
    Reads c m v ∧ Leaves c m fun old => f old v := by
  rcases hc.total m with ⟨w, hread, hleaves⟩ | hfails
  · have hrun : (pure w : M S α) h = .ok (v, h') := by
      rw [← hread.temp]
      exact hv
    obtain rfl : w = v := congrArg Prod.fst (Except.ok.inj hrun)
    exact ⟨hread, hleaves⟩
  · exact absurd hv (hfails.temp h (v, h'))

/-! ### Readers that construct -/

/-- A reader that constructs loses what it has decoded. -/
theorem Puts.leaves {c : Overload S μ α} {m : μ} {v : α} (h : Puts c m v) :
    Leaves c m fun x => x := by
  intro τ fn t x set hfinds _
  obtain ⟨ref, hfn, -⟩ := hfinds
  rw [h]
  simp only [Dest.put, Dest.construct, hfn, map_pure]

/-- A type whose reader only writes, and does not look at what was there. -/
theorem decodes_of_puts {c : Overload S μ α} (hplain : ∀ a, Settled c.layout a)
    (hinline : Inline c.layout)
    (h : ∀ m, (∃ v, Puts c m v) ∨
      ∀ {τ : Type} (d : Dest S τ α) (t : τ), Throws (c.readField m d t)) :
    Decodes c fun old _ => old where
  total m := by
    rcases h m with ⟨v, hputs⟩ | hthrows
    · exact .inl ⟨v, .of_put (hplain v) fun d t _ => hputs d t, hputs.leaves⟩
    · exact .inr fun d t _ => hthrows d t
  calls m isConst fn t hfn := by
    rcases h m with ⟨v, hputs⟩ | hthrows
    · rw [hputs]
      exact throws_map (hfn v) _
    · exact hthrows _ t
  inline := hinline
  settled a _ _ _ := hplain a

/-- A number is read if it is in range, and throws otherwise. -/
theorem decodes_number (loc wire : Integral) :
    Decodes (number (S := S) loc wire) fun old _ => old := by
  refine decodes_of_puts (fun _ _ => rfl) (inline_of_nil fun _ _ => rfl) fun m => ?_
  cases hread : readIntegral loc (m.getNumber wire) with
  | ok v =>
    refine .inl ⟨v, fun d t => ?_⟩
    simp only [number, hread]
    rfl
  | error e =>
    refine .inr fun d t => ?_
    simp only [number, hread]
    exact throws_bind (throws_error e)

/-- An enum is cast, and never throws. -/
theorem decodes_enum (loc wire : Integral) :
    Decodes (enum (S := S) loc wire) fun old _ => old :=
  decodes_of_puts (fun _ _ => rfl) (inline_of_nil fun _ _ => rfl) fun _ =>
    .inl ⟨_, fun _ _ => rfl⟩

/-- Nor does a duration. -/
theorem decodes_duration (rep wire : Integral) :
    Decodes (duration (S := S) rep wire) fun old _ => old :=
  decodes_of_puts (fun _ _ => rfl) (inline_of_nil fun _ _ => rfl) fun _ =>
    .inl ⟨_, fun _ _ => rfl⟩

/-- Nor a string, which is what the bytes are. -/
theorem decodes_string : Decodes (string (S := S)) fun old _ => old :=
  decodes_of_puts (fun _ _ => rfl) (inline_of_nil fun _ _ => rfl) fun _ =>
    .inl ⟨_, fun _ _ => rfl⟩

/-- Nor a container of bytes. -/
theorem decodes_data (b : ByteContainer α) : Decodes (data (S := S) b) fun old _ => old :=
  decodes_of_puts (fun _ _ => rfl) (inline_of_nil fun _ _ => rfl) fun _ =>
    .inl ⟨_, fun _ _ => rfl⟩

/-! ### Readers that update -/

/-- The update makes an object that was read some value, or throws. -/
def UpdatesOrThrows (L : Layout S α) (f : α → M S α) : Prop :=
  (∃ v, Assigns L f v) ∨ ∀ a, Settled L a → Throws (f a)

/-- So does what a type reads into an object. -/
theorem Decodes.updates {c : Overload S μ α} {f : α → α → α} (hc : Decodes c f) (m : μ) :
    UpdatesOrThrows c.layout (c.readUpdate m) := by
  rcases hc.total m with ⟨v, hread, -⟩ | hfails
  · exact .inl ⟨v, hread.assigns⟩
  · exact .inr fun a ha => hfails (.readDestUpdate .self) a (@Place.update _ _ _ _ _ id _ lens_self ha)

/-- Two members one after the other: the first that throws decides. -/
theorem UpdatesOrThrows.prod {K : Layout S α} {L : Layout S β} {f : α → M S α} {g : β → M S β}
    (hf : UpdatesOrThrows K f) (hg : UpdatesOrThrows L g) :
    UpdatesOrThrows (K.prod L) (fun p => do
      let first ← f p.1
      let second ← g p.2
      pure (first, second)) := by
  rcases hf with ⟨a, hf⟩ | hf
  · rcases hg with ⟨b, hg⟩ | hg
    · exact .inl ⟨(a, b), hf.prod hg⟩
    · refine .inr fun p hp => throws_bind_of fun _ => throws_bind (hg p.2 fun h => ?_)
      exact congrArg Prod.snd (hp h)
  · refine .inr fun p hp => throws_bind (hf p.1 fun h => ?_)
    exact congrArg Prod.fst (hp h)

/-- An update that does not look at the object. -/
theorem updates_const {L : Layout S α} {x : M S α}
    (h : (∃ v, Settled L v ∧ x = pure v) ∨ Throws x) : UpdatesOrThrows L fun _ => x := by
  rcases h with ⟨v, hv, rfl⟩ | hx
  · exact .inl ⟨v, .of_settled hv⟩
  · exact .inr fun _ _ => hx

/-- A reader that updates updates what it found. -/
theorem leaves_of_assigns {c : Overload S μ α} {m : μ} {v : α}
    (h : Assigns c.layout (c.readUpdate m) v) (hinline : Inline c.layout)
    (hupdate : ∀ {τ : Type} (d : Dest S τ α),
      c.readField m d = d.update c.layout.dflt (c.readUpdate m)) : Leaves c m fun _ => v := by
  intro τ fn t x set hfinds hx
  obtain ⟨ref, hfn, hmodify⟩ := hfinds
  have hrun : c.readUpdate m x = pure v := by
    funext heap
    have hnil : c.layout.inPlace heap x = [] := hinline x hx heap
    obtain ⟨a', heap', hrun, hframe, -, hnew⟩ := h heap x (by
      rw [hnil]
      exact List.nodup_nil)
    have hheap : heap' = heap := funext fun i => hframe i (by
      rw [hnil]
      exact List.not_mem_nil)
    rw [hrun, hnew hnil, hheap]
    rfl
  rw [hupdate]
  simp only [Dest.update, hfn, pure_bind, hmodify x, hrun, map_pure]

/-- An update that throws on what was read throws at every destination. -/
theorem fails_of_update {c : Overload S μ α} {m : μ}
    (h : ∀ a, Settled c.layout a → Throws (c.readUpdate m a))
    (hupdate : ∀ {τ : Type} (d : Dest S τ α),
      c.readField m d = d.update c.layout.dflt (c.readUpdate m)) : Fails c m := by
  intro τ d t place
  have hdflt : Throws (c.readUpdate m c.layout.dflt) := h _ c.layout.resolve_dflt
  rw [hupdate]
  cases place with
  | const fn t => exact throws_bind hdflt
  | makes hmakes =>
    obtain ⟨ref, hfn, hlens⟩ := hmakes
    simp only [Dest.update, hfn, pure_bind, hlens c.layout.dflt]
    exact throws_map hdflt _
  | finds hfinds hx =>
    obtain ⟨ref, hfn, hlens⟩ := hfinds
    simp only [Dest.update, hfn, pure_bind, hlens _]
    exact throws_map (h _ hx) _
  | @update ref set x hlens hx =>
    simp only [Dest.update, hlens x]
    exact throws_map (h x hx) _

/-- A type whose reader updates the object, or a default one if there is none. -/
theorem decodes_of_update {c : Overload S μ α} (hinline : Inline c.layout)
    (hupdate : ∀ (m : μ) {τ : Type} (d : Dest S τ α),
      c.readField m d = d.update c.layout.dflt (c.readUpdate m))
    (h : ∀ m, UpdatesOrThrows c.layout (c.readUpdate m)) : Decodes c fun _ new => new where
  total m := by
    rcases h m with ⟨v, hassigns⟩ | hthrows
    · exact .inl ⟨v, .of_update hassigns (hupdate m),
        leaves_of_assigns hassigns hinline (hupdate m)⟩
    · exact .inr (fails_of_update hthrows (hupdate m))
  calls m isConst fn t hfn := by
    rw [hupdate]
    cases isConst with
    | true => exact throws_bind_of fun temp => throws_bind (hfn temp)
    | false => exact throws_bind (hfn _)
  inline := hinline
  settled _ _ _ hb := hb

/-! ## Lists and sets -/

/-- A loop over the items of which each keeps `P` or throws. -/
theorem foldlM_or_throws {σ : Type} {step : σ → Msg → M S σ} {P : σ → Prop}
    (hstep : ∀ acc item, P acc → (∃ acc', P acc' ∧ step acc item = pure acc') ∨
      Throws (step acc item)) (items : List Msg) (acc : σ) (hacc : P acc) :
    (∃ acc', P acc' ∧ items.foldlM step acc = pure acc') ∨ Throws (items.foldlM step acc) := by
  induction items generalizing acc with
  | nil => exact .inl ⟨acc, hacc, rfl⟩
  | cons item items ih =>
    rw [List.foldlM_cons]
    rcases hstep acc item hacc with ⟨acc', hacc', hrun⟩ | hthrows
    · rw [hrun, pure_bind]
      exact ih acc' hacc'
    · exact .inr (throws_bind hthrows)

/-- A list is settled if its elements are. -/
theorem settled_list {L : Layout S α} {l : List α} (h : ∀ a ∈ l, Settled L a) :
    Settled L.list l := fun heap =>
  (List.map_congr_left fun a ha => h a ha heap).trans (List.map_id l)

/-- A vector is cleared and read element by element; the first that throws decides. -/
theorem decodes_vector {c : Overload S Msg α} {f : α → α → α} (hc : Decodes c f) :
    Decodes (vector c) fun _ new => new := by
  refine decodes_of_update (inline_of_nil fun _ _ => rfl) (fun _ _ _ => rfl) fun m => ?_
  refine updates_const (x := m.getList.foldlM (fun value item => c.readField item emplaceBack value)
    []) ?_
  have hitem : ∀ (l : List α) (item : Msg), (∀ a ∈ l, Settled c.layout a) →
      (∃ l', (∀ a ∈ l', Settled c.layout a) ∧ c.readField item emplaceBack l = pure l') ∨
        Throws (c.readField item emplaceBack l) := by
    intro l item hl
    rcases hc.total item with ⟨v, hread, -⟩ | hfails
    · refine .inl ⟨l ++ [v], fun a ha => ?_, hread.emplace _ _ l (lawful_emplaceBack l)⟩
      rcases List.mem_append.mp ha with ha | ha
      · exact hl a ha
      · exact List.mem_singleton.mp ha ▸ hread.value_settled
    · exact .inr (hfails emplaceBack l (.makes (makes_back l)))
  rcases foldlM_or_throws hitem m.getList [] nofun with ⟨l, hl, hrun⟩ | hthrows
  · exact .inl ⟨l, settled_list hl, hrun⟩
  · exact .inr hthrows

/-- So is `std::vector<bool>`. -/
theorem decodes_vectorBool : Decodes (vectorBool (S := S)) fun _ new => new := by
  refine decodes_of_update (inline_of_nil fun _ _ => rfl) (fun _ _ _ => rfl) fun m => ?_
  refine updates_const (x := m.getList.foldlM (fun value item => do
    let a ← (number .bool .bool).readTemp item
    pure (value ++ [a])) []) ?_
  have hitem : ∀ (l : List (Number .bool)) (item : Msg), True →
      (∃ l', True ∧ (do
        let a ← (number .bool .bool).readTemp item
        pure (l ++ [a]) : M S (List (Number .bool))) = pure l') ∨
      Throws (do
        let a ← (number .bool .bool).readTemp item
        pure (l ++ [a]) : M S (List (Number .bool))) := by
    intro l item _
    rcases (decodes_number (S := S) .bool .bool).total item with ⟨v, hread, -⟩ | hfails
    · refine .inl ⟨l ++ [v], trivial, ?_⟩
      rw [hread.temp, pure_bind]
    · exact .inr (throws_bind hfails.temp)
  rcases foldlM_or_throws hitem m.getList [] trivial with ⟨l, -, hrun⟩ | hthrows
  · exact .inl ⟨l, fun _ => rfl, hrun⟩
  · exact .inr hthrows

/-- A tree is settled if its elements are. -/
theorem settled_tree {L : Layout S α} {o : StrictOrder α}
    (hless : ∀ h a b, o.less a b = true → o.less (L.resolve h a) (L.resolve h b) = true)
    {t : Tree o} (h : ∀ a ∈ t.elems, Settled L a) : Settled (L.tree o hless) t := fun heap =>
  Tree.ext ((List.map_congr_left fun a ha => h a ha heap).trans (List.map_id t.elems))

/-- A set is cleared, and each element read into a temporary and inserted. -/
theorem decodes_set {c : Overload S Msg α} {f : α → α → α} (hc : Decodes c f)
    (o : KeyOrder c.layout) : Decodes (set c o) fun _ new => new := by
  refine decodes_of_update (inline_of_nil fun _ _ => rfl) (fun _ _ _ => rfl) fun m => ?_
  refine updates_const (x := m.getList.foldlM (fun value item => c.readField item emplaceSet value)
    ⟨[], .nil⟩) ?_
  have hitem : ∀ (t : Tree o.toStrictOrder) (item : Msg), (∀ a ∈ t.elems, Settled c.layout a) →
      (∃ t', (∀ a ∈ t'.elems, Settled c.layout a) ∧ c.readField item emplaceSet t = pure t') ∨
        Throws (c.readField item emplaceSet t) := by
    intro t item ht
    rcases hc.total item with ⟨v, hread, -⟩ | hfails
    · refine .inl ⟨t.emplace v, fun a ha => ?_, hread.emplace true _ t (Dest.lawful_const _ t)⟩
      rcases Tree.mem_insert ha with rfl | ha
      · exact hread.value_settled
      · exact ht a ha
    · exact .inr (hfails emplaceSet t (.const _ t))
  rcases foldlM_or_throws hitem m.getList ⟨[], .nil⟩ nofun with ⟨t, ht, hrun⟩ | hthrows
  · exact .inl ⟨t, settled_tree o.less_resolve ht, hrun⟩
  · exact .inr hthrows

/-! ## Pairs -/

/-- A member of a pair in a place. -/
theorem lens_first {ref : Ref S τ (Pair κ α)} {set : Pair κ α → τ} (h : Lens ref set) (v : α) :
    Lens ref.first fun k => set ⟨k, v⟩ := by
  intro k f
  simp only [Ref.first, h ⟨k, v⟩, map_eq_pure_bind, bind_assoc, pure_bind]

/-- The second member of a pair is updated through the pair. -/
theorem lens_second {ref : Ref S τ (Pair κ α)} {set : Pair κ α → τ} (h : Lens ref set) (k : κ)
    (b : β) : Lens (ref.second.beside) fun v => (set ⟨k, v⟩, b) := by
  intro v f
  simp only [Ref.beside, Ref.second, h ⟨k, v⟩, map_eq_pure_bind, bind_assoc, pure_bind]

/-- The inner destination of the reader of a pair, where the pair is constructed at `set`. -/
theorem makes_emplaceValue {d : Dest S τ (Pair κ α)} {t : τ} {set : Pair κ α → τ}
    {ref : Ref S τ (Pair κ α)} (hconstruct : ∀ p, d.construct p t = pure (set p, ref))
    (hlens : Lens ref set) (k : κ) :
    Makes (fun v (s : τ × Option (Ref S τ κ)) => (do
      let (t, ret) ← d.construct ⟨k, v⟩ s.1
      pure ((t, some ret.first), ret.second.beside) : M S _)) (t, none)
      fun v => (set ⟨k, v⟩, some ref.first) := by
  refine ⟨ref.second.beside, fun v => ?_, lens_second hlens k _⟩
  simp only [hconstruct, pure_bind]

/-- And where a pair is found. -/
theorem finds_emplaceValue {d : Dest S τ (Pair κ α)} {t : τ} {x : Pair κ α} {set : Pair κ α → τ}
    {ref : Ref S τ (Pair κ α)} (hconstruct : ∀ p, d.construct p t = pure (set x, ref))
    (hlens : Lens ref set) (k : κ) :
    Finds (fun v (s : τ × Option (Ref S τ κ)) => (do
      let (t, ret) ← d.construct ⟨k, v⟩ s.1
      pure ((t, some ret.first), ret.second.beside) : M S _)) (t, none) x.second
      fun v => (set ⟨x.first, v⟩, some ref.first) := by
  refine ⟨ref.second.beside, fun v => ?_, lens_second hlens x.first _⟩
  simp only [hconstruct, pure_bind]

/-- An update of a place constructs there. -/
theorem construct_update {ref : Ref S τ α} {set : α → τ} (h : Lens ref set) (x a : α) :
    (Dest.readDestUpdate ref).construct a (set x) = pure (set a, ref) := by
  simp only [Dest.construct, h x, map_pure, pure_bind]

/-- The inner destination is one of those of the readers when the outer one is. -/
theorem place_emplaceValue {K : Layout S κ} {L : Layout S α} {d : Dest S τ (Pair κ α)} {t : τ}
    (place : Place (K.pair L) d t) (k : κ) : Place L (emplaceValue d k) (t, none) := by
  cases place with
  | const fn t => exact .const _ _
  | makes hmakes =>
    obtain ⟨ref, hfn, hlens⟩ := hmakes
    exact .makes (makes_emplaceValue hfn hlens k)
  | finds hfinds hx =>
    obtain ⟨ref, hfn, hlens⟩ := hfinds
    exact .finds (finds_emplaceValue hfn hlens k) fun h => congrArg Pair.second (hx h)
  | @update ref set x hlens hx => exact .makes (makes_emplaceValue (construct_update hlens x) hlens k)

/-- With the second member read, so is the destination of the first. -/
theorem place_emplaceKey {key : Overload S Slot κ} {value : Overload S Slot α} {m : Msg} {v : α}
    {g : α → α} (hread : Reads value (m.getSlot 1) v) (hleaves : Leaves value (m.getSlot 1) g)
    {d : Dest S τ (Pair κ α)} {t : τ} (place : Place (key.layout.pair value.layout) d t) :
    Place key.layout (emplaceKey false value m d) t := by
  cases place with
  | const fn t => exact .const _ _
  | @makes fn t set hmakes =>
    obtain ⟨ref, hfn, hlens⟩ := hmakes
    refine @Place.makes _ _ _ _ _ _ (fun k => set ⟨k, v⟩)
      ⟨ref.first, fun k => ?_, lens_first hlens v⟩
    have hmakes := makes_emplaceValue (d := .readDestEmplace false fn) hfn hlens k
    have hvalue : value.readField (m.getSlot 1)
        (emplaceValue (.readDestEmplace false fn) k) (t, none) =
          pure (set ⟨k, v⟩, some ref.first) := by
      rw [emplaceValue, hread.emplace _ _ _ (hmakes.lawful _)]
      simp only [Dest.put, Dest.construct, hfn, pure_bind, map_pure]
    simp only [hvalue, pure_bind]
  | @finds fn t x set hfinds hx =>
    obtain ⟨ref, hfn, hlens⟩ := hfinds
    have hfirst : Settled key.layout x.first := fun h => congrArg Pair.first (hx h)
    have hsecond : Settled value.layout x.second := fun h => congrArg Pair.second (hx h)
    refine @Place.finds _ _ _ _ _ _ x.first (fun k => set ⟨k, g x.second⟩)
      ⟨ref.first, fun k => ?_, lens_first hlens _⟩ hfirst
    have hvalue : value.readField (m.getSlot 1)
        (emplaceValue (.readDestEmplace false fn) k) (t, none) =
          pure (set ⟨x.first, g x.second⟩, some ref.first) :=
      hleaves _ _ _ _ _ (finds_emplaceValue (d := .readDestEmplace false fn) hfn hlens k) hsecond
    simp only [hvalue, pure_bind]
  | @update ref set x hlens hx =>
    refine @Place.makes _ _ _ _ _ _ (fun k => set ⟨k, v⟩)
      ⟨ref.first, fun k => ?_, lens_first hlens v⟩
    have hconstruct := construct_update (S := S) hlens x
    have hmakes := makes_emplaceValue (d := .readDestUpdate ref) hconstruct hlens k
    have hvalue : value.readField (m.getSlot 1) (emplaceValue (.readDestUpdate ref) k)
        (set x, none) = pure (set ⟨k, v⟩, some ref.first) := by
      rw [emplaceValue, hread.emplace _ _ _ (hmakes.lawful _)]
      simp only [Dest.put, Dest.construct, hlens x, pure_bind, map_pure]
    simp only [hvalue, pure_bind]

/-- The two members of a pair that was found are read one after the other. -/
theorem leaves_pair {key : Overload S Slot κ} {value : Overload S Slot α} {m : Msg} {f : κ → κ}
    {g : α → α} (hk : Leaves key (m.getSlot 0) f) (hv : Leaves value (m.getSlot 1) g) :
    Leaves (pair key value) m fun x => ⟨f x.first, g x.second⟩ := by
  intro τ fn t x set hfinds hx
  obtain ⟨ref, hfn, hlens⟩ := hfinds
  have hfirst : Settled key.layout x.first := fun h => congrArg Pair.first (hx h)
  have hsecond : Settled value.layout x.second := fun h => congrArg Pair.second (hx h)
  have hinner : ∀ k, value.readField (m.getSlot 1)
      (emplaceValue (.readDestEmplace false fn) k) (t, none) =
        pure (set ⟨x.first, g x.second⟩, some ref.first) := fun k =>
    hv _ _ _ _ _ (finds_emplaceValue (d := .readDestEmplace false fn) hfn hlens k) hsecond
  refine hk _ _ _ x.first (fun k => set ⟨k, g x.second⟩)
    ⟨ref.first, fun k => ?_, lens_first hlens _⟩ hfirst
  simp only [hinner, pure_bind]

/-- A value that throws makes the reader of the pair throw, whatever its key is. -/
theorem throws_of_value {key : Overload S Slot κ} {value : Overload S Slot α} (hkey : Calls key)
    {m : Msg} {constKey : Bool} {d : Dest S τ (Pair κ α)} {t : τ}
    (hvalue : ∀ k, Throws (value.readField (m.getSlot 1) (emplaceValue d k) (t, none))) :
    Throws (readPair constKey key value m d t) :=
  hkey _ _ _ _ fun k => throws_bind (hvalue k)

/-- The members of a pair are read one after the other. -/
theorem decodes_pair {key : Overload S Slot κ} {value : Overload S Slot α} {f : κ → κ → κ}
    {g : α → α → α} (hk : Decodes key f) (hv : Decodes value g) :
    Decodes (pair key value)
      fun old new => ⟨f old.first new.first, g old.second new.second⟩ where
  total m := by
    rcases hv.total (m.getSlot 1) with ⟨v, hvread, hvleaves⟩ | hvfails
    · rcases hk.total (m.getSlot 0) with ⟨k, hkread, hkleaves⟩ | hkfails
      · refine .inl ⟨⟨k, v⟩, .of_put (fun h => ?_) fun d t hd => ?_, leaves_pair hkleaves hvleaves⟩
        · show (⟨_, _⟩ : Pair κ α) = _
          rw [hkread.value_settled h, hvread.value_settled h]
        · refine readPair_eq_put hkread hvread ?_ ?_
          · exact fun hc p f => hd (by simpa using hc) p _
          · exact fun hc k' _ v f => hd hc _ _
      · exact .inr fun d t place => hkfails _ t (place_emplaceKey hvread hvleaves place)
    · exact .inr fun d t place => throws_of_value hk.calls fun k =>
        hvfails _ _ (place_emplaceValue place k)
  calls m isConst fn t hfn := throws_of_value hk.calls fun k =>
    hv.calls _ _ _ _ fun v => throws_bind (hfn ⟨k, v⟩)
  inline := inline_of_nil fun _ _ => rfl
  settled a b ha hb h := by
    have hfirst : key.layout.resolve h (f a.first b.first) = f a.first b.first :=
      hk.settled _ _ (fun h => congrArg Pair.first (ha h)) (fun h => congrArg Pair.first (hb h)) h
    have hsecond : value.layout.resolve h (g a.second b.second) = g a.second b.second :=
      hv.settled _ _ (fun h => congrArg Pair.second (ha h)) (fun h => congrArg Pair.second (hb h)) h
    show (⟨_, _⟩ : Pair κ α) = _
    rw [hfirst, hsecond]

/-- A tuple is two members that are updated. -/
theorem decodes_tuple {key : Overload S Slot α} {value : Overload S Slot β} {f : α → α → α}
    {g : β → β → β} (hk : Decodes key f) (hv : Decodes value g) :
    Decodes (tuple key value) fun _ new => new :=
  decodes_of_update (inline_prod hk.inline hv.inline) (fun _ _ _ => rfl) fun m =>
    (hk.updates (m.getSlot 0)).prod (hv.updates (m.getSlot 1))

/-! ## Maps -/

/-- The `emplace` of a new key makes the entry. -/
theorem makes_entry {o : StrictOrder κ} {t : Tree (o.on (Pair.first (α := α)))} {k : κ}
    (hk : ∀ e ∈ t.elems, o.equiv e.first k = false) :
    Makes (S := S) (fun v (s : Tree (o.on (Pair.first (α := α))) × Option (Ref S _ κ)) => (do
      let (t, ret) ← emplaceMap.construct ⟨k, v⟩ s.1
      pure ((t, some ret.first), ret.second.beside) : M S _)) (t, none)
      fun v => (t.emplace ⟨k, v⟩, some (Tree.entry k).first) := by
  refine ⟨(Tree.entry k).second.beside, fun v => rfl, fun v f => ?_⟩
  have hfind : (t.emplace ⟨k, v⟩).elems.find? (fun e => o.equiv e.first k) = some ⟨k, v⟩ :=
    find_insert o v hk
  have hset : ∀ w, (t.emplace ⟨k, v⟩).setSecond k w = t.emplace ⟨k, w⟩ := fun w =>
    Tree.ext (set_insert o v w hk)
  simp only [Ref.beside, Ref.second, Tree.entry, hfind, map_eq_pure_bind, bind_assoc, pure_bind,
    hset]

/-- The `emplace` of a key that is there finds the entry. -/
theorem finds_entry {o : StrictOrder κ} {t : Tree (o.on (Pair.first (α := α)))} {k : κ}
    {e : Pair κ α} (hfind : t.elems.find? (fun e => o.equiv e.first k) = some e) :
    Finds (S := S) (fun v (s : Tree (o.on (Pair.first (α := α))) × Option (Ref S _ κ)) => (do
      let (t, ret) ← emplaceMap.construct ⟨k, v⟩ s.1
      pure ((t, some ret.first), ret.second.beside) : M S _)) (t, none) e.second
      fun v => (t.setSecond k v, some (Tree.entry k).first) := by
  have he := List.mem_of_find?_eq_some hfind
  have hek : o.equiv e.first k = true := by simpa using List.find?_some hfind
  refine ⟨(Tree.entry k).second.beside, fun v => ?_, fun y f => ?_⟩
  · have hdrop : t.emplace ⟨k, v⟩ = t := t.emplace_of_equiv he hek
    simp only [emplaceMap, Dest.construct, pure_bind, hdrop, t.setSecond_self he hek]
  · simp only [Ref.beside, Ref.second, Tree.entry, t.find_setSecond hfind]
    simp only [map_eq_pure_bind, bind_assoc, pure_bind, t.setSecond_setSecond]

/-- Reading one pair into the map: the value is read into the new entry, or over the one that is
there. -/
theorem read_item {key : Overload S Slot κ} {value : Overload S Slot α} {g : α → α → α}
    {o : StrictOrder κ} {item : Msg} {p : Pair κ α} (hkey : Reads key (item.getSlot 0) p.first)
    (hvalue : Reads value (item.getSlot 1) p.second)
    (hleaves : Leaves value (item.getSlot 1) fun old => g old p.second)
    {t : Tree (o.on (Pair.first (α := α)))}
    (settled : ∀ e ∈ t.elems, Settled value.layout e.second) :
    readPair true key value item emplaceMap t = pure (t.readOver g p) := by
  have hread : readPair true key value item emplaceMap t =
      (emplaceKey true value item emplaceMap).put p.first t :=
    hkey.emplace true _ t (Dest.lawful_const _ t)
  have hput : ∀ t', value.readField (item.getSlot 1) (emplaceValue emplaceMap p.first) (t, none) =
      pure (t', some (Tree.entry p.first).first) →
        readPair true key value item emplaceMap t = pure t' := by
    intro t' hinner
    rw [hread, emplaceKey, Dest.put, Dest.construct, hinner]
    rfl
  refine hput _ ?_
  unfold Tree.readOver
  cases hfind : t.elems.find? fun e => o.equiv e.first p.first with
  | none =>
    have hnew : ∀ e ∈ t.elems, o.equiv e.first p.first = false := fun e he => by
      simpa using List.find?_eq_none.mp hfind e he
    rw [emplaceValue, hvalue.emplace _ _ _ ((makes_entry hnew).lawful _)]
    rfl
  | some e =>
    exact hleaves _ _ _ _ _ (finds_entry hfind) (settled e (List.mem_of_find?_eq_some hfind))

/-- An item whose key or value does not decode makes the reader of the map throw. -/
theorem throws_item {key : Overload S Slot κ} {value : Overload S Slot α} {f : κ → κ → κ}
    (hk : Decodes key f) {o : StrictOrder κ} {item : Msg}
    (hfails : Fails key (item.getSlot 0) ∨ Fails value (item.getSlot 1))
    {t : Tree (o.on (Pair.first (α := α)))}
    (settled : ∀ e ∈ t.elems, Settled value.layout e.second) :
    Throws (readPair true key value item (emplaceMap (S := S)) t) := by
  rcases hfails with hkey | hvalue
  · exact hkey _ t (.const _ t)
  · refine throws_of_value hk.calls fun k => hvalue _ _ ?_
    cases hfind : t.elems.find? fun e => o.equiv e.first k with
    | none =>
      refine .makes (makes_entry fun e he => ?_)
      simpa using List.find?_eq_none.mp hfind e he
    | some e => exact .finds (finds_entry hfind) (settled e (List.mem_of_find?_eq_some hfind))

/-- A map is cleared, and each pair emplaced, or read over the one of its key. -/
theorem decodes_map {key : Overload S Slot κ} {value : Overload S Slot α} {f : κ → κ → κ}
    {g : α → α → α} (hk : Decodes key f) (hv : Decodes value g) (o : KeyOrder key.layout) :
    Decodes (map key value o) fun _ new => new := by
  refine decodes_of_update (inline_of_nil fun _ _ => rfl) (fun _ _ _ => rfl) fun m => ?_
  refine updates_const (x := m.getList.foldlM
    (fun t item => readPair true key value item emplaceMap t) ⟨[], .nil⟩) ?_
  have hitem : ∀ (t : Tree (o.toStrictOrder.on Pair.first)) (item : Msg),
      (∀ e ∈ t.elems, Settled key.layout e.first ∧ Settled value.layout e.second) →
      (∃ t', (∀ e ∈ t'.elems, Settled key.layout e.first ∧ Settled value.layout e.second) ∧
        readPair true key value item emplaceMap t = pure t') ∨
          Throws (readPair true key value item (emplaceMap (S := S)) t) := by
    intro t item ht
    have hvalues : ∀ e ∈ t.elems, Settled value.layout e.second := fun e he => (ht e he).2
    rcases hk.total (item.getSlot 0) with ⟨k, hkread, -⟩ | hkfails
    · rcases hv.total (item.getSlot 1) with ⟨v, hvread, hleaves⟩ | hvfails
      · exact .inl ⟨t.readOver g ⟨k, v⟩,
          t.readOver_forall hv.settled ht ⟨hkread.value_settled, hvread.value_settled⟩,
          read_item (p := ⟨k, v⟩) hkread hvread hleaves hvalues⟩
      · exact .inr (throws_item hk (.inr hvfails) hvalues)
    · exact .inr (throws_item hk (.inl hkfails) hvalues)
  rcases foldlM_or_throws hitem m.getList ⟨[], .nil⟩ nofun with ⟨t, ht, hrun⟩ | hthrows
  · refine .inl ⟨t, settled_tree (fun h a b => o.less_resolve h a.first b.first)
      fun e he h => ?_, hrun⟩
    exact Pair.ext ((ht e he).1 h) ((ht e he).2 h)
  · exact .inr hthrows

/-! ## Structs -/

/-- The members of a struct from one on are read from any message, or the read throws. -/
structure MembersDecode (members : Members S β) : Prop where
  updates : ∀ index m, UpdatesOrThrows members.layout (members.readOne index m)
  inline : Inline members.layout

/-- No members. -/
theorem members_decode_nil : MembersDecode (Members.nil (S := S)) where
  updates _ _ := .inl ⟨(), .of_settled fun _ => rfl⟩
  inline := inline_of_nil fun _ _ => rfl

/-- One member more: the first that throws decides. -/
theorem members_decode_cons {c : Overload S Slot α} {rest : Members S β} {f : α → α → α}
    (hc : Decodes c f) (hrest : MembersDecode rest) : MembersDecode (Members.cons c rest) where
  updates index m := (hc.updates (m.getSlot index)).prod (hrest.updates (index + 1) m)
  inline := inline_prod hc.inline hrest.inline

/-- A struct is read member by member. -/
theorem decodes_struct {members : Members S β} (h : MembersDecode members) :
    Decodes (struct members) fun _ new => new :=
  decodes_of_update h.inline (fun _ _ _ => rfl) fun m => h.updates 0 m

/-! ## Fields -/

/-- A field decodes what its type does. -/
theorem decodes_field {c : Overload S Msg α} {f : α → α → α} (hc : Decodes c f) :
    Decodes (field c) f where
  total slot := by
    rcases hc.total slot.1 with ⟨v, hread, hleaves⟩ | hfails
    · exact .inl ⟨v, ⟨hread.emplace, hread.update⟩, hleaves⟩
    · exact .inr hfails
  calls slot := hc.calls slot.1
  inline := hc.inline
  settled := hc.settled

/-- An unset field makes it null; a set one is read into the object that is there, or into one that
is made. -/
theorem decodes_optional {c : Overload S Msg α} {f : α → α → α} (hc : Decodes c f)
    (companion : Bool) : Decodes (optional companion c) fun _ new => new := by
  refine decodes_of_update (inline_option hc.inline) (fun _ _ _ => rfl) fun slot => ?_
  show UpdatesOrThrows c.layout.option fun value =>
    if !hasField companion c.boxed slot then pure none else readOptional c slot.1 value
  cases hasField companion c.boxed slot with
  | false => exact .inl ⟨none, .of_settled fun _ => rfl⟩
  | true =>
    rcases hc.total slot.1 with ⟨v, hread, -⟩ | hfails
    · exact .inl ⟨some v, assigns_optional hread⟩
    · refine .inr fun o ho => ?_
      cases o with
      | none => exact hfails emplaceOptional none (.makes (makes_temp none))
      | some a =>
        have ha : Settled c.layout a := fun h => Option.some.inj (ho h)
        exact hfails (.readDestUpdate .value) (some a) (.update lens_value ha)

/-- So does a `std::shared_ptr`, whose object is its own if it was read. -/
theorem decodes_sharedPtr {c : Overload S Msg α} {f : α → α → α} (hc : Decodes c f) :
    Decodes (sharedPtr c) fun _ new => new := by
  refine decodes_of_update (inline_sharedPtr hc.inline) (fun _ _ _ => rfl) fun slot => ?_
  show UpdatesOrThrows c.layout.sharedPtr fun value =>
    if !hasField false c.boxed slot then pure .null else readShared c slot.1 value
  cases hasField false c.boxed slot with
  | false => exact .inl ⟨.null, .of_settled fun _ => rfl⟩
  | true =>
    rcases hc.total slot.1 with ⟨v, hread, -⟩ | hfails
    · exact .inl ⟨.own v, assigns_sharedPtr hread⟩
    · refine .inr fun o ho => ?_
      cases o with
      | null => exact hfails (makeShared false) .null (.makes (makes_shared .null))
      | own a =>
        have ha : Settled c.layout a := fun h => SharedPtr.own.inj (ho h)
        exact hfails (.readDestUpdate .pointee) (.own a) (.update lens_pointee ha)
      | shared p =>
        intro h
        cases ho h

/-- A pointer to `const` always gets a new object. -/
theorem decodes_sharedPtrConst {c : Overload S Msg α} {f : α → α → α} (hc : Decodes c f) :
    Decodes (sharedPtrConst c) fun _ new => new := by
  refine decodes_of_update (inline_of_nil fun _ _ => rfl) (fun _ _ _ => rfl) fun slot => ?_
  show UpdatesOrThrows c.layout.sharedPtrConst fun value =>
    if !hasField false c.boxed slot then pure .null
    else c.readField slot.1 (makeShared true) value
  cases hasField false c.boxed slot with
  | false => exact .inl ⟨.null, .of_settled fun _ => rfl⟩
  | true =>
    rcases hc.total slot.1 with ⟨v, hread, -⟩ | hfails
    · have hnew : ∀ o, c.readField slot.1 (makeShared true) o = pure (.own v) := fun o =>
        hread.emplace _ _ _ (lawful_makeShared true o)
      simp only [Bool.not_true, Bool.false_eq_true, if_false, hnew]
      exact .inl ⟨.own v, .of_settled fun h => congrArg SharedPtr.own (hread.value_settled h)⟩
    · exact .inr fun o _ => hfails (makeShared true) o (.const _ o)

/-! ## All types -/

/-- Every supported type decodes any message or throws, by induction over how it is composed. -/
theorem exists_decodes {c : Overload S Slot α} (h : SupportedField c) : ∃ f, Decodes c f := by
  refine @SupportedField.rec S (fun c _ => ∃ f, Decodes c f) (fun c _ => ∃ f, Decodes c f)
    (fun members _ => MembersDecode members) ?number ?enum ?duration ?string ?data ?vector
    ?vectorBool ?set ?map ?pair ?tuple ?struct ?field ?optional ?sharedPtr ?sharedPtrConst ?nil
    ?cons α c h
  case number => exact fun {loc wire} _ => ⟨_, decodes_number loc wire⟩
  case enum => exact fun {loc wire} _ => ⟨_, decodes_enum loc wire⟩
  case duration => exact fun {rep wire} _ _ => ⟨_, decodes_duration rep wire⟩
  case string => exact ⟨_, decodes_string⟩
  case data => exact fun b => ⟨_, decodes_data b⟩
  case vector => exact fun _ ⟨_, hc⟩ => ⟨_, decodes_vector hc⟩
  case vectorBool => exact ⟨_, decodes_vectorBool⟩
  case set => exact fun _ o ⟨_, hc⟩ => ⟨_, decodes_set hc o⟩
  case map => exact fun _ _ o ⟨_, hk⟩ ⟨_, hv⟩ => ⟨_, decodes_map hk hv o⟩
  case pair => exact fun _ _ ⟨_, hk⟩ ⟨_, hv⟩ => ⟨_, decodes_pair hk hv⟩
  case tuple => exact fun _ _ ⟨_, hk⟩ ⟨_, hv⟩ => ⟨_, decodes_tuple hk hv⟩
  case struct => exact fun _ ih => ⟨_, decodes_struct ih⟩
  case field => exact fun _ ⟨_, hc⟩ => ⟨_, decodes_field hc⟩
  case optional => exact fun _ companion _ ⟨_, hc⟩ => ⟨_, decodes_optional hc companion⟩
  case sharedPtr => exact fun _ _ ⟨_, hc⟩ => ⟨_, decodes_sharedPtr hc⟩
  case sharedPtrConst => exact fun _ _ ⟨_, hc⟩ => ⟨_, decodes_sharedPtrConst hc⟩
  case nil => exact members_decode_nil
  case cons => exact fun _ _ ⟨_, hc⟩ ih => members_decode_cons hc ih

/-- So do the members of a struct. -/
theorem members_decode : {β : Type} → {members : Members S β} → SupportedMembers members →
    MembersDecode members
  | _, _, .nil => members_decode_nil
  | _, _, .cons h hrest =>
    have ⟨_, hc⟩ := exists_decodes h
    members_decode_cons hc (members_decode hrest)

/-- The same of a type that is read from any field and from a list element. -/
theorem Supported.exists_decodes {c : Overload S Msg α} (h : Supported c) : ∃ f, Decodes c f := by
  obtain ⟨f, hf⟩ := Codec.exists_decodes (.field h)
  refine ⟨f, fun m => ?_, fun m => hf.calls (m, false), hf.inline, hf.settled⟩
  rcases hf.total (m, false) with ⟨v, hread, hleaves⟩ | hfails
  · exact .inl ⟨v, ⟨hread.emplace, hread.update⟩, hleaves⟩
  · exact .inr hfails

end Multiprocess.Codec
