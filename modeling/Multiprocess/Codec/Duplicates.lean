import Multiprocess.Codec.Decodes

/-!
# Keys that come twice

The reader of `std::map` inserts each pair from inside the reader of the pair, by an `emplace`
which returns the entry of the key, a new one or the one that is there. What happens to an entry
that is there depends on how the value is read. A reader that constructs its object has decoded it
by then, and the arguments of the `emplace` are dropped. A reader that updates its object does so
after the `emplace`, and updates the entry. The reader of a pair is of both kinds, member by
member.

`Merges` says what a second read leaves. `map_first_iff` says for which received lists the map is
the one that `emplace` makes of the decoded pairs. The items of the list are any messages. What is
in the map before does not matter; what the exception is if an item does not decode is not said.
-/

namespace Multiprocess.Codec

open Integral

variable {S : Store} {α β κ μ : Type}

mutual

/-- A value `new` that is read over an entry with the value `old` leaves `merge old new`. -/
inductive Merges : {α : Type} → Overload S Msg α → (α → α → α) → Prop
  | number {loc wire : Integral} (h : Represents loc wire) :
    Merges (number loc wire) fun old _ => old
  | enum {loc wire : Integral} (h : enumWithin loc wire = true) :
    Merges (enum loc wire) fun old _ => old
  | duration {rep wire : Integral} (hrep : rep ≠ .bool) (h : limitsWithin rep wire = true) :
    Merges (duration rep wire) fun old _ => old
  | string : Merges string fun old _ => old
  | data {α : Type} (b : ByteContainer α) : Merges (data b) fun old _ => old
  | vector {α : Type} {c : Overload S Msg α} (h : Supported c) :
    Merges (vector c) fun _ new => new
  | vectorBool : Merges vectorBool fun _ new => new
  | set {α : Type} {c : Overload S Msg α} (h : Supported c) (o : KeyOrder c.layout) :
    Merges (set c o) fun _ new => new
  | map {κ α : Type} {key : Overload S Slot κ} {value : Overload S Slot α}
    (hk : SupportedField key) (hv : SupportedField value) (o : KeyOrder key.layout) :
    Merges (map key value o) fun _ new => new
  | pair {κ α : Type} {key : Overload S Slot κ} {value : Overload S Slot α} {f : κ → κ → κ}
    {g : α → α → α} (hk : MergesField key f) (hv : MergesField value g) :
    Merges (pair key value) fun old new => ⟨f old.first new.first, g old.second new.second⟩
  | tuple {α β : Type} {key : Overload S Slot α} {value : Overload S Slot β}
    (hk : SupportedField key) (hv : SupportedField value) :
    Merges (tuple key value) fun _ new => new
  | struct {β : Type} {members : Members S β} (h : SupportedMembers members) :
    Merges (struct members) fun _ new => new

inductive MergesField : {α : Type} → Overload S Slot α → (α → α → α) → Prop
  | field {α : Type} {c : Overload S Msg α} {f : α → α → α} (h : Merges c f) :
    MergesField (field c) f
  | optional {α : Type} {c : Overload S Msg α} (h : Supported c) {companion : Bool}
    (hhas : companion = true ∨ c.boxed = true) :
    MergesField (optional companion c) fun _ new => new
  | sharedPtr {α : Type} {c : Overload S Msg α} (h : Supported c) (hboxed : c.boxed = true) :
    MergesField (sharedPtr c) fun _ new => new
  | sharedPtrConst {α : Type} {c : Overload S Msg α} (h : Supported c)
    (hboxed : c.boxed = true) : MergesField (sharedPtrConst c) fun _ new => new

end

/-- Every supported type is of one of these kinds. -/
theorem exists_merges {c : Overload S Slot α} (h : SupportedField c) :
    ∃ f, MergesField c f := by
  refine @SupportedField.rec S (fun c _ => ∃ f, Merges c f) (fun c _ => ∃ f, MergesField c f)
    (fun _ _ => True) ?number ?enum ?duration ?string ?data ?vector ?vectorBool ?set ?map ?pair
    ?tuple ?struct ?field ?optional ?sharedPtr ?sharedPtrConst ?nil ?cons α c h
  case number => exact fun h => ⟨_, .number h⟩
  case enum => exact fun h => ⟨_, .enum h⟩
  case duration => exact fun hrep h => ⟨_, .duration hrep h⟩
  case string => exact ⟨_, .string⟩
  case data => exact fun b => ⟨_, .data b⟩
  case vector => exact fun h _ => ⟨_, .vector h⟩
  case vectorBool => exact ⟨_, .vectorBool⟩
  case set => exact fun h o _ => ⟨_, .set h o⟩
  case map => exact fun hk hv o _ _ => ⟨_, .map hk hv o⟩
  case pair => exact fun _ _ ⟨f, hf⟩ ⟨g, hg⟩ => ⟨_, .pair hf hg⟩
  case tuple => exact fun hk hv _ _ => ⟨_, .tuple hk hv⟩
  case struct => exact fun h _ => ⟨_, .struct h⟩
  case field => exact fun _ ⟨f, hf⟩ => ⟨_, .field hf⟩
  case optional => exact fun h _ hhas _ => ⟨_, .optional h hhas⟩
  case sharedPtr => exact fun h hboxed _ => ⟨_, .sharedPtr h hboxed⟩
  case sharedPtrConst => exact fun h hboxed _ => ⟨_, .sharedPtrConst h hboxed⟩
  case nil => trivial
  case cons => exact fun _ _ _ _ => trivial

/-- What `Merges` stands for: over another value the reader leaves the two merged. -/
theorem decodes_of_merges {c : Overload S Slot α} {f : α → α → α} (h : MergesField c f) :
    Decodes c f := by
  refine @MergesField.rec S (fun c f _ => Decodes c f) (fun c f _ => Decodes c f) ?number ?enum
    ?duration ?string ?data ?vector ?vectorBool ?set ?map ?pair ?tuple ?struct ?field ?optional
    ?sharedPtr ?sharedPtrConst α c f h
  case number => exact fun {loc wire} _ => decodes_number loc wire
  case enum => exact fun {loc wire} _ => decodes_enum loc wire
  case duration => exact fun {rep wire} _ _ => decodes_duration rep wire
  case string => exact decodes_string
  case data => exact fun b => decodes_data b
  case vector =>
    intro _ _ h
    obtain ⟨_, hc⟩ := h.exists_decodes
    exact decodes_vector hc
  case vectorBool => exact decodes_vectorBool
  case set =>
    intro _ _ h o
    obtain ⟨_, hc⟩ := h.exists_decodes
    exact decodes_set hc o
  case map =>
    intro _ _ _ _ hk hv o
    obtain ⟨_, hk⟩ := exists_decodes hk
    obtain ⟨_, hv⟩ := exists_decodes hv
    exact decodes_map hk hv o
  case pair => exact fun _ _ hk hv => decodes_pair hk hv
  case tuple =>
    intro _ _ _ _ hk hv
    obtain ⟨_, hk⟩ := exists_decodes hk
    obtain ⟨_, hv⟩ := exists_decodes hv
    exact decodes_tuple hk hv
  case struct =>
    intro _ _ h
    exact decodes_struct (members_decode h)
  case field => exact fun _ hc => decodes_field hc
  case optional =>
    intro _ _ h companion _
    obtain ⟨_, hc⟩ := h.exists_decodes
    exact decodes_optional hc companion
  case sharedPtr =>
    intro _ _ h _
    obtain ⟨_, hc⟩ := h.exists_decodes
    exact decodes_sharedPtr hc
  case sharedPtrConst =>
    intro _ _ h _
    obtain ⟨_, hc⟩ := h.exists_decodes
    exact decodes_sharedPtrConst hc

/-! ## Received lists of pairs -/

/-- On the heap, the item is the pair fully decoded: each member is what a read into a temporary
gives. -/
def DecodesPair (key : Overload S Slot κ) (value : Overload S Slot α) (h : S.Heap) (p : Pair κ α)
    (item : Msg) : Prop :=
  key.readTemp (item.getSlot 0) h = .ok (p.first, h) ∧
    value.readTemp (item.getSlot 1) h = .ok (p.second, h)

/-- Both members of all entries were read. -/
def EntriesSettled (K : Layout S κ) (L : Layout S α) {o : StrictOrder κ}
    (t : Tree (o.on (Pair.first (α := α)))) : Prop :=
  ∀ e ∈ t.elems, Settled K e.first ∧ Settled L e.second

/-- Reading the decoded items into the map, one after the other. -/
theorem read_decoded {key : Overload S Slot κ} {value : Overload S Slot α} {f : κ → κ → κ}
    {g : α → α → α} (hk : Decodes key f) (hv : Decodes value g) {o : StrictOrder κ} {h : S.Heap}
    {pairs : List (Pair κ α)} {items : List Msg}
    (decoded : List.Forall₂ (DecodesPair key value h) pairs items)
    {t : Tree (o.on (Pair.first (α := α)))} (settled : EntriesSettled key.layout value.layout t) :
    items.foldlM (fun t item => readPair true key value item emplaceMap t) t =
      pure (pairs.foldl (Tree.readOver g) t) := by
  induction decoded generalizing t with
  | nil => rfl
  | @cons p item pairs items hp _ ih =>
    obtain ⟨hkey, -⟩ := hk.reads hp.1
    obtain ⟨hvalue, hleaves⟩ := hv.reads hp.2
    have hrun : readPair true key value item emplaceMap t = pure (t.readOver g p) :=
      read_item hkey hvalue hleaves fun e he => (settled e he).2
    rw [List.foldlM_cons, hrun, pure_bind, List.foldl_cons]
    exact ih (t.readOver_forall hv.settled settled ⟨hkey.value_settled, hvalue.value_settled⟩)

/-- Received items are so many decoded pairs, or reading them into the map throws. -/
theorem decoded_or_throws {key : Overload S Slot κ} {value : Overload S Slot α} {f : κ → κ → κ}
    {g : α → α → α} (hk : Decodes key f) (hv : Decodes value g) {o : StrictOrder κ}
    (items : List Msg) {t : Tree (o.on (Pair.first (α := α)))}
    (settled : EntriesSettled key.layout value.layout t) :
    (∃ pairs, ∀ h : S.Heap, List.Forall₂ (DecodesPair key value h) pairs items) ∨
      Throws (items.foldlM (fun t item => readPair true key value item (emplaceMap (S := S)) t)
        t) := by
  induction items generalizing t with
  | nil => exact .inl ⟨[], fun _ => .nil⟩
  | cons item items ih =>
    rw [List.foldlM_cons]
    have hvalues : ∀ e ∈ t.elems, Settled value.layout e.second := fun e he => (settled e he).2
    rcases hk.total (item.getSlot 0) with ⟨k, hkread, -⟩ | hkfails
    · rcases hv.total (item.getSlot 1) with ⟨v, hvread, hleaves⟩ | hvfails
      · rw [read_item (p := ⟨k, v⟩) hkread hvread hleaves hvalues, pure_bind]
        have hnext : EntriesSettled key.layout value.layout (t.readOver g ⟨k, v⟩) :=
          t.readOver_forall hv.settled settled ⟨hkread.value_settled, hvread.value_settled⟩
        rcases ih hnext with ⟨pairs, hpairs⟩ | hthrows
        · exact .inl ⟨⟨k, v⟩ :: pairs, fun h =>
            .cons ⟨congrFun hkread.temp h, congrFun hvread.temp h⟩ (hpairs h)⟩
        · exact .inr hthrows
      · exact .inr (throws_bind (throws_item hk (.inr hvfails) hvalues))
    · exact .inr (throws_bind (throws_item hk (.inl hkfails) hvalues))

/-- The reader of a map makes of any received list, whatever was in the map, what `emplace` makes of
the decoded pairs if and only if, for each key, the values that came with it merge into the first.
With a value that is constructed they always do; with one that is updated they do when the last is
like the first. A list with an item that does not decode makes it throw. -/
theorem map_first_iff {key : Overload S Slot κ} {value : Overload S Slot α}
    (hk : SupportedField key) (hv : SupportedField value) (o : KeyOrder key.layout) :
    (∃ g, MergesField value g) ∧ ∀ g, MergesField value g →
      ∀ (items : List Msg) (h : S.Heap) (t : Tree (o.toStrictOrder.on Pair.first)),
        (∀ pairs, List.Forall₂ (DecodesPair key value h) pairs items →
          ((map key value o).readUpdate (.list items) t h =
              .ok (Tree.emplaceAll o.toStrictOrder pairs, h) ↔
            ∀ k v vs, valuesOf o.toStrictOrder pairs k = v :: vs → vs.foldl g v = v)) ∧
        ((∀ pairs, ¬ List.Forall₂ (DecodesPair key value h) pairs items) →
          ∀ r, (map key value o).readUpdate (.list items) t h ≠ .ok r) := by
  obtain ⟨_, hkey⟩ := exists_decodes hk
  refine ⟨exists_merges hv, fun g hg items h t => ⟨fun pairs decoded => ?_, fun hnone => ?_⟩⟩
  · have hread : (map key value o).readUpdate (.list items) t =
        pure (Tree.readAll o.toStrictOrder g pairs) :=
      read_decoded hkey (decodes_of_merges hg) decoded (t := ⟨[], .nil⟩) nofun
    rw [hread, ← readAll_eq_emplaceAll_iff]
    constructor
    · intro heq
      exact congrArg Prod.fst (Except.ok.inj heq)
    · intro heq
      rw [heq]
      rfl
  · rcases decoded_or_throws hkey (decodes_of_merges hg) items (t := ⟨[], .nil⟩)
      (o := o.toStrictOrder) nofun with ⟨pairs, hpairs⟩ | hthrows
    · exact absurd (hpairs h) (hnone pairs)
    · exact hthrows h

/-- The fields of a map from `Int32` to `List(Bool)`. -/
def int32Key : Overload S Slot (Number .int32) := field (number .int32 .int32)

def boolsValue : Overload S Slot (List (Number .bool)) := field vectorBool

def int32Order : KeyOrder (int32Key (S := S)).layout := ⟨int32Less, fun _ _ _ h => h⟩

/-- The key 1 with the given flag. -/
def oneFlag (flag : Int) : Pair (Number .int32) (List (Number .bool)) :=
  ⟨cast .int32 1, [cast .bool flag]⟩

def oneFlagItem (flag : Int) : Msg :=
  .struct [(.number 1, false), (.list [.number flag], false)]

/-- The key 1 comes three times, and at last with the flag that it came with first. -/
theorem map_first_iff_repeated :
    (map (S := oneString) int32Key boolsValue int32Order).readUpdate
        (.list [oneFlagItem 1, oneFlagItem 0, oneFlagItem 1]) ⟨[], .nil⟩ (fun _ => []) =
      .ok (Tree.emplaceAll int32Less [oneFlag 1, oneFlag 0, oneFlag 1], fun _ => []) := by
  have hdecoded : ∀ flag : Int, flag = 0 ∨ flag = 1 →
      DecodesPair (S := oneString) int32Key boolsValue (fun _ => []) (oneFlag flag)
        (oneFlagItem flag) := by
    rintro _ (rfl | rfl) <;> exact ⟨rfl, rfl⟩
  obtain ⟨hiff, -⟩ := (map_first_iff (S := oneString) (.field (.number fun _ h => h))
    (.field .vectorBool) int32Order).2 (fun _ new => new) (.field .vectorBool)
      [oneFlagItem 1, oneFlagItem 0, oneFlagItem 1] (fun _ => []) ⟨[], .nil⟩
  refine (hiff [oneFlag 1, oneFlag 0, oneFlag 1] (.cons (hdecoded 1 (.inr rfl))
    (.cons (hdecoded 0 (.inl rfl)) (.cons (hdecoded 1 (.inr rfl)) .nil)))).mpr ?_
  intro k v vs hvalues
  -- all three came with the key or none did
  cases hk : int32Less.equiv (cast .int32 1) k with
  | false =>
    simp [valuesOf, int32Order, oneFlag, hk] at hvalues
  | true =>
    simp only [valuesOf, int32Order, oneFlag, hk, List.filter_cons, List.filter_nil, if_true,
      List.map_cons, List.map_nil, List.cons.injEq] at hvalues
    obtain ⟨rfl, rfl⟩ := hvalues
    rfl

/-- The key 1 comes with a set flag and again with a clear one, and the second is what is left. -/
theorem map_last :
    ¬ ∀ (S : Store) (κ α : Type) (key : Overload S Slot κ) (value : Overload S Slot α),
      SupportedField key → SupportedField value → ∀ (o : KeyOrder key.layout) (h : S.Heap)
        (pairs : List (Pair κ α)) (items : List Msg),
        List.Forall₂ (DecodesPair key value h) pairs items → ∀ t,
          (map key value o).readUpdate (.list items) t h =
            .ok (Tree.emplaceAll o.toStrictOrder pairs, h) := by
  intro hall
  have hrun := hall oneString _ _ int32Key boolsValue (.field (.number fun _ h => h))
    (.field .vectorBool) int32Order (fun _ => []) [oneFlag 1, oneFlag 0]
    [oneFlagItem 1, oneFlagItem 0] (.cons ⟨rfl, rfl⟩ (.cons ⟨rfl, rfl⟩ .nil)) ⟨[], .nil⟩
  have hflags := congrArg (fun r => r.toOption.map fun s =>
    s.1.elems.map fun e => e.second.map Subtype.val) hrun
  revert hflags
  decide

end Multiprocess.Codec
