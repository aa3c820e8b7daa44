import Multiprocess.Codec.Dest

/-!
# The overloads of `CustomBuildField` and `CustomReadField`

A message is a tree: a struct has slots, and a slot has a value and the flag of its has-companion.
An `Overload` is what the overload resolution gives for one C++ type and one Cap'n Proto type. Overloads
which work on any field and on list elements have messages of type `Msg`; those which need the
accessor of a struct field, `std::optional` and `std::shared_ptr`, have a `Slot`.

A builder only reads the object it is given. A reader takes any destination, and what it does
follows the source: some construct their object, some update it, and the reader of a pair
constructs it from inside two nested reads.

Interfaces, functions and `mp.Context` have overloads of their own, which are not here. How much a
builder allocates is looked at in `Sizes`.
-/

namespace Multiprocess.Codec

/-- A Cap'n Proto value. A pointer field that was never initialized is null. -/
inductive Msg where
  | null
  | number (x : Int)
  | blob (bytes : List UInt8)
  | list (items : List Msg)
  | struct (slots : List (Msg × Bool))

/-- A field of a struct, with the flag of its has-companion if there is one. -/
abbrev Slot : Type := Msg × Bool

namespace Msg

def isNull : Msg → Bool
  | null => true
  | _ => false

/-! The getters return the default of their type for what was not initialized. -/

def getNumber (wire : Integral) : Msg → Number wire
  | number x => cast wire x
  | _ => cast wire 0

def getBlob : Msg → List UInt8
  | blob bytes => bytes
  | _ => []

def getList : Msg → List Msg
  | list items => items
  | _ => []

def getSlot (index : Nat) : Msg → Slot
  | struct slots => slots.getD index (null, false)
  | _ => (null, false)

end Msg

variable {S : Store} {α β κ μ τ : Type}

/-- What is in a `std::shared_ptr`: nothing, an object that it owns alone, or an object on the heap
which others may point to as well. -/
inductive SharedPtr (S : Store) (α : Type) where
  | null
  | own (x : α)
  | shared (p : Ptr S α)

/-- `std::pair`. -/
structure Pair (κ α : Type) where
  first : κ
  second : α
  deriving DecidableEq

/-- An order of the elements of a `std::set` or the keys of a `std::map`: a strict weak one, as both
require. Elements of which none comes before the other are equivalent. -/
structure StrictOrder (α : Type) where
  less : α → α → Bool
  irrefl : ∀ a, less a a = false
  trans : ∀ a b c, less a b = true → less b c = true → less a c = true
  weak : ∀ a b c, less a b = false → less b a = false → less b c = false → less c b = false →
    less a c = false

/-- The order of what `f` takes from each element. -/
def StrictOrder.on (o : StrictOrder κ) (f : α → κ) : StrictOrder α where
  less a b := o.less (f a) (f b)
  irrefl a := o.irrefl (f a)
  trans a b c := o.trans (f a) (f b) (f c)
  weak a b c := o.weak (f a) (f b) (f c)

/-- The nodes of a `std::set` or a `std::map` in their order. -/
structure Tree (o : StrictOrder α) where
  elems : List α
  sorted : elems.Pairwise fun a b => o.less a b = true

/-! ## Types

What a type of C++ is to the proofs: its default object, what its objects stand for with all
pointers followed, and which objects of the heap are written to when one is updated in place. -/

structure Layout (S : Store) (α : Type) where
  dflt : α
  resolve : S.Heap → α → α
  inPlace : S.Heap → α → List S.Addr
  resolve_resolve : ∀ h h' a, resolve h' (resolve h a) = resolve h a
  resolve_dflt : ∀ h, resolve h dflt = dflt
  inPlace_dflt : ∀ h, inPlace h dflt = []
  inPlace_congr : ∀ h h' a, (∀ x ∈ inPlace h a, h' x = h x) → inPlace h' a = inPlace h a

namespace Layout

/-- A type without pointers. -/
def plain (dflt : α) : Layout S α where
  dflt := dflt
  resolve _ a := a
  inPlace _ _ := []
  resolve_resolve _ _ _ := rfl
  resolve_dflt _ := rfl
  inPlace_dflt _ := rfl
  inPlace_congr _ _ _ _ := rfl

/-- A vector is cleared before it is filled. -/
def list (L : Layout S α) : Layout S (List α) where
  dflt := []
  resolve h := List.map (L.resolve h)
  inPlace _ _ := []
  resolve_resolve h h' l := by simp [L.resolve_resolve]
  resolve_dflt _ := rfl
  inPlace_dflt _ := rfl
  inPlace_congr _ _ _ _ := rfl

/-- So are a set and a map. Their order does not depend on what is on the heap. -/
def tree (L : Layout S α) (o : StrictOrder α)
    (hless : ∀ h a b, o.less a b = true → o.less (L.resolve h a) (L.resolve h b) = true) :
    Layout S (Tree o) where
  dflt := ⟨[], .nil⟩
  resolve h t := ⟨t.elems.map (L.resolve h), List.pairwise_map.mpr (t.sorted.imp (hless h _ _))⟩
  inPlace _ _ := []
  resolve_resolve h h' t := by simp [L.resolve_resolve]
  resolve_dflt _ := rfl
  inPlace_dflt _ := rfl
  inPlace_congr _ _ _ _ := rfl

/-- A pair is constructed anew. -/
def pair (K : Layout S κ) (L : Layout S α) : Layout S (Pair κ α) where
  dflt := ⟨K.dflt, L.dflt⟩
  resolve h p := ⟨K.resolve h p.first, L.resolve h p.second⟩
  inPlace _ _ := []
  resolve_resolve h h' p := by simp only [K.resolve_resolve, L.resolve_resolve]
  resolve_dflt h := by simp only [K.resolve_dflt, L.resolve_dflt]
  inPlace_dflt _ := rfl
  inPlace_congr _ _ _ _ := rfl

/-- A tuple, or a struct of a first member and the others. -/
def prod (K : Layout S α) (L : Layout S β) : Layout S (α × β) where
  dflt := (K.dflt, L.dflt)
  resolve h p := (K.resolve h p.1, L.resolve h p.2)
  inPlace h p := K.inPlace h p.1 ++ L.inPlace h p.2
  resolve_resolve h h' p := by simp only [K.resolve_resolve, L.resolve_resolve]
  resolve_dflt h := by simp only [K.resolve_dflt, L.resolve_dflt]
  inPlace_dflt h := by simp [K.inPlace_dflt, L.inPlace_dflt]
  inPlace_congr h h' p heq := by
    rw [K.inPlace_congr h h' p.1 fun x hx => heq x (List.mem_append_left _ hx),
      L.inPlace_congr h h' p.2 fun x hx => heq x (List.mem_append_right _ hx)]

def option (L : Layout S α) : Layout S (Option α) where
  dflt := none
  resolve h := Option.map (L.resolve h)
  inPlace h
    | none => []
    | some a => L.inPlace h a
  resolve_resolve h h' o := by cases o <;> simp [L.resolve_resolve]
  resolve_dflt _ := rfl
  inPlace_dflt _ := rfl
  inPlace_congr h h' o heq := by
    cases o with
    | none => rfl
    | some a => exact L.inPlace_congr h h' a heq

/-- The object behind a pointer is updated where it is. -/
def sharedPtr (L : Layout S α) : Layout S (SharedPtr S α) where
  dflt := .null
  resolve h
    | .null => .null
    | .own a => .own (L.resolve h a)
    | .shared p => .own (L.resolve h (p.load h))
  inPlace h
    | .null => []
    | .own a => L.inPlace h a
    | .shared p => p.addr :: L.inPlace h (p.load h)
  resolve_resolve h h' o := by cases o <;> simp only [L.resolve_resolve]
  resolve_dflt _ := rfl
  inPlace_dflt _ := rfl
  inPlace_congr h h' o heq := by
    cases o with
    | null => rfl
    | own a => exact L.inPlace_congr h h' a heq
    | shared p =>
      have hload : p.load h' = p.load h := p.load_congr (heq p.addr (.head _))
      simp only [hload, L.inPlace_congr h h' (p.load h) fun x hx => heq x (.tail _ hx)]

/-- The object behind a pointer to `const` is not. -/
def sharedPtrConst (L : Layout S α) : Layout S (SharedPtr S α) where
  dflt := .null
  resolve := L.sharedPtr.resolve
  inPlace _ _ := []
  resolve_resolve := L.sharedPtr.resolve_resolve
  resolve_dflt _ := rfl
  inPlace_dflt _ := rfl
  inPlace_congr _ _ _ _ := rfl

end Layout

/-- An order of objects which compares what they stand for. -/
structure KeyOrder (L : Layout S κ) extends StrictOrder κ where
  less_resolve : ∀ h a b, less a b = true → less (L.resolve h a) (L.resolve h b) = true

/-- The builder and the reader of a type. `boxed` is `Accessor::boxed` of a field of its Cap'n
Proto type: that the field is a pointer. -/
structure Overload (S : Store) (μ α : Type) where
  layout : Layout S α
  boxed : Bool
  buildField : S.Heap → α → Except Error μ
  readField : {τ : Type} → μ → Dest S τ α → τ → M S τ

/-- `ReadField` with `ReadDestTemp`. -/
def Overload.readTemp (c : Overload S μ α) (m : μ) : M S α := do
  match ← c.readField m readDestTemp none with
  | some a => pure a
  | none => throw .nullPointer

/-- `ReadField` with a `ReadDestUpdate` of an object. -/
def Overload.readUpdate (c : Overload S μ α) (m : μ) (a : α) : M S α :=
  c.readField m (.readDestUpdate .self) a

/-! ## Scalars, strings and byte containers -/

/-- Integers and `bool`. -/
def number (loc wire : Integral) : Overload S Msg (Number loc) where
  layout := .plain (cast loc 0)
  boxed := false
  buildField _ value := .ok (.number (buildIntegral wire value).val)
  readField m dest t := do
    let value ← readIntegral loc (m.getNumber wire)
    dest.put value t

def enum (loc wire : Integral) : Overload S Msg (Enum loc) where
  layout := .plain ⟨cast loc 0⟩
  boxed := false
  buildField _ value := .ok (.number (buildEnum wire value).val)
  readField m dest t := dest.put (readEnum loc (m.getNumber wire)) t

def duration (rep wire : Integral) : Overload S Msg (Duration rep) where
  layout := .plain ⟨cast rep 0⟩
  boxed := false
  buildField _ value := .ok (.number (buildDuration wire value).val)
  readField m dest t := dest.put (readDuration rep (m.getNumber wire)) t

/-- `std::string` in a `Text`, whose last byte is a zero. -/
def string : Overload S Msg (List UInt8) where
  layout := .plain []
  boxed := true
  buildField _ value := do
    initCount (maxCount - 1) value.length
    return .blob value
  readField m dest t := dest.put m.getBlob t

/-- A type which owns bytes and can be constructed from a range of them. -/
structure ByteContainer (α : Type) where
  dflt : α
  bytes : α → List UInt8
  ofBytes : List UInt8 → α
  ofBytes_bytes : ∀ a, ofBytes (bytes a) = a

def data (b : ByteContainer α) : Overload S Msg α where
  layout := .plain b.dflt
  boxed := true
  buildField _ value := do
    initCount maxCount (b.bytes value).length
    return .blob (b.bytes value)
  readField m dest t := dest.put (b.ofBytes m.getBlob) t

/-! ## Lists -/

/-- The loop over the elements of a container, each built into its place in the list. -/
def buildEach (build : α → Except Error Msg) : List α → Except Error (List Msg)
  | [] => .ok []
  | value :: values => do
    let item ← build value
    let items ← buildEach build values
    return item :: items

def buildList (build : α → Except Error Msg) (values : List α) : Except Error Msg := do
  initCount maxCount values.length
  return .list (← buildEach build values)

/-- `value.back()`. -/
def back : Ref S (List α) α := ⟨fun f value =>
  match value.getLast? with
  | none => throw .nullPointer
  | some last => do
    let last ← f last
    pure (value.dropLast ++ [last])⟩

/-- `value.emplace_back(args...)`, and a reference to the new element. -/
def emplaceBack : Dest S (List α) α :=
  .readDestEmplace false fun a value => pure (value ++ [a], back)

def vector (c : Overload S Msg α) : Overload S Msg (List α) where
  layout := c.layout.list
  boxed := true
  buildField h := buildList (c.buildField h)
  readField m dest := dest.update [] fun _ =>
    m.getList.foldlM (fun value item => c.readField item emplaceBack value) []

/-- `std::vector<bool>`, whose elements have no references. -/
def vectorBool : Overload S Msg (List (Number .bool)) where
  layout := .plain []
  boxed := true
  buildField h := buildList ((number .bool .bool).buildField h)
  readField m dest := dest.update [] fun _ =>
    m.getList.foldlM (fun value item => do
      let a ← (number .bool .bool).readTemp item
      pure (value ++ [a])) []

/-! ## Sets -/

namespace Tree

variable {o : StrictOrder α}

/-- Insert in order. An equivalent element that is already there stays. -/
def insert (less : α → α → Bool) (a : α) : List α → List α
  | [] => [a]
  | b :: bs =>
    if less a b then a :: b :: bs
    else if less b a then b :: insert less a bs
    else b :: bs

/-- What is in a list after an insertion was inserted or there before. -/
theorem mem_insert {less : α → α → Bool} {a x : α} {l : List α} (hx : x ∈ insert less a l) :
    x = a ∨ x ∈ l := by
  induction l with
  | nil => simpa [insert] using hx
  | cons b bs ih =>
    simp only [insert] at hx
    split at hx
    · simpa using hx
    · split at hx
      · rcases List.mem_cons.mp hx with rfl | hx
        · exact .inr (.head _)
        · exact (ih hx).imp_right (.tail _)
      · exact .inr hx

/-- An insertion keeps the list sorted. -/
theorem pairwise_insert (o : StrictOrder α) (a : α) {l : List α}
    (hl : l.Pairwise fun x y => o.less x y = true) :
    (insert o.less a l).Pairwise fun x y => o.less x y = true := by
  induction hl with
  | nil => simp [insert]
  | @cons b bs hb hbs ih =>
    simp only [insert]
    split
    case isTrue hab =>
      refine .cons ?_ (.cons hb hbs)
      intro x hx
      rcases List.mem_cons.mp hx with rfl | hx
      · exact hab
      · exact o.trans _ _ _ hab (hb x hx)
    case isFalse =>
      split
      case isTrue hba =>
        refine .cons ?_ ih
        intro x hx
        rcases mem_insert hx with rfl | hx
        · exact hba
        · exact hb x hx
      case isFalse => exact .cons hb hbs

/-- `value.emplace(args...)`. -/
def emplace (t : Tree o) (a : α) : Tree o := ⟨insert o.less a t.elems, pairwise_insert o a t.sorted⟩

end Tree

/-- `*value.emplace(args...).first`. -/
def emplaceSet {o : StrictOrder α} : Dest S (Tree o) α :=
  .readDestEmplace true fun a value => pure (value.emplace a, .const)

/-- `std::set`. -/
def set (c : Overload S Msg α) (o : KeyOrder c.layout) : Overload S Msg (Tree o.toStrictOrder) where
  layout := c.layout.tree o.toStrictOrder o.less_resolve
  boxed := true
  buildField h value := buildList (c.buildField h) value.elems
  readField m dest := dest.update ⟨[], .nil⟩ fun _ =>
    m.getList.foldlM (fun value item => c.readField item emplaceSet value) ⟨[], .nil⟩

/-! ## Pairs, tuples and maps -/

/-- The two members of a pair behind a reference to it. -/
def Ref.first (r : Ref S τ (Pair κ α)) : Ref S τ κ := ⟨fun f => r.modify fun p => do
  let first ← f p.first
  pure { p with first := first }⟩

def Ref.second (r : Ref S τ (Pair κ α)) : Ref S τ α := ⟨fun f => r.modify fun p => do
  let second ← f p.second
  pure { p with second := second }⟩

/-- A reference while a local variable is on the stack. -/
def Ref.beside (r : Ref S τ α) : Ref S (τ × β) α := ⟨fun f s => do
  let t ← r.modify f s.1
  pure (t, s.2)⟩

def buildPair (key : Overload S Slot κ) (value : Overload S Slot α) (h : S.Heap) (first : κ)
    (second : α) : Except Error Msg := do
  let key ← key.buildField h first
  let value ← value.buildField h second
  return .struct [key, value]

/-- The inner `ReadDestEmplace` of the reader of a pair. With the arguments of both members it
constructs the pair, and points the local variable `key` to the first member. -/
def emplaceValue (dest : Dest S τ (Pair κ α)) (key : κ) :
    Dest S (τ × Option (Ref S τ κ)) α :=
  .readDestEmplace dest.isConst fun value s => do
    let (t, ret) ← dest.construct ⟨key, value⟩ s.1
    pure ((t, some ret.first), ret.second.beside)

/-- The outer one. It reads the second member, and returns `*key`. -/
def emplaceKey (constKey : Bool) (value : Overload S Slot α) (m : Msg)
    (dest : Dest S τ (Pair κ α)) : Dest S τ κ :=
  .readDestEmplace (constKey || dest.isConst) fun key t => do
    let s ← value.readField (m.getSlot 1) (emplaceValue dest key) (t, none)
    match s.2 with
    | some ref => pure (s.1, ref)
    | none => throw .nullPointer

/-- `CustomReadField` of `std::pair<K, V>`, and of `std::pair<const K, V>` if `constKey`. -/
def readPair (constKey : Bool) (key : Overload S Slot κ) (value : Overload S Slot α) (m : Msg)
    (dest : Dest S τ (Pair κ α)) : τ → M S τ :=
  key.readField (m.getSlot 0) (emplaceKey constKey value m dest)

def pair (key : Overload S Slot κ) (value : Overload S Slot α) : Overload S Msg (Pair κ α) where
  layout := key.layout.pair value.layout
  boxed := true
  buildField h p := buildPair key value h p.first p.second
  readField := readPair false key value

/-- `std::tuple` of two elements. -/
def tuple (key : Overload S Slot α) (value : Overload S Slot β) : Overload S Msg (α × β) where
  layout := key.layout.prod value.layout
  boxed := true
  buildField h p := buildPair key value h p.1 p.2
  readField m dest := dest.update (key.layout.prod value.layout).dflt fun p => do
    let first ← key.readUpdate (m.getSlot 0) p.1
    let second ← value.readUpdate (m.getSlot 1) p.2
    pure (first, second)

/-- Neither key comes before the other. -/
def StrictOrder.equiv (o : StrictOrder κ) (a b : κ) : Bool := !o.less a b && !o.less b a

namespace Tree

variable {o : StrictOrder κ}

/-- Give the entries with an equivalent key another value. -/
def setSecond (t : Tree (o.on (Pair.first (α := α)))) (key : κ) (value : α) :
    Tree (o.on (Pair.first (α := α))) where
  elems := t.elems.map fun e => if o.equiv e.first key then { e with second := value } else e
  sorted := by
    have hfirst : ∀ e : Pair κ α,
        (if o.equiv e.first key then { e with second := value } else e).first = e.first := by
      intro e
      split <;> rfl
    refine List.pairwise_map.mpr (t.sorted.imp ?_)
    intro a b hab
    simpa only [StrictOrder.on, hfirst] using hab

/-- The entry of a key, which is `const` but for its value. -/
def entry (key : κ) : Ref S (Tree (o.on (Pair.first (α := α)))) (Pair κ α) := ⟨fun f t =>
  match t.elems.find? fun e => o.equiv e.first key with
  | none => throw .nullPointer
  | some e => do
    let e ← f e
    pure (t.setSecond key e.second)⟩

end Tree

/-- `*EmplacePiecewiseSafe(value, args...).first`. -/
def emplaceMap {o : StrictOrder κ} : Dest S (Tree (o.on (Pair.first (α := α)))) (Pair κ α) :=
  .readDestEmplace false fun p value => pure (value.emplace p, Tree.entry p.first)

/-- `std::map`. -/
def map (key : Overload S Slot κ) (value : Overload S Slot α) (o : KeyOrder key.layout) :
    Overload S Msg (Tree (o.toStrictOrder.on (Pair.first (α := α)))) where
  layout := (key.layout.pair value.layout).tree _ fun h a b => o.less_resolve h a.first b.first
  boxed := true
  buildField h t := buildList (fun p => buildPair key value h p.first p.second) t.elems
  readField m dest := dest.update ⟨[], .nil⟩ fun _ =>
    m.getList.foldlM (fun t item => readPair true key value item emplaceMap t) ⟨[], .nil⟩

/-! ## Structs -/

/-- `BuildOne` and `ReadOne` over the members of a struct from one of them on. -/
structure Members (S : Store) (β : Type) where
  layout : Layout S β
  buildOne : S.Heap → β → Except Error (List Slot)
  readOne : Nat → Msg → β → M S β

namespace Members

def nil : Members S Unit where
  layout := .plain ()
  buildOne _ _ := .ok []
  readOne _ _ _ := pure ()

def cons (c : Overload S Slot α) (rest : Members S β) : Members S (α × β) where
  layout := c.layout.prod rest.layout
  buildOne h value := do
    let slot ← c.buildField h value.1
    let slots ← rest.buildOne h value.2
    return slot :: slots
  readOne index m value := do
    let first ← c.readUpdate (m.getSlot index) value.1
    let others ← rest.readOne (index + 1) m value.2
    pure (first, others)

end Members

/-- A struct with `$Proxy.wrap`. -/
def struct (members : Members S β) : Overload S Msg β where
  layout := members.layout
  boxed := true
  buildField h value := .struct <$> members.buildOne h value
  readField m dest := dest.update members.layout.dflt (members.readOne 0 m)

/-! ## Fields -/

/-- A type of its own on a field. -/
def field (c : Overload S Msg α) : Overload S Slot α where
  layout := c.layout
  boxed := c.boxed
  buildField h value := do return (← c.buildField h value, false)
  readField slot := c.readField slot.1

/-- `StructField::has()`, the default `CustomHasField`. -/
def hasField (companion boxed : Bool) (slot : Slot) : Bool :=
  if companion then slot.2 else if boxed then !slot.1.isNull else true

/-- `value.emplace(args...)` on a `std::optional`. -/
def emplaceOptional : Dest S (Option α) α := .readDestEmplace false fun a _ => pure (some a, .value)

/-- `std::optional`, on a field with a has-companion if `companion`. -/
def optional (companion : Bool) (c : Overload S Msg α) : Overload S Slot (Option α) where
  layout := c.layout.option
  boxed := c.boxed
  buildField h
    | none => .ok (.null, false)
    | some value => do return (← c.buildField h value, companion)
  readField slot dest := dest.update none fun value =>
    if !hasField companion c.boxed slot then pure none
    else match value with
      | some _ => c.readField slot.1 (.readDestUpdate .value) value
      | none => c.readField slot.1 emplaceOptional value

/-- `*value` of a `std::shared_ptr`. -/
def Ref.pointee : Ref S (SharedPtr S α) α := ⟨fun f value =>
  match value with
  | .null => throw .nullPointer
  | .own a => do
    let a ← f a
    pure (.own a)
  | .shared p => do
    let h ← get
    let a ← f (p.load h)
    modifyThe S.Heap (p.store a)
    pure (.shared p)⟩

/-- `value = std::make_shared<LocalType>(args...)`. -/
def makeShared (isConst : Bool) : Dest S (SharedPtr S α) α :=
  .readDestEmplace isConst fun a _ => pure (.own a, .pointee)

/-- `CustomBuildField` of a `std::shared_ptr`. -/
def buildShared (c : Overload S Msg α) (h : S.Heap) : SharedPtr S α → Except Error Slot
  | .null => .ok (.null, false)
  | .own value => do return (← c.buildField h value, false)
  | .shared p => do return (← c.buildField h (p.load h), false)

/-- `std::shared_ptr<T>`, on a field without has-companion. -/
def sharedPtr (c : Overload S Msg α) : Overload S Slot (SharedPtr S α) where
  layout := c.layout.sharedPtr
  boxed := c.boxed
  buildField := buildShared c
  readField slot dest := dest.update .null fun value =>
    if !hasField false c.boxed slot then pure .null
    else match value with
      | .null => c.readField slot.1 (makeShared false) value
      | _ => c.readField slot.1 (.readDestUpdate .pointee) value

/-- `std::shared_ptr<const T>`, which always gets a new object. -/
def sharedPtrConst (c : Overload S Msg α) : Overload S Slot (SharedPtr S α) where
  layout := c.layout.sharedPtrConst
  boxed := c.boxed
  buildField := buildShared c
  readField slot dest := dest.update .null fun value =>
    if !hasField false c.boxed slot then pure .null
    else c.readField slot.1 (makeShared true) value

end Multiprocess.Codec
