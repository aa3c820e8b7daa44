import Multiprocess.Codec.Scalar
import Mathlib.Logic.Equiv.Basic

/-!
# Where a field is read to

`ReadDestEmplace`, `ReadDestTemp` and `ReadDestUpdate` of `src/include/mp/proxy-types.h`. A reader
either constructs its destination or updates it, and each destination adapts the one way to the
other. A destination lies somewhere in the memory of the reader: in a container that is being
filled, in a field of an object, behind a pointer.

The objects which existed before the read and which a `std::shared_ptr` of the destination points
to are on a heap. Two pointers may share one of them. Each of them is an object of its own, apart
from the destination and from the others: a `std::shared_ptr` that points to a member of another
object, or to a member of the destination itself, is not modelled, and nothing here says what a
read through one leaves.
-/

namespace Multiprocess.Codec

/-- The addresses of the objects on the heap, and the type of the object at each. The objects are
complete ones: none is a part of another. -/
structure Store where
  Addr : Type
  Cell : Addr → Type
  [decEq : DecidableEq Addr]

attribute [instance] Store.decEq

/-- The objects on the heap. -/
abbrev Store.Heap (S : Store) : Type := (a : S.Addr) → S.Cell a

/-- A pointer to a complete object of type `α` on the heap. There is none into the middle of an
object, and none into the destination of a read. -/
structure Ptr (S : Store) (α : Type) where
  addr : S.Addr
  typed : S.Cell addr = α

variable {S : Store} {α β τ : Type}

namespace Ptr

def load (p : Ptr S α) (h : S.Heap) : α := p.typed.mp (h p.addr)

def store (p : Ptr S α) (x : α) (h : S.Heap) : S.Heap := Function.update h p.addr (p.typed.mpr x)

/-- What is stored through a pointer is loaded from it. -/
@[simp] theorem load_store (p : Ptr S α) (x : α) (h : S.Heap) : p.load (p.store x h) = x := by
  obtain ⟨a, rfl⟩ := p
  simp [load, store]

/-- The later of two stores is the one that counts. -/
@[simp] theorem store_store (p : Ptr S α) (x y : α) (h : S.Heap) :
    p.store y (p.store x h) = p.store y h := by
  simp [store]

/-- A store leaves the other cells as they are. -/
theorem store_other (p : Ptr S α) (x : α) (h : S.Heap) {a : S.Addr} (ha : a ≠ p.addr) :
    p.store x h a = h a := by
  simp [store, ha]

/-- What is loaded depends on the pointer's own cell. -/
theorem load_congr (p : Ptr S α) {h h' : S.Heap} (heq : h' p.addr = h p.addr) :
    p.load h' = p.load h := by
  simp only [load, heq]

end Ptr

/-- Reading may throw, and may write to the heap. -/
abbrev M (S : Store) : Type → Type := StateT S.Heap (Except Error)

/-- A reference to an `α` in memory of type `τ`, by what is done through it. -/
structure Ref (S : Store) (τ α : Type) where
  modify : (α → M S α) → τ → M S τ

namespace Ref

/-- A reference to the whole memory. -/
def self : Ref S α α := ⟨fun f a => f a⟩

/-- A reference to a `const` object. Nothing is written through it. -/
def const : Ref S τ α := ⟨fun _ t => pure t⟩

end Ref

/-- A destination. `readDestEmplace isConst fn` constructs the object by `fn`, which returns a
reference to it, one to a `const` object if `isConst`. -/
inductive Dest (S : Store) (τ α : Type) where
  | readDestEmplace (isConst : Bool) (fn : α → τ → M S (τ × Ref S τ α))
  | readDestUpdate (ref : Ref S τ α)

namespace Dest

def isConst : Dest S τ α → Bool
  | readDestEmplace isConst _ => isConst
  | readDestUpdate _ => false

/-- `construct`, with the object that the arguments make. `ReadDestUpdate` destroys the object it
refers to and makes this one in its place. -/
def construct : Dest S τ α → α → τ → M S (τ × Ref S τ α)
  | readDestEmplace _ fn, a, t => fn a t
  | readDestUpdate ref, a, t => do
    let t ← ref.modify (fun _ => pure a) t
    pure (t, ref)

/-- `update`. A destination that constructs makes a default object and updates that; a `const` one
is made from a temporary that was updated. -/
def update (dflt : α) : Dest S τ α → (α → M S α) → τ → M S τ
  | readDestEmplace true fn, f, t => do
    let temp ← f dflt
    let (t, _) ← fn temp t
    pure t
  | readDestEmplace false fn, f, t => do
    let (t, temp) ← fn dflt t
    temp.modify f t
  | readDestUpdate ref, f, t => ref.modify f t

/-- The memory once the object is `a`. -/
def put (d : Dest S τ α) (a : α) (t : τ) : M S τ := Prod.fst <$> d.construct a t

/-- What `f` does through the reference to a new object `a` is as if the result of `f` had been
constructed. -/
def Tracks (d : Dest S τ α) (t : τ) (a : α) (f : α → M S α) : Prop :=
  ∀ a', f a = pure a' →
    (do
      let (t, ret) ← d.construct a t
      let t ← ret.modify f t
      pure (t, ret)) = d.construct a' t

/-- The reference to a new object is one to where it is, and not to a copy. -/
def Lawful (d : Dest S τ α) (t : τ) : Prop := d.isConst = false → ∀ a f, d.Tracks t a f

/-- A destination for `const` objects has nothing to update. -/
theorem lawful_const (fn : α → τ → M S (τ × Ref S τ α)) (t : τ) :
    (readDestEmplace true fn).Lawful t := nofun

/-- Updating a new object to `a` is constructing `a`. -/
theorem update_emplace {dflt a : α} {f : α → M S α} (hf : f dflt = pure a) (isConst : Bool)
    (fn : α → τ → M S (τ × Ref S τ α)) {t : τ} (h : (readDestEmplace isConst fn).Lawful t) :
    (readDestEmplace isConst fn).update dflt f t = (readDestEmplace isConst fn).put a t := by
  cases isConst with
  | true => simp only [update, put, construct, hf, pure_bind, map_eq_pure_bind]
  | false =>
    have htracks := h rfl dflt f a hf
    simp only [construct] at htracks
    simp only [update, put, construct, ← htracks, map_bind, map_pure, bind_pure]

end Dest

/-- The object in a `std::optional`. -/
def Ref.value : Ref S (Option α) α := ⟨fun f t =>
  match t with
  | some a => some <$> f a
  | none => throw .nullPointer⟩

/-- `ReadDestTemp`: the object is made as the result of the read. -/
def readDestTemp : Dest S (Option α) α := .readDestEmplace false fun a _ => pure (some a, Ref.value)

/-- A variable of the type itself is one. -/
theorem lawful_self (a : α) : (Dest.readDestUpdate (Ref.self (S := S))).Lawful a := by
  intro _ x f x' hf
  simp only [Dest.construct, Ref.self, pure_bind, hf]

end Multiprocess.Codec
