import Multiprocess.Codec.Overloads

/-!
# How much the encoders allocate

The builders of `std::string`, of byte containers and of `std::vector`, `std::set` and `std::map`
call `output.init(value.size())` and then write as many bytes or elements as `value.size()` says.
On the way to Cap'n Proto (`Accessor::init`) the size becomes a 32-bit number. `Overloads` takes a
write past the end for an error; here the writes themselves are the result, so that they can be
compared with what was allocated.

`Alloc` is the generated `init` function: it returns a blob or list of the size it is given, and
refuses only sizes over its limit. An index of `ListOutput` becomes a 32-bit number as well.
-/

namespace Multiprocess.Codec.Sizes

variable {α κ : Type}

/-- The `init` function of a field. -/
structure Alloc where
  limit : Nat
  init : UInt32 → Option Nat
  size_eq : ∀ {n : UInt32} {m : Nat}, init n = some m → m = n.toNat
  refuses : ∀ {n : UInt32}, init n = none → limit < n.toNat

/-- A `memcpy` to a blob, or the element of a list that is written. -/
structure Write where
  offset : Nat
  length : Nat
  deriving DecidableEq

/-- What an encoder does to the message, and the exception of an element's builder. -/
inductive Encoding where
  | refused
  | wrote (allocated : Nat) (writes : List Write) (threw : Option Error)

/-- Either nothing was written, or what was allocated is what the value takes and every write is
within it. -/
def Encoding.Exact (size : Nat) : Encoding → Prop
  | refused => True
  | wrote allocated writes _ =>
    allocated = size ∧ ∀ w ∈ writes, w.offset + w.length ≤ allocated

/-- `output.init(value.size())` and `memcpy(result.begin(), value.data(), value.size())`. -/
def encodeBlob (a : Alloc) (value : List UInt8) : Encoding :=
  match a.init (UInt32.ofNat value.length) with
  | none => .refused
  | some allocated => .wrote allocated [⟨0, value.length⟩] none

/-- The loop from an index on. -/
def writeEach (build : α → Except Error Msg) : Nat → List α → List Write × Option Error
  | _, [] => ([], none)
  | i, value :: values =>
    let write : Write := ⟨(UInt32.ofNat i).toNat, 1⟩
    match build value with
    | .error e => ([write], some e)
    | .ok _ =>
      let rest := writeEach build (i + 1) values
      (write :: rest.1, rest.2)

/-- `output.init(value.size())` and the loop over the elements. -/
def encodeList (a : Alloc) (build : α → Except Error Msg) (values : List α) : Encoding :=
  match a.init (UInt32.ofNat values.length) with
  | none => .refused
  | some allocated =>
    let writes := writeEach build 0 values
    .wrote allocated writes.1 writes.2

/-- The values with an encoder of this kind, with the builder of their elements. -/
inductive Container where
  | string (value : List UInt8)
  | data {α : Type} (b : ByteContainer α) (value : α)
  | vector {α : Type} (build : α → Except Error Msg) (value : List α)
  | set {α : Type} (o : StrictOrder α) (build : α → Except Error Msg) (value : Tree o)
  | map {κ α : Type} (o : StrictOrder κ) (build : Pair κ α → Except Error Msg)
    (value : Tree (o.on (Pair.first (α := α))))

namespace Container

/-- `value.size()`. -/
def size : Container → Nat
  | string value => value.length
  | data b value => (b.bytes value).length
  | vector _ value => value.length
  | set _ _ value => value.elems.length
  | map _ _ value => value.elems.length

/-- `CustomBuildField`. -/
def buildField (a : Alloc) : Container → Encoding
  | string value => encodeBlob a value
  | data b value => encodeBlob a (b.bytes value)
  | vector build value => encodeList a build value
  | set _ build value => encodeList a build value.elems
  | map _ build value => encodeList a build value.elems

end Container

/-! ## What is written -/

/-- A size is taken modulo 2 to the 32. -/
theorem toNat_ofNat (n : Nat) : (UInt32.ofNat n).toNat = n % 4294967296 := UInt32.toNat_ofNat'

/-- The loop writes elements between its first index and the number of elements. -/
theorem writeEach_within (build : α → Except Error Msg) (i : Nat) (values : List α) :
    ∀ w ∈ (writeEach build i values).1, w.offset + w.length ≤ i + values.length := by
  induction values generalizing i with
  | nil => exact fun w hw => absurd hw List.not_mem_nil
  | cons value values ih =>
    have hfirst : (UInt32.ofNat i).toNat + 1 ≤ i + (value :: values).length := by
      have hmod : i % 4294967296 ≤ i := Nat.mod_le i _
      rw [toNat_ofNat, List.length_cons]
      omega
    intro w hw
    rw [writeEach] at hw
    cases hbuild : build value with
    | error e =>
      rw [hbuild] at hw
      rw [List.mem_singleton.mp hw]
      exact hfirst
    | ok _ =>
      rw [hbuild] at hw
      rcases List.mem_cons.mp hw with rfl | hw
      · exact hfirst
      · have hrest := ih (i + 1) w hw
        rw [List.length_cons]
        omega

/-- What is written to is as large as the value if the size was not cut on its way to `init`. -/
theorem exact_wrote_iff {a : Alloc} {size allocated : Nat} {writes : List Write}
    {threw : Option Error} (hinit : a.init (UInt32.ofNat size) = some allocated)
    (within : ∀ w ∈ writes, w.offset + w.length ≤ size) :
    (Encoding.wrote allocated writes threw).Exact size ↔
      size < 4294967296 ∨ a.init (UInt32.ofNat size) = none := by
  have hsize := a.size_eq hinit
  rw [toNat_ofNat] at hsize
  rw [or_iff_left (by rw [hinit]; nofun)]
  constructor
  · intro h
    have hexact : allocated = size := h.1
    have hmod := Nat.mod_lt size (y := 4294967296) (by decide)
    omega
  · intro hlt
    have hexact : allocated = size := hsize.trans (Nat.mod_eq_of_lt hlt)
    exact ⟨hexact, fun w hw => hexact ▸ within w hw⟩

/-- A blob has its full size unless that is cut and an allocation of the cut size succeeds. -/
theorem exact_encodeBlob_iff (a : Alloc) (value : List UInt8) :
    (encodeBlob a value).Exact value.length ↔
      value.length < 4294967296 ∨ a.init (UInt32.ofNat value.length) = none := by
  unfold encodeBlob
  split
  · next hinit => exact iff_of_true trivial (.inr hinit)
  · next allocated hinit =>
    refine exact_wrote_iff hinit fun w hw => ?_
    rw [List.mem_singleton.mp hw]
    exact Nat.le_of_eq (Nat.zero_add _)

/-- So has a list. -/
theorem exact_encodeList_iff (a : Alloc) (build : α → Except Error Msg) (values : List α) :
    (encodeList a build values).Exact values.length ↔
      values.length < 4294967296 ∨ a.init (UInt32.ofNat values.length) = none := by
  unfold encodeList
  split
  · next hinit => exact iff_of_true trivial (.inr hinit)
  · next allocated hinit =>
    refine exact_wrote_iff hinit fun w hw => ?_
    have hwithin := writeEach_within build 0 values w hw
    omega

/-- Every encoder allocates exactly what it writes, or throws before, if and only if the size of
the value fits into 32 bits or Cap'n Proto refuses what is left of it in 32 bits. -/
theorem exact_iff (a : Alloc) (value : Container) :
    (value.buildField a).Exact value.size ↔
      value.size < 4294967296 ∨ a.init (UInt32.ofNat value.size) = none := by
  cases value with
  | string value => exact exact_encodeBlob_iff a value
  | data b value => exact exact_encodeBlob_iff a (b.bytes value)
  | vector build value => exact exact_encodeList_iff a build value
  | set o build value => exact exact_encodeList_iff a build value.elems
  | map o build value => exact exact_encodeList_iff a build value.elems

/-- Cap'n Proto as it is: sizes over the limit are refused, and no others. -/
def capnp (limit : Nat) : Alloc where
  limit := limit
  init n := if limit < n.toNat then none else some n.toNat
  size_eq h := by
    split at h
    · cases h
    · exact (Option.some.inj h).symm
  refuses h := by
    split at h
    · assumption
    · cases h

/-- The builders of `Overloads` fail with `outOfBounds` exactly where an encoder is not exact. -/
theorem initCount_outOfBounds_iff (limit : Nat) (value : List UInt8) :
    initCount limit value.length = .error .outOfBounds ↔
      ¬ (encodeBlob (capnp limit) value).Exact value.length := by
  rw [exact_encodeBlob_iff]
  simp only [initCount, capnp, toNat_ofNat, Nat.reducePow]
  split
  · next hover => exact iff_of_false (by simp) (not_not.mpr (.inr rfl))
  · split
    · next hcut =>
      refine iff_of_true rfl (not_or.mpr ⟨?_, by simp⟩)
      intro hlt
      rw [Nat.mod_eq_of_lt hlt] at hcut
      omega
    · next hwhole =>
      refine iff_of_false (by simp) (not_not.mpr (.inl ?_))
      have hmod := Nat.mod_lt value.length (y := 4294967296) (by decide)
      omega

/-- For a string of 4 GiB nothing is allocated. -/
theorem inexact_string :
    ¬ ∀ (a : Alloc) (value : Container), value.size < 18446744073709551616 →
      (value.buildField a).Exact value.size := by
  intro h
  obtain ⟨value, hlength⟩ : ∃ value : List UInt8, value.length = 4294967296 :=
    ⟨List.replicate 4294967296 65, List.length_replicate⟩
  have hsize : (Container.string value).size < 18446744073709551616 := by
    show value.length < _
    rw [hlength]
    decide
  have hfits := (exact_encodeBlob_iff (capnp 536870910) value).mp (h _ _ hsize)
  rw [hlength] at hfits
  rcases hfits with hlt | hrefused
  · exact Nat.lt_irrefl _ hlt
  · have hzero : UInt32.ofNat 4294967296 = 0 := by decide
    rw [hzero] at hrefused
    cases hrefused

end Multiprocess.Codec.Sizes
