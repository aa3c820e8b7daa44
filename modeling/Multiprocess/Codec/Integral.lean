import Mathlib.Algebra.Group.Int.Defs
import Mathlib.Algebra.Group.Nat.Defs
import Mathlib.Tactic.Common

/-!
# Integer types and their conversions

The integer types of C++ and of Cap'n Proto fields, by signedness and width. Two values of
different types are compared after the integral promotions and the usual arithmetic conversions,
so a comparison is not always the one of the mathematical values. `int` has 32 bits.

Only what the readers and builders of `Scalar` need of the conversions is here. Arithmetic on the
types is not modelled.
-/

namespace Multiprocess.Codec

/-- The integral types: `bool`, and the integers of 8 to 64 bits. -/
inductive Integral where
  | bool
  | int8
  | int16
  | int32
  | int64
  | uint8
  | uint16
  | uint32
  | uint64
  deriving DecidableEq

namespace Integral

def bits : Integral → Nat
  | bool => 1
  | int8 | uint8 => 8
  | int16 | uint16 => 16
  | int32 | uint32 => 32
  | int64 | uint64 => 64

def signed : Integral → Bool
  | int8 | int16 | int32 | int64 => true
  | _ => false

/-- `std::numeric_limits<T>::lowest()`. -/
def lowest (t : Integral) : Int := if t.signed then -2 ^ (t.bits - 1) else 0

/-- `std::numeric_limits<T>::max()`. -/
def max (t : Integral) : Int := if t.signed then 2 ^ (t.bits - 1) - 1 else 2 ^ t.bits - 1

/-- The conversion of an integer to the type: modulo its width, and for `bool` whether it is not
zero. -/
def convert (t : Integral) (x : Int) : Int :=
  if t = bool then if x = 0 then 0 else 1
  else if t.signed then x.bmod (2 ^ t.bits) else x % 2 ^ t.bits

/-- The integral promotions: `int` holds every value of the narrower types. -/
def promote (t : Integral) : Integral := if t.bits < 32 then int32 else t

/-- The usual arithmetic conversions. Of two promoted types the wider one is taken, and of two
equally wide ones the unsigned one. -/
def common (a b : Integral) : Integral :=
  let a := a.promote
  let b := b.promote
  if a.bits = b.bits then if a.signed then b else a else if a.bits < b.bits then b else a

/-- `x < y`, of types `a` and `b`. -/
def less (a : Integral) (x : Int) (b : Integral) (y : Int) : Bool :=
  decide ((common a b).convert x < (common a b).convert y)

/-- `x <= y`, of types `a` and `b`. -/
def lessEq (a : Integral) (x : Int) (b : Integral) (y : Int) : Bool :=
  decide ((common a b).convert x ≤ (common a b).convert y)

/-- The two comparisons of limits which the builders assert: what `wire` can hold includes what
`local` can, as C++ compares them. -/
def limitsWithin (loc wire : Integral) : Bool :=
  lessEq wire wire.lowest loc loc.lowest && lessEq loc loc.max wire wire.max

/-- `std::make_unsigned_t<T>`, which `bool` does not have. -/
def makeUnsigned : Integral → Option Integral
  | bool => none
  | int8 | uint8 => some uint8
  | int16 | uint16 => some uint16
  | int32 | uint32 => some uint32
  | int64 | uint64 => some uint64

/-- The type of the same width with the given signedness. -/
def withSign (s : Bool) : Integral → Integral
  | bool => bool
  | int8 | uint8 => if s then int8 else uint8
  | int16 | uint16 => if s then int16 else uint16
  | int32 | uint32 => if s then int32 else uint32
  | int64 | uint64 => if s then int64 else uint64

/-- The value belongs to the type. -/
def Holds (t : Integral) (x : Int) : Prop := t.lowest ≤ x ∧ x ≤ t.max

instance (t : Integral) (x : Int) : Decidable (t.Holds x) :=
  inferInstanceAs (Decidable (_ ∧ _))

theorem convert_holds (t : Integral) (x : Int) : t.Holds (t.convert x) := by
  have hbmod := fun (m : Nat) (hm : 0 < m) =>
    And.intro (Int.le_bmod (x := x) hm) (Int.bmod_lt (x := x) hm)
  cases t
  case bool => by_cases hx : x = 0 <;> simp [Holds, convert, lowest, max, signed, bits, hx]
  case int8 => have := hbmod 256 (by decide); simp [Holds, convert, lowest, max, signed, bits]; omega
  case int16 =>
    have := hbmod 65536 (by decide); simp [Holds, convert, lowest, max, signed, bits]; omega
  case int32 =>
    have := hbmod 4294967296 (by decide); simp [Holds, convert, lowest, max, signed, bits]; omega
  case int64 =>
    have := hbmod 18446744073709551616 (by decide)
    simp [Holds, convert, lowest, max, signed, bits]; omega
  all_goals simp [Holds, convert, lowest, max, signed, bits]; omega

/-- A conversion keeps a value which its type has. -/
theorem convert_eq_self {t : Integral} {x : Int} (hx : t.Holds x) : t.convert x = x := by
  obtain ⟨hlow, hmax⟩ := hx
  cases t <;> simp [convert, lowest, max, signed, bits] at *
  case bool => omega
  all_goals first
    | exact Int.bmod_eq_of_le (by simp; omega) (by simp; omega)
    | omega

/-- Two values which the common type has are compared as they are. -/
theorem less_eq_lt {a b : Integral} {x y : Int} (hx : (common a b).Holds x)
    (hy : (common a b).Holds y) : less a x b y = decide (x < y) := by
  simp only [less, convert_eq_self hx, convert_eq_self hy]

/-- A conversion through a type at least as wide loses nothing. -/
theorem convert_convert {a b : Integral} (ha : a ≠ bool) (hb : b ≠ bool) (hbits : a.bits ≤ b.bits)
    (x : Int) : a.convert (b.convert x) = a.convert x := by
  have hdvd : (2 ^ a.bits : Nat) ∣ 2 ^ b.bits := Nat.pow_dvd_pow 2 hbits
  have hdvd' : ((2 ^ a.bits : Nat) : Int) ∣ (2 ^ b.bits : Nat) := Int.natCast_dvd_natCast.mpr hdvd
  have hcast : ∀ n : Nat, (2 : Int) ^ n = (2 ^ n : Nat) := by simp
  -- A signed and an unsigned type of one width convert to the same residue.
  have hresidue : ∀ y : Int, (y.bmod (2 ^ b.bits)) % (2 ^ a.bits : Nat) = y % (2 ^ a.bits : Nat) := by
    intro y
    rw [← Int.emod_emod_of_dvd _ hdvd', Int.bmod_emod, Int.emod_emod_of_dvd _ hdvd']
  simp only [convert, if_neg ha, if_neg hb, hcast]
  cases hsa : a.signed <;> cases hsb : b.signed
  case false.false => simp only [Bool.false_eq_true, if_false, Int.emod_emod_of_dvd _ hdvd']
  case false.true => simp only [Bool.false_eq_true, if_false, if_true, hresidue]
  case true.false =>
    simp only [Bool.false_eq_true, if_false, if_true]
    rw [← Int.emod_bmod, Int.emod_emod_of_dvd _ hdvd', Int.emod_bmod]
  case true.true => simp only [if_true, Int.bmod_bmod_of_dvd hdvd]

/-- A narrower type of the same signedness has fewer values. -/
theorem holds_mono {a b : Integral} (hsign : a.signed = b.signed) (hbits : a.bits ≤ b.bits)
    {x : Int} (hx : a.Holds x) : b.Holds x := by
  have hlow : b.lowest ≤ a.lowest := by
    revert hsign hbits
    cases a <;> cases b <;> decide
  have hmax : a.max ≤ b.max := by
    revert hsign hbits
    cases a <;> cases b <;> decide
  exact ⟨Int.le_trans hlow hx.1, Int.le_trans hx.2 hmax⟩

/-- What a value of `wire` loses in `loc` and back is nothing exactly when, taken with the
signedness of `loc`, it is a value of `loc`. -/
theorem convert_back_iff {loc wire : Integral} (hloc : loc ≠ bool) (hwire : wire ≠ bool)
    (hbits : loc.bits ≤ wire.bits) {w : Int} (hw : wire.Holds w) :
    wire.convert (loc.convert w) = w ↔ loc.Holds ((wire.withSign loc.signed).convert w) := by
  -- The wire type with the other signedness is as wide, so it has the same residues.
  have hs : wire.withSign loc.signed ≠ bool := by
    cases wire <;> cases h : loc.signed <;> first | exact absurd rfl hwire | decide
  have hsbits : (wire.withSign loc.signed).bits = wire.bits := by
    cases wire <;> cases loc.signed <;> rfl
  have hssign : loc.signed = (wire.withSign loc.signed).signed := by
    cases wire <;> cases h : loc.signed <;> first | exact absurd rfl hwire | rfl
  generalize wire.withSign loc.signed = same at *
  have hlocal : loc.bits ≤ same.bits := hsbits ▸ hbits
  constructor
  · intro hback
    have hkept : same.convert w = loc.convert w := by
      rw [← hback, convert_convert hs hwire (Nat.le_of_eq hsbits), hback,
        convert_eq_self (holds_mono hssign hlocal (convert_holds loc w))]
    rw [hkept]
    exact convert_holds loc w
  · intro hin
    have hkept : loc.convert w = same.convert w := by
      rw [← convert_convert hloc hs hlocal, convert_eq_self hin]
    rw [hkept, convert_convert hwire hs (Nat.le_of_eq hsbits.symm), convert_eq_self hw]

/-- The bounds a builder asserts leave the wire type at least as wide. -/
theorem bits_le_of_limitsWithin {loc wire : Integral} (h : limitsWithin loc wire = true) :
    loc.bits ≤ wire.bits := by
  revert h
  cases loc <;> cases wire <;> decide

end Integral

end Multiprocess.Codec
