import Multiprocess.Codec.Integral

/-!
# Scalar fields

`BuildPrimitive` and the `CustomReadField` overloads of `src/include/mp/type-number.h`,
`type-chrono.h` and `type-char.h`: what is written for a value, and what is read back.

The integral reader checks the range of what it received. Where the signs of the two types agree,
or the field is the signed one, that check accepts what the builder wrote. Where only the C++ type
is signed, the comparisons convert its limits to the unsigned type of the field, and the check
refuses everything. The other readers check nothing.

`survives_iff` and `unaltered_iff` say for which values and which pairs of types this goes well.
Floating point fields are not modelled.
-/

namespace Multiprocess.Codec

open Integral

/-- What a builder or a reader throws. -/
inductive Error where
  /-- `std::range_error` -/
  | rangeError (what : String)
  /-- Cap'n Proto refuses a list of this length -/
  | tooLarge
  /-- a write beyond the end of a list, made with a count that was truncated to 32 bits -/
  | outOfBounds
  /-- a null pointer is dereferenced -/
  | nullPointer
  deriving DecidableEq

/-- A value of an integral type. -/
def Number (t : Integral) : Type := {x : Int // t.Holds x}

instance (t : Integral) : DecidableEq (Number t) := inferInstanceAs (DecidableEq {x // t.Holds x})

/-- `static_cast<T>(x)`. -/
def cast (t : Integral) (x : Int) : Number t := ⟨t.convert x, t.convert_holds x⟩

/-- A value of a type is cast to it unchanged. -/
theorem cast_val {t : Integral} (x : Number t) : cast t x.val = x :=
  Subtype.ext (convert_eq_self x.property)

/-- `BuildPrimitive` of an integer: `return value;`, converted to the type of the field. Its two
assertions are `limitsWithin`. -/
def buildIntegral {loc : Integral} (wire : Integral) (value : Number loc) : Number wire :=
  cast wire value.val

/-- `CustomReadField` of an integer. -/
def readIntegral (loc : Integral) {wire : Integral} (value : Number wire) :
    Except Error (Number loc) :=
  if less wire value.val loc loc.lowest || less loc loc.max wire value.val then
    .error (.rangeError "out of bound int received")
  else
    .ok (cast loc value.val)

/-- What the builder of enums asserts: the unsigned type of the field holds the unsigned values of
the underlying type. -/
def enumWithin (loc wire : Integral) : Bool :=
  match loc.makeUnsigned, wire.makeUnsigned with
  | some e, some t => lessEq e e.max t t.max
  | _, _ => false

/-- A value of an enum with the given underlying type. -/
structure Enum (underlying : Integral) where
  value : Number underlying
  deriving DecidableEq

/-- `BuildPrimitive` of an enum. -/
def buildEnum {loc : Integral} (wire : Integral) (value : Enum loc) : Number wire :=
  cast wire value.value.val

/-- `CustomReadField` of an enum. -/
def readEnum (loc : Integral) {wire : Integral} (value : Number wire) : Enum loc :=
  ⟨cast loc value.val⟩

/-- `std::chrono::duration<Rep, Period>`. -/
structure Duration (rep : Integral) where
  count : Number rep
  deriving DecidableEq

/-- `CustomBuildField` of a duration: `output.set(value.count())`. Its two assertions are
`limitsWithin`. -/
def buildDuration {rep : Integral} (wire : Integral) (value : Duration rep) : Number wire :=
  cast wire value.count.val

/-- `CustomReadField` of a duration, constructed from `input.get()`. -/
def readDuration (rep : Integral) {wire : Integral} (value : Number wire) : Duration rep :=
  ⟨cast rep value.val⟩

/-- A list pointer has 29 bits for its count. -/
def maxCount : Nat := 2 ^ 29 - 1

/-- `output.init(count)` of a list of at most `limit` elements, which takes 32 bits of the count, and
then the writes to all elements. -/
def initCount (limit count : Nat) : Except Error Unit :=
  if limit < count % 2 ^ 32 then .error .tooLarge
  else if count % 2 ^ 32 < count then .error .outOfBounds
  else .ok ()

/-- A received `Data`. -/
structure Data where
  bytes : List UInt8
  length_le : bytes.length ≤ maxCount

/-- `CustomBuildField` of `unsigned char[size]`. -/
def buildArray {size : Nat} (value : Vector UInt8 size) : Except Error (List UInt8) := do
  initCount maxCount size
  return value.toList

/-- `CustomReadField` of `unsigned char[size]`: `memcpy(value, data.begin(), size)`. `beyond` is
the memory behind the received bytes. -/
def readArray (size : Nat) (data : Data) (beyond : Nat → UInt8) : Vector UInt8 size :=
  .ofFn fun i => data.bytes[i.val]?.getD (beyond i)

/-! ## Integers -/

/-- With the limits as asserted and no sign lost, the field holds every value of the C++ type, and
so does the type the two are compared in. -/
theorem holds_of_limitsWithin {loc wire : Integral} (h : limitsWithin loc wire = true)
    (hsign : loc.signed = true → wire.signed = true) {x : Int} (hx : loc.Holds x) :
    wire.Holds x ∧ (common wire loc).Holds x ∧ (common loc wire).Holds x := by
  have hlow : wire.lowest ≤ loc.lowest ∧ (common wire loc).lowest ≤ loc.lowest ∧
      (common loc wire).lowest ≤ loc.lowest := by
    revert h hsign
    cases loc <;> cases wire <;> decide
  have hmax : loc.max ≤ wire.max ∧ loc.max ≤ (common wire loc).max ∧
      loc.max ≤ (common loc wire).max := by
    revert h hsign
    cases loc <;> cases wire <;> decide
  obtain ⟨hxlow, hxmax⟩ := hx
  exact ⟨⟨Int.le_trans hlow.1 hxlow, Int.le_trans hxmax hmax.1⟩,
    ⟨Int.le_trans hlow.2.1 hxlow, Int.le_trans hxmax hmax.2.1⟩,
    ⟨Int.le_trans hlow.2.2 hxlow, Int.le_trans hxmax hmax.2.2⟩⟩

/-- A type holds its lowest value -/
theorem lowest_holds (t : Integral) : t.Holds t.lowest := by cases t <;> decide

/-- and its greatest. -/
theorem max_holds (t : Integral) : t.Holds t.max := by cases t <;> decide

/-- What was written is read back when no sign is lost. -/
theorem readIntegral_buildIntegral {loc wire : Integral} (h : limitsWithin loc wire = true)
    (hsign : loc.signed = true → wire.signed = true) (value : Number loc) :
    readIntegral loc (buildIntegral wire value) = .ok value := by
  have hheld := fun {x : Int} => holds_of_limitsWithin h hsign (x := x)
  have hvalue := hheld value.property
  have hlow : less wire value.val loc loc.lowest = false := by
    rw [less_eq_lt hvalue.2.1 (hheld (lowest_holds loc)).2.1]
    simpa using value.property.1
  have hmax : less loc loc.max wire value.val = false := by
    rw [less_eq_lt (hheld (max_holds loc)).2.2 hvalue.2.2]
    simpa using value.property.2
  have hwritten : (buildIntegral wire value).val = value.val := convert_eq_self hvalue.1
  simp only [readIntegral, hwritten, hlow, hmax, Bool.or_self, Bool.false_eq_true, if_false,
    cast_val]

/-- With only the C++ type signed, its converted limits are the wrong way round, and every value
lies outside them. -/
theorem readIntegral_of_sign_lost {loc wire : Integral} (h : limitsWithin loc wire = true)
    (hloc : loc.signed = true) (hwire : wire.signed = false) (w : Number wire) :
    readIntegral loc w = .error (.rangeError "out of bound int received") := by
  have hcommon : common wire loc = common loc wire ∧
      (common loc wire).convert loc.max < (common loc wire).convert loc.lowest := by
    revert h hloc hwire
    cases loc <;> cases wire <;> decide
  have hout : less wire w.val loc loc.lowest = true ∨ less loc loc.max wire w.val = true := by
    simp only [less, hcommon.1, decide_eq_true_eq]
    omega
  simp only [readIntegral, Bool.or_eq_true, if_pos hout]

/-- An integer which the asserted limits admit survives the wire exactly when the field does not
lose its sign. -/
theorem survives_iff {loc wire : Integral} (h : limitsWithin loc wire = true)
    (value : Number loc) :
    readIntegral loc (buildIntegral wire value) = .ok value ↔
      (loc.signed = true → wire.signed = true) := by
  constructor
  · intro hread hloc
    by_contra hwire
    rw [readIntegral_of_sign_lost h hloc (by simpa using hwire)] at hread
    cases hread
  · intro hsign
    exact readIntegral_buildIntegral h hsign value

/-- A signed integer in an unsigned field of its width: no value comes back. -/
theorem sign_lost_in_uint32 :
    limitsWithin .int32 .uint32 = true ∧
      ¬ readIntegral .int32 (buildIntegral .uint32 (cast .int32 5)) = .ok (cast .int32 5) := by
  decide

/-- An unsigned value above the signed range survives in a wider field. -/
theorem survives_in_wider_field :
    readIntegral .uint32 (buildIntegral .int64 (cast .uint32 4294967295)) =
      .ok (cast .uint32 4294967295) :=
  (survives_iff (by decide) (cast .uint32 4294967295)).mpr (by decide)

/-! ## What was received -/

/-- A received value is not altered: it is refused, or what it is read as is written back as it
was. -/
def Unaltered {α β : Type} (read : Except Error α) (build : α → β) (received : β) : Prop :=
  ∀ value, read = .ok value → build value = received

/-- An integer which passes the range check is the received one. -/
theorem unaltered_integral {loc wire : Integral} (h : limitsWithin loc wire = true)
    (w : Number wire) : Unaltered (readIntegral loc w) (buildIntegral wire) w := by
  intro value hread
  by_cases hsign : loc.signed = true → wire.signed = true
  case neg =>
    obtain ⟨hloc, hwire⟩ := Classical.not_imp.mp hsign
    rw [readIntegral_of_sign_lost h hloc (by simpa using hwire)] at hread
    cases hread
  case pos =>
    have hcommon : (common wire loc).Holds w.val ∧ (common loc wire).Holds w.val := by
      have hlimits : ((common wire loc).lowest ≤ wire.lowest ∧
          wire.max ≤ (common wire loc).max) ∧ (common loc wire).lowest ≤ wire.lowest ∧
          wire.max ≤ (common loc wire).max := by
        revert h hsign
        cases loc <;> cases wire <;> decide
      obtain ⟨hlow, hmax⟩ := w.property
      exact ⟨⟨Int.le_trans hlimits.1.1 hlow, Int.le_trans hmax hlimits.1.2⟩,
        ⟨Int.le_trans hlimits.2.1 hlow, Int.le_trans hmax hlimits.2.2⟩⟩
    have hheld := fun {x : Int} => holds_of_limitsWithin h hsign (x := x)
    simp only [readIntegral, less_eq_lt hcommon.1 (hheld (lowest_holds loc)).2.1,
      less_eq_lt (hheld (max_holds loc)).2.2 hcommon.2, Bool.or_eq_true, decide_eq_true_eq] at hread
    split at hread
    case isTrue => cases hread
    case isFalse hin =>
      injection hread with hvalue
      have hw : loc.Holds w.val := ⟨by omega, by omega⟩
      have hkept : value.val = w.val := by
        rw [← hvalue]
        exact convert_eq_self hw
      rw [buildIntegral, hkept, cast_val]

/-- The received value, taken at the width of the field with the signedness of `loc`, is a value
of `loc`. -/
def InRange (loc : Integral) {wire : Integral} (w : Number wire) : Prop :=
  loc.Holds ((wire.withSign loc.signed).convert w.val)

instance (loc : Integral) {wire : Integral} (w : Number wire) : Decidable (InRange loc w) :=
  inferInstanceAs (Decidable (Holds _ _))

/-- Casting to `loc` and back is exact for what is in range. -/
theorem cast_cast_iff {loc wire : Integral} (hloc : loc ≠ .bool) (hwire : wire ≠ .bool)
    (hbits : loc.bits ≤ wire.bits) (w : Number wire) :
    cast wire (cast loc w.val).val = w ↔ InRange loc w :=
  Subtype.ext_iff.trans (convert_back_iff hloc hwire hbits w.property)

/-- What the static check of enums comes to. -/
theorem enumWithin_spec {loc wire : Integral} (h : enumWithin loc wire = true) :
    loc ≠ .bool ∧ wire ≠ .bool ∧ loc.bits ≤ wire.bits := by
  revert h
  cases loc <;> cases wire <;> decide

/-- An enum's value is unaltered exactly if it is in the range of its type. -/
theorem unaltered_enum_iff {loc wire : Integral} (h : enumWithin loc wire = true)
    (w : Number wire) :
    Unaltered (.ok (readEnum loc w)) (buildEnum wire) w ↔ InRange loc w := by
  obtain ⟨hloc, hwire, hbits⟩ := enumWithin_spec h
  rw [← cast_cast_iff hloc hwire hbits]
  constructor
  · intro hkept
    exact hkept _ rfl
  · rintro hkept value hread
    injection hread with hvalue
    rw [← hvalue]
    exact hkept

/-- So is a duration's. -/
theorem unaltered_duration_iff {rep wire : Integral} (hrep : rep ≠ .bool)
    (h : limitsWithin rep wire = true) (w : Number wire) :
    Unaltered (.ok (readDuration rep w)) (buildDuration wire) w ↔ InRange rep w := by
  have hwire : wire ≠ .bool := by
    revert hrep h
    cases rep <;> cases wire <;> decide
  rw [← cast_cast_iff hrep hwire (bits_le_of_limitsWithin h)]
  constructor
  · intro hkept
    exact hkept _ rfl
  · rintro hkept value hread
    injection hread with hvalue
    rw [← hvalue]
    exact hkept

/-- The bytes read are the received ones, all of them and none beyond, exactly when the array has
their length. -/
theorem unaltered_array_iff (size : Nat) (data : Data) (beyond : Nat → UInt8) :
    (Unaltered (.ok (readArray size data beyond)) buildArray (.ok data.bytes) ∧
        size ≤ data.bytes.length) ↔ size = data.bytes.length := by
  constructor
  · rintro ⟨hkept, -⟩
    have hbuilt := hkept _ rfl
    unfold buildArray at hbuilt
    cases hinit : initCount maxCount size with
    | error e => rw [hinit] at hbuilt; cases hbuilt
    | ok _ =>
      rw [hinit] at hbuilt
      injection hbuilt with hbytes
      simpa using congrArg List.length hbytes
  · rintro rfl
    refine ⟨?_, Nat.le_refl _⟩
    rintro value hread
    injection hread with hvalue
    have hcount : data.bytes.length % 2 ^ 32 = data.bytes.length :=
      Nat.mod_eq_of_lt (by have := data.length_le; simp only [maxCount] at this; omega)
    have hinit : initCount maxCount data.bytes.length = .ok () := by
      simp only [initCount, hcount, Nat.lt_irrefl, if_false, Nat.not_lt.mpr data.length_le]
    have hbytes : value.toList = data.bytes := by
      rw [← hvalue]
      apply List.ext_getElem
      · simp
      · intro i _ _
        simp [readArray]
    simp only [buildArray, hinit, hbytes]
    rfl

/-- What a peer has sent for a scalar or an array, with the C++ type it is read into. -/
inductive Received where
  | integral (loc wire : Integral) (w : Number wire)
  | enum (loc wire : Integral) (w : Number wire)
  | duration (rep wire : Integral) (w : Number wire)
  | array (size : Nat) (data : Data) (beyond : Nat → UInt8)

namespace Received

/-- The builder for the C++ type compiles. -/
def Admitted : Received → Prop
  | integral loc wire _ => limitsWithin loc wire = true
  | enum loc wire _ => enumWithin loc wire = true
  | duration rep wire _ => rep ≠ .bool ∧ limitsWithin rep wire = true
  | array _ _ _ => True

/-- The reader throws or keeps what it received, and an array takes no byte from beyond it. -/
def Kept : Received → Prop
  | integral loc wire w => Unaltered (readIntegral loc w) (buildIntegral wire) w
  | enum loc wire w => Unaltered (.ok (readEnum loc w)) (buildEnum wire) w
  | duration rep wire w => Unaltered (.ok (readDuration rep w)) (buildDuration wire) w
  | array size data beyond =>
    Unaltered (.ok (readArray size data beyond)) buildArray (.ok data.bytes) ∧
      size ≤ data.bytes.length

/-- What was received is a value of the C++ type. For an integer nothing is asked. -/
def Fits : Received → Prop
  | integral _ _ _ => True
  | enum loc _ w | duration loc _ w => InRange loc w
  | array size data _ => size = data.bytes.length

end Received

/-- Decoding of scalars and arrays: an integer never changes, an enum or a duration keeps what is
in range, and an array keeps the bytes when there are as many as it holds. -/
theorem unaltered_iff (received : Received) (h : received.Admitted) :
    received.Kept ↔ received.Fits := by
  cases received with
  | integral loc wire w => exact iff_of_true (unaltered_integral h w) trivial
  | enum loc wire w => exact unaltered_enum_iff h w
  | duration rep wire w => exact unaltered_duration_iff h.1 h.2 w
  | array size data beyond => exact unaltered_array_iff size data beyond

/-- The greatest value of a `uint8_t` enum is unaltered. -/
theorem enum_unaltered_in_range :
    Unaltered (.ok (readEnum .uint8 (cast .int32 255))) (buildEnum .int32) (cast .int32 255) := by
  have hadmitted : enumWithin .uint8 .int32 = true := by decide
  have hfits : InRange .uint8 (cast .int32 255) := by decide
  exact (unaltered_iff (.enum .uint8 .int32 (cast .int32 255)) hadmitted).mpr hfits

/-- An `enum class : uint8_t` in an `Int32` field: 257 is read as 1. -/
theorem enum_altered :
    enumWithin .uint8 .int32 = true ∧
      ¬ Unaltered (.ok (readEnum .uint8 (cast .int32 257))) (buildEnum .int32)
        (cast .int32 257) := by
  refine ⟨by decide, fun hkept => ?_⟩
  have : buildEnum .int32 (readEnum .uint8 (cast .int32 257)) = cast .int32 257 := hkept _ rfl
  revert this
  decide

end Multiprocess.Codec
