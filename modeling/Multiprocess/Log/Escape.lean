import Multiprocess.Lib.Emit

/-!
# What goes into the log

`LogEscape` (`src/mp/util.cpp`) turns the text of a request or a response into printable ASCII and
cuts it off. The text is a `kj::StringTree`, so it comes in pieces. The function looks at the size
of its result in two places, before each piece and after each character, and the `break` leaves
the loop over one piece only.

`logEscape` follows the function. It writes the units of `escapeChar` up to a limit in the sense
of `Emit`, which is what its results are read off.
-/

namespace Multiprocess.Log

/-- The value of a `char`, which is signed or not as the platform has it. -/
def charValue (signed : Bool) (c : UInt8) : Int :=
  if signed = true ∧ 128 ≤ c.toNat then (c.toNat : Int) - 256 else c.toNat

/-- A digit of `%02x`. -/
def hexDigit (n : Nat) : UInt8 :=
  if n < 10 then UInt8.ofNat (48 + n) else UInt8.ofNat (87 + n)

/-- What is appended to the result for one character. -/
def escapeChar (signed : Bool) (c : UInt8) : List UInt8 :=
  if c = 0x5c then [0x5c, 0x5c]
  else if charValue signed c < 0x20 ∨ 0x7e < charValue signed c then
    [0x5c, hexDigit (c.toNat / 16), hexDigit (c.toNat % 16)]
  else [c]

def ellipsis : List UInt8 := [0x2e, 0x2e, 0x2e]

/-- The loop over the characters of a piece. -/
def escapePiece (signed : Bool) (maxSize : Nat) (result : List UInt8) : List UInt8 → List UInt8
  | [] => result
  | c :: piece =>
    let result := result ++ escapeChar signed c
    if maxSize < result.length then result ++ ellipsis
    else escapePiece signed maxSize result piece

/-- The argument of `visit`. -/
def visitPiece (signed : Bool) (maxSize : Nat) (result piece : List UInt8) : List UInt8 :=
  if maxSize < result.length then result else escapePiece signed maxSize result piece

/-- `LogEscape`. -/
def logEscape (signed : Bool) (pieces : List (List UInt8)) (maxSize : Nat) : List UInt8 :=
  pieces.foldl (visitPiece signed maxSize) []

/-- The escaped text before it is cut off. -/
def escape (signed : Bool) (s : List UInt8) : List UInt8 := s.flatMap (escapeChar signed)

/-! ## The way back -/

def hexValue (d : UInt8) : Option Nat :=
  if 48 ≤ d.toNat ∧ d.toNat ≤ 57 then some (d.toNat - 48)
  else if 97 ≤ d.toNat ∧ d.toNat ≤ 102 then some (d.toNat - 87)
  else none

def unescape : List UInt8 → Option (List UInt8)
  | [] => some []
  | c :: s =>
    if c = 0x5c then
      match s with
      | [] => none
      | d :: s =>
        if d = 0x5c then (unescape s).map (0x5c :: ·)
        else
          match s with
          | [] => none
          | e :: s => do
            let high ← hexValue d
            let low ← hexValue e
            let rest ← unescape s
            return UInt8.ofNat (16 * high + low) :: rest
    else (unescape s).map (c :: ·)

/-- A character that is not a backslash stands for itself, -/
theorem unescape_char {c : UInt8} (hc : c ≠ 0x5c) (s : List UInt8) :
    unescape (c :: s) = (unescape s).map (c :: ·) := by
  rw [unescape.eq_def]
  exact if_neg hc

/-- two backslashes for one, -/
theorem unescape_backslash (s : List UInt8) :
    unescape (0x5c :: 0x5c :: s) = (unescape s).map (0x5c :: ·) := by
  rw [unescape.eq_def]
  exact (if_pos rfl).trans (if_pos rfl)

/-- and a backslash with two digits for the byte they name. -/
theorem unescape_hex {d : UInt8} (hd : d ≠ 0x5c) (e : UInt8) (s : List UInt8) :
    unescape (0x5c :: d :: e :: s) = (hexValue d).bind fun high => (hexValue e).bind fun low =>
      (unescape s).map (UInt8.ofNat (16 * high + low) :: ·) := by
  rw [unescape.eq_def]
  refine (if_pos rfl).trans ((if_neg hd).trans ?_)
  simp only [Option.bind_eq_bind, Option.pure_def, Option.map_eq_bind]
  rfl

/-- The digits are read as they were written. -/
theorem hexValue_hexDigit : ∀ n < 16, hexValue (hexDigit n) = some n := by decide

theorem hexDigit_ne_backslash : ∀ n < 16, hexDigit n ≠ 0x5c := by decide

/-- They are printable, and none is a backslash. -/
theorem hexDigit_printable : ∀ n < 16, 0x20 ≤ hexDigit n ∧ hexDigit n ≤ 0x7e := by decide

theorem high_lt (c : UInt8) : c.toNat / 16 < 16 := by
  have hc := c.toNat_lt
  omega

theorem low_lt (c : UInt8) : c.toNat % 16 < 16 := Nat.mod_lt _ (by decide)

/-- A byte is made of its two digits. -/
theorem ofNat_digits (c : UInt8) : UInt8.ofNat (16 * (c.toNat / 16) + c.toNat % 16) = c := by
  rw [Nat.div_add_mod, UInt8.ofNat_toNat]

/-- A character that is neither a backslash nor escaped is printable. -/
theorem printable_of_charValue {signed : Bool} {c : UInt8}
    (h : ¬ (charValue signed c < 0x20 ∨ 0x7e < charValue signed c)) : 0x20 ≤ c ∧ c ≤ 0x7e := by
  have hc := c.toNat_lt
  rw [UInt8.le_iff_toNat_le, UInt8.le_iff_toNat_le]
  unfold charValue at h
  split at h
  · omega
  · show 32 ≤ c.toNat ∧ c.toNat ≤ 126
    omega

/-- The signedness of `char` makes no difference: the bytes from 128 on are escaped either way. -/
theorem escapeChar_signed (c : UInt8) : escapeChar true c = escapeChar false c := by
  have hc := c.toNat_lt
  have hrange : (charValue true c < 0x20 ∨ 0x7e < charValue true c) ↔
      (charValue false c < 0x20 ∨ 0x7e < charValue false c) := by
    simp only [charValue, true_and, Bool.false_eq_true, false_and, if_false]
    split <;> omega
  simp only [escapeChar, hrange]

/-- What a byte is escaped to is printable, -/
theorem escapeChar_printable (signed : Bool) (c : UInt8) :
    ∀ b ∈ escapeChar signed c, 0x20 ≤ b ∧ b ≤ 0x7e := by
  intro b hb
  unfold escapeChar at hb
  split at hb
  · have hbackslash : b = 0x5c := by simpa using hb
    subst hbackslash
    decide
  · split at hb
    · simp only [List.mem_cons, List.not_mem_nil, or_false] at hb
      rcases hb with rfl | rfl | rfl
      · decide
      · exact hexDigit_printable _ (high_lt c)
      · exact hexDigit_printable _ (low_lt c)
    · next h =>
      rw [List.mem_singleton.mp hb]
      exact printable_of_charValue h

/-- and at most three characters long. -/
theorem length_escapeChar_le (signed : Bool) (c : UInt8) : (escapeChar signed c).length ≤ 3 := by
  unfold escapeChar
  split
  · decide
  · split
    · exact Nat.le_refl 3
    · exact Nat.le_of_ble_eq_true rfl

/-- No unit is the beginning of another, so the units can be taken off one by one. -/
theorem unescape_escapeChar (signed : Bool) (c : UInt8) (s : List UInt8) :
    unescape (escapeChar signed c ++ s) = (unescape s).map (c :: ·) := by
  unfold escapeChar
  split
  · next h =>
    rw [h]
    exact unescape_backslash s
  · next hc =>
    split
    · show unescape (0x5c :: hexDigit _ :: hexDigit _ :: s) = _
      rw [unescape_hex (hexDigit_ne_backslash _ (high_lt c)), hexValue_hexDigit _ (high_lt c),
        hexValue_hexDigit _ (low_lt c), Option.bind_some, Option.bind_some, ofNat_digits]
    · exact unescape_char hc s

/-- Unescaping gives back what was escaped. -/
theorem unescape_escape (signed : Bool) (s : List UInt8) :
    unescape (escape signed s) = some s := by
  induction s with
  | nil => rfl
  | cons c s ih =>
    rw [escape, List.flatMap_cons, unescape_escapeChar]
    rw [escape] at ih
    rw [ih]
    rfl

/-! ## The result -/

/-- One piece is emitted character by character, up to the limit. -/
theorem escapePiece_eq (signed : Bool) (maxSize : Nat) (result piece : List UInt8) :
    escapePiece signed maxSize result piece =
      Emit.emit (escapeChar signed) ellipsis maxSize result piece := by
  induction piece generalizing result with
  | nil => rfl
  | cons c piece ih => simp only [escapePiece, Emit.emit, ih]

/-- The two levels of the loop write what one loop over the whole text would. -/
theorem logEscape_eq (signed : Bool) (pieces : List (List UInt8)) (maxSize : Nat) :
    logEscape signed pieces maxSize =
      Emit.emit (escapeChar signed) ellipsis maxSize [] pieces.flatten := by
  rw [← Emit.emitPieces_eq (Nat.zero_le maxSize)]
  have hvisit : visitPiece signed maxSize = fun result piece =>
      if maxSize < result.length then result
      else Emit.emit (escapeChar signed) ellipsis maxSize result piece := by
    funext result piece
    rw [visitPiece, escapePiece_eq]
  rw [logEscape, hvisit]
  rfl

/-- A text within the limit is logged whole. -/
theorem logEscape_of_le {signed : Bool} {pieces : List (List UInt8)} {maxSize : Nat}
    (h : (escape signed pieces.flatten).length ≤ maxSize) :
    logEscape signed pieces maxSize = escape signed pieces.flatten := by
  rw [logEscape_eq, Emit.emit_of_le (by rw [List.nil_append]; exact h), List.nil_append]
  rfl

/-- A text too long for the log is cut off after the first character whose escape exceeds the
limit, so by at most two characters past it. -/
theorem logEscape_of_lt {signed : Bool} {pieces : List (List UInt8)} {maxSize : Nat}
    (h : maxSize < (escape signed pieces.flatten).length) :
    ∃ p, Emit.Shortest (fun q => maxSize < (escape signed q).length) pieces.flatten p ∧
      logEscape signed pieces maxSize = escape signed p ++ ellipsis ∧
      (escape signed p).length ≤ maxSize + 3 := by
  have hlong : maxSize < ([] ++ pieces.flatten.flatMap (escapeChar signed)).length := h
  obtain ⟨p, c, rest, hs, hle, hlt, heq⟩ := Emit.emit_of_lt (Nat.zero_le maxSize) hlong
  rw [List.nil_append] at hle hlt heq
  refine ⟨p ++ [c], ?_, ?_, ?_⟩
  · rw [hs]
    exact Emit.shortest_of_stop hle hlt
  · rw [logEscape_eq, heq]
    rfl
  · have hunit := length_escapeChar_le signed c
    rw [escape, List.flatMap_append, List.length_append, List.flatMap_singleton]
    omega

/-- The escaped text is printable. -/
theorem escape_printable (signed : Bool) (s : List UInt8) :
    ∀ b ∈ escape signed s, 0x20 ≤ b ∧ b ≤ 0x7e := by
  intro b hb
  obtain ⟨c, -, hc⟩ := List.mem_flatMap.mp hb
  exact escapeChar_printable signed c b hc

theorem ellipsis_printable : ∀ b ∈ ellipsis, 0x20 ≤ b ∧ b ≤ 0x7e := by
  intro b hb
  have hdot : b = 0x2e := List.eq_of_mem_replicate (n := 3) hb
  rw [hdot]
  decide

/-- What `LogEscape` returns is a function of the text alone. It is the escaped text if that keeps
to the limit, and otherwise the escape of the shortest prefix that does not, with an ellipsis. It
is printable, exceeds the limit by at most 6, and a result within the limit gives the text
back. -/
theorem logEscape_text (signed : Bool) (pieces : List (List UInt8)) (maxSize : Nat) :
    (∀ pieces' : List (List UInt8), pieces'.flatten = pieces.flatten →
      logEscape signed pieces' maxSize = logEscape signed pieces maxSize) ∧
    ((escape signed pieces.flatten).length ≤ maxSize →
      logEscape signed pieces maxSize = escape signed pieces.flatten) ∧
    (maxSize < (escape signed pieces.flatten).length →
      ∃ p, Emit.Shortest (fun q => maxSize < (escape signed q).length) pieces.flatten p ∧
        logEscape signed pieces maxSize = escape signed p ++ ellipsis) ∧
    (∀ b ∈ logEscape signed pieces maxSize, 0x20 ≤ b ∧ b ≤ 0x7e) ∧
    (logEscape signed pieces maxSize).length ≤ maxSize + 6 ∧
    ((logEscape signed pieces maxSize).length ≤ maxSize →
      unescape (logEscape signed pieces maxSize) = some pieces.flatten ∧
      ∀ pieces' : List (List UInt8),
        logEscape signed pieces' maxSize = logEscape signed pieces maxSize →
        pieces'.flatten = pieces.flatten) := by
  have back : ∀ pieces : List (List UInt8), (logEscape signed pieces maxSize).length ≤ maxSize →
      unescape (logEscape signed pieces maxSize) = some pieces.flatten := by
    intro pieces hfit
    by_cases h : (escape signed pieces.flatten).length ≤ maxSize
    · rw [logEscape_of_le h]
      exact unescape_escape signed _
    · obtain ⟨p, hp, heq, -⟩ := logEscape_of_lt (Nat.lt_of_not_le h)
      have hlong := hp.holds
      rw [heq, List.length_append] at hfit
      omega
  refine ⟨?_, logEscape_of_le, ?_, ?_, ?_, ?_⟩
  · intro pieces' hsame
    rw [logEscape_eq, logEscape_eq, hsame]
  · intro h
    obtain ⟨p, hp, heq, -⟩ := logEscape_of_lt h
    exact ⟨p, hp, heq⟩
  · intro b hb
    by_cases h : (escape signed pieces.flatten).length ≤ maxSize
    · rw [logEscape_of_le h] at hb
      exact escape_printable signed _ b hb
    · obtain ⟨p, -, heq, -⟩ := logEscape_of_lt (Nat.lt_of_not_le h)
      rw [heq] at hb
      exact (List.mem_append.mp hb).elim (escape_printable signed p b) (ellipsis_printable b)
  · by_cases h : (escape signed pieces.flatten).length ≤ maxSize
    · rw [logEscape_of_le h]
      omega
    · obtain ⟨p, -, heq, hlen⟩ := logEscape_of_lt (Nat.lt_of_not_le h)
      have hmark : ellipsis.length = 3 := rfl
      rw [heq, List.length_append]
      omega
  · intro hfit
    refine ⟨back pieces hfit, fun pieces' hsame => ?_⟩
    have h := back pieces' (by rw [hsame]; exact hfit)
    rw [hsame, back pieces hfit] at h
    exact (Option.some.inj h).symm

/-- The first character over the limit still goes into the log, however the text is split. -/
example : logEscape true [[0x61], [], [0x0a, 0x62]] 1 =
    [0x61, 0x5c, 0x30, 0x61, 0x2e, 0x2e, 0x2e] := by decide

end Multiprocess.Log
