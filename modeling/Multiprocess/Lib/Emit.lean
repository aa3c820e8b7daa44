import Mathlib.Data.List.Basic

/-!
# Output that stops at a limit

A writer turns each element of its input into a unit of output, and stops with a mark after the
first unit that takes the output over a limit. The input may come in pieces; a writer that looks
at the limit before each piece, and before nothing else, cannot tell where one piece ends and the
next begins (`emitPieces_eq`).

What it has written when it stops is all of the output if that keeps to the limit (`emit_of_le`),
and otherwise the output of the shortest prefix of the input which does not, with the mark
(`emit_of_lt`).
-/

namespace Emit

variable {α β : Type*}

/-- `p` is the shortest prefix of `s` with the property. -/
structure Shortest (P : List α → Prop) (s p : List α) : Prop where
  isPrefix : p <+: s
  holds : P p
  least : ∀ q, q <+: s → P q → p.length ≤ q.length

variable (unit : α → List β) (mark : List β) (limit : Nat)

/-- Write one unit after the other, and the mark after the unit that exceeds the limit. -/
def emit (out : List β) : List α → List β
  | [] => out
  | a :: s =>
    if limit < (out ++ unit a).length then out ++ unit a ++ mark else emit (out ++ unit a) s

/-- The same for an input that comes in pieces, none of which is looked at past the limit. -/
def emitPieces (out : List β) (pieces : List (List α)) : List β :=
  pieces.foldl (fun out piece => if limit < out.length then out else emit unit mark limit out piece)
    out

variable {unit mark limit}

theorem emit_of_le {out : List β} {s : List α} (h : (out ++ s.flatMap unit).length ≤ limit) :
    emit unit mark limit out s = out ++ s.flatMap unit := by
  induction s generalizing out with
  | nil => simp only [emit, List.flatMap_nil, List.append_nil]
  | cons a s ih =>
    rw [List.flatMap_cons, ← List.append_assoc] at h ⊢
    have hunit : ¬ limit < (out ++ unit a).length := by
      rw [List.length_append] at h
      omega
    rw [emit, if_neg hunit]
    exact ih h

/-- Past the limit: the input ends with the element whose unit took the output there. -/
theorem emit_of_lt {out : List β} {s : List α} (hout : out.length ≤ limit)
    (h : limit < (out ++ s.flatMap unit).length) :
    ∃ p a rest, s = p ++ a :: rest ∧ (out ++ p.flatMap unit).length ≤ limit ∧
      limit < (out ++ (p ++ [a]).flatMap unit).length ∧
      emit unit mark limit out s = out ++ (p ++ [a]).flatMap unit ++ mark := by
  induction s generalizing out with
  | nil =>
    rw [List.flatMap_nil, List.append_nil] at h
    omega
  | cons a s ih =>
    by_cases hunit : limit < (out ++ unit a).length
    · refine ⟨[], a, s, rfl, ?_, ?_, ?_⟩
      · simpa only [List.flatMap_nil, List.append_nil] using hout
      · simpa only [List.nil_append, List.flatMap_cons, List.flatMap_nil, List.append_nil]
          using hunit
      · rw [emit, if_pos hunit]
        simp only [List.nil_append, List.flatMap_cons, List.flatMap_nil, List.append_nil]
    · rw [List.flatMap_cons, ← List.append_assoc] at h
      obtain ⟨p, b, rest, rfl, hle, hlt, heq⟩ := ih (Nat.le_of_not_lt hunit) h
      refine ⟨a :: p, b, rest, rfl, ?_, ?_, ?_⟩
      · rwa [List.flatMap_cons, ← List.append_assoc]
      · rwa [List.cons_append, List.flatMap_cons, ← List.append_assoc]
      · rw [emit, if_neg hunit, heq, List.cons_append, List.flatMap_cons, ← List.append_assoc]

/-- The prefix at which the output stops is the shortest whose output exceeds the limit. -/
theorem shortest_of_stop {p rest : List α} {a : α} (hle : (p.flatMap unit).length ≤ limit)
    (hlt : limit < ((p ++ [a]).flatMap unit).length) :
    Shortest (fun q => limit < (q.flatMap unit).length) (p ++ a :: rest) (p ++ [a]) := by
  refine ⟨⟨rest, by rw [List.append_assoc, List.singleton_append]⟩, hlt, ?_⟩
  intro q hq hlong
  by_contra hshort
  rw [List.length_append, List.length_singleton] at hshort
  have hqp : q <+: p :=
    List.prefix_of_prefix_length_le hq (List.prefix_append p _) (by omega)
  obtain ⟨t, rfl⟩ := hqp
  rw [List.flatMap_append, List.length_append] at hle
  omega

theorem emit_append {out : List β} (hout : out.length ≤ limit) (s t : List α) :
    emit unit mark limit out (s ++ t) =
      if limit < (emit unit mark limit out s).length then emit unit mark limit out s
      else emit unit mark limit (emit unit mark limit out s) t := by
  induction s generalizing out with
  | nil => rw [List.nil_append, emit, if_neg (by omega)]
  | cons a s ih =>
    by_cases hunit : limit < (out ++ unit a).length
    · have hstop : ∀ s, emit unit mark limit out (a :: s) = out ++ unit a ++ mark :=
        fun s => if_pos hunit
      have hlong : limit < (out ++ unit a ++ mark).length := by
        rw [List.length_append]
        omega
      rw [List.cons_append, hstop, hstop, if_pos hlong]
    · have hgo : ∀ s, emit unit mark limit out (a :: s) = emit unit mark limit (out ++ unit a) s :=
        fun s => if_neg hunit
      rw [List.cons_append, hgo, hgo]
      exact ih (Nat.le_of_not_lt hunit)

theorem emitPieces_of_lt {out : List β} (h : limit < out.length) (pieces : List (List α)) :
    emitPieces unit mark limit out pieces = out := by
  induction pieces with
  | nil => rfl
  | cons piece pieces ih =>
    rw [emitPieces, List.foldl_cons, if_pos h]
    exact ih

/-- Where the pieces end makes no difference. -/
theorem emitPieces_eq {out : List β} (h : out.length ≤ limit) (pieces : List (List α)) :
    emitPieces unit mark limit out pieces = emit unit mark limit out pieces.flatten := by
  induction pieces generalizing out with
  | nil => rfl
  | cons piece pieces ih =>
    rw [List.flatten_cons, emit_append h, emitPieces, List.foldl_cons, if_neg (by omega)]
    split
    · next hlong => exact emitPieces_of_lt hlong pieces
    · next hshort => exact ih (Nat.le_of_not_lt hshort)

end Emit
