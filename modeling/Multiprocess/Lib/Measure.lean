import Mathlib.Algebra.BigOperators.Group.Finset.Basic
import Mathlib.Algebra.BigOperators.Group.List.Basic
import Mathlib.Algebra.GroupWithZero.Nat
import Mathlib.Algebra.Order.BigOperators.Group.Finset
import Multiprocess.Lib.System

/-!
# Measures of what is left to do

A measure that bounds a run is mostly a sum over parts (threads, requests, messages), of which an
action changes one. `sum_change` and `sum_erase` say what that does to a sum over a list without
repetitions, `finset_sum_change` to one over a finite set. `settles` is what a measure is for: runs
are bounded, and one goes on until no action is enabled.
-/

namespace Transition.Measure

section Lists

variable {α : Type*} [DecidableEq α] {l : List α} {a : α} {f g : α → Nat}

/-- A sum over a list without repetitions, changed at one member. -/
theorem sum_change (hl : l.Nodup) (ha : a ∈ l) (h : ∀ b, b ≠ a → f b = g b) :
    (l.map f).sum + g a = (l.map g).sum + f a := by
  have herase : (l.erase a).map f = (l.erase a).map g := by
    refine List.map_congr_left fun b hb => h b ?_
    exact (hl.mem_erase_iff.mp hb).1
  rw [← List.sum_map_erase f ha, ← List.sum_map_erase g ha, herase]
  omega

/-- The same with the member taken out. -/
theorem sum_erase (hl : l.Nodup) (ha : a ∈ l) (h : ∀ b, b ≠ a → f b = g b) :
    ((l.erase a).map f).sum + g a = (l.map g).sum := by
  have herase : (l.erase a).map f = (l.erase a).map g := by
    refine List.map_congr_left fun b hb => h b ?_
    exact (hl.mem_erase_iff.mp hb).1
  rw [← List.sum_map_erase g ha, herase]
  omega

end Lists

/-- A sum over a finite set, changed at one member. -/
theorem finset_sum_change {α : Type*} [DecidableEq α] {S : Finset α} {a : α} {f g : α → Nat}
    (ha : a ∈ S) (h : ∀ b, b ≠ a → f b = g b) : ∑ b ∈ S, f b + g a = ∑ b ∈ S, g b + f a := by
  have hrest : ∑ b ∈ S.erase a, f b = ∑ b ∈ S.erase a, g b :=
    Finset.sum_congr rfl fun b hb => h b (Finset.ne_of_mem_erase hb)
  rw [← Finset.add_sum_erase S f ha, ← Finset.add_sum_erase S g ha, hrest]
  omega

variable {S A : Type*} {sys : System S A}

/-- If every enabled action lowers a measure, runs are bounded, and one ends where no action is
enabled. -/
theorem settles {I : S → Prop} (m : S → Nat)
    (keep : ∀ s a, I s → sys.enabled s a → I (sys.next s a))
    (lower : ∀ s a, I s → sys.enabled s a → m (sys.next s a) < m s) {s : S} (hs : I s) :
    (∃ n, ∀ as t, sys.Path s as t → as.length ≤ n) ∧
      ∃ as t, sys.Path s as t ∧ ∀ a, ¬ sys.enabled t a := by
  have hlower : ∀ s a, I s → True → sys.enabled s a → m (sys.next s a) < m s :=
    fun s a hs _ ha => lower s a hs ha
  constructor
  · refine ⟨m s, fun as t path => ?_⟩
    exact Nat.le_of_add_right_le (path.length_le m keep hlower hs fun _ _ => trivial)
  · obtain ⟨as, t, -, path, hq⟩ := System.exists_quiescent m keep hlower s hs
    exact ⟨as, t, path, fun a => hq a trivial⟩

end Transition.Measure
