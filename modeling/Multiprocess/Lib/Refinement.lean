import Multiprocess.Lib.System

/-!
# One system refines another

A forward simulation from a system to the system that specifies it: a function of states, and for
each action the actions of the specification it stands for, none where the step is not visible in
it. What is seen of a step is a list of outputs, and a step and what it stands for show the same.

`Simulation.run` is the rule the developments over it use: a run of the system, from a state with
the invariant, has a run of the specification between the images of its ends that shows the same.
-/

namespace Transition.System

variable {S A S' A' O : Type*} {sys : System S A} {spec : System S' A'}

/-- What a run of two parts shows. -/
theorem Path.trace_append (out : S → A → List O) {s t : S} {as : List A} (h : sys.Path s as t)
    (bs : List A) : sys.trace out s (as ++ bs) = sys.trace out s as ++ sys.trace out t bs := by
  induction h with
  | nil => rfl
  | cons _ _ ih => simp only [List.cons_append, trace, ih, List.append_assoc]

/-- A forward simulation, on states with an invariant that every enabled action keeps. -/
structure Simulation (sys : System S A) (spec : System S' A') (out : S → A → List O)
    (out' : S' → A' → List O) where
  inv : S → Prop
  keeps : ∀ s a, inv s → sys.enabled s a → inv (sys.next s a)
  abs : S → S'
  acts : S → A → List A'
  path : ∀ s a, inv s → sys.enabled s a → spec.Path (abs s) (acts s a) (abs (sys.next s a))
  shows : ∀ s a, inv s → sys.enabled s a → spec.trace out' (abs s) (acts s a) = out s a

namespace Simulation

variable {out : S → A → List O} {out' : S' → A' → List O}

/-- The actions of the specification a run stands for. -/
def actions (sim : Simulation sys spec out out') : S → List A → List A'
  | _, [] => []
  | s, a :: as => sim.acts s a ++ sim.actions (sys.next s a) as

theorem mem_actions (sim : Simulation sys spec out out') {s : S} {as : List A} {b : A'}
    (h : b ∈ sim.actions s as) : ∃ t, ∃ a ∈ as, b ∈ sim.acts t a := by
  induction as generalizing s with
  | nil => cases h
  | cons a as ih =>
    rcases List.mem_append.mp h with h | h
    · exact ⟨s, a, List.mem_cons_self, h⟩
    · obtain ⟨t, a', ha, hb⟩ := ih h
      exact ⟨t, a', List.mem_cons_of_mem a ha, hb⟩

/-- A run has a run of the specification that shows the same. -/
theorem run (sim : Simulation sys spec out out') {s t : S} {as : List A} (h : sys.Path s as t)
    (hs : sim.inv s) :
    spec.Path (sim.abs s) (sim.actions s as) (sim.abs t) ∧
      spec.trace out' (sim.abs s) (sim.actions s as) = sys.trace out s as := by
  induction h with
  | nil => exact ⟨.nil _, rfl⟩
  | @cons s t a as ha _ ih =>
    obtain ⟨hpath, hshows⟩ := ih (sim.keeps s a hs ha)
    have hstep := sim.path s a hs ha
    refine ⟨hstep.append hpath, ?_⟩
    rw [actions, hstep.trace_append, sim.shows s a hs ha, hshows]
    rfl

end Simulation

end Transition.System
