import Mathlib.Data.List.Basic

/-!
# Systems that take one action at a time

A system is a state type, the states it may start in, and for each action the states in which
the action is enabled and the state it leads to. Interleavings of several threads are the paths
of one system whose actions name the thread that moves.

The rules the developments over it use:

* `Reachable.invariant` packages the induction over runs: a property of the start that every
  enabled action keeps holds in every reachable state;
* `guardedBy` is the same system with its actions taken only where a condition allows them, and
  `guardedBy_path_iff` says that its paths are the paths whose actions all meet the condition;
* `Path.meets_iff` and `Path.meets_congr` exchange one such condition for another, and
  `Path.keeps_of_meets` is the invariant rule under one;
* `Path.good_iff_meets` is for systems that stop at a failure: a run ends well exactly when every
  action meets the condition under which one step goes well;
* `Path.trace_conserved` is for systems with a queue: what comes out of it over a run, followed by
  what is left in it, is what was in it before, followed by what went in; `Path.trace_taken` is for
  runs in which nothing goes in;
* `exists_reachable_of_run` turns the evaluation of a list of actions into reachability;
* `exists_quiescent` ends a run of actions that each lower a measure.
-/

namespace Transition

/-- A system: its starts, where an action is enabled, and what the action does there. -/
structure System (S A : Type*) where
  init : S → Prop
  enabled : S → A → Prop
  next : S → A → S

namespace System

variable {S A : Type*} {sys : System S A}

/-- A path: the actions taken in order, each enabled where it is taken. -/
inductive Path (sys : System S A) : S → List A → S → Prop
  | nil (s : S) : sys.Path s [] s
  | cons {s s' : S} {a : A} {as : List A} :
      sys.enabled s a → sys.Path (sys.next s a) as s' → sys.Path s (a :: as) s'

/-- A state some run from a start reaches. -/
def Reachable (sys : System S A) (s : S) : Prop := ∃ s₀ as, sys.init s₀ ∧ sys.Path s₀ as s

theorem Path.append {s t u : S} {as bs : List A} (h : sys.Path s as t) (k : sys.Path t bs u) :
    sys.Path s (as ++ bs) u := by
  induction h with
  | nil => exact k
  | cons ha _ ih => exact .cons ha (ih k)

theorem Path.single {s : S} {a : A} (h : sys.enabled s a) : sys.Path s [a] (sys.next s a) :=
  .cons h (.nil _)

theorem Reachable.start {s : S} (h : sys.init s) : sys.Reachable s := ⟨s, [], h, .nil s⟩

theorem Reachable.path {s t : S} {as : List A} (h : sys.Reachable s) (k : sys.Path s as t) :
    sys.Reachable t := by
  obtain ⟨s₀, bs, h₀, hb⟩ := h
  exact ⟨s₀, bs ++ as, h₀, hb.append k⟩

/-- What an enabled action keeps, a path keeps. -/
theorem Path.keeps {I : S → Prop} (keep : ∀ s a, I s → sys.enabled s a → I (sys.next s a))
    {s t : S} {as : List A} (h : sys.Path s as t) (hs : I s) : I t := by
  induction h with
  | nil => exact hs
  | cons ha _ ih => exact ih (keep _ _ hs ha)

/-- The invariant rule: what the starts have and every enabled action keeps, every reachable
state has. -/
theorem Reachable.invariant {I : S → Prop} (start : ∀ s, sys.init s → I s)
    (keep : ∀ s a, I s → sys.enabled s a → I (sys.next s a)) {s : S} (h : sys.Reachable s) :
    I s := by
  obtain ⟨s₀, as, h₀, hp⟩ := h
  exact hp.keeps keep (start s₀ h₀)

/-! ## Runs under a condition on the actions taken -/

/-- The system whose actions are taken only where the condition allows them. -/
def guardedBy (sys : System S A) (ok : S → A → Prop) : System S A where
  init := sys.init
  enabled s a := ok s a ∧ sys.enabled s a
  next := sys.next

/-- Every action of the list meets the condition in the state where it is taken. -/
def Meets (sys : System S A) (ok : S → A → Prop) : S → List A → Prop
  | _, [] => True
  | s, a :: as => ok s a ∧ sys.Meets ok (sys.next s a) as

instance decidableMeets (sys : System S A) (ok : S → A → Prop) [∀ s a, Decidable (ok s a)] :
    ∀ (s : S) (as : List A), Decidable (sys.Meets ok s as)
  | _, [] => .isTrue trivial
  | s, a :: as =>
    have := decidableMeets sys ok (sys.next s a) as
    inferInstanceAs (Decidable (ok s a ∧ sys.Meets ok (sys.next s a) as))

/-- The paths of the guarded system are the paths whose actions all meet the condition. -/
theorem guardedBy_path_iff {ok : S → A → Prop} {s t : S} {as : List A} :
    (sys.guardedBy ok).Path s as t ↔ sys.Path s as t ∧ sys.Meets ok s as := by
  constructor
  · intro h
    induction h with
    | nil => exact ⟨.nil _, trivial⟩
    | cons ha _ ih => exact ⟨.cons ha.2 ih.1, ha.1, ih.2⟩
  · rintro ⟨h, hok⟩
    induction h with
    | nil => exact .nil _
    | cons ha _ ih => exact .cons ⟨hok.1, ha⟩ (ih hok.2)

/-- Actions that meet the condition in every state meet it where they are taken. -/
theorem meets_of_forall {ok : S → A → Prop} {as : List A} (h : ∀ a ∈ as, ∀ s, ok s a) (s : S) :
    sys.Meets ok s as := by
  induction as generalizing s with
  | nil => trivial
  | cons a as ih =>
    exact ⟨h a List.mem_cons_self s, ih (fun b hb => h b (List.mem_cons_of_mem _ hb)) _⟩

/-- Two conditions that agree wherever an invariant holds, and of which the second keeps it, are met
by the same paths. -/
theorem Path.meets_iff {I : S → Prop} {ok ok' : S → A → Prop}
    (keep : ∀ s a, I s → sys.enabled s a → ok' s a → I (sys.next s a))
    (same : ∀ s a, I s → sys.enabled s a → (ok s a ↔ ok' s a))
    {s t : S} {as : List A} (h : sys.Path s as t) (hs : I s) :
    sys.Meets ok s as ↔ sys.Meets ok' s as := by
  induction h with
  | nil => exact Iff.rfl
  | @cons s t a as ha _ ih =>
    refine (and_congr_left' (same s a hs ha)).trans (and_congr_right fun hok => ?_)
    exact ih (keep s a hs ha hok)

/-- Two conditions that agree wherever an invariant holds are met by the same paths. -/
theorem Path.meets_congr {I : S → Prop} {ok ok' : S → A → Prop}
    (keep : ∀ s a, I s → sys.enabled s a → I (sys.next s a))
    (same : ∀ s a, I s → sys.enabled s a → (ok s a ↔ ok' s a))
    {s t : S} {as : List A} (h : sys.Path s as t) (hs : I s) :
    sys.Meets ok s as ↔ sys.Meets ok' s as :=
  h.meets_iff (fun s a hs ha _ => keep s a hs ha) same hs

/-- What an enabled action keeps under a condition, a path whose actions all meet it keeps. -/
theorem Path.keeps_of_meets {I : S → Prop} {ok : S → A → Prop}
    (keep : ∀ s a, I s → sys.enabled s a → ok s a → I (sys.next s a))
    {s t : S} {as : List A} (h : sys.Path s as t) (hok : sys.Meets ok s as) (hs : I s) : I t := by
  have hpath : (sys.guardedBy ok).Path s as t := guardedBy_path_iff.mpr ⟨h, hok⟩
  have hkeep : ∀ s a, I s → (sys.guardedBy ok).enabled s a → I ((sys.guardedBy ok).next s a) :=
    fun s a hs ha => keep s a hs ha.2 ha.1
  exact hpath.keeps hkeep hs

/-- Where no action is enabled any more once `good` is lost, and one step keeps `good` exactly when
its condition holds, a path keeps `good` exactly when all its actions meet the condition. -/
theorem Path.good_iff_meets {I good : S → Prop} {ok : S → A → Prop}
    (stop : ∀ s a, sys.enabled s a → good s)
    (step : ∀ s a, I s → sys.enabled s a → (good (sys.next s a) ↔ ok s a))
    (keep : ∀ s a, I s → sys.enabled s a → good (sys.next s a) → I (sys.next s a))
    {s t : S} {as : List A} (h : sys.Path s as t) (hs : I s) (hg : good s) :
    good t ↔ sys.Meets ok s as := by
  induction h with
  | nil => exact ⟨fun _ => trivial, fun _ => hg⟩
  | @cons s t a as ha rest ih =>
    by_cases hn : good (sys.next s a)
    · rw [ih (keep s a hs ha hn) hn]
      exact ⟨fun h => ⟨(step s a hs ha).mp hn, h⟩, fun h => h.2⟩
    · have hbad : ¬ good t := by
        cases rest with
        | nil => exact hn
        | cons hb _ => exact absurd (stop _ _ hb) hn
      exact ⟨fun h => absurd h hbad, fun h => absurd ((step s a hs ha).mpr h.1) hn⟩

/-! ## What a run puts out -/

/-- The outputs of the actions, in the order in which they are taken. -/
def trace {O : Type*} (sys : System S A) (out : S → A → List O) : S → List A → List O
  | _, [] => []
  | s, a :: as => out s a ++ sys.trace out (sys.next s a) as

/-- If what an enabled action takes out of a queue and leaves in it is what was in it and what the
action puts in, a path does the same. -/
theorem Path.trace_conserved {O : Type*} {I : S → Prop} (taken put : S → A → List O)
    (queue : S → List O) (keep : ∀ s a, I s → sys.enabled s a → I (sys.next s a))
    (step : ∀ s a, I s → sys.enabled s a →
      taken s a ++ queue (sys.next s a) = queue s ++ put s a)
    {s t : S} {as : List A} (h : sys.Path s as t) (hs : I s) :
    sys.trace taken s as ++ queue t = queue s ++ sys.trace put s as := by
  induction h with
  | nil => simp only [trace, List.nil_append, List.append_nil]
  | @cons s t a as ha _ ih =>
    calc sys.trace taken s (a :: as) ++ queue t
        = taken s a ++ (sys.trace taken (sys.next s a) as ++ queue t) := List.append_assoc ..
      _ = taken s a ++ (queue (sys.next s a) ++ sys.trace put (sys.next s a) as) := by
        rw [ih (keep s a hs ha)]
      _ = taken s a ++ queue (sys.next s a) ++ sys.trace put (sys.next s a) as :=
        (List.append_assoc ..).symm
      _ = queue s ++ put s a ++ sys.trace put (sys.next s a) as := by rw [step s a hs ha]
      _ = queue s ++ sys.trace put s (a :: as) := List.append_assoc ..

/-- If every enabled action only takes out of a queue, what a path takes out, followed by what is
left, is what was in it. -/
theorem Path.trace_taken {O : Type*} {I : S → Prop} (taken : S → A → List O) (queue : S → List O)
    (keep : ∀ s a, I s → sys.enabled s a → I (sys.next s a))
    (step : ∀ s a, I s → sys.enabled s a → taken s a ++ queue (sys.next s a) = queue s)
    {s t : S} {as : List A} (h : sys.Path s as t) (hs : I s) :
    sys.trace taken s as ++ queue t = queue s := by
  induction h with
  | nil => rfl
  | @cons s t a as ha _ ih =>
    rw [trace, List.append_assoc, ih (keep s a hs ha), step s a hs ha]

/-- A list that every enabled action extends by what it puts in. -/
theorem Path.trace_appended {O : Type*} {I : S → Prop} (put : S → A → List O) (log : S → List O)
    (keep : ∀ s a, I s → sys.enabled s a → I (sys.next s a))
    (step : ∀ s a, I s → sys.enabled s a → log (sys.next s a) = log s ++ put s a)
    {s t : S} {as : List A} (h : sys.Path s as t) (hs : I s) :
    log t = log s ++ sys.trace put s as := by
  induction h with
  | nil => exact (List.append_nil _).symm
  | @cons s t a as ha _ ih =>
    rw [ih (keep s a hs ha), step s a hs ha, List.append_assoc]
    rfl

/-! ## Evaluating a list of actions -/

/-- Take the actions in order, stopping at the first that is not enabled. -/
def run (sys : System S A) [∀ s a, Decidable (sys.enabled s a)] : S → List A → Option S
  | s, [] => some s
  | s, a :: as => if sys.enabled s a then sys.run (sys.next s a) as else none

/-- A list of actions evaluates to the state its path reaches. -/
theorem run_eq_some_iff [∀ s a, Decidable (sys.enabled s a)] {s t : S} {as : List A} :
    sys.run s as = some t ↔ sys.Path s as t := by
  induction as generalizing s with
  | nil =>
    simp only [run, Option.some.injEq]
    constructor
    · rintro rfl
      exact .nil _
    · intro h
      cases h
      rfl
  | cons a as ih =>
    simp only [run]
    constructor
    · intro h
      split at h
      · next ha => exact .cons ha (ih.mp h)
      · cases h
    · intro h
      cases h with
      | cons ha hp => rw [if_pos ha, ih.mpr hp]

/-- A list of actions that evaluates, from a start, to a state with a checked property reaches
such a state. -/
theorem exists_reachable_of_run (sys : System S A) [∀ s a, Decidable (sys.enabled s a)] {s : S}
    (h₀ : sys.init s) (as : List A) (p : S → Bool) (h : (sys.run s as).map p = some true) :
    ∃ t, sys.Reachable t ∧ p t = true := by
  obtain ⟨t, ht, hp⟩ := Option.map_eq_some_iff.mp h
  exact ⟨t, ⟨s, as, h₀, run_eq_some_iff.mp ht⟩, hp⟩

/-! ## Actions that run out -/

/-- No action of the kind is enabled. -/
def Quiescent (sys : System S A) (kind : A → Prop) (s : S) : Prop :=
  ∀ a, kind a → ¬ sys.enabled s a

/-- If every enabled action of a kind lowers a measure, a path of such actions is no longer than
the measure of the state it starts in. -/
theorem Path.length_le {kind : A → Prop} {I : S → Prop} (m : S → Nat)
    (keep : ∀ s a, I s → sys.enabled s a → I (sys.next s a))
    (lower : ∀ s a, I s → kind a → sys.enabled s a → m (sys.next s a) < m s)
    {s t : S} {as : List A} (h : sys.Path s as t) (hs : I s) (hk : ∀ a ∈ as, kind a) :
    as.length + m t ≤ m s := by
  induction h with
  | nil => simp only [List.length_nil, Nat.zero_add, Nat.le_refl]
  | @cons s s' a as ha _ ih =>
    have hlow := lower s a hs (hk a List.mem_cons_self) ha
    have hrest := ih (keep s a hs ha) fun b hb => hk b (List.mem_cons_of_mem _ hb)
    simp only [List.length_cons]
    omega

/-- And from every state some path of such actions ends where none is enabled. -/
theorem exists_quiescent {kind : A → Prop} {I : S → Prop} (m : S → Nat)
    (keep : ∀ s a, I s → sys.enabled s a → I (sys.next s a))
    (lower : ∀ s a, I s → kind a → sys.enabled s a → m (sys.next s a) < m s)
    (s : S) (hs : I s) :
    ∃ as t, (∀ a ∈ as, kind a) ∧ sys.Path s as t ∧ sys.Quiescent kind t := by
  induction hn : m s using Nat.strongRecOn generalizing s with
  | ind n ih =>
    by_cases hq : sys.Quiescent kind s
    · exact ⟨[], s, by simp only [List.not_mem_nil, false_implies, implies_true], .nil s, hq⟩
    · obtain ⟨a, hk, ha⟩ : ∃ a, kind a ∧ sys.enabled s a := by
        simpa only [Quiescent, not_forall, not_not, exists_prop] using hq
      subst hn
      obtain ⟨as, t, has, hp, ht⟩ := ih _ (lower s a hs hk ha) _ (keep s a hs ha) rfl
      refine ⟨a :: as, t, ?_, .cons ha hp, ht⟩
      intro b hb
      rcases List.mem_cons.mp hb with rfl | hb
      · exact hk
      · exact has b hb

end System

end Transition
