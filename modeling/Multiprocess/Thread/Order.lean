import Multiprocess.Thread.Serves

/-!
# The order in which posted functions start

While no call is canceled, the functions posted to a thread start in the order of their calls, each
once, although any number of them may be on the worker's stack at a time and finish in another
order. The promise of a call gets what its own function came to.

Nothing is said of runs with a cancellation; `Serves` is about these.
-/

namespace Multiprocess.Thread

open Transition (System)

variable {E V : Type} {s : State E V} {k : Nat}

/-- The call whose function the step starts. -/
def starting (s : State E V) : Action E V → Option Nat
  | .signal => s.frames.head?
  | _ => none

/-- The calls whose functions start along a list of actions. -/
def starts : State E V → List (Action E V) → List Nat
  | _, [] => []
  | s, a :: as => (starting s a).toList ++ starts (next s a) as

/-- The step destroys a promise. -/
def Action.Cancels : Action E V → Prop
  | .destroy _ => True
  | _ => False

instance : ∀ a : Action E V, Decidable a.Cancels
  | .destroy _ => .isTrue trivial
  | .post | .proceed _ | .reject _ | .take | .signal | .call | .answer | .ret _ | .resolve =>
    .isFalse id

/-- The functions of the first `k` calls have been started, and no others. -/
structure Started (k : Nat) (s : State E V) : Prop where
  le : k ≤ s.posted
  signaled : ∀ i < s.posted, (s.requests i).stage.isSignaled = true ↔ i < k

theorem started_created : Started 0 (created : State E V) where
  le := Nat.le_refl 0
  signaled i hi := absurd hi (Nat.not_lt_zero i)

theorem started_update (h : Started k s) (i : Nat) (f : Request E V → Request E V)
    (same : (f (s.requests i)).stage.isSignaled = (s.requests i).stage.isSignaled) :
    Started k (s.update i f) where
  le := h.le
  signaled j hj := by
    rw [update_requests]
    split
    · next he =>
      subst he
      rw [same]
      exact h.signaled j hj
    · exact h.signaled j hj

/-- A step of the innermost frame that does not start its function. -/
theorem started_updateTop (h : Started k s) {stage : Stage E V} (ht : s.top = some stage)
    (f : Request E V → Request E V)
    (same : ∀ q : Request E V, q.stage = stage → (f q).stage.isSignaled = stage.isSignaled) :
    Started k (s.updateTop f) := by
  obtain ⟨i, rest, hf, hs⟩ := top_eq_some ht
  rw [updateTop_cons hf]
  exact started_update h i f (by rw [same _ hs, hs])

theorem started_post (h : Started k s) : Started k s.post where
  le := Nat.le_succ_of_le h.le
  signaled j hj := by
    have hj : j < s.posted + 1 := hj
    rw [post_requests]
    split
    · next he =>
      have := h.le
      exact ⟨nofun, fun hlt => by omega⟩
    · exact h.signaled j (by omega)

/-- The next function to start is the one of the first call that has none. -/
theorem started_signal (h : Started k s) (hs : Sound s) (hp : Placed s)
    (ht : s.top = some .signaling) :
    starting s (.signal : Action E V) = some k ∧ Started (k + 1) (s.updateTop Request.signal) := by
  obtain ⟨i, rest, hf, hstage⟩ := top_eq_some ht
  have hi := ((hp.frames i).mp (by rw [hf]; exact List.mem_cons_self)).1
  have hge : ¬ i < k := by
    intro hlt
    have := (h.signaled i hi).mpr hlt
    rw [hstage] at this
    cases this
  have hle : ¬ k < i := by
    intro hlt
    have hready := hs.chain i hi (by rw [hstage]; nofun) k hlt
    rw [(hs.requests k (by omega)).ready] at hready
    split at hready
    · next hsig => exact Nat.lt_irrefl k ((h.signaled k (by omega)).mp hsig)
    · cases hready
  obtain rfl : i = k := by omega
  refine ⟨by simp only [starting, hf, List.head?_cons], ?_⟩
  rw [updateTop_cons hf]
  refine ⟨hi, fun j hj => ?_⟩
  rw [update_requests]
  split
  · next he =>
    subst he
    exact ⟨fun _ => Nat.lt_succ_self j, fun _ => rfl⟩
  · rw [h.signaled j hj]
    omega

/-- A step starts the next function or none. -/
theorem started_next (s : State E V) (a : Action E V) (h : Started k s) (hs : Sound s)
    (hp : Placed s) (hc : ¬ a.Cancels) (ha : (thread E V).enabled s a) :
    ∃ k', List.range k ++ (starting s a).toList = List.range k' ∧
      Started k' ((thread E V).next s a) := by
  cases a with
  | signal =>
    obtain ⟨hstart, hnext⟩ := started_signal h hs hp ha
    exact ⟨k + 1, by rw [hstart, List.range_succ]; rfl, hnext⟩
  | post => exact ⟨k, List.append_nil _, started_post h⟩
  | proceed i =>
    refine ⟨k, List.append_nil _, ?_⟩
    change Started k (s.proceed i)
    rw [proceed_none (slot_empty hs hp ha.1 ha.2.1 ha.2.2)]
    have hu := started_update h i ({ · with stage := .slotted }) (by rw [ha.2.1]; rfl)
    exact ⟨hu.le, hu.signaled⟩
  | reject i =>
    exact ⟨k, List.append_nil _,
      started_update h i (fun q => { q with promise := q.promise.breakOff }) rfl⟩
  | destroy i => exact absurd trivial hc
  | take =>
    obtain ⟨i, hslot⟩ := Option.isSome_iff_exists.mp ha.2
    refine ⟨k, List.append_nil _, ?_⟩
    change Started k s.take
    rw [take_some hslot]
    have hu := started_update h i ({ · with stage := .signaling })
      (by rw [((hp.slot i).mp hslot).2]; rfl)
    exact ⟨hu.le, hu.signaled⟩
  | call => exact ⟨k, List.append_nil _, started_updateTop h ha _ fun _ _ => rfl⟩
  | answer => exact ⟨k, List.append_nil _, started_updateTop h ha.1 _ fun _ _ => rfl⟩
  | ret result => exact ⟨k, List.append_nil _, started_updateTop h ha _ fun _ _ => rfl⟩
  | resolve =>
    obtain ⟨result, ht⟩ := ha
    obtain ⟨i, rest, hf, hstage⟩ := top_eq_some ht
    refine ⟨k, List.append_nil _, ?_⟩
    change Started k s.resolve
    rw [resolve_cons hf]
    have hu := started_update h i Request.resolve (by rw [resolve_resolving hstage, hstage]; rfl)
    exact ⟨hu.le, hu.signaled⟩

/-- No promise has been destroyed. -/
def Uncanceled (s : State E V) : Prop := ∀ i < s.posted, (s.requests i).promise ≠ .canceled

theorem posted_updateTop (f : Request E V → Request E V) : (s.updateTop f).posted = s.posted := by
  unfold State.updateTop
  split <;> rfl

theorem posted_of_progress (s : State E V) (a : Action E V) (hk : a.IsProgress) :
    ((thread E V).next s a).posted = s.posted := by
  cases a with
  | post | destroy i | call => cases hk
  | proceed i =>
    change (s.proceed i).posted = _
    unfold State.proceed
    split <;> rfl
  | take =>
    change s.take.posted = _
    unfold State.take
    split <;> rfl
  | resolve =>
    change s.resolve.posted = _
    unfold State.resolve
    split <;> rfl
  | reject i => rfl
  | signal | answer | ret result => exact posted_updateTop _

theorem uncanceled_of_not_cancels (s : State E V) (a : Action E V) (h : Uncanceled s)
    (hc : ¬ a.Cancels) : Uncanceled ((thread E V).next s a) := by
  by_cases hk : a.IsProgress
  · intro i hi
    rw [posted_of_progress s a hk] at hi
    exact uncanceled_next s a hk (h i hi)
  · cases a with
    | post =>
      intro i hi
      change i < s.posted + 1 at hi
      change (s.post.requests i).promise ≠ _
      rw [post_requests]
      split
      · nofun
      · exact h i (by omega)
    | call =>
      intro i hi
      refine uncanceled_updateTop (h i ?_) ({ · with stage := .calling }) fun q hq => hq
      exact posted_updateTop (s := s) _ ▸ hi
    | destroy i => exact absurd trivial hc
    | _ => exact absurd trivial hk

/-- What holds along a run without cancellations. -/
theorem orderly_path {t : State E V} {as : List (Action E V)} (path : (thread E V).Path s as t)
    (hc : ∀ a ∈ as, ¬ a.Cancels) (h : Started k s) (hs : Sound s) (hp : Placed s)
    (hu : Uncanceled s) :
    ∃ k', List.range k ++ starts s as = List.range k' ∧ Started k' t ∧ Sound t ∧ Placed t ∧
      Uncanceled t := by
  induction path generalizing k with
  | nil => exact ⟨k, List.append_nil _, h, hs, hp, hu⟩
  | @cons s t a as ha _ ih =>
    have hca := hc a List.mem_cons_self
    have hspares : Spares s a := by
      cases a with
      | destroy i => exact absurd trivial hca
      | _ => trivial
    obtain ⟨k₁, hk₁, hstarted⟩ := started_next s a h hs hp hca ha
    obtain ⟨k', hk', hrest⟩ := ih (fun b hb => hc b (List.mem_cons_of_mem _ hb)) hstarted
      (sound_next s a hs hp hspares ha) (placed_next s a hp ha)
      (uncanceled_of_not_cancels s a hu hca)
    refine ⟨k', ?_, hrest⟩
    simp only [starts, ← List.append_assoc, hk₁]
    exact hk'

/-- The promise of a call is settled, with what its own function came to. -/
def Request.Answered (q : Request E V) : Prop := ∃ r, q.promise = .settled r ∧ q.returned = some r

/-- **In order, once, and with their own answers.** In every run of any calls without cancellation,
the functions started so far are those of the first calls in their order, the slot is empty
whenever the turn of a call comes, and a promise is pending or has the result of its own function.
Carried on, the run ends with all functions started and all promises settled. -/
theorem requests_in_order [Nonempty E] (as : List (Action E V)) (t : State E V)
    (hc : ∀ a ∈ as, ¬ a.Cancels) (path : (thread E V).Path created as t) :
    (∃ k ≤ t.posted, starts created as = List.range k) ∧
    (∀ i, (thread E V).enabled t (.proceed i) → t.slot = none) ∧
    (∀ i < t.posted, (t.requests i).promise = .pending ∨ (t.requests i).Answered) ∧
    (∃ n, ∀ bs u, (∀ b ∈ bs, b.IsProgress) → (thread E V).Path t bs u → bs.length ≤ n) ∧
    (∀ bs u, (∀ b ∈ bs, b.IsProgress) → (thread E V).Path t bs u →
      (thread E V).Quiescent Action.IsProgress u →
        starts created (as ++ bs) = List.range u.posted ∧
          ∀ i < u.posted, (u.requests i).Answered) := by
  have hcreated : Uncanceled (created : State E V) := fun i hi => absurd hi (Nat.not_lt_zero i)
  have hrun : ∀ {bs u}, (∀ b ∈ bs, ¬ b.Cancels) → (thread E V).Path created bs u →
      ∃ k, starts created bs = List.range k ∧ Started k u ∧ Sound u ∧ Placed u ∧ Uncanceled u := by
    intro bs u hbs hpath
    obtain ⟨k, hk, hrest⟩ := orderly_path hpath hbs started_created sound_created placed_created
      hcreated
    exact ⟨k, by simpa using hk, hrest⟩
  obtain ⟨k, hk, hstarted, hs, hp, hu⟩ := hrun hc path
  refine ⟨⟨k, hstarted.le, hk⟩, fun i hi => slot_empty hs hp hi.1 hi.2.1 hi.2.2, fun i hi => ?_,
    finishes_bounded hp, fun bs u hbs hpath hq => ?_⟩
  · cases hpr : (t.requests i).promise with
    | pending => exact .inl rfl
    | settled r => exact .inr ⟨r, hpr, ((hs.requests i hi).settled r hpr).2⟩
    | broken => exact absurd hpr (hs.requests i hi).unbroken
    | canceled => exact absurd hpr (hu i hi)
  · have hcancels : ∀ b ∈ as ++ bs, ¬ b.Cancels := by
      intro b hb
      rcases List.mem_append.mp hb with hb | hb
      · exact hc b hb
      · intro hcb
        have := hbs b hb
        cases b with
        | destroy i => exact this
        | _ => exact hcb
    obtain ⟨k', hk', hstarted', hs', hp', hu'⟩ := hrun hcancels (path.append hpath)
    have hfinished := finished_of_quiescent hs' hp' hq
    have hall : k' = u.posted := by
      refine Nat.le_antisymm hstarted'.le (Nat.le_of_not_lt fun hlt => ?_)
      have hsig := (hstarted'.signaled k' hlt).mp (by rw [hfinished k' hlt]; rfl)
      exact Nat.lt_irrefl k' hsig
    refine ⟨by rw [hk', hall], fun i hi => ?_⟩
    obtain ⟨r, hr⟩ := settles_of_quiescent hs' hp' hq i hi (hu' i hi)
    exact ⟨r, hr, ((hs'.requests i hi).settled r hr).2⟩

/-- Two calls, the second of which starts while the first waits for an IPC call and ends before
it. -/
theorem nested_requests_in_order :
    ∃ t, (thread Unit Nat).Path created
        [.post, .post, .proceed 0, .take, .signal, .proceed 1, .call, .take, .signal, .ret (.ok 7),
          .resolve, .answer, .ret (.ok 3), .resolve] t ∧
      starts created [Action.post, .post, .proceed 0, .take, .signal, .proceed 1, .call, .take,
        .signal, .ret (.ok 7), .resolve, .answer, .ret (Except.ok (ε := Unit) 3), .resolve] = [0, 1] ∧
      (∀ i < t.posted, (t.requests i).promise = .pending ∨ (t.requests i).Answered) := by
  obtain ⟨t, hrun⟩ := Option.isSome_iff_exists.mp (show
    ((thread Unit Nat).run created
        [.post, .post, .proceed 0, .take, .signal, .proceed 1, .call, .take, .signal, .ret (.ok 7),
          .resolve, .answer, .ret (.ok 3), .resolve]).isSome = true by decide)
  have path := System.run_eq_some_iff.mp hrun
  exact ⟨t, path, by decide, (requests_in_order _ t (by decide) path).2.2.1⟩

end Multiprocess.Thread
