import Multiprocess.Thread.Cancel
import Mathlib.Algebra.Order.BigOperators.Group.Finset

/-!
# A thread that serves the calls that are not canceled

`Serves` is what a caller relies on: canceling other calls does not break, repeat or cancel its
own, which comes to its own result, and calls made later do too. A run leads to a state that serves
exactly when it destroys no promise whose continuation of `m_thread_ready` has not run.

The calls are those through one object; `Handles` has several.
-/

namespace Multiprocess.Thread

open Transition (System)

variable {E V : Type} {s : State E V}

/-! ## What is relied on -/

/-- What holds of a call that is not canceled. -/
structure Request.Kept (q : Request E V) : Prop where
  unbroken : q.promise ≠ .broken
  once : q.runs ≤ 1
  own : ∀ r, q.promise = .settled r → q.runs = 1 ∧ q.returned = some r
  uncanceled : q.monitor ≠ some true

/-- The steps that carry calls on: all but new calls, destroyed promises and IPC calls of `fn`. -/
def Action.IsProgress : Action E V → Prop
  | .post | .destroy _ | .call => False
  | _ => True

/-- Every call that is not canceled is settled. -/
def Settles (s : State E V) : Prop :=
  ∀ i < s.posted, (s.requests i).promise ≠ .canceled → ∃ r, (s.requests i).promise = .settled r

/-- Carrying the calls on comes to an end, and there they are settled. -/
structure Finishes (s : State E V) : Prop where
  bounded : ∃ n, ∀ as t, (∀ a ∈ as, a.IsProgress) → (thread E V).Path s as t → as.length ≤ n
  settles : ∀ as t, (∀ a ∈ as, a.IsProgress) → (thread E V).Path s as t →
    (thread E V).Quiescent Action.IsProgress t → Settles t

/-- The calls that are not canceled are kept, and will be settled, as those made next will. -/
structure Serves (s : State E V) : Prop where
  others : ∀ i < s.posted, (s.requests i).promise ≠ .canceled → (s.requests i).Kept
  asserted : s.asserted = false
  finishes : Finishes s
  later : Finishes s.post

/-! ## The steps that carry calls on run out -/

/-- The steps a closure has left at most, IPC calls of its function aside. -/
def Stage.left : Stage E V → Nat
  | .chained => 6
  | .slotted => 5
  | .signaling => 4
  | .calling => 3
  | .running => 2
  | .resolving _ => 1
  | .finished | .dropped => 0

/-- A promise can still be settled or broken. -/
def Promised.left : Promised E V → Nat
  | .pending => 1
  | _ => 0

theorem Promised.left_settle (p : Promised E V) (result : Except E V) :
    (p.settle result).left = 0 := by
  cases p <;> rfl

theorem Promised.left_breakOff (p : Promised E V) : p.breakOff.left = 0 := by
  cases p <;> rfl

/-- The steps a call has left at most. -/
def Request.left (q : Request E V) : Nat := q.stage.left + q.promise.left

/-- The steps all calls have left. -/
def left (s : State E V) : Nat := ∑ i ∈ Finset.range s.posted, (s.requests i).left

theorem left_update_lt {i : Nat} {f : Request E V → Request E V} (hi : i < s.posted)
    (h : (f (s.requests i)).left < (s.requests i).left) : left (s.update i f) < left s := by
  refine Finset.sum_lt_sum (fun j _ => ?_) ⟨i, Finset.mem_range.mpr hi, ?_⟩
  · rw [update_requests]
    split
    · next he =>
      subst he
      exact h.le
    · exact Nat.le_refl _
  · rw [update_same]
    exact h

theorem left_updateTop_lt (hp : Placed s) {stage : Stage E V} (ht : s.top = some stage)
    (f : Request E V → Request E V)
    (h : ∀ q : Request E V, q.stage = stage → (f q).left < q.left) :
    left (s.updateTop f) < left s := by
  obtain ⟨i, rest, hf, hs⟩ := top_eq_some ht
  rw [updateTop_cons hf]
  exact left_update_lt ((hp.frames i).mp (by rw [hf]; exact List.mem_cons_self)).1 (h _ hs)

/-- Every step that carries calls on leaves fewer. -/
theorem left_next_lt (s : State E V) (a : Action E V) (hp : Placed s) (hk : a.IsProgress)
    (ha : (thread E V).enabled s a) : left ((thread E V).next s a) < left s := by
  cases a with
  | post => cases hk
  | destroy i => cases hk
  | call => cases hk
  | proceed i =>
    obtain ⟨hi, hc, -⟩ := ha
    change left (s.proceed i) < left s
    unfold State.proceed
    split
    · refine left_update_lt (s := s) (f := ({ · with stage := .slotted })) hi ?_
      simp only [Request.left, hc, Stage.left]
      omega
    · refine left_update_lt (s := s)
        (f := fun q => { q.drop with promise := q.promise.breakOff }) hi ?_
      simp only [Request.left, Request.drop, hc, Stage.left, Promised.left_breakOff]
      omega
  | reject i =>
    obtain ⟨hi, hc, hpend, -⟩ := ha
    refine left_update_lt hi ?_
    simp only [Request.left, Promised.left_breakOff, hpend]
    simp only [Promised.left]
    omega
  | take =>
    obtain ⟨i, hslot⟩ := Option.isSome_iff_exists.mp ha.2
    obtain ⟨hi, hs⟩ := (hp.slot i).mp hslot
    change left s.take < left s
    rw [take_some hslot]
    refine left_update_lt (s := s) (f := ({ · with stage := .signaling })) hi ?_
    simp only [Request.left, hs, Stage.left]
    omega
  | signal =>
    refine left_updateTop_lt hp ha _ fun q hs => ?_
    simp only [Request.left, Request.signal, hs, Stage.left]
    omega
  | answer =>
    refine left_updateTop_lt hp ha.1 _ fun q hs => ?_
    simp only [Request.left, hs, Stage.left]
    omega
  | ret result =>
    refine left_updateTop_lt hp ha _ fun q hs => ?_
    simp only [Request.left, Request.ret, hs, Stage.left]
    omega
  | resolve =>
    obtain ⟨result, ht⟩ := ha
    obtain ⟨i, rest, hf, hs⟩ := top_eq_some ht
    change left s.resolve < left s
    rw [resolve_cons hf]
    have hi := ((hp.frames i).mp (by rw [hf]; exact List.mem_cons_self)).1
    refine left_update_lt (s := s) (f := Request.resolve) hi ?_
    rw [resolve_resolving hs]
    simp only [Request.left, hs, Stage.left, Promised.left_settle]
    omega

theorem finishes_bounded (hp : Placed s) :
    ∃ n, ∀ as t, (∀ a ∈ as, a.IsProgress) → (thread E V).Path s as t → as.length ≤ n := by
  refine ⟨left s, fun as t hk h => ?_⟩
  have hlen := h.length_le left placed_next (fun s a hs hk ha => left_next_lt s a hs hk ha) hp hk
  omega

/-! ## Where they end, the calls of a sound state are settled -/

/-- A path of such steps from a sound state ends in one. -/
theorem sound_progress (h : Sound s) (hp : Placed s) {as : List (Action E V)} {t : State E V}
    (hk : ∀ a ∈ as, a.IsProgress) (k : (thread E V).Path s as t) : Sound t ∧ Placed t := by
  have hok : (thread E V).Meets Spares s as := by
    refine System.meets_of_forall (fun a ha s => ?_) s
    cases a with
    | destroy i => cases hk _ ha
    | _ => trivial
  refine (System.guardedBy_path_iff.mpr ⟨k, hok⟩).keeps (I := fun s => Sound s ∧ Placed s) ?_ ⟨h, hp⟩
  rintro s a ⟨hs, hp⟩ ⟨hok, ha⟩
  exact ⟨sound_next s a hs hp hok ha, placed_next s a hp ha⟩

section Ends

variable [Nonempty E]

/-- The worker has nothing on its stack and nothing to take. -/
theorem idle_of_quiescent (hp : Placed s) (hq : (thread E V).Quiescent Action.IsProgress s) :
    s.frames = [] ∧ s.slot = none := by
  obtain ⟨e⟩ := ‹Nonempty E›
  have hslot : s.waits → s.slot = none := fun hw => by
    by_contra hs
    exact hq .take trivial ⟨hw, Option.isSome_iff_ne_none.mpr hs⟩
  cases hf : s.frames with
  | nil =>
    refine ⟨rfl, hslot (.inl ?_)⟩
    simp only [State.top, hf, List.head?_nil, Option.map_none]
  | cons i rest =>
    have ht : s.top = some (s.requests i).stage := by
      simp only [State.top, hf, List.head?_cons, Option.map_some]
    have htaken := ((hp.frames i).mp (by rw [hf]; exact List.mem_cons_self)).2
    cases hs : (s.requests i).stage with
    | signaling => exact absurd (ht.trans (congrArg _ hs)) (hq .signal trivial)
    | running => exact absurd (ht.trans (congrArg _ hs)) (hq (.ret (.error e)) trivial)
    | calling =>
      have ht := ht.trans (congrArg _ hs)
      exact absurd ⟨ht, hslot (.inr ht)⟩ (hq .answer trivial)
    | resolving result => exact absurd ⟨result, ht.trans (congrArg _ hs)⟩ (hq .resolve trivial)
    | chained | slotted | finished | dropped =>
      rw [hs] at htaken
      cases htaken

/-- A call whose `m_thread_ready` is fulfilled has finished. -/
theorem finished_of_ready (h : Sound s) (hp : Placed s)
    (hq : (thread E V).Quiescent Action.IsProgress s) {i : Nat} (hi : i < s.posted)
    (hr : s.threadReady i = .fulfilled) : (s.requests i).stage = .finished := by
  obtain ⟨hframes, hslot⟩ := idle_of_quiescent hp hq
  have htaken : (s.requests i).stage.isTaken ≠ true := by
    intro ht
    have hmem := (hp.frames i).mpr ⟨hi, ht⟩
    rw [hframes] at hmem
    cases hmem
  cases hs : (s.requests i).stage with
  | finished => rfl
  | chained => exact absurd ⟨hi, hs, hr⟩ (hq (.proceed i) trivial)
  | slotted => cases hslot.symm.trans ((hp.slot i).mpr ⟨hi, hs⟩)
  | dropped => exact absurd hs (h.requests i hi).kept
  | signaling | running | calling | resolving result =>
    rw [hs] at htaken
    exact absurd rfl htaken

/-- Every call has finished: along the chain, each `m_thread_ready` is fulfilled. -/
theorem finished_of_quiescent (h : Sound s) (hp : Placed s)
    (hq : (thread E V).Quiescent Action.IsProgress s) (i : Nat) (hi : i < s.posted) :
    (s.requests i).stage = .finished := by
  induction i with
  | zero => exact finished_of_ready h hp hq hi rfl
  | succ k ih =>
    refine finished_of_ready h hp hq hi ?_
    change (s.requests k).ready = .fulfilled
    rw [(h.requests k (by omega)).ready, ih (by omega)]
    rfl

theorem settles_of_quiescent (h : Sound s) (hp : Placed s)
    (hq : (thread E V).Quiescent Action.IsProgress s) : Settles s := by
  intro i hi hc
  have hsound := h.requests i hi
  cases hr : (s.requests i).promise with
  | settled r => exact ⟨r, rfl⟩
  | pending => exact absurd hr (hsound.finished (finished_of_quiescent h hp hq i hi))
  | broken => exact absurd hr hsound.unbroken
  | canceled => exact absurd hr hc

theorem finishes_of_sound (h : Sound s) (hp : Placed s) : Finishes s where
  bounded := finishes_bounded hp
  settles as t hk k hq := by
    obtain ⟨ht, hpt⟩ := sound_progress h hp hk k
    exact settles_of_quiescent ht hpt hq

/-- A sound state serves the calls that are not canceled. -/
theorem serves_of_sound (h : Sound s) (hp : Placed s) : Serves s where
  others i hi hc := by
    have hsound := h.requests i hi
    refine ⟨hsound.unbroken, ?_, fun r hr => ?_, fun hm => hc (hsound.monitor hm)⟩
    · rw [hsound.runs]
      split <;> omega
    · obtain ⟨hf, hret⟩ := hsound.settled r hr
      refine ⟨?_, hret⟩
      rw [hsound.runs, hf]
      rfl
  asserted := h.asserted
  finishes := finishes_of_sound h hp
  later := finishes_of_sound (sound_post h) (placed_post hp)

end Ends

/-! ## From the first destroyed closure on -/

/-- The closure of a call was destroyed: no later call will ever run. -/
structure Blocked (k : Nat) (s : State E V) : Prop where
  below : k < s.posted
  dropped : (s.requests k).stage = .dropped
  ready : (s.requests k).ready = .rejected
  waits : ∀ j, k < j → j < s.posted →
    (s.requests j).stage = .chained ∨ (s.requests j).stage = .dropped
  unready : ∀ j, k < j → j < s.posted → (s.requests j).ready ≠ .fulfilled
  unsettled : ∀ j, k < j → j < s.posted → ∀ r, (s.requests j).promise ≠ .settled r

variable {k : Nat}

/-- Such a call's `m_thread_ready` is never fulfilled. -/
theorem Blocked.threadReady (h : Blocked k s) {i : Nat} (hi : i < s.posted) (hk : k < i) :
    s.threadReady i ≠ .fulfilled := by
  cases i with
  | zero => omega
  | succ m =>
    change (s.requests m).ready ≠ .fulfilled
    rcases Nat.lt_succ_iff_lt_or_eq.mp hk with hlt | rfl
    · exact h.unready m hlt (by omega)
    · rw [h.ready]
      nofun

/-- A call that has a closure in the slot or in a frame comes before. -/
theorem Blocked.lt_of_live (h : Blocked k s) {i : Nat} (hi : i < s.posted)
    (hc : (s.requests i).stage ≠ .chained) (hd : (s.requests i).stage ≠ .dropped) : i < k := by
  rcases Nat.lt_trichotomy i k with hlt | rfl | hgt
  · exact hlt
  · exact absurd h.dropped hd
  · rcases h.waits i hgt hi with hw | hw
    · exact absurd hw hc
    · exact absurd hw hd

/-- A change of a call that comes before. -/
theorem Blocked.update_before (h : Blocked k s) {i : Nat} (f : Request E V → Request E V)
    (hlt : i < k) : Blocked k (s.update i f) := by
  have hne : ∀ j, k ≤ j → j ≠ i := by omega
  refine ⟨h.below, ?_, ?_, fun j hj => ?_, fun j hj => ?_, fun j hj => ?_⟩
  · rw [update_other (hne k (Nat.le_refl k))]
    exact h.dropped
  · rw [update_other (hne k (Nat.le_refl k))]
    exact h.ready
  all_goals rw [update_other (hne j hj.le)]
  · exact h.waits j hj
  · exact h.unready j hj
  · exact h.unsettled j hj

/-- The slot and the frames may change freely. -/
theorem Blocked.congr (h : Blocked k s) {t : State E V} (requests : t.requests = s.requests)
    (posted : t.posted = s.posted) : Blocked k t := by
  obtain ⟨reqs, n, slot, frames, asserted⟩ := t
  obtain rfl : reqs = s.requests := requests
  obtain rfl : n = s.posted := posted
  exact ⟨h.below, h.dropped, h.ready, h.waits, h.unready, h.unsettled⟩

/-- A change of a call that leaves it blocked. -/
theorem Blocked.update_kept (h : Blocked k s) {i : Nat} (f : Request E V → Request E V)
    (stage : (f (s.requests i)).stage = (s.requests i).stage ∨
      (s.requests i).stage = .chained ∧ (f (s.requests i)).stage = .dropped)
    (ready : (f (s.requests i)).ready = (s.requests i).ready ∨
      (f (s.requests i)).ready = .rejected)
    (promise : ∀ r, (f (s.requests i)).promise = .settled r → (s.requests i).promise = .settled r) :
    Blocked k (s.update i f) := by
  refine ⟨h.below, ?_, ?_, fun j hj hlt => ?_, fun j hj hlt => ?_, fun j hj hlt r => ?_⟩ <;>
    rw [update_requests] <;> split
  · next he =>
    subst he
    rcases stage with hs | ⟨-, hs⟩
    · rw [hs, h.dropped]
    · exact hs
  · exact h.dropped
  · next he =>
    subst he
    rcases ready with hr | hr
    · rw [hr, h.ready]
    · exact hr
  · exact h.ready
  · next he =>
    subst he
    rcases stage with hs | ⟨-, hs⟩
    · rw [hs]
      exact h.waits j hj hlt
    · exact .inr hs
  · exact h.waits j hj hlt
  · next he =>
    subst he
    rcases ready with hr | hr
    · rw [hr]
      exact h.unready j hj hlt
    · rw [hr]
      nofun
  · exact h.unready j hj hlt
  · next he =>
    subst he
    exact fun hr => h.unsettled j hj hlt r (promise r hr)
  · exact h.unsettled j hj hlt r

theorem Blocked.updateTop (h : Blocked k s) (hp : Placed s) {stage : Stage E V}
    (ht : s.top = some stage) (hs : stage.isTaken = true) (f : Request E V → Request E V) :
    Blocked k (s.updateTop f) := by
  obtain ⟨i, rest, hf, rfl⟩ := top_eq_some ht
  rw [updateTop_cons hf]
  refine h.update_before f (h.lt_of_live
    ((hp.frames i).mp (by rw [hf]; exact List.mem_cons_self)).1 ?_ ?_) <;>
    intro hc <;> rw [hc] at hs <;> cases hs

theorem Blocked.post (h : Blocked k s) : Blocked k s.post := by
  have hne : k ≠ s.posted := Nat.ne_of_lt h.below
  refine ⟨Nat.lt_succ_of_lt h.below, ?_, ?_, fun j hj hlt => ?_, fun j hj hlt => ?_,
    fun j hj hlt => ?_⟩
  · rw [post_requests, if_neg hne]
    exact h.dropped
  · rw [post_requests, if_neg hne]
    exact h.ready
  all_goals
    have hlt : j < s.posted + 1 := hlt
    rw [post_requests]
    split
  · exact .inl rfl
  · exact h.waits j hj (by omega)
  · nofun
  · exact h.unready j hj (by omega)
  · nofun
  · exact h.unsettled j hj (by omega)

theorem Blocked.destroy (h : Blocked k s) (i : Nat) : Blocked k (s.update i Request.destroy) := by
  by_cases hc : (s.requests i).stage = .chained
  · refine h.update_kept _ ?_ ?_ fun r hr => ?_ <;> rw [destroy_chained hc] at *
    · exact .inr ⟨hc, rfl⟩
    · exact .inr rfl
    · cases hq : (s.requests i).promise <;> simp only [hq, Promised.cancel, reduceCtorEq] at hr ⊢
      exact hr
  · refine h.update_kept _ ?_ ?_ fun r hr => ?_ <;> rw [destroy_posted hc] at *
    · exact .inl rfl
    · exact .inl rfl
    · cases hq : (s.requests i).promise <;> simp only [hq, Promised.cancel, reduceCtorEq] at hr ⊢
      exact hr

/-- No step unblocks a call. -/
theorem blocked_next (s : State E V) (a : Action E V) (h : Blocked k s) (hp : Placed s)
    (ha : (thread E V).enabled s a) : Blocked k ((thread E V).next s a) := by
  cases a with
  | post => exact h.post
  | proceed i =>
    obtain ⟨hi, hc, hr⟩ := ha
    have hlt : i < k := by
      rcases Nat.lt_trichotomy i k with hlt | rfl | hgt
      · exact hlt
      · cases hc.symm.trans h.dropped
      · exact absurd hr (h.threadReady hi hgt)
    change Blocked k (s.proceed i)
    unfold State.proceed
    split
    · exact (h.update_before ({ · with stage := .slotted }) hlt).congr rfl rfl
    · exact (h.update_before (fun q => { q.drop with promise := q.promise.breakOff }) hlt).congr
        rfl rfl
  | reject i =>
    refine h.update_kept (fun q => { q with promise := q.promise.breakOff }) (.inl rfl) (.inl rfl)
      fun r hr => ?_
    cases hq : (s.requests i).promise <;> simp only [hq, Promised.breakOff, reduceCtorEq] at hr ⊢
    exact hr
  | destroy i => exact h.destroy i
  | take =>
    obtain ⟨i, hslot⟩ := Option.isSome_iff_exists.mp ha.2
    obtain ⟨hi, hs⟩ := (hp.slot i).mp hslot
    have hlt := h.lt_of_live hi (by rw [hs]; nofun) (by rw [hs]; nofun)
    change Blocked k s.take
    rw [take_some hslot]
    exact (h.update_before ({ · with stage := .signaling }) hlt).congr rfl rfl
  | signal => exact h.updateTop hp ha rfl _
  | call => exact h.updateTop hp ha rfl _
  | answer => exact h.updateTop hp ha.1 rfl _
  | ret result => exact h.updateTop hp ha rfl _
  | resolve =>
    obtain ⟨result, ht⟩ := ha
    obtain ⟨i, rest, hf, hs⟩ := top_eq_some ht
    have hi := ((hp.frames i).mp (by rw [hf]; exact List.mem_cons_self)).1
    have hlt := h.lt_of_live hi (by rw [hs]; nofun) (by rw [hs]; nofun)
    change Blocked k s.resolve
    rw [resolve_cons hf]
    exact (h.update_before Request.resolve hlt).congr rfl rfl

/-- A step that destroys a closure of a sound state blocks the calls after it. -/
theorem blocked_of_not_spares (h : Sound s) {a : Action E V} (ha : (thread E V).enabled s a)
    (hn : ¬ Spares s a) : ∃ k, Blocked k ((thread E V).next s a) := by
  cases a with
  | destroy k =>
    have hc : (s.requests k).stage = .chained := not_not.mp hn
    have hlater : ∀ j, k < j → j < s.posted → (s.requests j).stage = .chained := by
      intro j hj hlt
      by_contra hs
      have hready := (h.requests k ha.1).ready
      rw [hc, h.chain j hlt hs k hj] at hready
      cases hready
    refine ⟨k, ha.1, ?_, ?_, fun j hj hlt => ?_, fun j hj hlt => ?_, fun j hj hlt r hr => ?_⟩
    · change ((s.update k Request.destroy).requests k).stage = _
      rw [update_same, destroy_chained hc]
      rfl
    · change ((s.update k Request.destroy).requests k).ready = _
      rw [update_same, destroy_chained hc]
      rfl
    · change ((s.update k Request.destroy).requests j).stage = _ ∨ _
      rw [update_other (Nat.ne_of_gt hj)]
      exact .inl (hlater j hj hlt)
    · change ((s.update k Request.destroy).requests j).ready ≠ _
      rw [update_other (Nat.ne_of_gt hj), (h.requests j hlt).ready, hlater j hj hlt]
      nofun
    · change ((s.update k Request.destroy).requests j).promise = _ at hr
      rw [update_other (Nat.ne_of_gt hj)] at hr
      cases (hlater j hj hlt).symm.trans ((h.requests j hlt).settled r hr).1
  | _ => exact absurd trivial hn

/-! ## Runs that destroy a closure do not serve -/

theorem Promised.breakOff_ne_canceled {p : Promised E V} (h : p ≠ .canceled) :
    p.breakOff ≠ .canceled := by
  cases p with
  | pending => nofun
  | _ => exact h

theorem Promised.settle_ne_canceled {p : Promised E V} (h : p ≠ .canceled)
    (result : Except E V) : p.settle result ≠ .canceled := by
  cases p with
  | pending => nofun
  | _ => exact h

theorem resolve_ne_canceled {q : Request E V} (h : q.promise ≠ .canceled) :
    q.resolve.promise ≠ .canceled := by
  unfold Request.resolve
  split
  · exact Promised.settle_ne_canceled h _
  · exact h

theorem uncanceled_update {i : Nat} (h : (s.requests i).promise ≠ .canceled) (j : Nat)
    (f : Request E V → Request E V)
    (hf : ∀ q : Request E V, q.promise ≠ .canceled → (f q).promise ≠ .canceled) :
    ((s.update j f).requests i).promise ≠ .canceled := by
  rw [update_requests]
  split
  · next he => exact hf _ (he ▸ h)
  · exact h

theorem uncanceled_updateTop {i : Nat} (h : (s.requests i).promise ≠ .canceled)
    (f : Request E V → Request E V)
    (hf : ∀ q : Request E V, q.promise ≠ .canceled → (f q).promise ≠ .canceled) :
    ((s.updateTop f).requests i).promise ≠ .canceled := by
  unfold State.updateTop
  split
  · exact uncanceled_update h _ f hf
  · exact h

/-- Carrying calls on cancels none. -/
theorem uncanceled_next (s : State E V) (a : Action E V) (hk : a.IsProgress) {i : Nat}
    (h : (s.requests i).promise ≠ .canceled) :
    (((thread E V).next s a).requests i).promise ≠ .canceled := by
  cases a with
  | post => cases hk
  | destroy i => cases hk
  | call => cases hk
  | proceed j =>
    change ((s.proceed j).requests i).promise ≠ _
    unfold State.proceed
    split
    · exact uncanceled_update h j ({ · with stage := .slotted }) fun q => id
    · exact uncanceled_update h j (fun q => { q.drop with promise := q.promise.breakOff })
        fun q hq => Promised.breakOff_ne_canceled hq
  | reject j =>
    exact uncanceled_update h j (fun q => { q with promise := q.promise.breakOff })
      fun q hq => Promised.breakOff_ne_canceled hq
  | take =>
    change (s.take.requests i).promise ≠ _
    unfold State.take
    split
    · exact uncanceled_update h _ ({ · with stage := .signaling }) fun q => id
    · exact h
  | signal => exact uncanceled_updateTop h _ fun q hq => hq
  | answer => exact uncanceled_updateTop h ({ · with stage := .running }) fun q => id
  | ret result => exact uncanceled_updateTop h (Request.ret result) fun q hq => hq
  | resolve =>
    change (s.resolve.requests i).promise ≠ _
    unfold State.resolve
    split
    · exact uncanceled_update h _ Request.resolve fun q => resolve_ne_canceled
    · exact h

/-- Only `post` adds a call, and nothing removes one. -/
theorem posted_next_le (s : State E V) (a : Action E V) :
    s.posted ≤ ((thread E V).next s a).posted := by
  have htop : ∀ f : Request E V → Request E V, s.posted ≤ (s.updateTop f).posted := by
    intro f
    unfold State.updateTop
    split <;> exact Nat.le_refl _
  cases a with
  | post => exact Nat.le_succ _
  | proceed i =>
    change _ ≤ (s.proceed i).posted
    unfold State.proceed
    split <;> exact Nat.le_refl _
  | take =>
    change _ ≤ s.take.posted
    unfold State.take
    split <;> exact Nat.le_refl _
  | resolve =>
    change _ ≤ s.resolve.posted
    unfold State.resolve
    split <;> exact Nat.le_refl _
  | reject i | destroy i => exact Nat.le_refl _
  | signal | call | answer | ret result => exact htop _

/-- With a call blocked, a call made next is never settled, and so the thread does not serve. -/
theorem not_serves_of_blocked (h : Blocked k s) (hp : Placed s) : ¬ Serves s := by
  intro hserves
  obtain ⟨as, t, hk, path, hq⟩ := System.exists_quiescent left placed_next
    (fun s a hs hk ha => left_next_lt s a hs hk ha) s.post (placed_post hp)
  have hguarded : ((thread E V).guardedBy fun _ a => a.IsProgress).Path s.post as t :=
    System.guardedBy_path_iff.mpr ⟨path, System.meets_of_forall (fun a ha _ => hk a ha) _⟩
  have hpost : (s.post.requests s.posted).promise ≠ .canceled := by
    rw [post_requests, if_pos rfl]
    nofun
  obtain ⟨hb, -, hlt, hc⟩ := hguarded.keeps
    (I := fun t => Blocked k t ∧ Placed t ∧ s.posted < t.posted ∧
      (t.requests s.posted).promise ≠ .canceled)
    (by
      rintro t a ⟨hb, hp, hlt, hc⟩ ⟨hk, ha⟩
      exact ⟨blocked_next t a hb hp ha, placed_next t a hp ha,
        Nat.lt_of_lt_of_le hlt (posted_next_le t a), uncanceled_next t a hk hc⟩)
    ⟨h.post, placed_post hp, Nat.lt_succ_self _, hpost⟩
  obtain ⟨r, hr⟩ := hserves.later.settles as t hk path hq s.posted hlt hc
  exact hb.unsettled s.posted h.below hlt r hr

/-- A run that destroys a closure ends in a blocked state. -/
theorem blocked_of_not_meets (h : Sound s) (hp : Placed s) {as : List (Action E V)}
    {t : State E V} (path : (thread E V).Path s as t) (hn : ¬ (thread E V).Meets Spares s as) :
    (∃ k, Blocked k t) ∧ Placed t := by
  refine ⟨?_, path.keeps placed_next hp⟩
  induction path with
  | nil => exact absurd trivial hn
  | @cons s t a as ha rest ih =>
    by_cases hok : Spares s a
    · exact ih (sound_next s a h hp hok ha) (placed_next s a hp ha) fun hm => hn ⟨hok, hm⟩
    · obtain ⟨k, hk⟩ := blocked_of_not_spares h ha hok
      have hkeep := rest.keeps (I := fun t => Blocked k t ∧ Placed t)
        (fun t b ht hb => ⟨blocked_next t b ht.1 ht.2 hb, placed_next t b ht.2 hb⟩)
        ⟨hk, placed_next s a hp ha⟩
      exact ⟨k, hkeep.1⟩

/-- Canceling calls leaves the others alone, in a run of any calls and cancellations, exactly when
the run destroys no promise whose continuation of `m_thread_ready` has not run. -/
theorem serves_iff_meets [Nonempty E] (as : List (Action E V)) (t : State E V)
    (path : (thread E V).Path created as t) :
    Serves t ↔ (thread E V).Meets Spares created as := by
  constructor
  · intro hserves
    by_contra hn
    obtain ⟨⟨k, hb⟩, hp⟩ := blocked_of_not_meets sound_created placed_created path hn
    exact not_serves_of_blocked hb hp hserves
  · intro hok
    have hkeep := (System.guardedBy_path_iff.mpr ⟨path, hok⟩).keeps
      (I := fun s => Sound s ∧ Placed s)
      (by
        rintro s a ⟨hs, hp⟩ ⟨hok, ha⟩
        exact ⟨sound_next s a hs hp hok ha, placed_next s a hp ha⟩)
      ⟨sound_created, placed_created⟩
    exact serves_of_sound hkeep.1 hkeep.2

/-- A call canceled while its function waits in the slot, and the next call, which comes to its
own result. -/
theorem serves_after_cancel_in_slot :
    ∃ t, (thread Unit Nat).Path created
        [.post, .proceed 0, .post, .destroy 0, .take, .signal, .proceed 1, .ret (.ok 3), .resolve,
          .take, .signal, .ret (.ok 7), .resolve] t ∧
      Serves t ∧ (t.requests 0).promise = .canceled ∧ (t.requests 1).promise = .settled (.ok 7) := by
  obtain ⟨t, hrun, hp⟩ := Option.map_eq_some_iff.mp (show
    ((thread Unit Nat).run created
        [.post, .proceed 0, .post, .destroy 0, .take, .signal, .proceed 1, .ret (.ok 3), .resolve,
          .take, .signal, .ret (.ok 7), .resolve]).map (fun t =>
      decide ((t.requests 0).promise = .canceled ∧ (t.requests 1).promise = .settled (.ok 7)))
      = some true by decide)
  have path := System.run_eq_some_iff.mp hrun
  exact ⟨t, path, (serves_iff_meets _ t path).mpr (by decide), of_decide_eq_true hp⟩

/-- A call canceled before its continuation has run: the call after it is broken, and its function
never called. -/
theorem breaks_after_cancel_in_chain :
    ∃ t, (thread Unit Nat).Path created
        [.post, .proceed 0, .post, .post, .destroy 1, .reject 2] t ∧
      (t.requests 1).promise = .canceled ∧ (t.requests 2).promise = .broken ∧
      (t.requests 2).runs = 0 ∧ ¬ Serves t := by
  obtain ⟨t, hrun, hp⟩ := Option.map_eq_some_iff.mp (show
    ((thread Unit Nat).run created
        [.post, .proceed 0, .post, .post, .destroy 1, .reject 2]).map (fun t =>
      decide (2 < t.posted ∧ (t.requests 1).promise = .canceled ∧
        (t.requests 2).promise = .broken ∧ (t.requests 2).runs = 0)) = some true by decide)
  obtain ⟨hlt, hcanceled, hbroken, hruns⟩ := of_decide_eq_true hp
  refine ⟨t, System.run_eq_some_iff.mp hrun, hcanceled, hbroken, hruns, fun hserves => ?_⟩
  exact (hserves.others 2 hlt (by rw [hbroken]; nofun)).unbroken hbroken

end Multiprocess.Thread
