import Multiprocess.Thread.Model

/-!
# Canceling one call of a thread among others

`Placed` says where the closures are, in every run. `Sound` says what holds of the calls and of
the chain of `m_thread_ready` promises as long as no promise is destroyed before its continuation
has run, and `Blocked` what holds from the first such destruction on. The two together tell the
runs in which canceling a call leaves the others alone from those in which it does not.

Both are invariants, and what they mean for a caller is said in `Serves`.
-/

namespace Multiprocess.Thread

open Transition (System)

variable {E V : Type} {s : State E V}

/-! ## Where the closures are -/

/-- The function is in a frame of the worker. -/
def Stage.isTaken : Stage E V → Bool
  | .signaling | .running | .calling | .resolving _ => true
  | _ => false

/-- `ready_fulfiller` has been fulfilled and `fn` called. -/
def Stage.isSignaled : Stage E V → Bool
  | .running | .calling | .resolving _ | .finished => true
  | _ => false

/-- What the slot and the frames hold; every frame but the innermost is in a nested wait. -/
structure Placed (s : State E V) : Prop where
  slot : ∀ i, s.slot = some i ↔ i < s.posted ∧ (s.requests i).stage = .slotted
  frames : ∀ i, i ∈ s.frames ↔ i < s.posted ∧ (s.requests i).stage.isTaken = true
  nodup : s.frames.Nodup
  outer : ∀ i ∈ s.frames.tail, (s.requests i).stage = .calling

theorem placed_created : Placed (created : State E V) where
  slot i := by
    constructor
    · nofun
    · rintro ⟨hi, -⟩
      exact absurd hi (Nat.not_lt_zero i)
  frames i := by
    constructor
    · nofun
    · rintro ⟨hi, -⟩
      exact absurd hi (Nat.not_lt_zero i)
  nodup := List.nodup_nil
  outer := nofun

/-- A change of a call that leaves its closure where it is. -/
theorem placed_update (h : Placed s) (i : Nat) (f : Request E V → Request E V)
    (slotted : (f (s.requests i)).stage = .slotted ↔ (s.requests i).stage = .slotted)
    (taken : (f (s.requests i)).stage.isTaken = (s.requests i).stage.isTaken)
    (outer : i ∈ s.frames.tail → (f (s.requests i)).stage = .calling) : Placed (s.update i f) where
  slot j := by
    rw [update_slot, update_posted, update_requests, h.slot]
    split
    · next he => rw [he, slotted]
    · rfl
  frames j := by
    rw [update_frames, update_posted, update_requests, h.frames]
    split
    · next he => rw [he, taken]
    · rfl
  nodup := h.nodup
  outer j hj := by
    rw [update_requests]
    split
    · next he =>
      subst he
      exact outer hj
    · exact h.outer j hj

/-- A step of the innermost frame. -/
theorem placed_updateTop (h : Placed s) {stage : Stage E V} (ht : s.top = some stage)
    (f : Request E V → Request E V)
    (taken : ∀ q : Request E V, q.stage = stage → (f q).stage.isTaken = true) :
    Placed (s.updateTop f) := by
  obtain ⟨i, rest, hf, hs⟩ := top_eq_some ht
  have hi := (h.frames i).mp (by rw [hf]; exact List.mem_cons_self)
  have hnot : i ∉ rest := (List.nodup_cons.mp (hf ▸ h.nodup)).1
  rw [updateTop_cons hf]
  refine placed_update h i f ?_ ?_ ?_
  · constructor
    · intro hc
      have := taken _ hs
      rw [hc] at this
      cases this
    · intro hc
      rw [hc] at hi
      cases hi.2
  · rw [taken _ hs, hi.2]
  · intro hmem
    rw [hf] at hmem
    exact absurd hmem hnot

theorem placed_destroy (h : Placed s) (i : Nat) : Placed (s.update i Request.destroy) := by
  by_cases hc : (s.requests i).stage = .chained
  · refine placed_update h i _ ?_ ?_ ?_
    · rw [destroy_chained hc, hc]
      exact ⟨nofun, nofun⟩
    · rw [destroy_chained hc, hc]
      rfl
    · intro hmem
      cases (h.outer i hmem).symm.trans hc
  · refine placed_update h i _ ?_ ?_ ?_
    · rw [destroy_posted hc]
    · rw [destroy_posted hc]
    · intro hmem
      rw [destroy_posted hc]
      exact h.outer i hmem

/-- The new request is not one that the old ones are asked about. -/
theorem posted_iff {P : Request E V → Prop} (new : ¬ P (s.post.requests s.posted)) (j : Nat) :
    j < s.posted ∧ P (s.requests j) ↔ j < s.posted + 1 ∧ P (s.post.requests j) := by
  by_cases hj : j = s.posted
  · subst hj
    exact iff_of_false (fun hold => Nat.lt_irrefl _ hold.1) fun hnew => new hnew.2
  · have hlt : j < s.posted + 1 ↔ j < s.posted := by omega
    rw [post_requests, if_neg hj, hlt]

theorem placed_post (h : Placed s) : Placed s.post where
  slot j := by
    refine (h.slot j).trans (posted_iff (P := fun q => q.stage = .slotted) ?_ j)
    rw [post_requests, if_pos rfl]
    nofun
  frames j := by
    refine (h.frames j).trans (posted_iff (P := fun q => q.stage.isTaken = true) ?_ j)
    rw [post_requests, if_pos rfl]
    nofun
  nodup := h.nodup
  outer j hj := by
    have hlt : j < s.posted := ((h.frames j).mp (List.mem_of_mem_tail hj)).1
    rw [post_requests, if_neg (Nat.ne_of_lt hlt)]
    exact h.outer j hj

theorem placed_proceed (h : Placed s) {i : Nat} (hi : i < s.posted)
    (hc : (s.requests i).stage = .chained) : Placed (s.proceed i) := by
  have hout : ∀ j ∈ s.frames, j ≠ i := by
    rintro j hj rfl
    have := ((h.frames j).mp hj).2
    rw [hc] at this
    cases this
  unfold State.proceed
  split
  · next hslot =>
    refine ⟨fun j => ?_, fun j => ?_, h.nodup, fun j hj => ?_⟩
    · simp only [update_posted, update_requests, Option.some.injEq]
      split
      · next he =>
        subst he
        exact ⟨fun _ => ⟨hi, rfl⟩, fun _ => rfl⟩
      · next hne =>
        rw [← h.slot, hslot]
        exact ⟨fun he => absurd he.symm hne, nofun⟩
    · simp only [update_posted, update_requests, update_frames]
      rw [h.frames]
      split
      · next he =>
        subst he
        rw [hc]
        rfl
      · rfl
    · simp only [update_requests]
      rw [if_neg (hout j (List.mem_of_mem_tail hj))]
      exact h.outer j hj
  · have hp := placed_update h i (fun q => { q.drop with promise := q.promise.breakOff })
      (by rw [hc]; exact ⟨nofun, nofun⟩) (by rw [hc]; rfl)
      fun hmem => absurd rfl (hout i (List.mem_of_mem_tail hmem))
    exact ⟨hp.slot, hp.frames, hp.nodup, hp.outer⟩

theorem placed_take (h : Placed s) (hw : s.waits) {i : Nat} (hslot : s.slot = some i) :
    Placed s.take := by
  obtain ⟨hi, hs⟩ := (h.slot i).mp hslot
  have hnot : i ∉ s.frames := by
    intro hmem
    have := ((h.frames i).mp hmem).2
    rw [hs] at this
    cases this
  rw [take_some hslot]
  refine ⟨fun j => ?_, fun j => ?_, List.nodup_cons.mpr ⟨hnot, h.nodup⟩, fun j hj => ?_⟩
  · simp only [update_posted, update_requests]
    split
    · exact ⟨nofun, fun hj => by cases hj.2⟩
    · next hne =>
      rw [← h.slot, hslot]
      exact ⟨nofun, fun he => absurd (Option.some.inj he).symm hne⟩
  · simp only [update_posted, update_requests, List.mem_cons]
    split
    · next he =>
      subst he
      exact ⟨fun _ => ⟨hi, rfl⟩, fun _ => .inl rfl⟩
    · next hne =>
      rw [← h.frames]
      exact ⟨fun hj => hj.resolve_left hne, .inr⟩
  · simp only [List.tail_cons] at hj
    simp only [update_requests]
    rw [if_neg fun he : j = i => hnot (he ▸ hj)]
    cases hfr : s.frames with
    | nil =>
      rw [hfr] at hj
      cases hj
    | cons k rest =>
      rw [hfr] at hj
      rcases List.mem_cons.mp hj with rfl | hj
      · rcases hw with hw | hw
        · simp only [State.top, hfr, List.head?_cons, Option.map_some, reduceCtorEq] at hw
        · simpa only [State.top, hfr, List.head?_cons, Option.map_some, Option.some.injEq] using hw
      · exact h.outer j (by rw [hfr]; exact hj)

theorem placed_resolve (h : Placed s) {result : Except E V}
    (ht : s.top = some (.resolving result)) : Placed s.resolve := by
  obtain ⟨i, rest, hf, hs⟩ := top_eq_some ht
  have hnd := List.nodup_cons.mp (hf ▸ h.nodup)
  rw [resolve_cons hf]
  refine ⟨fun j => ?_, fun j => ?_, hnd.2, fun j hj => ?_⟩
  · simp only [update_posted, update_requests, update_slot]
    rw [h.slot]
    split
    · next he =>
      subst he
      rw [resolve_resolving hs, hs]
      simp only [reduceCtorEq]
    · rfl
  · simp only [update_posted, update_requests]
    split
    · next he =>
      subst he
      rw [resolve_resolving hs]
      exact ⟨fun hmem => absurd hmem hnd.1, fun hmem => by cases hmem.2⟩
    · next hne =>
      rw [← h.frames, hf]
      exact ⟨List.mem_cons_of_mem _, fun hmem => (List.mem_cons.mp hmem).resolve_left hne⟩
  · simp only [update_requests]
    have hmem := List.mem_of_mem_tail hj
    rw [if_neg fun he : j = i => hnd.1 (he ▸ hmem)]
    exact h.outer j (by rw [hf]; exact hmem)

/-- Every step keeps the closures placed. -/
theorem placed_next (s : State E V) (a : Action E V) (h : Placed s)
    (ha : (thread E V).enabled s a) : Placed ((thread E V).next s a) := by
  cases a with
  | post => exact placed_post h
  | proceed i => exact placed_proceed h ha.1 ha.2.1
  | reject i =>
    exact placed_update h i (fun q => { q with promise := q.promise.breakOff }) Iff.rfl rfl (h.outer i)
  | destroy i => exact placed_destroy h i
  | take =>
    obtain ⟨i, hi⟩ := Option.isSome_iff_exists.mp ha.2
    exact placed_take h ha.1 hi
  | signal => exact placed_updateTop h ha _ fun _ _ => rfl
  | call => exact placed_updateTop h ha _ fun _ _ => rfl
  | answer => exact placed_updateTop h ha.1 _ fun _ _ => rfl
  | ret result => exact placed_updateTop h ha _ fun _ _ => rfl
  | resolve =>
    obtain ⟨result, ht⟩ := ha
    exact placed_resolve h ht

/-! ## While no closure is destroyed -/

/-- What the fields of a call say of one another. -/
structure Request.Sound (q : Request E V) : Prop where
  kept : q.stage ≠ .dropped
  ready : q.ready = if q.stage.isSignaled then .fulfilled else .pending
  runs : q.runs = if q.stage.isSignaled then 1 else 0
  unbroken : q.promise ≠ .broken
  settled : ∀ r, q.promise = .settled r → q.stage = .finished ∧ q.returned = some r
  finished : q.stage = .finished → q.promise ≠ .pending
  resolving : ∀ r, q.stage = .resolving r → q.returned = some r
  monitor : q.monitor = some true → q.promise = .canceled

namespace Request.Sound

variable {q : Request E V}

theorem fresh : (Request.fresh : Request E V).Sound where
  kept := nofun
  ready := rfl
  runs := rfl
  unbroken := nofun
  settled := nofun
  finished := nofun
  resolving := nofun
  monitor := nofun

/-- Moving to another stage that asks the same of the other fields. -/
theorem move (h : q.Sound) (stage : Stage E V) (same : stage.isSignaled = q.stage.isSignaled)
    (kept : stage ≠ .dropped) (live : stage ≠ .finished) (wasLive : q.stage ≠ .finished)
    (result : ∀ r, stage ≠ .resolving r) : ({ q with stage := stage } : Request E V).Sound where
  kept := kept
  ready := by rw [same]; exact h.ready
  runs := by rw [same]; exact h.runs
  unbroken := h.unbroken
  settled r hr := absurd (h.settled r hr).1 wasLive
  finished hf := absurd hf live
  resolving r hr := absurd hr (result r)
  monitor := h.monitor

theorem signal (h : q.Sound) (hs : q.stage = .signaling) : q.signal.Sound where
  kept := nofun
  ready := rfl
  runs := by
    have hruns := h.runs
    rw [hs] at hruns
    change q.runs + 1 = 1
    rw [hruns]
    rfl
  unbroken := h.unbroken
  settled r hr := by cases hs.symm.trans (h.settled r hr).1
  finished := nofun
  resolving := nofun
  monitor := h.monitor

theorem ret (h : q.Sound) (hs : q.stage = .running) (result : Except E V) :
    (Request.ret result q).Sound where
  kept := nofun
  ready := by
    have hready := h.ready
    rw [hs] at hready
    exact hready
  runs := by
    have hruns := h.runs
    rw [hs] at hruns
    exact hruns
  unbroken := h.unbroken
  settled r hr := by cases hs.symm.trans (h.settled r hr).1
  finished := nofun
  resolving r hr := by
    cases hr
    rfl
  monitor := h.monitor

theorem resolve (h : q.Sound) {result : Except E V} (hs : q.stage = .resolving result) :
    q.resolve.Sound := by
  rw [resolve_resolving hs]
  have hready := h.ready
  have hruns := h.runs
  rw [hs] at hready hruns
  refine ⟨nofun, hready, hruns, ?_, ?_, fun _ => ?_, nofun, nofun⟩
  · intro hb
    cases hp : q.promise <;> simp only [hp, Promised.settle, reduceCtorEq] at hb
    exact h.unbroken hp
  · intro r hr
    refine ⟨rfl, ?_⟩
    cases hp : q.promise with
    | pending =>
      simp only [hp, Promised.settle, Promised.settled.injEq] at hr
      rw [← hr]
      exact h.resolving result hs
    | settled r' => cases hs.symm.trans (h.settled r' hp).1
    | broken => exact absurd hp h.unbroken
    | canceled => simp only [hp, Promised.settle, reduceCtorEq] at hr
  · cases hp : q.promise <;> simp only [Promised.settle, ne_eq, reduceCtorEq, not_false_eq_true]

/-- Destroying the promise of a call whose continuation has run. -/
theorem destroy (h : q.Sound) (hs : q.stage ≠ .chained) (hp : q.promise = .pending) :
    q.destroy.Sound := by
  rw [destroy_posted hs, hp]
  exact ⟨h.kept, h.ready, h.runs, nofun, nofun, fun _ => nofun, h.resolving, fun _ => rfl⟩

end Request.Sound

/-- The calls are sound, and those before one whose continuation has run have all been signaled. -/
structure Sound (s : State E V) : Prop where
  requests : ∀ i < s.posted, (s.requests i).Sound
  chain : ∀ i < s.posted, (s.requests i).stage ≠ .chained → ∀ j < i, (s.requests j).ready = .fulfilled
  asserted : s.asserted = false

theorem sound_created : Sound (created : State E V) where
  requests i hi := absurd hi (Nat.not_lt_zero i)
  chain i hi := absurd hi (Nat.not_lt_zero i)
  asserted := rfl

/-- A change of a call that keeps it sound, and passes its continuation only when the chain has
come to it. -/
theorem sound_update (h : Sound s) {i : Nat} {f : Request E V → Request E V}
    (hq : (f (s.requests i)).Sound)
    (ready : (s.requests i).ready = .fulfilled → (f (s.requests i)).ready = .fulfilled)
    (chain : (f (s.requests i)).stage ≠ .chained →
      (s.requests i).stage ≠ .chained ∨ ∀ j < i, (s.requests j).ready = .fulfilled) :
    Sound (s.update i f) where
  requests j hj := by
    rw [update_requests]
    split
    · exact hq
    · exact h.requests j hj
  chain j hj hs k hk := by
    have hold : (s.requests k).ready = .fulfilled := by
      rw [update_requests] at hs
      split at hs
      · next he =>
        subst he
        rcases chain hs with hold | hall
        · exact h.chain j hj hold k hk
        · exact hall k hk
      · exact h.chain j hj hs k hk
    rw [update_requests]
    split
    · next he =>
      subst he
      exact ready hold
    · exact hold
  asserted := h.asserted

theorem sound_post (h : Sound s) : Sound s.post where
  requests j hj := by
    rw [post_requests]
    split
    · exact .fresh
    · next hne =>
      have hj : j < s.posted + 1 := hj
      exact h.requests j (by omega)
  chain j hj hs k hk := by
    have hj : j < s.posted + 1 := hj
    rw [post_requests] at hs ⊢
    split at hs
    · exact absurd rfl hs
    · next hne =>
      rw [if_neg (by omega)]
      exact h.chain j (by omega) hs k hk
  asserted := h.asserted

/-- A step of the innermost frame keeps a call sound. -/
theorem sound_updateTop (h : Sound s) (hp : Placed s) {stage : Stage E V}
    (ht : s.top = some stage) (hc : stage ≠ .chained) (f : Request E V → Request E V)
    (ready : ∀ q : Request E V, q.ready = .fulfilled → (f q).ready = .fulfilled)
    (hq : ∀ q : Request E V, q.Sound → q.stage = stage → (f q).Sound) : Sound (s.updateTop f) := by
  obtain ⟨i, rest, hf, hs⟩ := top_eq_some ht
  have hi := ((hp.frames i).mp (by rw [hf]; exact List.mem_cons_self)).1
  rw [updateTop_cons hf]
  exact sound_update h (hq _ (h.requests i hi) hs) (ready _) fun _ => .inl (hs ▸ hc)

/-- The chain has come to a call that waits for a fulfilled promise. -/
theorem fulfilled_before (h : Sound s) {i : Nat} (hi : i < s.posted)
    (hr : s.threadReady i = .fulfilled) : ∀ j < i, (s.requests j).ready = .fulfilled := by
  cases i with
  | zero => exact fun j hj => absurd hj (Nat.not_lt_zero j)
  | succ k =>
    have hk : k < s.posted := by omega
    have hready : (s.requests k).ready = .fulfilled := hr
    intro j hj
    rcases Nat.lt_succ_iff_lt_or_eq.mp hj with hlt | rfl
    · refine h.chain k hk (fun hc => ?_) j hlt
      have hpend := (h.requests k hk).ready
      rw [hc, hready] at hpend
      cases hpend
    · exact hready

/-- `assert(posted)` does not fail: when the continuation of a call runs, the slot is empty. -/
theorem slot_empty (h : Sound s) (hp : Placed s) {i : Nat} (hi : i < s.posted)
    (hc : (s.requests i).stage = .chained) (hr : s.threadReady i = .fulfilled) :
    s.slot = none := by
  cases hslot : s.slot with
  | none => rfl
  | some j =>
    obtain ⟨hj, hs⟩ := (hp.slot j).mp hslot
    have hjready := (h.requests j hj).ready
    have hiready := (h.requests i hi).ready
    rw [hs] at hjready
    rw [hc] at hiready
    rcases Nat.lt_trichotomy j i with hlt | rfl | hgt
    · cases hjready.symm.trans (fulfilled_before h hi hr j hlt)
    · cases hs.symm.trans hc
    · cases hiready.symm.trans (h.chain j hj (by rw [hs]; nofun) i hgt)

theorem sound_proceed (h : Sound s) (hp : Placed s) {i : Nat} (hi : i < s.posted)
    (hc : (s.requests i).stage = .chained) (hr : s.threadReady i = .fulfilled) :
    Sound (s.proceed i) := by
  rw [proceed_none (slot_empty h hp hi hc hr)]
  have hu := sound_update h (i := i) (f := ({ · with stage := .slotted }))
    ((h.requests i hi).move .slotted (by rw [hc]; rfl) nofun nofun (by rw [hc]; nofun) nofun) id
    fun _ => .inr (fulfilled_before h hi hr)
  exact ⟨hu.requests, hu.chain, hu.asserted⟩

theorem sound_take (h : Sound s) (hp : Placed s) {i : Nat} (hslot : s.slot = some i) :
    Sound s.take := by
  obtain ⟨hi, hs⟩ := (hp.slot i).mp hslot
  rw [take_some hslot]
  have hu := sound_update h (i := i) (f := ({ · with stage := .signaling }))
    ((h.requests i hi).move .signaling (by rw [hs]; rfl) nofun nofun (by rw [hs]; nofun) nofun) id
    fun _ => .inl (by rw [hs]; nofun)
  exact ⟨hu.requests, hu.chain, hu.asserted⟩

theorem sound_resolve (h : Sound s) (hp : Placed s) {result : Except E V}
    (ht : s.top = some (.resolving result)) : Sound s.resolve := by
  obtain ⟨i, rest, hf, hs⟩ := top_eq_some ht
  have hi := ((hp.frames i).mp (by rw [hf]; exact List.mem_cons_self)).1
  rw [resolve_cons hf]
  have hu := sound_update h (i := i) (f := Request.resolve) ((h.requests i hi).resolve hs)
    (by rw [resolve_resolving hs]; exact id) fun _ => .inl (by rw [hs]; nofun)
  exact ⟨hu.requests, hu.chain, hu.asserted⟩

/-- The step destroys no promise whose continuation has not run. -/
def Spares (s : State E V) : Action E V → Prop
  | .destroy i => (s.requests i).stage ≠ .chained
  | _ => True

instance [DecidableEq E] [DecidableEq V] (s : State E V) :
    ∀ a : Action E V, Decidable (Spares s a)
  | .destroy _ => inferInstanceAs (Decidable (_ ≠ _))
  | .post | .proceed _ | .reject _ | .take | .signal | .call | .answer | .ret _ | .resolve =>
    inferInstanceAs (Decidable True)

/-- Such a step keeps the calls sound. -/
theorem sound_next (s : State E V) (a : Action E V) (h : Sound s) (hp : Placed s)
    (hok : Spares s a) (ha : (thread E V).enabled s a) : Sound ((thread E V).next s a) := by
  cases a with
  | post => exact sound_post h
  | proceed i => exact sound_proceed h hp ha.1 ha.2.1 ha.2.2
  | reject i =>
    -- the chain of a sound state has no rejected promise
    obtain ⟨hi, -, -, hr⟩ := ha
    cases i with
    | zero => cases hr
    | succ k =>
      have hready := (h.requests k (by omega)).ready
      rw [show (s.requests k).ready = .rejected from hr] at hready
      split at hready <;> cases hready
  | destroy i =>
    have hpend := ha.2.resolve_right hok
    refine sound_update h ((h.requests i ha.1).destroy hok hpend) ?_ fun _ => .inl hok
    rw [destroy_posted hok]
    exact id
  | take =>
    obtain ⟨i, hi⟩ := Option.isSome_iff_exists.mp ha.2
    exact sound_take h hp hi
  | signal =>
    exact sound_updateTop h hp ha nofun _ (fun _ _ => rfl) fun q hq hs => hq.signal hs
  | call =>
    refine sound_updateTop h hp ha nofun _ (fun _ => id) fun q hq hs => ?_
    exact hq.move .calling (by rw [hs]; rfl) nofun nofun (by rw [hs]; nofun) nofun
  | answer =>
    refine sound_updateTop h hp ha.1 nofun _ (fun _ => id) fun q hq hs => ?_
    exact hq.move .running (by rw [hs]; rfl) nofun nofun (by rw [hs]; nofun) nofun
  | ret result =>
    exact sound_updateTop h hp ha nofun _ (fun _ => id) fun q hq hs => hq.ret hs result
  | resolve =>
    obtain ⟨result, ht⟩ := ha
    exact sound_resolve h hp ht

end Multiprocess.Thread
