import Multiprocess.Thread.Waiter

/-!
# The stack of waits

A function that `Waiter::wait` runs may wait itself. What the thread is running is the functions of
the waits it is in, and which step of `Waiter` changes that: a look at a full slot, and the end of a
function.

These are facts about one thread and its waits. Who posts, and what the waits are for, is not
looked at.
-/

namespace Multiprocess.Thread.Waiter

variable {P F S : Type} {s : State P F S}

/-- The functions the thread is running, innermost first. One that is over is not among them. -/
def State.fns (s : State P F S) : List F :=
  match s.pc with
  | .relocking _ => s.frames.tail.filterMap Frame.fn
  | _ => s.frames.filterMap Frame.fn

/-- The thread is in the code of `wait`, not in that of a function. -/
def Pc.waiting : Pc → Bool
  | .looping | .blocked _ | .returned | .thrown => true
  | .running | .relocking _ => false

/-- While the thread is in the code of a wait, that wait runs no function; and a function that is
over was run by a wait. -/
structure Entered (s : State P F S) : Prop where
  waiting : s.pc.waiting = true → ∃ frame frames, s.frames = frame :: frames ∧ frame.fn = none
  ended : ∀ threw, s.pc = .relocking threw → s.frames ≠ []

theorem Pc.waiting_notified (pc : Pc) : pc.notified.waiting = pc.waiting := by cases pc <;> rfl

/-- `notify_all` moves the thread only where it is blocked. -/
theorem Pc.eq_of_notified {pc target : Pc} (h : pc.notified = target)
    (awake : ∀ notified, target ≠ .blocked notified) : pc = target := by
  cases pc with
  | blocked notified => exact absurd h.symm (awake true)
  | _ => exact h

/-- A thread that is woken up stays where it is. -/
theorem entered_notified {t : State P F S} (h : Entered s) (frames : t.frames = s.frames)
    (pc : t.pc = s.pc ∨ t.pc = s.pc.notified) : Entered t := by
  refine ⟨fun hw => ?_, fun threw ht => ?_⟩
  · rw [frames]
    refine h.waiting ?_
    rcases pc with hpc | hpc
    · rwa [hpc] at hw
    · rwa [hpc, Pc.waiting_notified] at hw
  · rw [frames]
    refine h.ended threw ?_
    rcases pc with hpc | hpc
    · exact hpc.symm.trans ht
    · exact Pc.eq_of_notified (hpc.symm.trans ht) nofun

theorem fns_notified {t : State P F S} (frames : t.frames = s.frames)
    (pc : t.pc = s.pc ∨ t.pc = s.pc.notified) : t.fns = s.fns := by
  unfold State.fns
  rw [frames]
  rcases pc with hpc | hpc
  · rw [hpc]
  · rw [hpc]
    cases s.pc <;> rfl

theorem fns_of_pc (h : ∀ threw, s.pc ≠ .relocking threw) :
    s.fns = s.frames.filterMap Frame.fn := by
  unfold State.fns
  split
  · next threw hpc => exact absurd hpc (h threw)
  · rfl

/-- What another thread does to the stack: nothing. -/
theorem stack_post (s : State P F S) (fn : F) :
    (s.post fn).frames = s.frames ∧ ((s.post fn).pc = s.pc ∨ (s.post fn).pc = s.pc.notified) := by
  unfold State.post
  split
  · exact ⟨rfl, .inl rfl⟩
  · exact ⟨rfl, .inr rfl⟩

/-- A look at a full slot starts the function in it. -/
theorem look_some {fn : F} (h : s.slot = some fn) :
    s.look = { s.setFn (some fn) with slot := none, mutex := none, pc := .running } := by
  unfold State.look
  rw [h]

theorem setFn_cons {frame : Frame F S} {frames : List (Frame F S)} (h : s.frames = frame :: frames)
    (fn : Option F) : (s.setFn fn).frames = { frame with fn := fn } :: frames := by
  unfold State.setFn
  rw [h]

/-- A look at an empty slot leaves the stack alone. -/
theorem stack_look (h : s.slot = none) :
    s.look.frames = s.frames ∧ (s.look.pc = .returned ∨ s.look.pc = .blocked false) := by
  unfold State.look
  rw [h]
  dsimp only
  split
  · exact ⟨rfl, .inl rfl⟩
  · exact ⟨rfl, .inr rfl⟩

theorem fns_look (h : Entered s) (looping : s.pc = .looping) :
    s.look.fns = s.slot.toList ++ s.fns := by
  obtain ⟨frame, frames, hframes, hfn⟩ := h.waiting (by rw [looping]; rfl)
  have hfns : s.fns = frames.filterMap Frame.fn := by
    rw [fns_of_pc (by rw [looping]; nofun), hframes, List.filterMap_cons_none hfn]
  cases hslot : s.slot with
  | some fn =>
    rw [look_some hslot, fns_of_pc (by nofun)]
    change (s.setFn (some fn)).frames.filterMap Frame.fn = _
    rw [setFn_cons hframes, hfns]
    exact List.filterMap_cons_some (f := Frame.fn) rfl
  | none =>
    obtain ⟨hstack, hpc⟩ := stack_look hslot
    rw [fns_of_pc (by rcases hpc with hpc | hpc <;> rw [hpc] <;> nofun), hstack, hframes,
      List.filterMap_cons_none hfn, hfns]
    rfl

/-- A wait begins with no function of its own. -/
theorem fns_wait (pred : S → Bool) (running : s.pc = .running) :
    (next s (.wait pred : Action P F S)).fns = s.fns := by
  rw [fns_of_pc (s := s) (by rw [running]; nofun)]
  change ((⟨pred, none⟩ : Frame F S) :: s.frames).filterMap Frame.fn = _
  exact List.filterMap_cons_none rfl

/-- And ends without one. -/
theorem fns_leave (h : Entered s) (left : s.pc = .returned ∨ s.pc = .thrown) :
    (next s (.leave : Action P F S)).fns = s.fns := by
  have hwaiting : s.pc.waiting = true := by rcases left with hpc | hpc <;> rw [hpc] <;> rfl
  have hover : ∀ threw, s.pc ≠ .relocking threw := by
    rcases left with hpc | hpc <;> rw [hpc] <;> nofun
  obtain ⟨frame, frames, hframes, hfn⟩ := h.waiting hwaiting
  rw [fns_of_pc hover, hframes, List.filterMap_cons_none hfn]
  change s.frames.tail.filterMap Frame.fn = _
  rw [hframes]
  rfl

theorem fns_finish {frame : Frame F S} {frames : List (Frame F S)} (threw : Bool)
    (h : s.frames = frame :: frames) :
    (next s (.finish threw : Action P F S)).fns = frames.filterMap Frame.fn := by
  change s.frames.tail.filterMap Frame.fn = _
  rw [h]
  rfl

theorem fns_relock (h : Entered s) {threw : Bool} (ended : s.pc = .relocking threw) :
    (s.relock threw).fns = s.fns := by
  obtain ⟨frame, frames, hframes⟩ := List.exists_cons_of_ne_nil (h.ended threw ended)
  have hfns : s.fns = frames.filterMap Frame.fn := by
    unfold State.fns
    rw [ended, hframes]
    rfl
  have hpc : ∀ threw', (s.relock threw).pc ≠ .relocking threw' := by
    intro threw'
    cases threw <;> nofun
  rw [fns_of_pc hpc, hfns]
  change (s.setFn none).frames.filterMap Frame.fn = _
  rw [setFn_cons hframes]
  exact List.filterMap_cons_none (f := Frame.fn) rfl

theorem entered_look (h : Entered s) (looping : s.pc = .looping) : Entered s.look := by
  cases hslot : s.slot with
  | some fn =>
    rw [look_some hslot]
    exact ⟨nofun, nofun⟩
  | none =>
    obtain ⟨hstack, hpc⟩ := stack_look hslot
    refine ⟨fun _ => ?_, fun threw ht => ?_⟩
    · rw [hstack]
      exact h.waiting (by rw [looping]; rfl)
    · rw [ht] at hpc
      rcases hpc with hpc | hpc <;> cases hpc

theorem entered_next (h : Entered s) (a : Action P F S) (en : enabled s a) :
    Entered (next s a) := by
  cases a with
  | lock p => exact entered_notified h rfl (.inl rfl)
  | post p fn => exact entered_notified h (stack_post s fn).1 (stack_post s fn).2
  | set p f => exact entered_notified h rfl (.inr rfl)
  | unlock p => exact entered_notified h rfl (.inl rfl)
  | wait pred => exact ⟨fun _ => ⟨_, _, rfl, rfl⟩, nofun⟩
  | look => exact entered_look h en
  | spurious =>
    refine ⟨fun _ => h.waiting ?_, nofun⟩
    rw [show s.pc = _ from en]
    rfl
  | wake =>
    refine ⟨fun _ => h.waiting ?_, nofun⟩
    rw [en.2]
    rfl
  | finish threw =>
    refine ⟨nofun, fun _ _ hnil => ?_⟩
    obtain ⟨frame, hframe, -⟩ := en.2
    rw [show s.frames = [] from hnil] at hframe
    cases hframe
  | relock threw =>
    obtain ⟨frame, frames, hframes⟩ := List.exists_cons_of_ne_nil (h.ended threw en.2)
    refine ⟨fun _ => ⟨_, _, setFn_cons hframes none, rfl⟩, fun threw' ht => ?_⟩
    cases threw <;> cases ht
  | leave => exact ⟨nofun, nofun⟩

theorem post_none (h : s.slot = none) (fn : F) :
    s.post fn = { s with slot := some fn }.notifyAll := by
  unfold State.post
  rw [h]

theorem post_some {fn' : F} (h : s.slot = some fn') (fn : F) : s.post fn = s := by
  unfold State.post
  rw [h]

theorem setFn_slot (s : State P F S) (fn : Option F) : (s.setFn fn).slot = s.slot := by
  unfold State.setFn
  split <;> rfl

theorem look_slot (s : State P F S) : s.look.slot = none := by
  cases hslot : s.slot with
  | some fn => rw [look_some hslot]
  | none =>
    unfold State.look
    rw [hslot]
    dsimp only
    split <;> rfl

/-- The conditions of the waits the thread is in. -/
def State.preds (s : State P F S) : List (S → Bool) := s.frames.map Frame.pred

theorem setFn_preds (s : State P F S) (fn : Option F) : (s.setFn fn).preds = s.preds := by
  unfold State.setFn
  split
  · rfl
  · next frame frames hframes =>
    unfold State.preds
    rw [hframes]
    rfl

theorem setFn_pred (s : State P F S) (fn : Option F) : (s.setFn fn).pred = s.pred := by
  cases hframes : s.frames with
  | nil =>
    unfold State.setFn
    rw [hframes]
  | cons frame frames =>
    unfold State.setFn State.pred
    rw [hframes]

/-- A look at an empty slot leaves the wait if its condition holds. -/
theorem look_returned (empty : s.slot = none) (h : s.pred = true) : s.look.pc = .returned := by
  unfold State.look
  rw [empty, h]
  rfl

theorem look_preds (s : State P F S) : s.look.preds = s.preds := by
  cases hslot : s.slot with
  | some fn =>
    rw [look_some hslot]
    exact setFn_preds s (some fn)
  | none => exact congrArg (List.map Frame.pred) (stack_look hslot).1

theorem head_fns (h : Guarded s) (running : s.pc = .running) :
    s.fns.head? = s.frames.head?.bind Frame.fn := by
  rw [fns_of_pc (by rw [running]; nofun)]
  cases hframes : s.frames with
  | nil => rfl
  | cons frame frames =>
    obtain ⟨fn, hfn⟩ := Option.isSome_iff_exists.mp
      (h.inner running frame (by rw [hframes]; exact List.mem_cons_self))
    rw [List.filterMap_cons_some hfn]
    exact hfn.symm

/-! ## A worker's waits -/

/-- No function has thrown, and a wait that does not return is at the bottom of the stack. -/
structure Calm (s : State P F S) : Prop where
  thrown : s.pc ≠ .thrown
  ended : s.pc ≠ .relocking true
  bottom : ∃ preds, s.preds = preds ++ [fun _ => false]

theorem calm_notified {t : State P F S} (h : Calm s) (frames : t.frames = s.frames)
    (pc : t.pc = s.pc ∨ t.pc = s.pc.notified) : Calm t where
  thrown ht := by
    rcases pc with hpc | hpc
    · exact h.thrown (hpc.symm.trans ht)
    · exact h.thrown (Pc.eq_of_notified (hpc.symm.trans ht) nofun)
  ended ht := by
    rcases pc with hpc | hpc
    · exact h.ended (hpc.symm.trans ht)
    · exact h.ended (Pc.eq_of_notified (hpc.symm.trans ht) nofun)
  bottom := by
    unfold State.preds
    rw [frames]
    exact h.bottom

/-- What holds of the `Waiter` of a worker. -/
structure Serving (s : State P F S) : Prop where
  guarded : Guarded s
  entered : Entered s
  calm : Calm s

/-- A wait that has returned is not the one at the bottom. -/
theorem Serving.preds_of_returned (h : Serving s) (returned : s.pc = .returned) :
    ∃ pred preds, s.preds = pred :: preds ++ [fun _ => false] := by
  obtain ⟨preds, hpreds⟩ := h.calm.bottom
  cases preds with
  | cons pred preds => exact ⟨pred, preds, hpreds⟩
  | nil =>
    obtain ⟨frame, frames, hframes, -⟩ := h.entered.waiting (by rw [returned]; rfl)
    have htrue := (h.guarded.returned returned).2
    unfold State.pred at htrue
    unfold State.preds at hpreds
    rw [hframes] at htrue hpreds
    have hfalse : frame.pred = fun _ => false := (List.cons.inj hpreds).1
    have htrue : frame.pred s.guarded = true := htrue
    rw [hfalse] at htrue
    cases htrue

/-- The function that made the call for which it waited is the innermost one. -/
theorem Serving.fns_of_returned (h : Serving s) (returned : s.pc = .returned) : s.fns ≠ [] := by
  obtain ⟨pred, rest, hrest⟩ := h.preds_of_returned returned
  obtain ⟨frame, frames, hframes, hfn⟩ := h.entered.waiting (by rw [returned]; rfl)
  have hne : frames ≠ [] := by
    rintro rfl
    unfold State.preds at hrest
    rw [hframes] at hrest
    exact List.cons_ne_nil _ _ (List.append_eq_nil_iff.mp (List.cons.inj hrest).2.symm).2
  obtain ⟨outer, frames', rfl⟩ := List.exists_cons_of_ne_nil hne
  obtain ⟨fn, hfn'⟩ := Option.isSome_iff_exists.mp
    (h.guarded.outer outer (by rw [hframes]; exact List.mem_cons_self))
  rw [fns_of_pc (by rw [returned]; nofun), hframes, List.filterMap_cons_none hfn,
    List.filterMap_cons_some hfn']
  exact List.cons_ne_nil _ _

theorem Serving.calm_next (h : Serving s) (a : Action P F S) (en : enabled s a)
    (quiet : a ≠ .finish true) : Calm (next s a) := by
  obtain ⟨preds, hpreds⟩ := h.calm.bottom
  cases a with
  | lock p => exact calm_notified h.calm rfl (.inl rfl)
  | post p fn => exact calm_notified h.calm (stack_post s fn).1 (stack_post s fn).2
  | set p f => exact calm_notified h.calm rfl (.inr rfl)
  | unlock p => exact calm_notified h.calm rfl (.inl rfl)
  | wait pred => exact ⟨nofun, nofun, pred :: preds, congrArg (pred :: ·) hpreds⟩
  | spurious | wake => exact ⟨nofun, nofun, preds, hpreds⟩
  | look =>
    have hpc : s.look.pc ≠ .thrown ∧ s.look.pc ≠ .relocking true := by
      cases hslot : s.slot with
      | some fn =>
        rw [look_some hslot]
        exact ⟨nofun, nofun⟩
      | none => rcases (stack_look hslot).2 with hpc | hpc <;> rw [hpc] <;> exact ⟨nofun, nofun⟩
    exact ⟨hpc.1, hpc.2, preds, (look_preds s).trans hpreds⟩
  | finish threw =>
    cases threw with
    | true => exact absurd rfl quiet
    | false => exact ⟨nofun, nofun, preds, hpreds⟩
  | relock threw =>
    cases threw with
    | true => exact absurd en.2 h.calm.ended
    | false => exact ⟨nofun, nofun, preds, (setFn_preds s none).trans hpreds⟩
  | leave =>
    obtain ⟨pred, rest, hrest⟩ := h.preds_of_returned (Or.resolve_right en h.calm.thrown)
    refine ⟨nofun, nofun, rest, ?_⟩
    have htail : (next s (.leave : Action P F S)).preds = s.preds.tail := List.map_tail
    rw [htail, hrest]
    rfl

/-- As long as no function throws. -/
theorem Serving.next (h : Serving s) (a : Action P F S) (en : enabled s a)
    (quiet : a ≠ .finish true) : Serving (next s a) where
  guarded := guarded_next h.guarded a en
  entered := entered_next h.entered a en
  calm := h.calm_next a en quiet

end Multiprocess.Thread.Waiter
