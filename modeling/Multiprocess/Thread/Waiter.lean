import Multiprocess.Lib.System

/-!
# `Waiter`

`Waiter::post` and `Waiter::wait` (`include/mp/proxy-io.h`), the mutex, the condition variable and
the slot `m_fn`, with the completion flags that `clientInvoke` and others set under the mutex
(`include/mp/proxy-types.h`). `P` is the type of the other threads, `F` that of the posted
functions, and `S` that of the state guarded by the mutex that predicates read. One thread waits;
the waits it is in are a stack, since a function it runs may wait itself. That thread can post as
well, while it runs a function: it then acts as one of the other threads.

One action is what a thread does from one lock or unlock of the mutex to the next.
-/

namespace Multiprocess.Thread.Waiter

open Transition (System)

/-- Who holds `m_mutex`. -/
inductive Who (P : Type) where
  | waiter
  | other (p : P)
  deriving DecidableEq

/-- Where the waiting thread is. -/
inductive Pc where
  -- in the code of a function, or outside of any wait
  | running
  -- at the test of `while (m_fn)`
  | looping
  -- in `m_cv.wait`, and whether it has been notified since
  | blocked (notified : Bool)
  -- a function is over; `~UnlockGuard` is to lock the mutex
  | relocking (threw : Bool)
  -- the innermost wait has returned, or been left by an exception; its caller has the lock
  | returned
  | thrown
  deriving DecidableEq

/-- `notify_all` wakes the thread up where it is blocked. -/
def Pc.notified : Pc → Pc
  | .blocked _ => .blocked true
  | pc => pc

/-- The thread has the mutex. -/
def Pc.locked : Pc → Bool
  | .looping | .returned | .thrown => true
  | .running | .blocked _ | .relocking _ => false

/-- A call of `wait`: its predicate, and the function it is running. -/
structure Frame (F S : Type) where
  pred : S → Bool
  fn : Option F

structure State (P F S : Type) where
  mutex : Option (Who P)
  -- `m_fn`
  slot : Option F
  guarded : S
  pc : Pc
  -- the waits the thread is in, innermost first
  frames : List (Frame F S)

variable {P F S : Type}

namespace State

variable (s : State P F S)

/-- `m_cv.notify_all()`. -/
def notifyAll : State P F S := { s with pc := s.pc.notified }

/-- `post` with the lock held; it returns whether the slot was empty. -/
def post (fn : F) : State P F S :=
  match s.slot with
  | some _ => s
  | none => { s with slot := some fn }.notifyAll

/-- A change of what predicates read, and `notify_all`. -/
def set (f : S → S) : State P F S := { s with guarded := f s.guarded }.notifyAll

/-- The function the innermost wait is running. -/
def setFn (fn : Option F) : State P F S :=
  match s.frames with
  | [] => s
  | frame :: frames => { s with frames := { frame with fn := fn } :: frames }

/-- The predicate of the innermost wait. -/
def pred : Bool :=
  match s.frames with
  | [] => false
  | frame :: _ => frame.pred s.guarded

/-- The argument of `m_cv.wait`, from the test of `m_fn` on: take a function out of the slot and
unlock, or evaluate the predicate and return or block. -/
def look : State P F S :=
  match s.slot with
  | some fn => { s.setFn (some fn) with slot := none, mutex := none, pc := .running }
  | none =>
    if s.pred then { s with pc := .returned }
    else { s with mutex := none, pc := .blocked false }

/-- `~UnlockGuard`; an exception then leaves the wait. -/
def relock (threw : Bool) : State P F S :=
  { s.setFn none with mutex := some .waiter, pc := if threw then .thrown else .looping }

end State

inductive Action (P F S : Type) where
  -- another thread locks the mutex for something else
  | lock (p : P)
  | post (p : P) (fn : F)
  | set (p : P) (f : S → S)
  | unlock (p : P)
  -- the waiting thread locks the mutex and calls `wait`
  | wait (pred : S → Bool)
  | look
  | spurious
  -- `m_cv.wait` locks the mutex again
  | wake
  | finish (threw : Bool)
  | relock (threw : Bool)
  -- the caller of the wait unlocks the mutex
  | leave

/-- The waiting thread runs a function. -/
def State.inFn (s : State P F S) : Prop := ∃ frame ∈ s.frames.head?, frame.fn.isSome = true

def enabled (s : State P F S) : Action P F S → Prop
  | .lock _ | .post _ _ | .set _ _ => s.mutex = none
  | .unlock p => s.mutex = some (.other p)
  | .wait _ => s.mutex = none ∧ s.pc = .running
  | .look => s.pc = .looping
  | .spurious => s.pc = .blocked false
  | .wake => s.mutex = none ∧ s.pc = .blocked true
  | .finish _ => s.pc = .running ∧ s.inFn
  | .relock threw => s.mutex = none ∧ s.pc = .relocking threw
  | .leave => s.pc = .returned ∨ s.pc = .thrown

instance (s : State P F S) : Decidable s.inFn :=
  inferInstanceAs (Decidable (∃ frame ∈ s.frames.head?, frame.fn.isSome = true))

instance [DecidableEq P] (s : State P F S) : ∀ a : Action P F S, Decidable (enabled s a)
  | .lock _ | .post _ _ | .set _ _ | .unlock _ | .look | .spurious =>
    inferInstanceAs (Decidable (_ = _))
  | .wait _ | .wake | .relock _ => inferInstanceAs (Decidable (_ ∧ _))
  | .finish _ => inferInstanceAs (Decidable (_ ∧ s.inFn))
  | .leave => inferInstanceAs (Decidable (_ ∨ _))

def next (s : State P F S) : Action P F S → State P F S
  | .lock p => { s with mutex := some (.other p) }
  | .post p fn => { s.post fn with mutex := some (.other p) }
  | .set p f => { s.set f with mutex := some (.other p) }
  | .unlock _ => { s with mutex := none }
  | .wait pred =>
    { s with mutex := some .waiter, pc := .looping, frames := ⟨pred, none⟩ :: s.frames }
  | .look => s.look
  | .spurious => { s with pc := .blocked true }
  | .wake => { s with mutex := some .waiter, pc := .looping }
  | .finish threw => { s with pc := .relocking threw }
  | .relock threw => s.relock threw
  | .leave => { s with mutex := none, pc := .running, frames := s.frames.tail }

/-- The mutex is free, the slot is empty, and the thread is in no wait. -/
structure Starts (s : State P F S) : Prop where
  mutex : s.mutex = none
  slot : s.slot = none
  pc : s.pc = .running
  frames : s.frames = []

def waiter (P F S : Type) : System (State P F S) (Action P F S) where
  init := Starts
  enabled := enabled
  next := next

instance [DecidableEq P] (s : State P F S) (a : Action P F S) :
    Decidable ((waiter P F S).enabled s a) := inferInstanceAs (Decidable (enabled s a))

/-- The functions an action accepts: `post` returns true. -/
def accepts (s : State P F S) : Action P F S → List F
  | .post _ fn => if s.slot.isNone then [fn] else []
  | _ => []

/-- The functions an action takes out of the slot and starts to run. -/
def begins (s : State P F S) : Action P F S → List F
  | .look => s.slot.toList
  | _ => []

/-! ## The invariant -/

/-- The thread has the mutex where its code is under the lock; it is blocked only where it has
nothing to do, and a wait has returned only where it may; and every wait but the innermost is
running a function. -/
structure Guarded (s : State P F S) : Prop where
  mutex : s.mutex = some .waiter ↔ s.pc.locked = true
  blocked : s.pc = .blocked false → s.slot = none ∧ s.pred = false
  returned : s.pc = .returned → s.slot = none ∧ s.pred = true
  inner : s.pc = .running → ∀ frame ∈ s.frames, frame.fn.isSome = true
  outer : ∀ frame ∈ s.frames.tail, frame.fn.isSome = true

theorem Pc.locked_notified (pc : Pc) : pc.notified.locked = pc.locked := by cases pc <;> rfl

theorem Pc.notified_running {pc : Pc} (h : pc.notified = .running) : pc = .running := by
  cases pc <;> first | rfl | cases h

theorem Pc.notified_blocked (pc : Pc) : pc.notified ≠ .blocked false := by
  cases pc <;> simp only [Pc.notified, ne_eq, reduceCtorEq, not_false_eq_true, Pc.blocked.injEq,
    Bool.true_eq_false]

variable {s : State P F S}

theorem guarded_of_starts (h : Starts s) : Guarded s := by
  refine ⟨?_, ?_, ?_, fun _ => ?_, ?_⟩
  · rw [h.mutex, h.pc]
    exact ⟨nofun, nofun⟩
  · rw [h.pc]
    nofun
  · rw [h.pc]
    nofun
  · rw [h.frames]
    exact List.forall_mem_nil _
  · rw [h.frames]
    exact List.forall_mem_nil _

/-- While the mutex is not the thread's, it is not under the lock. -/
theorem Guarded.unlocked (h : Guarded s) (mutex : s.mutex ≠ some .waiter) :
    s.pc.locked = false := by
  cases hl : s.pc.locked with
  | false => rfl
  | true => exact absurd (h.mutex.mpr hl) mutex

/-- Another thread locks or unlocks the mutex and wakes the thread up, or leaves the slot and the
state alone. -/
theorem guarded_other {t : State P F S} (h : Guarded s) (mutex : s.mutex ≠ some .waiter)
    (taken : t.mutex ≠ some .waiter) (frames : t.frames = s.frames)
    (pc : t.pc = s.pc.notified ∨
      t.pc = s.pc ∧ t.slot = s.slot ∧ t.guarded = s.guarded) : Guarded t := by
  have hunlocked := h.unlocked mutex
  have hlocked : t.pc.locked = false := by
    rcases pc with hpc | ⟨hpc, -⟩
    · rw [hpc, Pc.locked_notified]
      exact hunlocked
    · rw [hpc]
      exact hunlocked
  refine ⟨iff_of_false taken (by rw [hlocked]; nofun), fun hb => ?_, fun hr => ?_, fun hrun => ?_, ?_⟩
  · rcases pc with hpc | ⟨hpc, hslot, hguarded⟩
    · exact absurd (hpc.symm.trans hb) (Pc.notified_blocked _)
    · unfold State.pred
      rw [hslot, frames, hguarded]
      exact h.blocked (hpc.symm.trans hb)
  · rw [hr] at hlocked
    cases hlocked
  · rw [frames]
    refine h.inner ?_
    rcases pc with hpc | ⟨hpc, -⟩
    · exact Pc.notified_running (hpc.symm.trans hrun)
    · exact hpc.symm.trans hrun
  · rw [frames]
    exact h.outer

theorem setFn_frames (s : State P F S) (fn : Option F) :
    (s.setFn fn).frames.tail = s.frames.tail ∧
      ∀ frame ∈ (s.setFn fn).frames.head?, frame.fn = fn := by
  unfold State.setFn
  split
  · next hnil =>
    rw [hnil]
    exact ⟨rfl, nofun⟩
  · next frame frames hcons =>
    rw [hcons]
    refine ⟨rfl, fun frame' hf => ?_⟩
    cases hf
    rfl

theorem guarded_look (h : Guarded s) (looping : s.pc = .looping) : Guarded s.look := by
  have hmutex : s.mutex = some .waiter := h.mutex.mpr (by rw [looping]; rfl)
  unfold State.look
  cases hslot : s.slot with
  | some fn =>
    obtain ⟨htail, hhead⟩ := setFn_frames s (some fn)
    refine ⟨iff_of_false nofun nofun, nofun, nofun, fun _ frame hf => ?_, fun frame hf => ?_⟩
    · have hf : frame ∈ (s.setFn (some fn)).frames := hf
      cases hframes : (s.setFn (some fn)).frames with
      | nil =>
        rw [hframes] at hf
        cases hf
      | cons top rest =>
        rw [hframes] at hf hhead htail
        rcases List.mem_cons.mp hf with rfl | hf
        · rw [hhead _ rfl]
          rfl
        · exact h.outer frame (htail ▸ hf)
    · have hf : frame ∈ (s.setFn (some fn)).frames.tail := hf
      exact h.outer frame (htail ▸ hf)
  | none =>
    dsimp only
    split
    · next hpred =>
      exact ⟨iff_of_true hmutex rfl, nofun, fun _ => ⟨rfl, hpred⟩, nofun, h.outer⟩
    · next hpred =>
      exact ⟨iff_of_false nofun nofun, fun _ => ⟨rfl, Bool.not_eq_true _ ▸ hpred⟩, nofun, nofun,
        h.outer⟩

theorem guarded_next (h : Guarded s) (a : Action P F S) (en : enabled s a) :
    Guarded (next s a) := by
  have hfree : s.mutex = none → s.mutex ≠ some .waiter := fun hn => by rw [hn]; nofun
  cases a with
  | lock p => exact guarded_other h (hfree en) nofun rfl (.inr ⟨rfl, rfl, rfl⟩)
  | post p fn =>
    have hpost : (s.post fn).frames = s.frames ∧ ((s.post fn).pc = s.pc.notified ∨
        (s.post fn).pc = s.pc ∧ (s.post fn).slot = s.slot ∧ (s.post fn).guarded = s.guarded) := by
      unfold State.post
      split
      · exact ⟨rfl, .inr ⟨rfl, rfl, rfl⟩⟩
      · exact ⟨rfl, .inl rfl⟩
    exact guarded_other h (hfree en) nofun hpost.1 hpost.2
  | set p f => exact guarded_other h (hfree en) nofun rfl (.inl rfl)
  | unlock p =>
    have hother : s.mutex ≠ some .waiter := by
      rw [show s.mutex = some (.other p) from en]
      nofun
    exact guarded_other h hother nofun rfl (.inr ⟨rfl, rfl, rfl⟩)
  | wait pred => exact ⟨iff_of_true rfl rfl, nofun, nofun, nofun, h.inner en.2⟩
  | look => exact guarded_look h en
  | spurious =>
    have hpc : s.pc = .blocked false := en
    refine ⟨?_, nofun, nofun, nofun, h.outer⟩
    rw [show (next s (.spurious : Action P F S)).mutex = s.mutex from rfl, h.mutex, hpc]
    exact Iff.rfl
  | wake => exact ⟨iff_of_true rfl rfl, nofun, nofun, nofun, h.outer⟩
  | finish threw =>
    refine ⟨?_, nofun, nofun, nofun, h.outer⟩
    rw [show (next s (.finish threw : Action P F S)).mutex = s.mutex from rfl, h.mutex, en.1]
    exact Iff.rfl
  | relock threw =>
    obtain ⟨htail, -⟩ := setFn_frames s none
    have houter : ∀ frame ∈ (s.setFn none).frames.tail, frame.fn.isSome = true := by
      rw [htail]
      exact h.outer
    cases threw with
    | false => exact ⟨iff_of_true rfl rfl, nofun, nofun, nofun, houter⟩
    | true => exact ⟨iff_of_true rfl rfl, nofun, nofun, nofun, houter⟩
  | leave =>
    exact ⟨iff_of_false nofun nofun, nofun, nofun, fun _ => h.outer,
      fun frame hf => h.outer frame (List.mem_of_mem_tail hf)⟩

/-! ## What the slot does -/

/-- What an action starts to run and leaves in the slot is what was in it and what it accepts. -/
theorem slot_next (s : State P F S) (a : Action P F S) :
    begins s a ++ (next s a).slot.toList = s.slot.toList ++ accepts s a := by
  cases a with
  | post p fn =>
    have hslot : (next s (.post p fn)).slot = (s.post fn).slot := rfl
    rw [hslot]
    unfold State.post
    cases hs : s.slot with
    | none => simp only [begins, accepts, hs, State.notifyAll, Option.isNone_none, if_true,
        Option.toList_none, Option.toList_some, List.nil_append]
    | some fn' => simp only [begins, accepts, hs, Option.isNone_some, Bool.false_eq_true, if_false,
        List.append_nil, List.nil_append]
  | look =>
    have hslot : (next s (.look : Action P F S)).slot = none := by
      change s.look.slot = none
      unfold State.look
      cases hs : s.slot with
      | some fn => rfl
      | none =>
        dsimp only
        split <;> rfl
    rw [hslot]
    rfl
  | relock threw =>
    have hslot : (next s (.relock threw : Action P F S)).slot = s.slot := by
      change (s.setFn none).slot = s.slot
      unfold State.setFn
      split <;> rfl
    rw [hslot]
    exact (List.append_nil _).symm
  | _ => exact (List.append_nil _).symm

/-- Only the waiting thread starts a function, and it does so without the mutex. -/
theorem begins_unlocked {a : Action P F S} (h : begins s a ≠ []) :
    a = .look ∧ (next s a).pc = .running ∧ (next s a).mutex = none := by
  cases a with
  | look =>
    cases hs : s.slot with
    | none =>
      refine absurd ?_ h
      rw [begins, hs]
      rfl
    | some fn =>
      have hl : s.look =
          { s.setFn (some fn) with slot := none, mutex := none, pc := .running } := by
        unfold State.look
        rw [hs]
      change _ ∧ s.look.pc = _ ∧ s.look.mutex = _
      rw [hl]
      exact ⟨rfl, rfl, rfl⟩
  | _ => exact absurd rfl h

theorem refused_iff (s : State P F S) (p : P) (fn : F) :
    accepts s (.post p fn) = [] ↔ s.slot ≠ none := by
  unfold accepts
  cases s.slot with
  | none => exact iff_of_false nofun (absurd rfl)
  | some fn' => exact iff_of_true rfl nofun

/-- Over every run of any threads: the functions started, followed by the one in the slot, are those
accepted, in order; where the waiting thread is blocked and has not been notified, the slot is
empty and the predicate of its innermost wait is false; a function is started by that thread and
without the mutex, which it does not have while it runs one; `post` refuses exactly when the slot is
full; and where a wait has returned, its predicate is true and the slot is empty. -/
theorem waiter_keeps {s t : State P F S} {as : List (Action P F S)}
    (start : (waiter P F S).init s) (path : (waiter P F S).Path s as t) :
    (waiter P F S).trace begins s as ++ t.slot.toList = (waiter P F S).trace accepts s as ∧
    (t.pc = .blocked false → t.slot = none ∧ t.pred = false) ∧
    (∀ a, begins t a ≠ [] →
      a = .look ∧ (next t a).pc = .running ∧ (next t a).mutex = none) ∧
    (t.pc = .running → t.mutex ≠ some .waiter ∧ ∀ frame ∈ t.frames, frame.fn.isSome = true) ∧
    (∀ p fn, accepts t (.post p fn) = [] ↔ t.slot ≠ none) ∧
    (t.pc = .returned → t.slot = none ∧ t.pred = true) := by
  have keep : ∀ u a, Guarded u → (waiter P F S).enabled u a → Guarded (next u a) :=
    fun u a h => guarded_next h a
  have hs := guarded_of_starts start
  have ht : Guarded t := path.keeps keep hs
  have hslot := path.trace_conserved begins accepts (fun u => u.slot.toList) keep
    (fun u a _ _ => slot_next u a) hs
  rw [start.slot] at hslot
  refine ⟨hslot, ht.blocked, fun a => begins_unlocked, fun hrun => ⟨?_, ht.inner hrun⟩,
    refused_iff t, ht.returned⟩
  intro hm
  have hlocked := ht.mutex.mp hm
  rw [hrun] at hlocked
  cases hlocked

def waiting : State Bool Nat Bool where
  mutex := none
  slot := none
  guarded := false
  pc := .running
  frames := []

/-- A function posted to a blocked thread waits itself; a second one is posted and the flag is set
while that inner wait is blocked. -/
def nestedWaits : List (Action Bool Nat Bool) :=
  [.wait id, .look, .post false 5, .unlock false, .wake, .look, .wait id, .look, .post true 6,
    .unlock true, .set false fun _ => true, .unlock false, .wake, .look, .finish false,
    .relock false, .look, .leave, .finish false, .relock false, .look]

/-- Both have run in order when the outer wait returns. -/
theorem waiter_keeps_nested : ∃ t, (waiter Bool Nat Bool).Path waiting nestedWaits t ∧
    t.pc = .returned ∧ (waiter Bool Nat Bool).trace begins waiting nestedWaits = [5, 6] ∧
    t.slot = none ∧ t.pred = true := by
  have hrun : ((waiter Bool Nat Bool).run waiting nestedWaits).map
      (fun t => decide (t.pc = .returned)) = some true := by decide
  obtain ⟨t, ht, hp⟩ := Option.map_eq_some_iff.mp hrun
  have hreturned := of_decide_eq_true hp
  have hpath := System.run_eq_some_iff.mp ht
  obtain ⟨hslot, -, -, -, -, hdone⟩ := waiter_keeps ⟨rfl, rfl, rfl, rfl⟩ hpath
  obtain ⟨hempty, hpred⟩ := hdone hreturned
  rw [hempty, Option.toList_none, List.append_nil] at hslot
  exact ⟨t, hpath, hreturned, hslot.trans (by decide), hempty, hpred⟩

end Multiprocess.Thread.Waiter
