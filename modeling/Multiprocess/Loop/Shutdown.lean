import Multiprocess.Loop.References

/-!
# The shutdown handshake

Under the discipline `HoldsRef` (a reference is taken, a function posted and a cleanup queued
only by who holds a reference already) and with no byte written but those of `post` and `reset`,
the loop leaves its `for(;;)` only when nothing can touch it again. `Handshake` is the invariant:
as long as `done()` is false the unread bytes are those owed to the slot; from the moment it
becomes true exactly one byte is owed, which its finder writes and the loop breaks on.

The discipline is a condition on whoever uses the loop; the listener of `Incoming` does not keep
it.
-/

namespace Multiprocess.Loop

variable {T : Type}

/-- Inside the `for(;;)` of `EventLoop::loop`. -/
def LoopPc.inside : LoopPc T → Bool
  | .reading | .checking | .running _ => true
  | _ => false

/-- Who may be between finding `done()` true in `reset` and writing the byte. -/
inductive Waker (T : Type) where
  | thread (p : Thread T)
  | loop
  | async

namespace State

/-- The byte of a `reset` that found `done()` is still to be written. -/
def waking (s : State T) : Waker T → Prop
  | .thread p => s.post p = .wake
  | .loop => s.loopWake = true
  | .async => s.async = .wake

def Quiet (s : State T) : Prop := ∀ w, ¬ s.waking w

def OneWaker (s : State T) : Prop := ∃ w, s.waking w ∧ ∀ v, s.waking v → v = w

/-- The bytes `loop()` has not acted on yet. -/
def bytes [DecidableEq T] (s : State T) : Nat := s.pipe + if s.loop = .checking then 1 else 0

end State

variable [DecidableEq T]

/-- The bytes written for the function in the slot and not acted on yet. -/
def State.owed (s : State T) : Nat :=
  match s.postFn with
  | some c => if s.post c.thread = .notify ∨ s.loop = .running c then 0 else 1
  | none => 0

/-- The discipline: who takes a reference, posts or queues a cleanup holds a reference. The async
thread holds its own around each function, and a posted function has its poster's. -/
def HoldsRef (s : State T) : Action T → Prop
  | .post p | .take p => .thread p ∈ s.live ∨ p = .async ∧ s.inAsyncFn
  | .loopTake | .addAsyncCleanup => .loop ∈ s.live ∨ ∃ c, s.loop = .running c
  | .strayByte => False
  | _ => True

/-- `loop()` started with at least one live reference, and every step keeps the discipline. -/
def disciplined (T : Type) [DecidableEq T] : Transition.System (State T) (Action T) :=
  { anyThreads T with init := fun s => Starts s ∧ s.live ≠ 0 }.guardedBy HoldsRef

/-- While `done()` is false: nobody is about to wake the loop up for it, and the bytes are those
owed to the slot. -/
structure Calm (s : State T) : Prop where
  quiet : s.Quiet
  bytes : s.bytes = s.owed
  notify : ∀ p, s.post p = .notify → s.postFn = some (s.call p) ∧ s.loop ≠ .running (s.call p)

/-- Inside the `for(;;)`, before and after `done()` becomes true. -/
structure Looping (s : State T) : Prop where
  inside : s.loop.inside = true
  working : s.done = false → Calm s
  ending : s.done = true → s.Quiet ∧ s.bytes = 1 ∨ s.OneWaker ∧ s.bytes = 0

/-- Past the `break`. -/
structure Leaving (s : State T) : Prop where
  outside : s.loop.inside = false
  live : s.live = 0
  quiet : s.Quiet
  pipe : s.pipe = 0
  broken : s.loop = .breaking ∨ s.loop = .closing ∨ s.loop = .closed → s.asyncFns = some []
  returned : s.loop = .returned ∨ s.loop = .destroyed →
    s.asyncFns = none ∧ s.waitFd = -1 ∧ s.postFd = -1
  joined : s.loop = .destroyed → s.async = .absent ∨ s.async = .gone
  fdsOpen : s.loop = .breaking ∨ s.loop = .closing → s.fdsOpen = true
  noBadWrite : s.badWrite = false

/-- The descriptors are open and the list of cleanups exists. -/
structure Safe (s : State T) : Prop where
  fdsOpen : s.fdsOpen = true
  cleanups : s.asyncFns ≠ none
  noBadWrite : s.badWrite = false

/-- The invariant. -/
inductive Handshake (s : State T) : Prop
  | looping (loop : Looping s) (safe : Safe s)
  | leaving (loop : Leaving s)

/-- At the start nobody writes a byte. -/
theorem calm_of_starts {s : State T} (h : Starts s) : Calm s := by
  refine ⟨?_, ?_, ?_⟩
  · intro w hw
    cases w with
    | thread p => rw [State.waking, h.post] at hw; cases hw
    | loop => rw [State.waking, h.loopWake] at hw; cases hw
    | async => rw [State.waking, h.async] at hw; cases hw
  · simp only [State.bytes, State.owed, h.pipe, h.loop, h.postFn, reduceCtorEq, ↓reduceIte]
  · intro p hp
    rw [h.post] at hp
    cases hp

/-- The loop starts with a reference held. -/
theorem handshake_of_starts {s : State T} (h : Starts s) (live : s.live ≠ 0) : Handshake s := by
  have hwork : s.done = false := by
    have hpos : 0 < s.live.card := Multiset.card_pos.mpr live
    have hne : s.numClients ≠ 0 := by
      rw [h.numClients]
      omega
    simp only [State.done, hne, decide_false, Bool.false_and]
  refine .looping ⟨by rw [h.loop]; rfl, fun _ => calm_of_starts h, ?_⟩
    ⟨h.fdsOpen, ?_, h.badWrite⟩
  · intro hd
    rw [hwork] at hd
    cases hd
  · intro hno
    rw [h.asyncFns] at hno
    cases hno

/-! ## No references, nothing to do -/

/-- When `done()` holds no reference is left. -/
theorem live_eq_zero_of_done {s : State T} (ha : Accounts s) (done : s.done = true) :
    s.live = 0 := by
  simp only [State.done, Bool.and_eq_true, decide_eq_true_eq, ha.count] at done
  exact Multiset.card_eq_zero.mp (by omega)

/-- With none left, no thread is in `post`, -/
theorem not_inPost_of_live {s : State T} (ha : Accounts s) (live : s.live = 0) (p : Thread T) :
    (s.post p).inPost = false := by
  by_contra hin
  have hmem := ha.post_mem (p := p) (by simpa only [Bool.not_eq_false] using hin)
  rw [live] at hmem
  exact Multiset.notMem_zero _ hmem

/-- no cleanup runs, -/
theorem not_inAsyncFn_of_live {s : State T} (ha : Accounts s) (live : s.live = 0) :
    ¬ s.inAsyncFn := by
  intro hin
  have hmem := ha.asyncFn_mem hin
  rw [live] at hmem
  exact Multiset.notMem_zero _ hmem

/-- and no function waits in the slot. -/
theorem slot_free_of_live {s : State T} (hr : Rendezvous s) (ha : Accounts s)
    (live : s.live = 0) : s.postFn = none := by
  cases hslot : s.postFn with
  | none => rfl
  | some c =>
    have hin := PostPc.inPost_of_installed (hr.slot c hslot).1
    rw [not_inPost_of_live ha live] at hin
    cases hin

/-- Without live references, the actions left are those of the async thread between functions,
of the finders of `done()`, and of the loop thread on its way out. -/
def Action.unreferenced : Action T → Bool
  | .writeDone _ | .loopWriteDone | .asyncWriteDone => true
  | .asyncCheck | .asyncWakeUp => true
  | .read | .check | .resetTasks | .close | .exit | .destroy => true
  | _ => false

/-- What can still happen is what needs no reference. -/
theorem unreferenced_of_live {s : State T} (hr : Rendezvous s) (ha : Accounts s)
    (live : s.live = 0) (a : Action T) (en : enabled s a) (ok : HoldsRef s a) :
    a.unreferenced = true := by
  have hout := not_inPost_of_live ha live
  have hfn := not_inAsyncFn_of_live ha live
  have hrun : ¬ ∃ c, s.loop = .running c := by
    rintro ⟨c, hc⟩
    exact not_running_of_slot_free hr (slot_free_of_live hr ha live) c hc
  have hmem : ∀ o, o ∉ s.live := by
    intro o ho
    rw [live] at ho
    exact Multiset.notMem_zero o ho
  cases a with
  | post p => exact absurd ok (not_or.mpr ⟨hmem _, fun h => hfn h.2⟩)
  | take p => exact absurd ok (not_or.mpr ⟨hmem _, fun h => hfn h.2⟩)
  | loopTake => exact absurd ok (not_or.mpr ⟨hmem _, hrun⟩)
  | addAsyncCleanup => exact absurd ok (not_or.mpr ⟨hmem _, hrun⟩)
  | strayByte => exact absurd ok id
  | drop p => exact absurd en.2 (hmem _)
  | loopDrop => exact absurd en.2 (hmem _)
  | move src dst => exact absurd en.2.2 (hmem _)
  | asyncFinish => exact absurd en.1 hfn
  | finish threw => exact absurd en.2 hrun
  | tryInstall p =>
    have hp := hout p
    rw [show s.post p = .waitSlot false from en] at hp
    cases hp
  | write p =>
    have hp := hout p
    rw [show s.post p = .notify from en] at hp
    cases hp
  | tryReturn p =>
    have hp := hout p
    rw [show s.post p = .waitDone false from en] at hp
    cases hp
  | wakeUp p =>
    have hp := hout p
    rw [PostPc.inPost_of_asleep en] at hp
    cases hp
  | _ => rfl

/-! ## Calm operations -/

theorem calm_same_fields {s t : State T} (h : Calm s) (postFn : t.postFn = s.postFn)
    (loop : t.loop = s.loop) (pipe : t.pipe = s.pipe) (post : t.post = s.post)
    (calls : t.calls = s.calls) (loopWake : t.loopWake = s.loopWake)
    (async : t.async = .wake → s.async = .wake) : Calm t := by
  refine ⟨?_, ?_, ?_⟩
  · intro w hw
    refine h.quiet w ?_
    cases w with
    | thread p => rw [State.waking, post] at hw; exact hw
    | loop => rw [State.waking, loopWake] at hw; exact hw
    | async => exact async hw
  · have hb := h.bytes
    simp only [State.bytes, State.owed, pipe, loop, postFn, post] at hb ⊢
    exact hb
  · simpa only [post, postFn, loop, State.call, calls] using h.notify

omit [DecidableEq T] in
/-- Waking everybody writes no byte. -/
theorem waking_notifyAll (s : State T) (w : Waker T) : s.notifyAll.waking w ↔ s.waking w := by
  cases w with
  | thread p => exact PostPc.notified_eq_wake _
  | loop => exact Iff.rfl
  | async => exact AsyncPc.notified_eq_wake _

/-- It changes nothing about the bytes that are owed. -/
theorem calm_notifyAll {s : State T} (h : Calm s) : Calm s.notifyAll := by
  refine ⟨fun w hw => h.quiet w ((waking_notifyAll s w).mp hw), ?_, ?_⟩
  · have hb := h.bytes
    simp only [State.bytes, State.owed, State.notifyAll, PostPc.notified_eq_notify] at hb ⊢
    exact hb
  · simp only [State.notifyAll, PostPc.notified_eq_notify]
    exact h.notify

/-- A thread that has no byte to write moves to where it has none. -/
theorem calm_setPost {s : State T} (h : Calm s) {p : Thread T} {pc : PostPc}
    (old : s.post p ≠ .notify) (notify : pc ≠ .notify) (wake : pc ≠ .wake) :
    Calm (s.setPost p pc) := by
  refine ⟨?_, ?_, ?_⟩
  · intro w hw
    cases w with
    | thread q =>
      rw [State.waking, setPost_post] at hw
      split at hw
      · exact wake hw
      · exact h.quiet (.thread q) hw
    | loop => exact h.quiet .loop hw
    | async => exact h.quiet .async hw
  · rw [show (s.setPost p pc).bytes = s.bytes from rfl, h.bytes]
    simp only [State.owed, setPost_post]
    rw [show (s.setPost p pc).postFn = s.postFn from rfl,
      show (s.setPost p pc).loop = s.loop from rfl]
    cases s.postFn with
    | none => rfl
    | some c =>
      by_cases he : c.thread = p
      · simp only [he, old, notify, ↓reduceIte]
      · simp only [he, ↓reduceIte]
  · intro q hq
    rw [setPost_post] at hq
    split at hq
    · exact absurd hq notify
    · exact h.notify q hq

/-- A function in the slot owes a byte, which its poster writes. -/
theorem calm_install {s : State T} (h : Calm s) (hr : Rendezvous s) {p : Thread T}
    (free : s.postFn = none) :
    Calm { s.setPost p .notify with postFn := some (s.call p) } := by
  have hrun := not_running_of_slot_free hr free
  refine ⟨?_, ?_, ?_⟩
  · intro w hw
    cases w with
    | thread q =>
      have hq : (s.setPost p .notify).post q = .wake := hw
      rw [setPost_post] at hq
      split at hq
      · cases hq
      · exact h.quiet (.thread q) hq
    | loop => exact h.quiet .loop hw
    | async => exact h.quiet .async hw
  · have hb := h.bytes
    have hat : (s.setPost p .notify).post p = .notify := setPost_same s p _
    simp only [State.owed, free] at hb
    simp only [State.owed, State.call, hat, true_or, ↓reduceIte]
    exact hb
  · intro q hq
    have hq : (s.setPost p .notify).post q = .notify := hq
    rw [setPost_post] at hq
    split at hq
    · next he =>
      rw [he]
      exact ⟨rfl, hrun _⟩
    · have hslot := (h.notify q hq).1
      rw [free] at hslot
      cases hslot

/-- One that finds the slot taken waits. -/
theorem calm_tryInstall {s : State T} (h : Calm s) (hr : Rendezvous s) {p : Thread T}
    (old : s.post p ≠ .notify) : Calm (s.tryInstall p) := by
  unfold State.tryInstall
  split
  · next free => exact calm_install h hr free
  · exact calm_setPost h old nofun nofun

/-- The byte that was owed is in the pipe. -/
theorem calm_write {s : State T} (h : Calm s) {p : Thread T} (inside : s.post p = .notify) :
    Calm (s.writeByte.setPost p (.waitDone false)) := by
  obtain ⟨hslot, hrun⟩ := h.notify p inside
  refine ⟨?_, ?_, ?_⟩
  · intro w hw
    cases w with
    | thread q =>
      rw [State.waking, setPost_post] at hw
      split at hw
      · cases hw
      · exact h.quiet (.thread q) hw
    | loop => exact h.quiet .loop hw
    | async => exact h.quiet .async hw
  · -- the slot was owed nothing before its poster wrote, and is owed this byte now
    have hb := h.bytes
    have hold : s.owed = 0 := by
      simp only [State.owed, hslot, State.call, inside, true_or, ↓reduceIte]
    have hat : (s.writeByte.setPost p (.waitDone false)).post p = .waitDone false :=
      setPost_same _ p _
    have hnew : (s.writeByte.setPost p (.waitDone false)).owed = 1 := by
      simp only [State.owed]
      rw [show (s.writeByte.setPost p (.waitDone false)).postFn = some (s.call p) from hslot]
      simp only [State.call, hat, reduceCtorEq, false_or]
      exact if_neg hrun
    have hone : (s.writeByte.setPost p (.waitDone false)).bytes = s.bytes + 1 :=
      Nat.add_right_comm s.pipe 1 _
    rw [hnew, hone, hb, hold]
  · intro q hq
    rw [setPost_post] at hq
    split at hq
    · cases hq
    · exact h.notify q hq

/-- Reading a byte takes the loop thread to its check. -/
theorem calm_read {s : State T} (h : Calm s) (loop : s.loop = .reading) (pipe : 0 < s.pipe) :
    Calm { s with pipe := s.pipe - 1, loop := .checking } := by
  refine ⟨h.quiet, ?_, fun p hp => ⟨(h.notify p hp).1, nofun⟩⟩
  have hb := h.bytes
  simp only [State.bytes, State.owed, loop, reduceCtorEq, or_false, ↓reduceIte] at hb ⊢
  omega

/-- While `done()` is false, the loop finds a function whenever it looks. -/
theorem slot_of_checking {s : State T} (h : Calm s) (loop : s.loop = .checking) :
    ∃ c, s.postFn = some c := by
  cases hslot : s.postFn with
  | some c => exact ⟨c, rfl⟩
  | none =>
    have hb := h.bytes
    simp only [State.bytes, State.owed, hslot, loop, ↓reduceIte] at hb
    omega

/-- The function that is found is run, -/
theorem calm_start {s : State T} (h : Calm s) {c : Call T} (slot : s.postFn = some c)
    (loop : s.loop = .checking) : Calm { s with
      loop := .running c, runs := Function.update s.runs c (s.runs c + 1) } := by
  have hb := h.bytes
  simp only [State.bytes, State.owed, slot, loop, reduceCtorEq, or_false, ↓reduceIte] at hb
  have hwritten : s.post c.thread ≠ .notify := by
    intro hn
    rw [if_pos hn] at hb
    omega
  rw [if_neg hwritten] at hb
  refine ⟨h.quiet, ?_, ?_⟩
  · simp only [State.bytes, State.owed, slot, reduceCtorEq, or_true, ↓reduceIte]
    omega
  · intro p hp
    have hslot := (h.notify p hp).1
    refine ⟨hslot, ?_⟩
    rw [slot] at hslot
    rw [Option.some.inj hslot] at hwritten
    exact absurd hp hwritten

/-- and the slot is free again. -/
theorem calm_finish {s : State T} (h : Calm s) (hr : Rendezvous s) {c : Call T}
    (loop : s.loop = .running c) : Calm s.finish := by
  have hslot := hr.running c loop
  refine calm_notifyAll ⟨h.quiet, ?_, ?_⟩
  · have hb := h.bytes
    simp only [State.bytes, State.owed, hslot, loop, reduceCtorEq, or_true, ↓reduceIte] at hb
    simp only [State.bytes, State.owed, reduceCtorEq, ↓reduceIte]
    exact hb
  · intro p hp
    obtain ⟨hslot', hrun⟩ := h.notify p hp
    rw [hslot] at hslot'
    exact absurd (loop.trans (congrArg _ (Option.some.inj hslot'))) hrun

/-- `post` returns: no other call is touched. -/
theorem calm_return {s : State T} (h : Calm s) {p : Thread T} (old : s.post p ≠ .notify) :
    Calm { s with calls := Function.update s.calls p (s.calls p + 1) } := by
  refine ⟨h.quiet, h.bytes, ?_⟩
  intro q hq
  have hne : q ≠ p := by
    rintro rfl
    exact old hq
  simp only [State.call, Function.update_of_ne hne]
  exact h.notify q hq

/-! ## The last reference -/

/-- While `done()` does not hold nobody is to be woken for it. -/
theorem looping_of_calm {s : State T} (h : Calm s) (inside : s.loop.inside = true)
    (working : s.done = false) : Looping s :=
  ⟨inside, fun _ => h, fun hd => by rw [working] at hd; cases hd⟩

/-- The function in the slot has a reference, so the slot is empty once the last one is gone. -/
theorem slot_free_of_unref {s : State T} (hr : Rendezvous s) (ha : Accounts s) {o : Owner T}
    (held : o ∈ s.live) (done : (s.unref o).done = true)
    (other : ∀ c, s.postFn = some c → .post c.thread ≠ o) : s.postFn = none := by
  have hlive : s.live.erase o = 0 := by
    have hcard := unref_count ha held
    simp only [State.done, Bool.and_eq_true, decide_eq_true_eq] at done
    rw [done.1] at hcard
    exact Multiset.card_eq_zero.mp (Int.ofNat.inj hcard.symm)
  cases hslot : s.postFn with
  | none => rfl
  | some c =>
    have hmem := ha.post_mem (PostPc.inPost_of_installed (hr.slot c hslot).1)
    have hleft := (Multiset.mem_erase_of_ne (other c hslot)).mpr hmem
    rw [hlive] at hleft
    exact absurd hleft (Multiset.notMem_zero _)

/-- With the slot free no byte is owed. -/
theorem owed_of_free {s : State T} (free : s.postFn = none) : s.owed = 0 := by
  rw [State.owed, free]

/-- The finder of `done()` is the only one, and the pipe is empty. -/
theorem one_waker {s t : State T} (h : Calm s) (free : s.postFn = none) (pipe : t.pipe = s.pipe)
    (loop : t.loop = s.loop) (w : Waker T) (new : ∀ v, t.waking v ↔ v = w ∨ s.waking v) :
    t.OneWaker ∧ t.bytes = 0 := by
  refine ⟨⟨w, (new w).mpr (.inl rfl), ?_⟩, ?_⟩
  · intro v hv
    exact ((new v).mp hv).resolve_right (h.quiet v)
  · have hb := h.bytes
    rw [owed_of_free free] at hb
    simp only [State.bytes, pipe, loop] at hb ⊢
    exact hb

/-- Whoever gives up the last reference writes the byte for it, -/
theorem looping_reset {s : State T} {o : Owner T} {p : Thread T} (h : Calm (s.unref o))
    (inside : s.loop.inside = true) (old : s.post p ≠ .notify)
    (free : (s.unref o).done = true → s.postFn = none) : Looping (s.reset o p) := by
  unfold State.reset
  split
  · next hdone =>
    refine ⟨inside, fun hd => absurd (hd.symm.trans hdone) nofun, fun _ => .inr ?_⟩
    refine one_waker h (free hdone) rfl rfl (.thread p) fun v => ?_
    rw [waking_notifyAll]
    cases v with
    | thread q =>
      rw [State.waking, setPost_post]
      by_cases he : q = p
      · simp only [he, ↓reduceIte, true_or]
      · simp only [he, ↓reduceIte, Waker.thread.injEq, false_or]
        exact Iff.rfl
    | loop => simp only [reduceCtorEq, false_or]; exact Iff.rfl
    | async => simp only [reduceCtorEq, false_or]; exact Iff.rfl
  · next hdone =>
    exact looping_of_calm (calm_setPost h old nofun nofun) inside (Bool.not_eq_true _ ▸ hdone)

/-- on the loop thread too, -/
theorem looping_loopReset {s : State T} {o : Owner T} (h : Calm (s.unref o))
    (inside : s.loop.inside = true) (free : (s.unref o).done = true → s.postFn = none) :
    Looping (s.loopReset o) := by
  unfold State.loopReset
  split
  · next hdone =>
    refine ⟨inside, fun hd => absurd (hd.symm.trans hdone) nofun, fun _ => .inr ?_⟩
    refine one_waker h (free hdone) rfl rfl .loop fun v => ?_
    cases v with
    | thread q =>
      simp only [reduceCtorEq, false_or]
      exact waking_notifyAll (s.unref o) (.thread q)
    | loop => simp only [State.waking, true_or]
    | async =>
      simp only [reduceCtorEq, false_or]
      exact waking_notifyAll (s.unref o) .async
  · next hdone => exact looping_of_calm h inside (Bool.not_eq_true _ ▸ hdone)

/-- and on the async thread. -/
theorem looping_asyncFinish {s : State T} (h : Calm (s.unref .asyncFn))
    (inside : s.loop.inside = true) (free : (s.unref .asyncFn).done = true → s.postFn = none) :
    Looping s.asyncFinish := by
  unfold State.asyncFinish
  split
  · next hdone =>
    refine ⟨inside, fun hd => absurd (hd.symm.trans hdone) nofun, fun _ => .inr ?_⟩
    refine one_waker h (free hdone) rfl rfl .async fun v => ?_
    cases v with
    | thread q =>
      simp only [reduceCtorEq, false_or]
      exact waking_notifyAll (s.unref .asyncFn) (.thread q)
    | loop => simp only [reduceCtorEq, false_or]; exact Iff.rfl
    | async => simp only [State.waking, true_or]
  · next hdone =>
    refine looping_of_calm ?_ inside (Bool.not_eq_true _ ▸ hdone)
    exact calm_same_fields h rfl rfl rfl rfl rfl rfl nofun

/-! ## While `done()` is false -/

/-- A reference that is taken ends no loop. -/
theorem ref_done {s : State T} (ha : Accounts s) (o : Owner T) : (s.ref o).done = false := by
  have hc := ref_count ha o
  have hpos : 0 < (s.ref o).live.card := Multiset.card_pos.mpr (Multiset.cons_ne_zero)
  have hne : (s.ref o).numClients ≠ 0 := by omega
  simp only [State.done, hne, decide_false, Bool.false_and]

theorem tryInstall_done (s : State T) (p : Thread T) : (s.tryInstall p).done = s.done := by
  unfold State.tryInstall
  split <;> rfl

theorem tryInstall_loop (s : State T) (p : Thread T) : (s.tryInstall p).loop = s.loop := by
  unfold State.tryInstall
  split <;> rfl

omit [DecidableEq T] in
theorem addAsyncCleanup_done (s : State T) : s.addAsyncCleanup.done = false := by
  have hfns : s.addAsyncCleanup.asyncFns = s.asyncFns.map (· ++ [s.added]) := by
    unfold State.addAsyncCleanup State.startAsyncThread
    split_ifs <;> rfl
  have hne : s.asyncFns.map (· ++ [s.added]) ≠ some [] := by
    cases s.asyncFns with
    | none => nofun
    | some l => simp only [Option.map_some, ne_eq, Option.some.injEq, List.append_eq_nil_iff,
        reduceCtorEq, and_false, not_false_eq_true]
  simp only [State.done, hfns, hne, decide_false, Bool.and_false]

/-- A queued cleanup owes no byte. -/
theorem calm_addAsyncCleanup {s : State T} (h : Calm s) : Calm s.addAsyncCleanup := by
  have hs : Calm { s with
      asyncFns := s.asyncFns.map (· ++ [s.added]), added := s.added + 1 } :=
    calm_same_fields h rfl rfl rfl rfl rfl rfl id
  unfold State.addAsyncCleanup State.startAsyncThread
  split
  · split
    · exact hs
    · exact calm_same_fields hs rfl rfl rfl rfl rfl rfl nofun
  · exact calm_notifyAll hs

/-- Nor does taking one. -/
theorem calm_asyncCheck {s : State T} (h : Calm s) : Calm s.asyncCheck := by
  unfold State.asyncCheck
  split <;> exact calm_same_fields h rfl rfl rfl rfl rfl rfl nofun

/-- Nor does it end the loop. -/
theorem asyncCheck_done {s : State T} (ha : Accounts s) (working : s.done = false) :
    s.asyncCheck.done = false := by
  unfold State.asyncCheck
  split
  · exact working
  · exact working
  · have hc := ref_count ha .asyncFn
    have hpos : 0 < (s.ref .asyncFn).live.card := Multiset.card_pos.mpr (Multiset.cons_ne_zero)
    have hne : (s.ref .asyncFn).numClients ≠ 0 := by omega
    simp only [State.done, hne, decide_false, Bool.false_and]

/-- While `done()` is false, an action leaves the loop inside its `for(;;)`. -/
theorem looping_working {s : State T} (hr : Rendezvous s) (ha : Accounts s) (h : Calm s)
    (inside : s.loop.inside = true) (working : s.done = false) (a : Action T) (en : enabled s a)
    (ok : HoldsRef s a) : Looping (next s a) := by
  have frame : ∀ {t : State T}, t.postFn = s.postFn → t.loop = s.loop → t.pipe = s.pipe →
      t.post = s.post → t.calls = s.calls → t.loopWake = s.loopWake →
      (t.async = .wake → s.async = .wake) → Calm t := calm_same_fields h
  have hunref : ∀ o, Calm (s.unref o) := fun o => frame rfl rfl rfl rfl rfl rfl id
  have hmov : ∀ o : Owner T, o.movable = true → ∀ c, s.postFn = some c → .post c.thread ≠ o := by
    rintro o ho c - rfl
    cases ho
  cases a with
  | post p =>
    have hs : Calm (s.ref (.post p)) := frame rfl rfl rfl rfl rfl rfl id
    have hrs : Rendezvous (s.ref (.post p)) :=
      rendezvous_same_fields hr rfl rfl rfl rfl rfl (Nat.le_refl _)
    have hidle : (s.ref (.post p)).post p = .idle := en.1
    refine looping_of_calm (calm_tryInstall hs hrs (by rw [hidle]; nofun)) ?_ ?_
    · show (State.tryInstall _ p).loop.inside = true
      rw [tryInstall_loop]
      exact inside
    · show (State.tryInstall _ p).done = false
      rw [tryInstall_done]
      exact ref_done ha _
  | tryInstall p =>
    have hp : s.post p = .waitSlot false := en
    refine looping_of_calm (calm_tryInstall h hr (by rw [hp]; nofun)) ?_ ?_
    · show (State.tryInstall _ p).loop.inside = true
      rw [tryInstall_loop]
      exact inside
    · show (State.tryInstall _ p).done = false
      rw [tryInstall_done]
      exact working
  | write p => exact looping_of_calm (calm_write h en) inside working
  | tryReturn p =>
    have hp : s.post p = .waitDone false := en
    have hold : s.post p ≠ .notify := by rw [hp]; nofun
    have hin : (s.post p).inPost = true := by rw [hp]; rfl
    show Looping (s.tryReturn p)
    unfold State.tryReturn
    split
    · exact looping_of_calm (calm_setPost h hold nofun nofun) inside working
    · next hcleared =>
      have hs := calm_return (p := p) h hold
      refine looping_reset (calm_same_fields hs rfl rfl rfl rfl rfl rfl id) inside hold ?_
      intro hdone
      refine slot_free_of_unref (s := s) hr ha (ha.post_mem hin) hdone fun c hc he => ?_
      -- the slot would hold the call that is returning
      have hcall := (hr.slot c hc).2
      rw [Owner.post.inj he] at hcall
      exact hcleared (hc.trans (congrArg some hcall))
  | wakeUp p =>
    have hsleep : (s.post p).asleep = true := en
    refine looping_of_calm (calm_setPost h ?_ ?_ ?_) inside working
    · intro hp
      rw [hp] at hsleep
      cases hsleep
    · rw [ne_eq, PostPc.notified_eq_notify]
      intro hp
      rw [hp] at hsleep
      cases hsleep
    · rw [ne_eq, PostPc.notified_eq_wake]
      intro hp
      rw [hp] at hsleep
      cases hsleep
  | take p =>
    exact looping_of_calm (frame rfl rfl rfl rfl rfl rfl id) inside (ref_done ha _)
  | drop p =>
    refine looping_reset (hunref _) inside (by rw [en.1.1]; nofun) fun hdone => ?_
    exact slot_free_of_unref hr ha en.2 hdone (hmov _ rfl)
  | move src dst => exact looping_of_calm (frame rfl rfl rfl rfl rfl rfl id) inside working
  | writeDone p => exact absurd en (h.quiet (.thread p))
  | loopTake =>
    exact looping_of_calm (frame rfl rfl rfl rfl rfl rfl id) inside (ref_done ha _)
  | loopDrop =>
    refine looping_loopReset (hunref _) inside fun hdone => ?_
    exact slot_free_of_unref hr ha en.2 hdone (hmov _ rfl)
  | loopWriteDone => exact absurd en (h.quiet .loop)
  | addAsyncCleanup =>
    refine looping_of_calm (calm_addAsyncCleanup h) ?_ (addAsyncCleanup_done s)
    rw [show (next s .addAsyncCleanup).loop = s.loop from (sameLoop_addAsyncCleanup s).loop]
    exact inside
  | read => exact looping_of_calm (calm_read h en.1 en.2.2) rfl working
  | check =>
    obtain ⟨c, hc⟩ := slot_of_checking h en
    show Looping s.check
    rw [check_of_slot hc]
    exact looping_of_calm (calm_start h hc en) rfl working
  | finish threw =>
    obtain ⟨-, c, hc⟩ := en
    exact looping_of_calm (calm_finish h hr hc) rfl working
  | resetTasks =>
    rw [en.1] at inside
    cases inside
  | close =>
    rw [show s.loop = .closing from en] at inside
    cases inside
  | exit =>
    rw [show s.loop = .closed from en] at inside
    cases inside
  | destroy =>
    rw [en.1] at inside
    cases inside
  | asyncCheck =>
    refine looping_of_calm (calm_asyncCheck h) ?_ (asyncCheck_done ha working)
    rw [show (next s .asyncCheck).loop = s.loop from (sameLoop_asyncCheck s).loop]
    exact inside
  | asyncWakeUp => exact looping_of_calm (frame rfl rfl rfl rfl rfl rfl nofun) inside working
  | asyncFinish =>
    refine looping_asyncFinish (hunref _) inside fun hdone => ?_
    exact slot_free_of_unref hr ha (ha.asyncFn_mem en.1) hdone fun _ _ => nofun
  | asyncWriteDone => exact absurd en (h.quiet .async)
  | strayByte => exact absurd ok id

/-! ## Once `done()` is true -/

omit [DecidableEq T] in
/-- The one finder of `done()` has written its byte. -/
theorem quiet_of_woken {s t : State T} {w : Waker T} (one : s.OneWaker) (at_ : s.waking w)
    (new : ∀ v, t.waking v → s.waking v ∧ v ≠ w) : t.Quiet := by
  obtain ⟨u, -, hu⟩ := one
  intro v hv
  obtain ⟨hold, hne⟩ := new v hv
  exact hne ((hu v hold).trans (hu w at_).symm)

/-- The byte for the end is written once, and found in the pipe. -/
theorem woken {s t : State T} {w : Waker T} (h : Looping s) (done : s.done = true)
    (at_ : s.waking w) (same : t.done = s.done) (loop : t.loop = s.loop)
    (pipe : t.pipe = s.pipe + 1) (new : ∀ v, t.waking v → s.waking v ∧ v ≠ w) : Looping t := by
  refine ⟨by rw [loop]; exact h.inside, ?_, fun _ => .inl ?_⟩
  · intro hd
    rw [same, done] at hd
    cases hd
  · rcases h.ending done with ⟨hq, -⟩ | ⟨hone, hb⟩
    · exact absurd at_ (hq w)
    · refine ⟨quiet_of_woken hone at_ new, ?_⟩
      simp only [State.bytes, loop, pipe] at hb ⊢
      omega

/-- Nothing the handshake reads changes but the async thread's position. -/
theorem looping_async {s t : State T} (h : Looping s) (done : s.done = true)
    (same : t.done = s.done) (loop : t.loop = s.loop) (pipe : t.pipe = s.pipe)
    (new : ∀ v, t.waking v ↔ s.waking v) : Looping t := by
  refine ⟨by rw [loop]; exact h.inside, ?_, fun _ => ?_⟩
  · intro hd
    rw [same, done] at hd
    cases hd
  · simp only [State.Quiet, State.OneWaker, State.bytes, loop, pipe, new]
    exact h.ending done

omit [DecidableEq T] in
/-- With the list closed the async thread ends. -/
theorem asyncCheck_of_none {s : State T} (h : s.asyncFns = none) :
    s.asyncCheck = { s with async := .gone } := by
  unfold State.asyncCheck
  split
  · rfl
  · next hfns => cases h.symm.trans hfns
  · next hfns => cases h.symm.trans hfns

omit [DecidableEq T] in
/-- With an empty one it waits. -/
theorem asyncCheck_of_nil {s : State T} (h : s.asyncFns = some []) :
    s.asyncCheck = { s with async := .asleep } := by
  unfold State.asyncCheck
  split
  · next hfns => cases h.symm.trans hfns
  · rfl
  · next hfns => cases h.symm.trans hfns

omit [DecidableEq T] in
/-- When `done()` holds no cleanup is queued. -/
theorem asyncFns_of_done {s : State T} (done : s.done = true) : s.asyncFns = some [] := by
  simp only [State.done, Bool.and_eq_true, decide_eq_true_eq] at done
  exact done.2

/-- Once `done()` is true, an action leaves the loop inside its `for(;;)`, or is the `break`. -/
theorem looping_ending {s : State T} (hr : Rendezvous s) (ha : Accounts s) (h : Looping s)
    (done : s.done = true) (a : Action T) (en : enabled s a) (ok : HoldsRef s a) :
    Looping (next s a) ∨ s.Quiet ∧ s.pipe = 0 ∧ next s a = { s with loop := .breaking } := by
  have hinside := h.inside
  have hlive := live_eq_zero_of_done ha done
  have hfree := slot_free_of_live hr ha hlive
  have hkind := unreferenced_of_live hr ha hlive a en ok
  cases a with
  | writeDone p =>
    refine .inl (woken (w := .thread p) h done en rfl rfl rfl fun v hv => ?_)
    cases v with
    | thread q =>
      have hq : (s.writeByte.setPost p .idle).post q = .wake := hv
      rw [setPost_post] at hq
      split at hq
      · cases hq
      · next hne => exact ⟨hq, fun he => hne (Waker.thread.inj he)⟩
    | loop => exact ⟨hv, nofun⟩
    | async => exact ⟨hv, nofun⟩
  | loopWriteDone =>
    refine .inl (woken (w := .loop) h done en rfl rfl rfl fun v hv => ?_)
    cases v with
    | thread q => exact ⟨hv, nofun⟩
    | loop => cases hv
    | async => exact ⟨hv, nofun⟩
  | asyncWriteDone =>
    refine .inl (woken (w := .async) h done en rfl rfl rfl fun v hv => ?_)
    cases v with
    | thread q => exact ⟨hv, nofun⟩
    | loop => exact ⟨hv, nofun⟩
    | async => cases hv
  | asyncCheck =>
    have hready : s.async = .ready := en
    left
    show Looping s.asyncCheck
    rw [asyncCheck_of_nil (asyncFns_of_done done)]
    refine looping_async h done rfl rfl rfl fun v => ?_
    cases v with
    | thread q => exact Iff.rfl
    | loop => exact Iff.rfl
    | async => simp only [State.waking, hready, reduceCtorEq]
  | asyncWakeUp =>
    have hasleep : s.async = .asleep := en
    refine .inl (looping_async h done rfl rfl rfl fun v => ?_)
    cases v with
    | thread q => exact Iff.rfl
    | loop => exact Iff.rfl
    | async =>
      show AsyncPc.ready = .wake ↔ s.async = .wake
      simp only [hasleep, reduceCtorEq]
  | read =>
    -- the byte of the finder is taken out of the pipe
    obtain ⟨hloop, -, hpipe⟩ := en
    refine .inl ⟨rfl, fun hd => absurd (hd.symm.trans done) nofun, fun _ => .inl ?_⟩
    rcases h.ending done with ⟨hq, hb⟩ | ⟨-, hb⟩
    · refine ⟨hq, ?_⟩
      simp only [State.bytes, hloop, reduceCtorEq, ↓reduceIte] at hb
      simp only [State.bytes, next, ↓reduceIte]
      omega
    · simp only [State.bytes, hloop, reduceCtorEq, ↓reduceIte] at hb
      omega
  | check =>
    have hloop : s.loop = .checking := en
    right
    show s.Quiet ∧ s.pipe = 0 ∧ s.check = { s with loop := .breaking }
    rw [check_of_free hfree, if_pos done]
    rcases h.ending done with ⟨hq, hb⟩ | ⟨-, hb⟩
    · simp only [State.bytes, hloop, ↓reduceIte] at hb
      exact ⟨hq, by omega, rfl⟩
    · simp only [State.bytes, hloop, ↓reduceIte] at hb
      omega
  | resetTasks =>
    rw [en.1] at hinside
    cases hinside
  | close =>
    rw [show s.loop = .closing from en] at hinside
    cases hinside
  | exit =>
    rw [show s.loop = .closed from en] at hinside
    cases hinside
  | destroy =>
    rw [en.1] at hinside
    cases hinside
  | _ => cases hkind

/-! ## After the `break` -/

/-- After the `break`, the loop thread goes its way and the async thread ends. -/
theorem leaving_next {s : State T} (hr : Rendezvous s) (ha : Accounts s) (h : Leaving s)
    (a : Action T) (en : enabled s a) (ok : HoldsRef s a) :
    Leaving (next s a) ∧ (a = .asyncCheck ∨ a = .asyncWakeUp ∨ a = .resetTasks ∨ a = .close ∨
      a = .exit ∨ a = .destroy) := by
  have hout := h.outside
  have hkind := unreferenced_of_live hr ha h.live a en ok
  have hasync : ∀ {t : State T} {pc : AsyncPc}, t.async = pc → pc ≠ .wake → t.post = s.post →
      t.loopWake = s.loopWake → t.Quiet := by
    intro t pc hpc hne hpost hwake v hv
    cases v with
    | thread q => rw [State.waking, hpost] at hv; exact h.quiet (.thread q) hv
    | loop => rw [State.waking, hwake] at hv; exact h.quiet .loop hv
    | async => exact hne (hpc.symm.trans hv)
  cases a with
  | writeDone p => exact absurd en (h.quiet (.thread p))
  | loopWriteDone => exact absurd en (h.quiet .loop)
  | asyncWriteDone => exact absurd en (h.quiet .async)
  | read =>
    rw [en.1] at hout
    cases hout
  | check =>
    rw [show s.loop = .checking from en] at hout
    cases hout
  | asyncCheck =>
    refine ⟨?_, .inl rfl⟩
    show Leaving s.asyncCheck
    have hready : s.async = .ready := en
    have hnot : s.loop ≠ .destroyed := by
      intro hd
      rcases h.joined hd with hj | hj <;> cases hj.symm.trans hready
    have hfns : s.asyncFns = none ∨ s.asyncFns = some [] := by
      cases hl : s.loop <;> rw [hl] at hout
      case breaking => exact .inr (h.broken (.inl hl))
      case closing => exact .inr (h.broken (.inr (.inl hl)))
      case closed => exact .inr (h.broken (.inr (.inr hl)))
      case returned => exact .inl (h.returned (.inl hl)).1
      case destroyed => exact absurd hl hnot
      all_goals cases hout
    rcases hfns with hfns | hfns
    · rw [asyncCheck_of_none hfns]
      exact ⟨hout, h.live, hasync rfl nofun rfl rfl, h.pipe, h.broken, h.returned,
        fun _ => .inr rfl, h.fdsOpen, h.noBadWrite⟩
    · rw [asyncCheck_of_nil hfns]
      exact ⟨hout, h.live, hasync rfl nofun rfl rfl, h.pipe, h.broken, h.returned,
        fun hd => absurd hd hnot, h.fdsOpen, h.noBadWrite⟩
  | asyncWakeUp =>
    refine ⟨?_, .inr (.inl rfl)⟩
    have hasleep : s.async = .asleep := en
    refine ⟨hout, h.live, hasync rfl nofun rfl rfl, h.pipe, h.broken, h.returned, fun hd => ?_,
      h.fdsOpen, h.noBadWrite⟩
    rcases h.joined hd with hj | hj <;> cases hj.symm.trans hasleep
  | resetTasks =>
    exact ⟨⟨rfl, h.live, h.quiet, h.pipe, fun _ => h.broken (.inl en.1), nofun, nofun,
      fun _ => h.fdsOpen (.inl en.1), h.noBadWrite⟩,
      .inr (.inr (.inl rfl))⟩
  | close =>
    exact ⟨⟨rfl, h.live, h.quiet, h.pipe, fun _ => h.broken (.inr (.inl en)), nofun, nofun,
      nofun, h.noBadWrite⟩,
      .inr (.inr (.inr (.inl rfl)))⟩
  | exit =>
    refine ⟨⟨rfl, h.live, ?_, h.pipe, nofun, fun _ => ⟨rfl, rfl, rfl⟩, nofun, nofun, h.noBadWrite⟩,
      .inr (.inr (.inr (.inr (.inl rfl))))⟩
    intro v hv
    exact h.quiet v ((waking_notifyAll s v).mp (by cases v <;> exact hv))
  | destroy =>
    exact ⟨⟨rfl, h.live, h.quiet, h.pipe, nofun, fun _ => h.returned (.inl en.1), fun _ => en.2,
      nofun, h.noBadWrite⟩,
      .inr (.inr (.inr (.inr (.inr rfl))))⟩
  | _ => cases hkind

/-! ## Every action keeps it -/

omit [DecidableEq T] in
/-- Safety depends on what the loop thread has closed and destroyed. -/
theorem safe_of_sameLoop {s t : State T} (h : Safe s) (same : s.SameLoop t) : Safe t :=
  ⟨same.fdsOpen.trans h.fdsOpen, fun hn => h.cleanups (same.asyncFns.mp hn),
    same.badWrite.trans h.noBadWrite⟩

omit [DecidableEq T] in
/-- A byte written while the descriptors are open is safe. -/
theorem safe_writeByte {s : State T} (h : Safe s) : Safe s.writeByte := by
  refine ⟨h.fdsOpen, h.cleanups, ?_⟩
  simp only [State.writeByte, h.fdsOpen, h.noBadWrite, Bool.not_true, Bool.or_false]

/-- Inside the `for(;;)` no action closes a descriptor or writes to a closed one. -/
theorem safe_next {s : State T} (h : Safe s) (inside : s.loop.inside = true) (a : Action T)
    (en : enabled s a) : Safe (next s a) := by
  have same : Safe s := ⟨h.fdsOpen, h.cleanups, h.noBadWrite⟩
  have hwrite := safe_writeByte h
  cases a with
  | post p =>
    simp only [next, State.tryInstall]
    split <;> exact ⟨same.1, same.2, same.3⟩
  | tryInstall p =>
    simp only [next, State.tryInstall]
    split <;> exact ⟨same.1, same.2, same.3⟩
  | write p => exact ⟨hwrite.1, hwrite.2, hwrite.3⟩
  | writeDone p => exact ⟨hwrite.1, hwrite.2, hwrite.3⟩
  | loopWriteDone => exact ⟨hwrite.1, hwrite.2, hwrite.3⟩
  | asyncWriteDone => exact ⟨hwrite.1, hwrite.2, hwrite.3⟩
  | strayByte => exact hwrite
  | tryReturn p => exact safe_of_sameLoop h (sameLoop_tryReturn s p)
  | drop p => exact safe_of_sameLoop h (sameLoop_reset s _ p)
  | loopDrop => exact safe_of_sameLoop h (sameLoop_loopReset s _)
  | addAsyncCleanup => exact safe_of_sameLoop h (sameLoop_addAsyncCleanup s)
  | asyncCheck => exact safe_of_sameLoop h (sameLoop_asyncCheck s)
  | asyncFinish => exact safe_of_sameLoop h (sameLoop_asyncFinish s)
  | check =>
    cases hslot : s.postFn with
    | some c =>
      simp only [next, check_of_slot hslot]
      exact ⟨same.1, same.2, same.3⟩
    | none =>
      simp only [next, check_of_free hslot]
      exact ⟨same.1, same.2, same.3⟩
  | close =>
    rw [show s.loop = .closing from en] at inside
    cases inside
  | exit =>
    rw [show s.loop = .closed from en] at inside
    cases inside
  | _ => exact ⟨same.1, same.2, same.3⟩

omit [DecidableEq T] in
/-- The loop thread breaks with nothing left to do. -/
theorem leaving_of_break {s : State T} (hq : s.Quiet) (pipe : s.pipe = 0) (live : s.live = 0)
    (safe : Safe s) (cleanups : s.asyncFns = some []) : Leaving { s with loop := .breaking } :=
  ⟨rfl, live, hq, pipe, fun _ => cleanups, nofun, nofun, fun _ => safe.fdsOpen, safe.noBadWrite⟩

/-- The step lemma of the handshake. -/
theorem handshake_next {s : State T} (hr : Rendezvous s) (ha : Accounts s) (h : Handshake s)
    (a : Action T) (en : enabled s a) (ok : HoldsRef s a) : Handshake (next s a) := by
  cases h with
  | looping hl safe =>
    have hsafe := safe_next safe hl.inside a en
    cases hdone : s.done with
    | false =>
      exact .looping (looping_working hr ha (hl.working hdone) hl.inside hdone a en ok) hsafe
    | true =>
      rcases looping_ending hr ha hl hdone a en ok with hn | ⟨hq, hpipe, hbreak⟩
      · exact .looping hn hsafe
      · rw [hbreak]
        have hlive := live_eq_zero_of_done ha hdone
        exact .leaving (leaving_of_break hq hpipe hlive safe (asyncFns_of_done hdone))
  | leaving hl => exact .leaving (leaving_next hr ha hl a en ok).1

/-- The three invariants of a disciplined run. -/
structure Disciplined (s : State T) : Prop where
  rendezvous : Rendezvous s
  accounts : Accounts s
  handshake : Handshake s

/-- A disciplined run keeps all of these. -/
theorem disciplined_reachable {s : State T} (h : (disciplined T).Reachable s) : Disciplined s := by
  refine h.invariant (I := Disciplined) ?_ ?_
  · rintro s ⟨hs, hlive⟩
    exact ⟨rendezvous_of_starts hs, accounts_of_starts hs, handshake_of_starts hs hlive⟩
  · rintro s a ⟨hr, ha, hh⟩ ⟨ok, en⟩
    exact ⟨rendezvous_next hr a en, accounts_next ha a en, handshake_next hr ha hh a en ok⟩

/-! ## The handshake -/

/-- Outside of its loop the thread is leaving. -/
theorem Disciplined.leaving {s : State T} (h : Disciplined s) (outside : s.loop.inside = false) :
    Leaving s := by
  cases h.handshake with
  | looping hl _ =>
    have hin := hl.inside
    rw [outside] at hin
    cases hin
  | leaving hl => exact hl

/-- Whoever is still to write a byte writes it to an open descriptor. -/
theorem Disciplined.fdsOpen {s : State T} (h : Disciplined s)
    (writer : (∃ w, s.waking w) ∨ ∃ p, s.post p = .notify) : s.fdsOpen = true := by
  cases h.handshake with
  | looping _ safe => exact safe.fdsOpen
  | leaving hl =>
    rcases writer with ⟨w, hw⟩ | ⟨p, hp⟩
    · exact absurd hw (hl.quiet w)
    · have hout := not_inPost_of_live h.accounts hl.live p
      rw [hp] at hout
      cases hout

/-- And then no reference, no function and no thread in `post` is left. -/
theorem Disciplined.left {s : State T} (h : Disciplined s) (outside : s.loop.inside = false) :
    s.numClients = 0 ∧ s.postFn = none ∧ (∀ p, (s.post p).inPost = false) ∧ s.Quiet := by
  have hl := h.leaving outside
  refine ⟨?_, slot_free_of_live h.rendezvous h.accounts hl.live,
    not_inPost_of_live h.accounts hl.live, hl.quiet⟩
  rw [h.accounts.count, hl.live]
  rfl

/-- In every reachable state of a disciplined run: the counter is the number of live references;
at the `break` the count is 0, no function is in the slot or waiting for it, no cleanup is queued
and no finder of `done()` is still to write; every byte goes to an open descriptor; after the
`break` only the loop thread and the async thread move, and after `~EventLoop` nobody; and what
`~EventLoop` asserts holds. -/
theorem shutdown_handshake {s : State T} (h : (disciplined T).Reachable s) :
    s.numClients = s.live.card ∧
    (∀ p, s.live.count (.post p) = if (s.post p).inPost then 1 else 0) ∧
    (s.live.count .asyncFn = if s.inAsyncFn then 1 else 0) ∧
    (s.loop = .breaking → s.numClients = 0 ∧ s.postFn = none ∧
      (∀ p, (s.post p).inPost = false) ∧ s.asyncFns = some [] ∧ ∀ w, ¬ s.waking w) ∧
    ((∃ w, s.waking w) ∨ (∃ p, s.post p = .notify) → s.fdsOpen = true) ∧
    s.badWrite = false ∧
    (s.loop.inside = false → ∀ a, (disciplined T).enabled s a →
      a = .asyncCheck ∨ a = .asyncWakeUp ∨ a = .resetTasks ∨ a = .close ∨ a = .exit ∨
        a = .destroy) ∧
    (s.loop = .destroyed → ∀ a, ¬ (disciplined T).enabled s a) ∧
    ((disciplined T).enabled s .destroy → s.postFn = none ∧ s.asyncFns = none ∧
      s.waitFd = -1 ∧ s.postFd = -1 ∧ s.numClients = 0) := by
  have hd := disciplined_reachable h
  have hout : s.loop.inside = false → ∀ a, (disciplined T).enabled s a →
      a = .asyncCheck ∨ a = .asyncWakeUp ∨ a = .resetTasks ∨ a = .close ∨ a = .exit ∨
        a = .destroy := fun outside a ⟨ok, en⟩ =>
    (leaving_next hd.rendezvous hd.accounts (hd.leaving outside) a en ok).2
  refine ⟨hd.accounts.count, hd.accounts.postRef, hd.accounts.asyncRef, ?_, hd.fdsOpen, ?_, hout,
    ?_, ?_⟩
  · intro hbreak
    have outside : s.loop.inside = false := by rw [hbreak]; rfl
    obtain ⟨hcount, hslot, hpost, hquiet⟩ := hd.left outside
    exact ⟨hcount, hslot, hpost, (hd.leaving outside).broken (.inl hbreak), hquiet⟩
  · cases hd.handshake with
    | looping _ safe => exact safe.noBadWrite
    | leaving hl => exact hl.noBadWrite
  · rintro hgone a ha
    have outside : s.loop.inside = false := by rw [hgone]; rfl
    have hjoined := (hd.leaving outside).joined hgone
    rcases hout outside a ha with rfl | rfl | rfl | rfl | rfl | rfl
    · have hready : s.async = .ready := ha.2
      rcases hjoined with hj | hj <;> cases hj.symm.trans hready
    · have hasleep : s.async = .asleep := ha.2
      rcases hjoined with hj | hj <;> cases hj.symm.trans hasleep
    · cases hgone.symm.trans ha.2.1
    · cases hgone.symm.trans ha.2
    · cases hgone.symm.trans ha.2
    · cases hgone.symm.trans ha.2.1
  · rintro ⟨-, hret, -⟩
    have outside : s.loop.inside = false := by rw [hret]; rfl
    obtain ⟨hcount, hslot, -, -⟩ := hd.left outside
    obtain ⟨hfns, hwait, hpost⟩ := (hd.leaving outside).returned (.inl hret)
    exact ⟨hslot, hfns, hwait, hpost, hcount⟩

instance (s : State T) : ∀ a : Action T, Decidable (HoldsRef s a)
  | .post p | .take p => inferInstanceAs (Decidable (.thread p ∈ s.live ∨ p = .async ∧ s.inAsyncFn))
  | .loopTake | .addAsyncCleanup =>
    inferInstanceAs (Decidable (.loop ∈ s.live ∨ ∃ c, s.loop = .running c))
  | .strayByte => isFalse id
  | .tryInstall _ | .write _ | .tryReturn _ | .wakeUp _ | .drop _ | .move _ _ | .writeDone _
  | .loopDrop | .loopWriteDone | .read | .check | .finish _ | .resetTasks | .close | .exit
  | .destroy | .asyncCheck | .asyncWakeUp | .asyncFinish | .asyncWriteDone => isTrue trivial

instance (s : State T) (a : Action T) : Decidable ((disciplined T).enabled s a) :=
  inferInstanceAs (Decidable (HoldsRef s a ∧ enabled s a))

/-- The loop thread queues a cleanup and drops its reference, the async thread runs the cleanup
and finds `done()`, and the loop runs to its end. -/
theorem shutdown_handshake_cleanup :
    ∃ s, (disciplined Bool).Reachable s ∧ s.loop = .returned ∧ s.added = 1 ∧ s.postFn = none ∧
      s.asyncFns = none ∧ s.waitFd = -1 ∧ s.postFd = -1 ∧ s.numClients = 0 := by
  have hstart : (disciplined Bool).init twoThreads := ⟨twoThreads_starts, by decide⟩
  obtain ⟨s, hs, hp⟩ := Transition.System.exists_reachable_of_run (disciplined Bool) hstart
    [.addAsyncCleanup, .loopDrop, .asyncCheck, .asyncFinish, .asyncWriteDone, .read, .check,
      .resetTasks, .close, .exit, .asyncCheck]
    (fun s => s.loop = .returned && s.added = 1 && s.async = .gone) (by decide)
  simp only [Bool.and_eq_true, decide_eq_true_eq] at hp
  obtain ⟨⟨hloop, hadded⟩, hgone⟩ := hp
  obtain ⟨-, -, -, -, -, -, -, -, hasserts⟩ := shutdown_handshake hs
  exact ⟨s, hs, hloop, hadded, hasserts ⟨trivial, hloop, .inr hgone⟩⟩

end Multiprocess.Loop
