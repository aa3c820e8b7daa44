import Multiprocess.Lib.Measure
import Multiprocess.Loop.AsyncCleanup
import Multiprocess.Loop.Atomic

/-!
# What is under way comes to an end

From any state of a disciplined run, let the application start nothing new: no call of `post`, no
reference taken, dropped or moved, no cleanup queued. What is left are the steps of the calls of
`post` and `reset` under way, of the event loop thread with `~EventLoop` after `loop()`, and of the
async thread; a posted function or a cleanup that runs returns. `State.work` bounds them: every such
step lowers it, whatever the order. It counts for each thread the steps it still causes, those of
the loop for its byte among them; a `notify_all` may wake up every thread that waits, and its cost
`c` is paid by the function that has run.

Where no step is left, nobody waits, nothing is queued, and `loop()` is waiting for a byte or gone,
by whether a reference was held outside of the library.

Spurious wake-ups are not among the steps, so nothing is said of how often a thread may wake up for
nothing.
-/

namespace Multiprocess.Loop

open Transition (System)

variable {T : Type}

/-- The steps that are not started by the application. Spurious wake-ups, of a thread in `post`
(`wakeUp`) and of the async thread (`asyncWakeUp`), are left out, as stray bytes are: nothing bounds
their number, and after one the thread checks its condition and waits again. -/
def Action.internal : Action T → Bool
  | .tryInstall _ | .write _ | .tryReturn _ | .writeDone _ | .loopWriteDone => true
  | .read | .check | .finish _ | .resetTasks | .close | .exit | .destroy => true
  | .asyncCheck | .asyncFinish | .asyncWriteDone => true
  | _ => false

/-- The disciplined system, left alone. -/
def settling (T : Type) [DecidableEq T] : System (State T) (Action T) :=
  (disciplined T).guardedBy fun _ a => a.internal = true

/-! ## The work left -/

/-- The steps a thread still causes, before it is out of `post` and `reset`. -/
def PostPc.work (c : Nat) : PostPc → Nat
  | .idle => 0
  | .wake => 4
  | .waitDone true => c + 4
  | .waitDone false => c + 5
  | .notify => c + 9
  | .waitSlot true => 2 * c + 9
  | .waitSlot false => 2 * c + 10

/-- The steps of the event loop thread to the end of `~EventLoop`, if it breaks now. -/
def LoopPc.work (c : Nat) : LoopPc T → Nat
  | .destroyed => 0
  | .returned => 1
  | .closed => c + 2
  | .closing => c + 3
  | .breaking => c + 4
  | .reading => c + 5
  | .running _ => c + 6
  | .checking => c + 7

/-- The steps of the async thread until it looks at an empty list. -/
def AsyncPc.work (c : Nat) : AsyncPc → Nat
  | .absent | .asleep | .gone => 0
  | .ready => 1
  | .wake => 5
  | .running _ => c + 6

namespace State

def threadWork (s : State T) (c : Nat) (threads : Finset (Thread T)) : Nat :=
  ∑ p ∈ threads, (s.post p).work c

/-- The work of the function in the slot, of the bytes, of the loop and of the cleanups. -/
def loopWork (s : State T) (c : Nat) : Nat :=
  s.postFn.elim 0 (fun _ => c) + 3 * s.pipe + 4 * s.loopWake.toNat + s.loop.work c +
    s.async.work c + (c + 6) * s.queued.length

def work (s : State T) (threads : Finset (Thread T)) : Nat :=
  s.threadWork (threads.card + 1) threads + s.loopWork (threads.card + 1)

/-- The threads in `post` or `reset` are among these. -/
def Within (s : State T) (threads : Finset (Thread T)) : Prop :=
  ∀ p, s.post p ≠ .idle → p ∈ threads

end State

/-- Being woken costs a thread one step more at most. -/
theorem PostPc.work_notified (c : Nat) (pc : PostPc) : pc.notified.work c ≤ pc.work c + 1 := by
  unfold PostPc.notified
  split
  · next asleep => cases asleep <;> simp only [PostPc.work] <;> omega
  · next asleep => cases asleep <;> simp only [PostPc.work] <;> omega
  · exact Nat.le_succ _

/-- It costs the async thread one too. -/
theorem AsyncPc.work_notified (c : Nat) (pc : AsyncPc) : pc.notified.work c ≤ pc.work c + 1 := by
  cases pc <;> simp only [AsyncPc.notified, AsyncPc.work] <;> omega

theorem PostPc.notified_eq_idle {pc : PostPc} : pc.notified = .idle ↔ pc = .idle := by
  cases pc <;> simp only [PostPc.notified, reduceCtorEq]

variable {s : State T} {threads : Finset (Thread T)} {c : Nat}

/-- So waking all threads costs one step for each, -/
theorem threadWork_notifyAll (s : State T) (c : Nat) (threads : Finset (Thread T)) :
    s.notifyAll.threadWork c threads ≤ s.threadWork c threads + threads.card := by
  unfold State.threadWork
  rw [Finset.card_eq_sum_ones, ← Finset.sum_add_distrib]
  exact Finset.sum_le_sum fun p _ => PostPc.work_notified c (s.post p)

/-- and the loop thread's own work one more. -/
theorem loopWork_notifyAll (s : State T) (c : Nat) : s.notifyAll.loopWork c ≤ s.loopWork c + 1 := by
  have h := AsyncPc.work_notified c s.async
  simp only [State.loopWork, State.notifyAll, State.queued]
  omega

/-- Waking everybody costs at most a step for each thread and one more. -/
theorem work_notifyAll (s : State T) (threads : Finset (Thread T)) :
    s.notifyAll.work threads ≤ s.work threads + (threads.card + 1) := by
  have hthreads := threadWork_notifyAll s (threads.card + 1) threads
  have hloop := loopWork_notifyAll s (threads.card + 1)
  unfold State.work
  omega

/-- A byte in the pipe is three steps of the loop thread. -/
theorem work_writeByte (s : State T) (threads : Finset (Thread T)) :
    s.writeByte.work threads = s.work threads + 3 := by
  simp only [State.work, State.loopWork, State.threadWork, State.writeByte, State.queued]
  omega

variable [DecidableEq T]

/-- A thread moves: its old place is paid back. -/
theorem work_setPost {p : Thread T} (hp : p ∈ threads) (s : State T) (pc : PostPc) :
    (s.setPost p pc).work threads + (s.post p).work (threads.card + 1) =
      s.work threads + pc.work (threads.card + 1) := by
  have hsum := Transition.Measure.finset_sum_change hp
    (f := fun q => ((s.setPost p pc).post q).work (threads.card + 1))
    (g := fun q => (s.post q).work (threads.card + 1)) fun q hq => by
      simp only [setPost_other s pc hq]
  simp only [setPost_same] at hsum
  have hloop : (s.setPost p pc).loopWork (threads.card + 1) = s.loopWork (threads.card + 1) := rfl
  unfold State.work State.threadWork
  omega

/-- A `reset` costs what its finder of `done()` does: a byte and a `notify_all`. -/
theorem work_reset {p : Thread T} (hp : p ∈ threads) (s : State T) (o : Owner T) :
    (s.reset o p).work threads + (s.post p).work (threads.card + 1) ≤
      s.work threads + (threads.card + 5) := by
  have hwake : ((s.unref o).setPost p .wake).work threads + (s.post p).work (threads.card + 1) =
      s.work threads + 4 := work_setPost hp (s.unref o) .wake
  have hidle : ((s.unref o).setPost p .idle).work threads + (s.post p).work (threads.card + 1) =
      s.work threads + 0 := work_setPost hp (s.unref o) .idle
  have hall := work_notifyAll ((s.unref o).setPost p .wake) threads
  unfold State.reset
  split <;> omega

/-! ## Every step lowers it -/

/-- A poster gets closer to its return by looking at the slot, -/
theorem work_tryInstall {p : Thread T} (hp : p ∈ threads) (inside : s.post p = .waitSlot false) :
    (s.tryInstall p).work threads < s.work threads := by
  unfold State.tryInstall
  split
  · next free =>
    have hmove := work_setPost hp s .notify
    rw [inside] at hmove
    change _ + (2 * (threads.card + 1) + 10) = _ + (threads.card + 1 + 9) at hmove
    have hslot : ({ s.setPost p .notify with postFn := some (s.call p) } : State T).work threads =
        (s.setPost p .notify).work threads + (threads.card + 1) := by
      simp only [State.work, State.threadWork, State.loopWork, State.queued, State.setPost, free,
        Option.elim_none, Option.elim_some]
      omega
    omega
  · have hmove := work_setPost hp s (.waitSlot true)
    rw [inside] at hmove
    change _ + (2 * (threads.card + 1) + 10) = _ + (2 * (threads.card + 1) + 9) at hmove
    omega

/-- and by looking at it again. -/
theorem work_tryReturn {p : Thread T} (hp : p ∈ threads) (inside : s.post p = .waitDone false) :
    (s.tryReturn p).work threads < s.work threads := by
  unfold State.tryReturn
  split
  · have hmove := work_setPost hp s (.waitDone true)
    rw [inside] at hmove
    change _ + (threads.card + 1 + 5) = _ + (threads.card + 1 + 4) at hmove
    omega
  · have hmove := work_reset hp { s with calls := Function.update s.calls p (s.calls p + 1) }
      (.post p)
    rw [show State.post { s with calls := _ } p = _ from inside] at hmove
    change _ + (threads.card + 1 + 5) ≤ s.work threads + (threads.card + 5) at hmove
    omega

omit [DecidableEq T] in
/-- The function that has run pays for the `notify_all`. -/
theorem work_finish {r : Call T} (hslot : s.postFn = some r) (hloop : s.loop = .running r) :
    s.finish.work threads < s.work threads := by
  have hall := work_notifyAll { s with loop := .reading, postFn := none } threads
  have hpaid : ({ s with loop := .reading, postFn := none } : State T).work threads +
      (threads.card + 2) = s.work threads := by
    simp only [State.work, State.threadWork, State.loopWork, State.queued, hslot, hloop,
      LoopPc.work, Option.elim_none, Option.elim_some]
    omega
  unfold State.finish
  omega

/-- The loop thread's check is a step forward, -/
theorem work_check (hloop : s.loop = .checking) : s.check.work threads < s.work threads := by
  have hpc : ∀ pc : LoopPc T, ({ s with loop := pc } : State T).work threads + (threads.card + 8) =
      s.work threads + pc.work (threads.card + 1) := by
    intro pc
    simp only [State.work, State.threadWork, State.loopWork, State.queued, hloop, LoopPc.work]
    omega
  cases hslot : s.postFn with
  | some r =>
    have hrun := hpc (.running r)
    change _ = _ + (threads.card + 1 + 6) at hrun
    rw [check_of_slot hslot]
    change State.work { s with loop := .running r } threads < _
    omega
  | none =>
    rw [check_of_free hslot]
    split
    · have hbreak := hpc .breaking
      change _ = _ + (threads.card + 1 + 4) at hbreak
      omega
    · have hread := hpc .reading
      change _ = _ + (threads.card + 1 + 5) at hread
      omega

omit [DecidableEq T] in
/-- and so is the end of `loop()`. -/
theorem work_exit (hloop : s.loop = .closed) : s.exit.work threads < s.work threads := by
  have hall := work_notifyAll
    { s with waitFd := -1, postFd := -1, asyncFns := none, loop := .returned } threads
  have hpaid : ({ s with waitFd := -1, postFd := -1, asyncFns := none, loop := .returned } :
      State T).work threads + (threads.card + 2) ≤ s.work threads := by
    simp only [State.work, State.threadWork, State.loopWork, State.queued, hloop, LoopPc.work,
      Option.getD_none, List.length_nil, Nat.mul_zero]
    omega
  unfold State.exit
  omega

omit [DecidableEq T] in
/-- The async thread gets on by taking a cleanup, -/
theorem work_asyncCheck (ready : s.async = .ready) :
    s.asyncCheck.work threads < s.work threads := by
  cases hfns : s.asyncFns with
  | none =>
    rw [asyncCheck_of_none hfns]
    simp only [State.work, State.threadWork, State.loopWork, State.queued, ready, AsyncPc.work,
      hfns]
    omega
  | some fns =>
    cases fns with
    | nil =>
      rw [asyncCheck_of_nil hfns]
      simp only [State.work, State.threadWork, State.loopWork, State.queued, ready, AsyncPc.work,
        hfns]
      omega
    | cons fn fns =>
      rw [asyncCheck_of_cons hfns]
      simp only [State.work, State.threadWork, State.loopWork, State.queued, State.ref, ready,
        AsyncPc.work, hfns, Option.getD_some, List.length_cons, Nat.mul_succ]
      omega

omit [DecidableEq T] in
/-- The async thread moves. -/
theorem work_setAsync (s : State T) (threads : Finset (Thread T)) (pc : AsyncPc) :
    ({ s with async := pc } : State T).work threads + s.async.work (threads.card + 1) =
      s.work threads + pc.work (threads.card + 1) := by
  simp only [State.work, State.threadWork, State.loopWork, State.queued]
  omega

/-- and by ending it. -/
theorem work_asyncFinish {fn : Nat} (running : s.async = .running fn) :
    s.asyncFinish.work threads < s.work threads := by
  have hsame : (s.unref .asyncFn).work threads = s.work threads := rfl
  have hfn : (s.unref .asyncFn).async = .running fn := running
  unfold State.asyncFinish
  generalize s.unref .asyncFn = u at hsame hfn ⊢
  have hmove : ∀ pc, ({ u with async := pc } : State T).work threads + (threads.card + 7) =
      s.work threads + pc.work (threads.card + 1) := by
    intro pc
    have h := work_setAsync u threads pc
    rw [hfn, hsame] at h
    exact h
  split
  · have hwake := hmove .wake
    have hall := work_notifyAll { u with async := .wake } threads
    change _ = _ + 5 at hwake
    change (State.notifyAll { u with async := .wake }).work threads < _
    omega
  · have hready := hmove .ready
    change _ = _ + 1 at hready
    change State.work { u with async := .ready } threads < _
    omega

/-- One lemma for each step, whatever the threads. -/
theorem work_next (hr : Rendezvous s) (within : s.Within threads) (a : Action T)
    (internal : a.internal = true) (ha : enabled s a) :
    (next s a).work threads < s.work threads := by
  have hmem : ∀ {p pc}, s.post p = pc → pc ≠ .idle → p ∈ threads :=
    fun hp hne => within _ (by rw [hp]; exact hne)
  cases a with
  | tryInstall p => exact work_tryInstall (hmem ha nofun) ha
  | write p =>
    have hmove := work_setPost (hmem ha nofun) s.writeByte (.waitDone false)
    rw [work_writeByte, show s.writeByte.post p = .notify from ha] at hmove
    change _ + (threads.card + 1 + 9) = _ + (threads.card + 1 + 5) at hmove
    change (s.writeByte.setPost p (.waitDone false)).work threads < _
    omega
  | tryReturn p => exact work_tryReturn (hmem ha nofun) ha
  | writeDone p =>
    have hmove := work_setPost (hmem ha nofun) s.writeByte .idle
    rw [work_writeByte, show s.writeByte.post p = .wake from ha] at hmove
    change _ + 4 = _ + 0 at hmove
    change (s.writeByte.setPost p .idle).work threads < _
    omega
  | loopWriteDone =>
    have hwake : s.loopWake = true := ha
    simp only [next, State.work, State.threadWork, State.loopWork, State.queued, State.writeByte,
      hwake, Bool.toNat_true, Bool.toNat_false]
    omega
  | read =>
    obtain ⟨hloop, -, hpipe⟩ := ha
    simp only [next, State.work, State.threadWork, State.loopWork, State.queued, hloop,
      LoopPc.work]
    omega
  | check => exact work_check ha
  | finish threw =>
    obtain ⟨-, r, hloop⟩ := ha
    exact work_finish (hr.running r hloop) hloop
  | resetTasks =>
    simp only [next, State.work, State.threadWork, State.loopWork, State.queued, ha.1, LoopPc.work]
    omega
  | close =>
    have hloop : s.loop = .closing := ha
    simp only [next, State.work, State.threadWork, State.loopWork, State.queued, hloop, LoopPc.work]
    omega
  | exit => exact work_exit ha
  | destroy =>
    simp only [next, State.work, State.threadWork, State.loopWork, State.queued, ha.1, LoopPc.work]
    omega
  | asyncCheck => exact work_asyncCheck ha
  | asyncFinish =>
    obtain ⟨fn, hfn⟩ := ha.1
    exact work_asyncFinish hfn
  | asyncWriteDone =>
    have hwake : s.async = .wake := ha
    simp only [next, State.work, State.threadWork, State.loopWork, State.queued, State.writeByte,
      hwake, AsyncPc.work]
    omega
  | _ => cases internal

/-! ## The threads inside -/

/-- A poster moves no other thread. -/
theorem tryInstall_post_other {p q : Thread T} (s : State T) (h : q ≠ p) :
    (s.tryInstall p).post q = s.post q := by
  unfold State.tryInstall
  split
  · exact setPost_other s _ h
  · exact setPost_other s _ h

/-- Nor does a thread in `reset` take another into `post`. -/
theorem reset_post_other {p q : Thread T} (s : State T) (o : Owner T) (h : q ≠ p)
    (outside : s.post q = .idle) : (s.reset o p).post q = .idle := by
  have hmove : ∀ pc, ((s.unref o).setPost p pc).post q = .idle := fun pc =>
    (setPost_other _ pc h).trans outside
  unfold State.reset
  split
  · exact PostPc.notified_eq_idle.mpr (hmove .wake)
  · exact hmove .idle

/-- A thread is in `post` or `reset` by calling it. -/
theorem entered {p : Thread T} (a : Action T) (ha : enabled s a) (outside : s.post p = .idle)
    (inside : (next s a).post p ≠ .idle) : a = .post p ∨ a = .drop p := by
  have hmoved : ∀ {q pc}, s.post q = pc → pc ≠ .idle → p ≠ q := by
    rintro q pc hq hne rfl
    exact hne (hq.symm.trans outside)
  have hother : ∀ {q pc} (pc' : PostPc), s.post q = pc → pc ≠ .idle →
      (s.setPost q pc').post p = .idle :=
    fun pc' hq hne => (setPost_other s pc' (hmoved hq hne)).trans outside
  cases a with
  | post q =>
    by_cases hp : p = q
    · rw [hp]
      exact .inl rfl
    · exact absurd ((tryInstall_post_other (s.ref (.post q)) hp).trans outside) inside
  | drop q =>
    by_cases hp : p = q
    · rw [hp]
      exact .inr rfl
    · exact absurd (reset_post_other s _ hp outside) inside
  | tryInstall q =>
    exact absurd ((tryInstall_post_other s (hmoved ha (fun h => by cases h))).trans outside) inside
  | write q => exact absurd (hother (.waitDone false) ha (fun h => by cases h)) inside
  | tryReturn q =>
    have hne : p ≠ q := hmoved ha (fun h => by cases h)
    refine absurd ?_ inside
    change (s.tryReturn q).post p = .idle
    unfold State.tryReturn
    split
    · exact (setPost_other s _ hne).trans outside
    · exact reset_post_other _ _ hne outside
  | wakeUp q =>
    refine absurd (hother _ rfl fun hidle => ?_) inside
    rw [enabled, hidle] at ha
    cases ha
  | writeDone q => exact absurd (hother .idle ha (fun h => by cases h)) inside
  | loopDrop =>
    refine absurd ?_ inside
    change (s.loopReset .loop).post p = .idle
    unfold State.loopReset
    split
    · exact PostPc.notified_eq_idle.mpr outside
    · exact outside
  | addAsyncCleanup =>
    refine absurd ?_ inside
    change s.addAsyncCleanup.post p = .idle
    unfold State.addAsyncCleanup State.startAsyncThread
    split
    · split <;> exact outside
    · exact PostPc.notified_eq_idle.mpr outside
  | check =>
    refine absurd ?_ inside
    change s.check.post p = .idle
    unfold State.check
    split <;> exact outside
  | finish threw => exact absurd (PostPc.notified_eq_idle.mpr outside) inside
  | exit => exact absurd (PostPc.notified_eq_idle.mpr outside) inside
  | asyncCheck =>
    refine absurd ?_ inside
    change s.asyncCheck.post p = .idle
    unfold State.asyncCheck
    split <;> exact outside
  | asyncFinish =>
    refine absurd ?_ inside
    change s.asyncFinish.post p = .idle
    unfold State.asyncFinish
    split
    · exact PostPc.notified_eq_idle.mpr outside
    · exact outside
  | _ => exact absurd outside inside

/-- The steps left are those of the threads that are in `post` already. -/
theorem within_next (within : s.Within threads) (a : Action T) (internal : a.internal = true)
    (ha : enabled s a) : (next s a).Within threads := by
  intro p hp
  by_cases outside : s.post p = .idle
  · rcases entered a ha outside hp with rfl | rfl <;> cases internal
  · exact within p outside

/-- Finitely many threads are inside, in any run. -/
theorem exists_within (h : (disciplined T).Reachable s) : ∃ threads, s.Within threads := by
  refine h.invariant (I := fun s => ∃ threads, s.Within threads) ?_ ?_
  · intro s hs
    exact ⟨∅, fun p hp => absurd (hs.1.post p) hp⟩
  · rintro s a ⟨threads, within⟩ ⟨-, ha⟩
    by_cases hcall : ∃ p, a = .post p ∨ a = .drop p
    · obtain ⟨p, hp⟩ := hcall
      refine ⟨insert p threads, fun q hq => ?_⟩
      by_cases outside : s.post q = .idle
      · obtain rfl : q = p := by
          rcases entered a ha outside hq with rfl | rfl <;> rcases hp with hp | hp <;> cases hp <;>
            rfl
        exact Finset.mem_insert_self _ _
      · exact Finset.mem_insert_of_mem (within q outside)
    · refine ⟨threads, fun q hq => ?_⟩
      by_cases outside : s.post q = .idle
      · exact absurd ⟨q, entered a ha outside hq⟩ hcall
      · exact within q outside

/-! ## What is kept -/

/-- The calls of `post` the thread has begun. -/
def State.begun (s : State T) (p : Thread T) : Nat :=
  s.calls p + if (s.post p).inPost then 1 else 0

/-- Nobody calls `post` any more, and the references outside of the library stay where they are. -/
structure Kept (s t : State T) : Prop where
  begun : ∀ p, t.begun p = s.begun p
  live : ∀ o : Owner T, o.movable = true → t.live.count o = s.live.count o

omit [DecidableEq T] in
theorem State.SamePosts.begun {t : State T} (h : s.SamePosts t) (p : Thread T) :
    t.begun p = s.begun p := by
  unfold State.begun
  rw [h.calls, h.inPost]

/-- A call that has begun stays begun. -/
theorem begun_tryReturn {p : Thread T} (inside : s.post p = .waitDone false) (q : Thread T) :
    (s.tryReturn p).begun q = s.begun q := by
  unfold State.tryReturn
  split
  · refine (samePosts_setPost s ?_).begun q
    rw [inside]
    rfl
  · unfold State.begun
    rw [reset_inPost, reset_calls]
    change Function.update s.calls p (s.calls p + 1) q +
      (if (if q = p then false else (s.post q).inPost) then 1 else 0) = _
    by_cases hq : q = p
    · rw [if_pos hq, hq, Function.update_self, inside]
      rfl
    · rw [if_neg hq, Function.update_of_ne hq]

/-- No internal step begins one. -/
theorem begun_next (a : Action T) (internal : a.internal = true) (ha : enabled s a)
    (p : Thread T) : (next s a).begun p = s.begun p := by
  by_cases hret : ∃ q, a = .tryReturn q
  · obtain ⟨q, rfl⟩ := hret
    exact begun_tryReturn ha p
  · refine (samePosts_next a ha (fun q hq => ?_) fun q hq => hret ⟨q, hq⟩).begun p
    rw [hq] at internal
    cases internal

/-- The owners that come and go are those of the local variables of the library. -/
theorem count_next (a : Action T) (internal : a.internal = true) {o : Owner T}
    (ho : o.movable = true) : (next s a).live.count o = s.live.count o := by
  have hne : ∀ {o' : Owner T}, o'.movable = false → o ≠ o' := by
    rintro o' h rfl
    cases ho.symm.trans h
  cases a with
  | tryInstall p =>
    simp only [next, State.tryInstall]
    split <;> rfl
  | tryReturn p =>
    simp only [next, State.tryReturn, State.reset]
    split
    · rfl
    · split <;> exact Multiset.count_erase_of_ne (hne rfl) _
  | check =>
    simp only [next, State.check]
    split <;> rfl
  | asyncCheck =>
    simp only [next, State.asyncCheck]
    split
    · rfl
    · rfl
    · exact Multiset.count_cons_of_ne (hne rfl) _
  | asyncFinish =>
    simp only [next, State.asyncFinish]
    split <;> exact Multiset.count_erase_of_ne (hne rfl) _
  | write p => rfl
  | writeDone p => rfl
  | loopWriteDone => rfl
  | read => rfl
  | finish threw => rfl
  | resetTasks => rfl
  | close => rfl
  | exit => rfl
  | destroy => rfl
  | asyncWriteDone => rfl
  | _ => cases internal

/-- What was held outside of the library stays held, and what was queued is not lost. -/
theorem kept_next {t : State T} (h : Kept s t) (a : Action T) (internal : a.internal = true)
    (ha : enabled t a) : Kept s (next t a) :=
  ⟨fun p => (begun_next a internal ha p).trans (h.begun p),
    fun o ho => (count_next a internal ho).trans (h.live o ho)⟩

/-! ## Where no step is left -/

/-- Nobody waits and nothing is queued; the loop waits for a byte or is gone. -/
structure Rested (s : State T) : Prop where
  post : ∀ p, s.post p = .idle
  slot : s.postFn = none
  pipe : s.pipe = 0
  queued : s.queued = []
  between : ¬ s.inAsyncFn
  ended :
    s.live ≠ 0 ∧ s.loop = .reading ∧ (s.async = .absent ∨ s.async = .asleep) ∨
      s.live = 0 ∧ s.loop = .destroyed ∧ (s.async = .absent ∨ s.async = .gone)

section Stuck

variable (stuck : ∀ a, ¬ (settling T).enabled s a)
include stuck

/-- Who waits waits for the slot, and who holds the slot is heard. -/
theorem idle_of_stuck (hr : Rendezvous s) (free : s.postFn = none) (p : Thread T) :
    s.post p = .idle := by
  cases hp : s.post p with
  | idle => rfl
  | waitSlot asleep =>
    cases asleep with
    | true => exact absurd free (hr.slotWait p hp)
    | false => exact absurd ⟨rfl, trivial, hp⟩ (stuck (.tryInstall p))
  | notify => exact absurd ⟨rfl, trivial, hp⟩ (stuck (.write p))
  | waitDone asleep =>
    cases asleep with
    | true => cases free.symm.trans (hr.doneWait p hp)
    | false => exact absurd ⟨rfl, trivial, hp⟩ (stuck (.tryReturn p))
  | wake => exact absurd ⟨rfl, trivial, hp⟩ (stuck (.writeDone p))

/-- Without a step left, a loop that goes on waits for a byte. -/
theorem rested_looping (h : Attended s) (hl : Looping s) (safe : Safe s) : Rested s := by
  have hr := h.1.rendezvous
  have hwake : s.loopWake = false := by
    rw [← Bool.not_eq_true]
    exact fun hw => stuck .loopWriteDone ⟨rfl, trivial, hw⟩
  have hloop : s.loop = .reading := by
    cases hp : s.loop with
    | reading => rfl
    | checking => exact absurd ⟨rfl, trivial, hp⟩ (stuck .check)
    | running r => exact absurd ⟨rfl, trivial, hwake, r, hp⟩ (stuck (.finish false))
    | _ =>
      have hin := hl.inside
      rw [hp] at hin
      cases hin
  have hpipe : s.pipe = 0 := by
    by_contra hp
    exact stuck .read ⟨rfl, trivial, hloop, hwake, Nat.pos_of_ne_zero hp⟩
  have hslot : s.postFn = none := by
    cases hp : s.postFn with
    | none => rfl
    | some r =>
      -- the byte of the function in the slot is written, unread or acted on
      rcases hr.byte r hp with hb | hb | hb | hb
      · exact absurd ⟨rfl, trivial, hb⟩ (stuck (.write r.thread))
      · exact absurd hpipe (Nat.ne_of_gt hb)
      · cases hloop.symm.trans hb
      · cases hloop.symm.trans hb
  have hpost := idle_of_stuck stuck hr hslot
  have hasync : s.async = .absent ∨ s.async = .asleep := by
    cases ha : s.async with
    | absent => exact .inl rfl
    | asleep => exact .inr rfl
    | ready => exact absurd ⟨rfl, trivial, ha⟩ (stuck .asyncCheck)
    | running fn => exact absurd ⟨rfl, trivial, ⟨fn, ha⟩, hpost .async⟩ (stuck .asyncFinish)
    | wake => exact absurd ⟨rfl, trivial, ha⟩ (stuck .asyncWriteDone)
    | gone => exact absurd (h.2.gone ha) safe.cleanups
  have hnot : ∀ {pc}, s.async = pc → pc ≠ .absent → pc ≠ .asleep → False := by
    rintro pc rfl hne hne'
    exact hasync.elim hne hne'
  have hqueued : s.queued = [] := by
    by_contra hq
    rcases awake_of_queued h hq with ha | ⟨fn, ha⟩ | ha
    · exact hnot ha nofun nofun
    · exact hnot ha nofun nofun
    · exact hnot ha nofun nofun
  refine ⟨hpost, hslot, hpipe, hqueued, fun ⟨fn, ha⟩ => hnot ha nofun nofun,
    .inl ⟨fun hlive => ?_, hloop, hasync⟩⟩
  -- without references `done()` is true, and the byte that says so is written or unread
  have hdone : s.done = true := by
    obtain ⟨fns, hfns⟩ := Option.ne_none_iff_exists'.mp safe.cleanups
    rw [State.queued, hfns] at hqueued
    cases hqueued
    rw [State.done, h.1.accounts.count, hlive, hfns]
    rfl
  rcases hl.ending hdone with ⟨-, hbytes⟩ | ⟨⟨w, hw, -⟩, -⟩
  · simp only [State.bytes, hpipe, hloop, reduceCtorEq, if_false] at hbytes
    cases hbytes
  · cases w with
    | thread p => cases (hpost p).symm.trans hw
    | loop => cases hwake.symm.trans hw
    | async => exact hnot hw nofun nofun

/-- One that is left has ended. -/
theorem rested_leaving (h : Attended s) (hl : Leaving s) : Rested s := by
  have ha := h.1.accounts
  have hslot := slot_free_of_live h.1.rendezvous ha hl.live
  obtain ⟨hqueued, hbetween⟩ := idle_of_outside h.1 hl.outside
  have hwake : s.loopWake = false := by
    rw [← Bool.not_eq_true]
    exact hl.quiet .loop
  have hloop : s.loop = .destroyed := by
    cases hp : s.loop with
    | destroyed => rfl
    | breaking => exact absurd ⟨rfl, trivial, hp, hwake⟩ (stuck .resetTasks)
    | closing => exact absurd ⟨rfl, trivial, hp⟩ (stuck .close)
    | closed => exact absurd ⟨rfl, trivial, hp⟩ (stuck .exit)
    | returned =>
      -- the async thread has left, so that it can be joined
      rcases leaves_of_reset h (hl.returned (.inl hp)).1 with hs | hs | ⟨hs, -⟩
      · exact absurd ⟨rfl, trivial, hp, .inl hs⟩ (stuck .destroy)
      · exact absurd ⟨rfl, trivial, hp, .inr hs⟩ (stuck .destroy)
      · exact absurd ⟨rfl, trivial, hs⟩ (stuck .asyncCheck)
    | _ =>
      have hout := hl.outside
      rw [hp] at hout
      cases hout
  exact ⟨idle_of_stuck stuck h.1.rendezvous hslot, hslot, hl.pipe, hqueued, hbetween,
    .inr ⟨hl.live, hloop, hl.joined hloop⟩⟩

/-- So one or the other is at rest. -/
theorem rested_of_stuck (h : Attended s) : Rested s := by
  cases h.1.handshake with
  | looping hl safe => exact rested_looping stuck h hl safe
  | leaving hl => exact rested_leaving stuck h hl

end Stuck

/-! ## Whole runs -/

/-- What a run to the end leaves behind: every call of `post` begun has returned, its function has
run once, the cleanups have run in order, and the loop is gone if nothing outside of the library
holds a reference. -/
structure Finished (s : State T) (as : List (Action T)) (t : State T) : Prop where
  rested : Rested t
  returned : ∀ p, t.calls p = s.begun p
  ran : ∀ r : Call T, t.runs r = if r.seq < s.begun r.thread then 1 else 0
  cleaned : (settling T).trace ends s as = s.current ++ s.queued
  held : ∀ o ∈ s.live, o.movable = true → t.loop = .reading
  released : (∀ o ∈ s.live, o.movable = false) → t.loop = .destroyed

/-- The internal steps keep the discipline. -/
theorem settling_next (a : Action T) (h : Attended s) (ha : (settling T).enabled s a) :
    Attended (next s a) :=
  attended_next a h ha.2

/-- A run of them keeps what is held outside. -/
theorem kept_path {t : State T} {as : List (Action T)} (path : (settling T).Path s as t) :
    Kept s t := by
  have keep : ∀ u a, Kept s u → (settling T).enabled u a → Kept s (next u a) :=
    fun u a h ha => kept_next h a ha.1 ha.2.2
  exact path.keeps keep ⟨fun _ => rfl, fun _ _ => rfl⟩

/-- Nothing is queued meanwhile, so what is taken out of the list and run was there. -/
theorem ends_path {t : State T} {as : List (Action T)} (h : Attended s)
    (path : (settling T).Path s as t) :
    (settling T).trace ends s as ++ (t.current ++ t.queued) = s.current ++ s.queued := by
  refine path.trace_taken ends (fun s => s.current ++ s.queued)
    (fun _ a hs ha => settling_next a hs ha) (fun s a hs ha => ?_) h
  have hstep := conserves_next hs.1 hs.2 a ha.2
  have hadds : adds s a = [] := by
    cases a with
    | addAsyncCleanup => cases ha.1
    | _ => rfl
  change ends s a ++ ((next s a).current ++ (next s a).queued) = s.current ++ s.queued
  rw [← List.append_assoc, hstep.place, List.append_assoc, hstep.list, hadds, List.append_nil]

/-- The references left are the ones outside of the library. -/
theorem Rested.movable {t : State T} (h : Rested t) (ha : Accounts t) {o : Owner T}
    (ho : o ∈ t.live) : o.movable = true := by
  have hpos := Multiset.count_pos.mpr ho
  cases o with
  | thread p => rfl
  | loop => rfl
  | post p =>
    rw [ha.postRef, h.post] at hpos
    cases hpos
  | asyncFn =>
    rw [ha.asyncRef, if_neg h.between] at hpos
    cases hpos

/-- At the end of one everything begun is finished. -/
theorem finished_of_stuck {t : State T} {as : List (Action T)} (h : Attended s)
    (path : (settling T).Path s as t) (stuck : ∀ a, ¬ (settling T).enabled t a) :
    Finished s as t := by
  have ht : Attended t := path.keeps (fun _ a hs ha => settling_next a hs ha) h
  have hrest := rested_of_stuck stuck ht
  have hkept := kept_path path
  have hcalls : ∀ p, t.calls p = s.begun p := by
    intro p
    rw [← hkept.begun, State.begun, hrest.post]
    rfl
  refine ⟨hrest, hcalls, fun r => ?_, ?_, fun o ho hmov => ?_, fun hno => ?_⟩
  · have hran : t.ran r ↔ r.seq < s.begun r.thread := by
      unfold State.ran
      rw [hrest.post, hcalls]
      refine or_iff_left ?_
      rintro ⟨-, hin, -⟩
      cases hin
    rw [ht.1.rendezvous.runs, if_congr hran rfl rfl]
  · have hends := ends_path h path
    rw [hrest.queued, current_of_not_inAsyncFn hrest.between] at hends
    exact (List.append_nil _).symm.trans hends
  · rcases hrest.ended with ⟨-, hloop, -⟩ | ⟨hlive, -, -⟩
    · exact hloop
    · have hpos := Multiset.count_pos.mpr ho
      rw [← hkept.live o hmov, hlive] at hpos
      cases hpos
  · rcases hrest.ended with ⟨hlive, -, -⟩ | ⟨-, hloop, -⟩
    · refine absurd (Multiset.eq_zero_of_forall_notMem fun o ho => ?_) hlive
      have hmov := hrest.movable ht.1.accounts ho
      have hpos := Multiset.count_pos.mpr ho
      rw [hkept.live o hmov] at hpos
      cases hmov.symm.trans (hno o (Multiset.count_pos.mp hpos))
    · exact hloop

/-- From every reachable state of a disciplined run: the steps that do not start anything new are
bounded in number, whatever their order; one such run goes to the end; and every one that does
leaves the same behind. Spurious wake-ups are not among these steps. -/
theorem loop_settles (h : (disciplined T).Reachable s) :
    (∃ n, ∀ as t, (settling T).Path s as t → as.length ≤ n) ∧
    (∃ as t, (settling T).Path s as t ∧ ∀ a, ¬ (settling T).enabled t a) ∧
    ∀ as t, (settling T).Path s as t → (∀ a, ¬ (settling T).enabled t a) → Finished s as t := by
  obtain ⟨s₀, as₀, h₀, hp₀⟩ := h
  have hatt : Attended s := hp₀.keeps (fun _ a hs ha => attended_next a hs ha)
    (attended_of_starts h₀)
  obtain ⟨threads, within⟩ := exists_within ⟨s₀, as₀, h₀, hp₀⟩
  have keep : ∀ (u : State T) a, Attended u ∧ u.Within threads → (settling T).enabled u a →
      Attended (next u a) ∧ (next u a).Within threads := fun u a hu ha =>
    ⟨settling_next a hu.1 ha, within_next hu.2 a ha.1 ha.2.2⟩
  have lower : ∀ (u : State T) a, Attended u ∧ u.Within threads → (settling T).enabled u a →
      (next u a).work threads < u.work threads := fun u a hu ha =>
    work_next hu.1.1.rendezvous hu.2 a ha.1 ha.2.2
  obtain ⟨hbound, hend⟩ := Transition.Measure.settles (fun u => u.work threads) keep lower
    ⟨hatt, within⟩
  exact ⟨hbound, hend, fun as t => finished_of_stuck hatt⟩

/-- One thread posts, the loop thread queues a cleanup, and both give up their references. -/
def postAndRelease : List (Action Bool) :=
  [.loopTake, .move .loop (.thread (.client true)), .post (.client true), .addAsyncCleanup,
    .move (.thread (.client true)) .loop, .loopDrop, .loopDrop]

/-- The call returns, the cleanup runs, and the loop ends by itself. -/
theorem loop_settles_two :
    ∃ s, (disciplined Bool).Reachable s ∧ s.queued = [0] ∧ s.begun (.client true) = 1 ∧
      ∃ as t, (settling Bool).Path s as t ∧ t.calls (.client true) = 1 ∧
        (settling Bool).trace ends s as = [0] ∧ t.loop = .destroyed := by
  have hstart : (disciplined Bool).init twoThreads := ⟨twoThreads_starts, by decide⟩
  obtain ⟨s, hs, hp⟩ := System.exists_reachable_of_run (disciplined Bool) hstart postAndRelease
    (fun s => s.queued = [0] && s.current = [] && s.begun (.client true) = 1 &&
      s.live = {.post (.client true)}) (by decide)
  simp only [Bool.and_eq_true, decide_eq_true_eq] at hp
  obtain ⟨⟨⟨hqueued, hcurrent⟩, hbegun⟩, hlive⟩ := hp
  obtain ⟨-, ⟨as, t, path, stuck⟩, hall⟩ := loop_settles hs
  have hend := hall as t path stuck
  refine ⟨s, hs, hqueued, hbegun, as, t, path, (hend.returned _).trans hbegun, ?_,
    hend.released fun o ho => ?_⟩
  · rw [hend.cleaned, hcurrent, hqueued]
    rfl
  · rw [hlive] at ho
    obtain rfl := Multiset.mem_singleton.mp ho
    rfl

end Multiprocess.Loop
