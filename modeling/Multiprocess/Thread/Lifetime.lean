import Multiprocess.Thread.Cancel

/-!
# The life of a worker thread

A thread object, its worker and the references to it (`ProxyServer<Thread>` and
`ProxyServer<ThreadMap>::makeThread` in `src/mp/proxy.cpp`, `post` in `include/mp/proxy-io.h`). The
calls are those of `Thread/Model.lean`; added are who refers to the object, where the worker is
between them, and the destructor.

* Every closure has a reference, `self`. The second `sync` of a call does not drop it: it gives it
  to `evalLater`, and the event loop drops it in a later turn.
* Other references are the connection's, and those of the `mp.Context` of requests that are not
  over. They are dropped on the event loop thread, at any time.
* Whoever drops the last reference runs the destructor: it takes the `Waiter` away, notifies the
  worker and joins it, and the event loop thread does nothing else meanwhile.
* The worker is in `Waiter::wait`, testing what it waits for with `m_mutex` locked or blocked in
  `m_cv.wait`; or in a function; or in the second `sync` of one, until the event loop thread has
  reset `m_post_fn`, and then on its way back to the wait.

The thread is reached through this one object alone; `Thread/Handles.lean` is about several objects
of one thread.
-/

namespace Multiprocess.Thread

open Transition (System)

variable {E V : Type}

/-- Where the worker is. -/
inductive Worker where
  | testing
  | blocked (notified : Bool)
  | running
  | syncing
  | returning
  | exited
  deriving DecidableEq

/-- How far the thread object is; its `waiter` is null unless it is alive. -/
inductive Phase where
  | alive
  -- in the destructor, at `m_thread.join()`
  | joining
  | joined
  deriving DecidableEq

structure Life (E V : Type) where
  thread : State E V
  -- references other than those of closures
  external : Nat
  -- references given to `evalLater`
  tasks : Nat
  object : Phase
  -- the event loop thread is in the function of a second `sync`, or has not reset `m_post_fn` since
  inPost : Bool
  worker : Worker

/-- `notify_all`. -/
def Worker.notified : Worker → Worker
  | .blocked _ => .blocked true
  | w => w

/-- The closure of a call is there, with its reference. -/
def Stage.holds : Stage E V → Bool
  | .finished | .dropped => false
  | _ => true

namespace Life

variable (s : Life E V)

/-- Nothing refers to the object. -/
def Unreferenced : Prop :=
  s.external = 0 ∧ s.tasks = 0 ∧ ∀ i < s.thread.posted, (s.thread.requests i).stage.holds = false

instance : Decidable s.Unreferenced := inferInstanceAs (Decidable (_ ∧ _ ∧ _))

/-- The destructor as far as its `join`, if the reference just dropped was the last one. -/
def collect : Life E V :=
  if s.Unreferenced ∧ s.object = .alive then
    { s with object := .joining, worker := s.worker.notified }
  else s

/-- The event loop thread can take up something new. -/
def free : Prop := s.object ≠ .joining ∧ s.inPost = false

instance : Decidable s.free := inferInstanceAs (Decidable (_ ∧ _))

end Life

/-- The steps of the calls, of the references, and of the worker between the calls. -/
inductive LifeAction (E V : Type) where
  | thread (a : Action E V)
  -- the event loop thread
  | acquire
  | release
  | runTask
  | syncDone
  | join
  -- the worker
  | return_
  | block
  | wake (spurious : Bool)
  | exit
  -- something a nested wait may be waiting for has come
  | notify

/-- Where the event loop thread and the worker have to be for a step of a call. -/
def Life.ready (s : Life E V) : Action E V → Prop
  | .post => s.free ∧ 0 < s.external
  | .proceed _ | .reject _ | .destroy _ => s.free
  | .take | .answer => s.worker = .testing
  | .signal | .resolve => s.free ∧ s.worker = .running
  | .call | .ret _ => s.worker = .running

namespace Life

/-- Where a step can happen. A request arrives, and posts, with a reference to the object. The
outermost wait ends when the `Waiter` is gone; a nested one may go on. -/
def enabled (s : Life E V) : LifeAction E V → Prop
  | .thread a => s.ready a ∧ Thread.enabled s.thread a
  | .acquire | .release => s.object ≠ .joining ∧ 0 < s.external
  | .runTask => s.free ∧ 0 < s.tasks
  | .syncDone => s.object ≠ .joining ∧ s.inPost = true
  | .join => s.object = .joining ∧ s.worker = .exited
  | .return_ => s.worker = .returning
  | .block => s.worker = .testing ∧ s.thread.slot = none ∧
      (s.thread.frames = [] → s.object = .alive)
  | .wake spurious => s.worker = .blocked !spurious
  | .exit => s.worker = .testing ∧ s.thread.slot = none ∧ s.thread.frames = [] ∧ s.object ≠ .alive
  | .notify => s.worker = .blocked false ∧ s.thread.frames ≠ []

/-- What a step of a call does besides. `Waiter::post` notifies if it takes the function. -/
def after (s : Life E V) : Action E V → Life E V
  | .proceed i => { s with
      worker := if s.thread.slot = some i then s.worker.notified else s.worker }.collect
  | .destroy _ => s.collect
  | .take | .answer => { s with worker := .running }
  | .call => { s with worker := .testing }
  | .resolve => { s with tasks := s.tasks + 1, inPost := true, worker := .syncing }
  | .post | .reject _ | .signal | .ret _ => s

/-- What a step does. -/
def next (s : Life E V) : LifeAction E V → Life E V
  | .thread a => { s with thread := Thread.next s.thread a }.after a
  | .acquire => { s with external := s.external + 1 }
  | .release => { s with external := s.external - 1 }.collect
  | .runTask => { s with tasks := s.tasks - 1 }.collect
  | .syncDone => { s with inPost := false, worker := .returning }
  | .join => { s with object := .joined }
  | .return_ | .wake _ => { s with worker := .testing }
  | .block => { s with worker := .blocked false }
  | .exit => { s with worker := .exited }
  | .notify => { s with worker := .blocked true }

/-- `makeThread` has returned: its results refer to the object. -/
def made : Life E V where
  thread := created
  external := 1
  tasks := 0
  object := .alive
  inPost := false
  worker := .testing

end Life

/-- The interleavings of the event loop thread and the worker, over the life of the object. -/
def lifetime (E V : Type) : System (Life E V) (LifeAction E V) where
  init s := s = .made
  enabled := Life.enabled
  next := Life.next

instance (s : Life E V) : ∀ a : Action E V, Decidable (s.ready a)
  | .post | .signal | .resolve => inferInstanceAs (Decidable (_ ∧ _))
  | .proceed _ | .reject _ | .destroy _ => inferInstanceAs (Decidable s.free)
  | .take | .answer | .call | .ret _ => inferInstanceAs (Decidable (_ = _))

instance [DecidableEq E] [DecidableEq V] (s : Life E V) :
    ∀ a : LifeAction E V, Decidable (s.enabled a)
  | .thread a => inferInstanceAs (Decidable (s.ready a ∧ Thread.enabled s.thread a))
  | .acquire | .release | .runTask | .syncDone | .join | .exit | .notify =>
    inferInstanceAs (Decidable (_ ∧ _))
  | .return_ | .wake _ => inferInstanceAs (Decidable (_ = _))
  | .block => inferInstanceAs (Decidable (_ ∧ _ ∧ (_ → _)))

instance [DecidableEq E] [DecidableEq V] (s : Life E V) (a : LifeAction E V) :
    Decidable ((lifetime E V).enabled s a) := inferInstanceAs (Decidable (s.enabled a))

/-! ## What holds in every run -/

/-- What a call says of its promise once its closure is gone. -/
def Request.Done (q : Request E V) : Prop := q.stage.holds = false → q.promise ≠ .pending

/-- What holds whether or not the last reference has just been dropped. -/
structure Core (s : Life E V) : Prop where
  placed : Placed s.thread
  done : ∀ i < s.thread.posted, (s.thread.requests i).Done
  gone : s.object ≠ .alive → s.Unreferenced
  inPost : s.inPost = true → 0 < s.tasks ∧ s.worker = .syncing
  syncing : s.worker = .syncing → s.inPost = true
  running : s.worker = .running ↔ ¬ s.thread.waits
  blocked : s.worker = .blocked false →
    s.thread.slot = none ∧ (s.thread.frames = [] → s.object = .alive)
  exited : s.worker = .exited → s.object ≠ .alive
  joined : s.object = .joined → s.worker = .exited

structure LifeInv (s : Life E V) : Prop extends Core s where
  held : s.object = .alive → ¬ s.Unreferenced

variable {s : Life E V}

theorem Worker.notified_eq {w w' : Worker} (h : w.notified = w') (hw : ∀ b, w' ≠ .blocked b) :
    w = w' := by
  cases w with
  | blocked b => exact absurd h.symm (hw true)
  | _ => exact h

theorem Worker.notified_ne (w : Worker) : w.notified ≠ .blocked false := by
  cases w <;> nofun

/-- The destructor runs exactly when the last reference has been dropped. -/
theorem Core.collect (h : Core s) : LifeInv s.collect := by
  unfold Life.collect
  split
  · next hc =>
    obtain ⟨hfree, halive⟩ := hc
    have hpost : s.inPost ≠ true := fun hp => Nat.ne_of_gt (h.inPost hp).1 hfree.2.1
    exact {
      placed := h.placed
      done := h.done
      gone := fun _ => hfree
      inPost := fun hp => absurd hp hpost
      syncing := fun hw => h.syncing (Worker.notified_eq hw nofun)
      running := by
        rw [← h.running]
        refine ⟨fun hw => Worker.notified_eq hw nofun, fun hw => ?_⟩
        simp only [hw, Worker.notified]
      blocked := fun hw => absurd hw (Worker.notified_ne _)
      exited := fun _ => nofun
      joined := nofun
      held := nofun }
  · next hc => exact { h with held := fun halive hfree => hc ⟨hfree, halive⟩ }

theorem Stage.holds_of_isTaken {stage : Stage E V} (h : stage.isTaken = true) :
    stage.holds = true := by
  cases stage <;> first | rfl | cases h

theorem Placed.holds_of_slot {t : State E V} (h : Placed t) {i : Nat} (hs : t.slot = some i) :
    i < t.posted ∧ (t.requests i).stage.holds = true := by
  obtain ⟨hi, hstage⟩ := (h.slot i).mp hs
  exact ⟨hi, by rw [hstage]; rfl⟩

theorem Placed.holds_of_frame {t : State E V} (h : Placed t) {i : Nat} (hi : i ∈ t.frames) :
    i < t.posted ∧ (t.requests i).stage.holds = true := by
  obtain ⟨hlt, hstage⟩ := (h.frames i).mp hi
  exact ⟨hlt, Stage.holds_of_isTaken hstage⟩

/-- With no reference left, no call is anywhere. -/
theorem Core.empty (h : Core s) (hfree : s.Unreferenced) :
    s.thread.slot = none ∧ s.thread.frames = [] := by
  constructor
  · cases hs : s.thread.slot with
    | none => rfl
    | some i =>
      obtain ⟨hi, hholds⟩ := h.placed.holds_of_slot hs
      rw [hfree.2.2 i hi] at hholds
      cases hholds
  · refine List.eq_nil_iff_forall_not_mem.mpr fun i hi => ?_
    obtain ⟨hlt, hholds⟩ := h.placed.holds_of_frame hi
    rw [hfree.2.2 i hlt] at hholds
    cases hholds

/-- A call takes a step only where the object is alive. -/
theorem Core.alive (h : Core s) {a : Action E V} (ha : s.enabled (.thread a)) :
    s.object = .alive := by
  by_contra hne
  have hfree := h.gone hne
  obtain ⟨hslot, hframes⟩ := h.empty hfree
  have htop : s.thread.top = none := by
    unfold State.top
    rw [hframes]
    rfl
  have hchained : ∀ i, i < s.thread.posted → (s.thread.requests i).stage ≠ .chained := by
    intro i hi hc
    have := hfree.2.2 i hi
    rw [hc] at this
    cases this
  cases a with
  | post => exact Nat.ne_of_gt ha.1.2 hfree.1
  | proceed i => exact hchained i ha.2.1 ha.2.2.1
  | reject i => exact hchained i ha.2.1 ha.2.2.1
  | destroy i =>
    rcases ha.2.2 with hp | hc
    · exact h.done i ha.2.1 (hfree.2.2 i ha.2.1) hp
    · exact hchained i ha.2.1 hc
  | take =>
    have := ha.2.2
    rw [hslot] at this
    cases this
  | signal => cases htop.symm.trans ha.2
  | call => cases htop.symm.trans ha.2
  | answer => cases htop.symm.trans ha.2.1
  | ret result => cases htop.symm.trans ha.2
  | resolve =>
    obtain ⟨result, ht⟩ := ha.2
    cases htop.symm.trans ht

/-! ## The steps of the calls -/

theorem Promised.breakOff_ne (p : Promised E V) : p.breakOff ≠ .pending := by
  cases p <;> nofun

theorem Promised.cancel_ne (p : Promised E V) : p.cancel ≠ .pending := by
  cases p <;> nofun

theorem Promised.settle_ne (p : Promised E V) (result : Except E V) :
    p.settle result ≠ .pending := by
  cases p <;> nofun

section Calls

variable {t : State E V}

theorem done_update (h : ∀ i < t.posted, (t.requests i).Done) {i : Nat}
    (f : Request E V → Request E V) (hf : (f (t.requests i)).Done) :
    ∀ j < t.posted, ((t.update i f).requests j).Done := by
  intro j hj
  rw [update_requests]
  split
  · exact hf
  · exact h j hj

theorem done_updateTop (h : ∀ i < t.posted, (t.requests i).Done) {stage : Stage E V}
    (ht : t.top = some stage) {f : Request E V → Request E V}
    (hf : ∀ q : Request E V, (f q).stage.holds = true) :
    ∀ j < (t.updateTop f).posted, ((t.updateTop f).requests j).Done := by
  obtain ⟨i, rest, hfr, -⟩ := top_eq_some ht
  rw [updateTop_cons hfr]
  exact done_update h f fun hn => by rw [hf] at hn; cases hn

theorem Request.done_destroy (q : Request E V) : q.destroy.Done := by
  intro _
  unfold Request.destroy
  split <;> exact Promised.cancel_ne _

/-- A closure goes when its promise is settled, broken or destroyed, or has been. -/
theorem done_next (h : ∀ i < t.posted, (t.requests i).Done) {a : Action E V}
    (ha : enabled t a) :
    ∀ i < (Thread.next t a).posted, ((Thread.next t a).requests i).Done := by
  cases a with
  | post =>
    intro i hi
    change (t.post.requests i).Done
    rw [post_requests]
    split
    · nofun
    · next hne => exact h i (Nat.lt_of_le_of_ne (Nat.lt_succ_iff.mp hi) hne)
  | proceed i =>
    change ∀ j < (t.proceed i).posted, ((t.proceed i).requests j).Done
    unfold State.proceed
    split
    · exact done_update h ({ · with stage := .slotted }) nofun
    · exact done_update h (fun q => { q.drop with promise := q.promise.breakOff })
        fun _ => Promised.breakOff_ne _
  | reject i =>
    exact done_update h (fun q => { q with promise := q.promise.breakOff })
      fun _ => Promised.breakOff_ne _
  | destroy i => exact done_update h Request.destroy (Request.done_destroy _)
  | take =>
    obtain ⟨i, hi⟩ := Option.isSome_iff_exists.mp ha.2
    change ∀ j < t.take.posted, (t.take.requests j).Done
    rw [take_some hi]
    exact done_update h ({ · with stage := .signaling }) nofun
  | signal => exact done_updateTop h ha fun _ => rfl
  | call => exact done_updateTop h ha fun _ => rfl
  | answer => exact done_updateTop h ha.1 fun _ => rfl
  | ret result => exact done_updateTop h ha fun _ => rfl
  | resolve =>
    obtain ⟨result, ht⟩ := ha
    obtain ⟨i, rest, hf, hs⟩ := top_eq_some ht
    change ∀ j < t.resolve.posted, (t.resolve.requests j).Done
    rw [resolve_cons hf]
    refine done_update h Request.resolve fun _ => ?_
    rw [resolve_resolving hs]
    exact Promised.settle_ne _ _

theorem top_congr {t' : State E V} (hf : t'.frames = t.frames)
    (hs : ∀ i ∈ t.frames, (t'.requests i).stage = (t.requests i).stage) : t'.top = t.top := by
  unfold State.top
  rw [hf]
  cases hfr : t.frames with
  | nil => rfl
  | cons i rest => exact congrArg some (hs i (by rw [hfr]; exact List.mem_cons_self))

/-- A step of the innermost frame, with the frame's next stage. -/
theorem top_updateTop {stage : Stage E V} (ht : t.top = some stage)
    (f : Request E V → Request E V) : ∃ q, q.stage = stage ∧
      (t.updateTop f).top = some (f q).stage ∧ (t.updateTop f).slot = t.slot ∧
      (t.updateTop f).frames = t.frames := by
  obtain ⟨i, rest, hfr, hs⟩ := top_eq_some ht
  refine ⟨t.requests i, hs, ?_, ?_, ?_⟩
  · rw [updateTop_cons hfr]
    unfold State.top
    rw [update_frames, hfr, List.head?_cons, Option.map_some, update_same]
  · rw [updateTop_cons hfr, update_slot]
  · rw [updateTop_cons hfr, update_frames]

theorem waits_of_top {stage : Stage E V} (ht : t.top = some stage) :
    t.waits ↔ stage = .calling := by
  unfold State.waits
  rw [ht, Option.some.injEq]
  exact ⟨fun h => h.resolve_left nofun, .inr⟩

end Calls

theorem referenced_of_holds {i : Nat} (hi : i < s.thread.posted)
    (h : (s.thread.requests i).stage.holds = true) : ¬ s.Unreferenced := by
  intro hfree
  rw [hfree.2.2 i hi] at h
  cases h

theorem referenced_of_frames (h : Placed s.thread) (hf : s.thread.frames ≠ []) :
    ¬ s.Unreferenced := by
  obtain ⟨i, hi⟩ := List.exists_mem_of_ne_nil _ hf
  obtain ⟨hlt, hholds⟩ := h.holds_of_frame hi
  exact referenced_of_holds hlt hholds

/-- Where the object is alive, and not just by chance. -/
theorem LifeInv.of_alive (placed : Placed s.thread)
    (done : ∀ i < s.thread.posted, (s.thread.requests i).Done) (alive : s.object = .alive)
    (held : ¬ s.Unreferenced) (inPost : s.inPost = true → 0 < s.tasks)
    (syncing : s.inPost = true ↔ s.worker = .syncing)
    (running : s.worker = .running ↔ ¬ s.thread.waits)
    (blocked : s.worker = .blocked false → s.thread.slot = none) (exited : s.worker ≠ .exited) :
    LifeInv s where
  placed := placed
  done := done
  gone h := absurd alive h
  inPost h := ⟨inPost h, syncing.mp h⟩
  syncing := syncing.mpr
  running := running
  blocked h := ⟨blocked h, fun _ => alive⟩
  exited h := absurd h exited
  joined h := by cases alive.symm.trans h
  held _ := held

/-- A step of the innermost frame that leaves its closure there. -/
theorem LifeInv.top (h : LifeInv s) {a : Action E V} (ha : s.enabled (.thread a))
    {stage r : Stage E V} (ht : s.thread.top = some stage) {f : Request E V → Request E V}
    (hf : ∀ q : Request E V, (f q).stage = r) {worker : Worker}
    (hnext : Thread.next s.thread a = s.thread.updateTop f)
    (hpost : s.inPost = false) (hworker : worker = .running ↔ r ≠ .calling)
    (hother : worker ≠ .syncing ∧ worker ≠ .blocked false ∧ worker ≠ .exited) :
    LifeInv { s with thread := s.thread.updateTop f, worker := worker } := by
  have hplaced := placed_next s.thread a h.placed ha.2
  have hdone := done_next h.done ha.2
  obtain ⟨q, -, htop, -, hframes⟩ := top_updateTop ht f
  obtain ⟨i, rest, hfr, -⟩ := top_eq_some ht
  rw [show (thread E V).next s.thread a = _ from hnext] at hplaced
  rw [hnext] at hdone
  refine .of_alive hplaced hdone (h.alive ha) ?_ ?_ ?_ ?_ ?_ hother.2.2
  · refine referenced_of_frames hplaced ?_
    change (s.thread.updateTop f).frames ≠ []
    rw [hframes, hfr]
    exact List.cons_ne_nil _ _
  · exact fun hp => by cases hpost.symm.trans hp
  · exact iff_of_false (fun hp => by cases hpost.symm.trans hp) hother.1
  · rw [hworker]
    exact not_congr (by rw [← hf q]; exact (waits_of_top htop).symm)
  · exact fun hb => absurd hb hother.2.1

theorem Core.not_inPost (h : Core s) (hw : s.worker ≠ .syncing) : s.inPost = false := by
  cases hp : s.inPost with
  | false => rfl
  | true => exact absurd (h.inPost hp).2 hw

theorem LifeInv.post (h : LifeInv s) (ha : s.enabled (.thread .post)) :
    LifeInv { s with thread := s.thread.post } := by
  have halive := h.alive ha
  have hexited : s.worker ≠ .exited := fun hw => h.exited hw halive
  have hwaits : s.thread.post.waits ↔ s.thread.waits := by
    have htop : s.thread.post.top = s.thread.top := by
      refine top_congr rfl fun i hi => ?_
      rw [post_requests, if_neg (Nat.ne_of_lt (h.placed.holds_of_frame hi).1)]
    unfold State.waits
    rw [htop]
  refine .of_alive (placed_post h.placed) (done_next h.done ha.2) halive ?_
    (fun hp => (h.inPost hp).1) ⟨fun hp => (h.inPost hp).2, h.syncing⟩ ?_
    (fun hb => (h.blocked hb).1) hexited
  · refine referenced_of_holds (i := s.thread.posted) (Nat.lt_succ_self _) ?_
    change (s.thread.post.requests s.thread.posted).stage.holds = true
    rw [post_requests, if_pos rfl]
    rfl
  · exact h.running.trans (not_congr hwaits.symm)

theorem LifeInv.reject (h : LifeInv s) {i : Nat} (ha : s.enabled (.thread (.reject i))) :
    LifeInv { s with thread := s.thread.reject i } := by
  have halive := h.alive ha
  have hstage : ∀ j, ((s.thread.reject i).requests j).stage = (s.thread.requests j).stage := by
    intro j
    unfold State.reject
    rw [update_requests]
    split
    · next he => rw [he]
    · rfl
  have hwaits : (s.thread.reject i).waits ↔ s.thread.waits := by
    have htop : (s.thread.reject i).top = s.thread.top := top_congr rfl fun j _ => hstage j
    unfold State.waits
    rw [htop]
  refine .of_alive (placed_next s.thread (.reject i) h.placed ha.2) (done_next h.done ha.2)
    halive ?_
    (fun hp => (h.inPost hp).1) ⟨fun hp => (h.inPost hp).2, h.syncing⟩ ?_
    (fun hb => (h.blocked hb).1) (fun hw => h.exited hw halive)
  · refine referenced_of_holds (i := i) ha.2.1 ?_
    change ((s.thread.reject i).requests i).stage.holds = true
    rw [hstage, ha.2.2.1]
    rfl
  · exact h.running.trans (not_congr hwaits.symm)

theorem LifeInv.take (h : LifeInv s) (ha : s.enabled (.thread .take)) :
    LifeInv { s with thread := s.thread.take, worker := .running } := by
  have halive := h.alive ha
  obtain ⟨i, hi⟩ := Option.isSome_iff_exists.mp ha.2.2
  have hplaced : Placed s.thread.take := placed_take h.placed ha.2.1 hi
  have hpost := h.not_inPost (show s.worker ≠ .syncing by rw [show s.worker = _ from ha.1]; nofun)
  have htop : s.thread.take.top = some .signaling := by
    rw [take_some hi]
    unfold State.top
    simp only [List.head?_cons, Option.map_some, update_same]
  refine .of_alive hplaced (done_next h.done ha.2) halive ?_ ?_ ?_ ?_ nofun nofun
  · refine referenced_of_frames hplaced ?_
    change s.thread.take.frames ≠ []
    rw [take_some hi]
    exact List.cons_ne_nil _ _
  · exact fun hp => by cases hpost.symm.trans hp
  · exact iff_of_false (fun hp => by cases hpost.symm.trans hp) nofun
  · refine iff_of_true rfl fun hw => ?_
    cases (waits_of_top htop).mp hw

theorem LifeInv.resolve (h : LifeInv s) (ha : s.enabled (.thread .resolve)) :
    LifeInv { s with
      thread := s.thread.resolve, tasks := s.tasks + 1, inPost := true, worker := .syncing } := by
  have halive := h.alive ha
  obtain ⟨result, ht⟩ := ha.2
  have hplaced : Placed s.thread.resolve := placed_resolve h.placed ht
  obtain ⟨i, rest, hfr, -⟩ := top_eq_some ht
  have hwaits : s.thread.resolve.waits := by
    have hnodup := (List.nodup_cons.mp (hfr ▸ h.placed.nodup)).1
    unfold State.waits State.top
    rw [resolve_cons hfr]
    cases rest with
    | nil => exact .inl rfl
    | cons j rest =>
      have hne : j ≠ i := fun he => hnodup (he ▸ List.mem_cons_self)
      have houter := h.placed.outer j (by rw [hfr]; exact List.mem_cons_self)
      refine .inr ?_
      simp only [List.head?_cons, Option.map_some, update_other hne, houter]
  refine .of_alive hplaced (done_next h.done ha.2) halive ?_ (fun _ => Nat.succ_pos _)
    (iff_of_true rfl rfl) (iff_of_false nofun fun hn => hn hwaits) nofun nofun
  exact fun hfree => Nat.succ_ne_zero _ hfree.2.1

theorem Core.destroy (h : Core s) {i : Nat} (ha : s.enabled (.thread (.destroy i))) :
    Core { s with thread := s.thread.update i Request.destroy } := by
  have halive := h.alive ha
  have hwaits : (s.thread.update i Request.destroy).waits ↔ s.thread.waits := by
    have htop : (s.thread.update i Request.destroy).top = s.thread.top := by
      refine top_congr rfl fun j hj => ?_
      rw [update_requests]
      split
      · next he =>
        have hc : (s.thread.requests i).stage ≠ .chained := by
          have htaken := ((h.placed.frames i).mp (he ▸ hj)).2
          intro hc
          rw [hc] at htaken
          cases htaken
        rw [he, destroy_posted hc]
      · rfl
    unfold State.waits
    rw [htop]
  exact { h with
    placed := placed_destroy h.placed i
    done := done_next h.done ha.2
    gone := fun hne => absurd halive hne
    running := h.running.trans (not_congr hwaits.symm) }

theorem Core.proceed (h : Core s) {i : Nat} (ha : s.enabled (.thread (.proceed i))) :
    Core { s with
      thread := s.thread.proceed i
      worker := if (s.thread.proceed i).slot = some i then s.worker.notified else s.worker } := by
  have halive := h.alive ha
  have hpost : s.inPost = false := ha.1.2
  have hworker : ∀ w : Worker, (∀ b, w ≠ .blocked b) →
      ((if (s.thread.proceed i).slot = some i then s.worker.notified else s.worker) = w ↔
        s.worker = w) := by
    intro w hw
    split
    · refine ⟨fun he => Worker.notified_eq he hw, fun he => ?_⟩
      subst he
      cases hs : s.worker with
      | blocked b => exact absurd hs (hw b)
      | _ => rfl
    · exact Iff.rfl
  have hwaits : (s.thread.proceed i).waits ↔ s.thread.waits := by
    have htop : (s.thread.proceed i).top = s.thread.top := by
      have hne : ∀ j ∈ s.thread.frames, j ≠ i := by
        rintro j hj rfl
        have htaken := ((h.placed.frames j).mp hj).2
        rw [ha.2.2.1] at htaken
        cases htaken
      unfold State.proceed
      split
      · refine top_congr rfl fun j hj => ?_
        simp only [update_other (hne j hj)]
      · refine top_congr rfl fun j hj => ?_
        simp only [update_other (hne j hj)]
    unfold State.waits
    rw [htop]
  exact {
    placed := placed_proceed h.placed ha.2.1 ha.2.2.1
    done := done_next h.done ha.2
    gone := fun hne => absurd halive hne
    inPost := fun hp => by cases hpost.symm.trans hp
    syncing := fun hw => h.syncing ((hworker .syncing nofun).mp hw)
    running := (hworker .running nofun).trans (h.running.trans (not_congr hwaits.symm))
    blocked := by
      intro hw
      dsimp only at hw
      split at hw
      · exact absurd hw (Worker.notified_ne _)
      · next hslot =>
        rw [proceed_none (h.blocked hw).1] at hslot
        exact absurd rfl hslot
    exited := fun hw => h.exited ((hworker .exited nofun).mp hw)
    joined := fun hj => by cases halive.symm.trans hj }

theorem LifeInv.thread (h : LifeInv s) {a : Action E V} (ha : s.enabled (.thread a)) :
    LifeInv (s.next (.thread a)) := by
  cases a with
  | post => exact h.post ha
  | proceed i => exact (h.toCore.proceed ha).collect
  | reject i => exact h.reject ha
  | destroy i => exact (h.toCore.destroy ha).collect
  | take => exact h.take ha
  | signal =>
    have hw : s.worker = .running := ha.1.2
    refine h.top ha ha.2 (r := .running) (fun _ => rfl) rfl ha.1.1.2
      (iff_of_true hw nofun) ?_
    rw [hw]
    exact ⟨nofun, nofun, nofun⟩
  | call =>
    have hw : s.worker = .running := ha.1
    exact h.top ha ha.2 (r := .calling) (fun _ => rfl) rfl
      (h.not_inPost (by rw [hw]; nofun)) (iff_of_false nofun fun hn => hn rfl)
      ⟨nofun, nofun, nofun⟩
  | answer =>
    have hw : s.worker = .testing := ha.1
    exact h.top ha ha.2.1 (r := .running) (fun _ => rfl) rfl
      (h.not_inPost (by rw [hw]; nofun)) (iff_of_true rfl nofun) ⟨nofun, nofun, nofun⟩
  | ret result =>
    have hw : s.worker = .running := ha.1
    refine h.top ha ha.2 (r := .resolving result) (fun _ => rfl) rfl
      (h.not_inPost (by rw [hw]; nofun)) (iff_of_true hw nofun) ?_
    rw [hw]
    exact ⟨nofun, nofun, nofun⟩
  | resolve => exact h.resolve ha

/-! ## The other steps -/

/-- A step of the worker between the calls. -/
theorem LifeInv.worker (h : LifeInv s) {w : Worker}
    (old : s.worker ≠ .running ∧ s.worker ≠ .syncing ∧ s.worker ≠ .exited)
    (new : w ≠ .running ∧ w ≠ .syncing)
    (blocked : w = .blocked false →
      s.thread.slot = none ∧ (s.thread.frames = [] → s.object = .alive))
    (exited : w = .exited → s.object ≠ .alive) : LifeInv { s with worker := w } :=
  { h with
    inPost := fun hp => absurd (h.inPost hp).2 old.2.1
    syncing := fun hw => absurd hw new.2
    running := iff_of_false new.1 fun hn => old.1 (h.running.mpr hn)
    blocked := blocked
    exited := exited
    joined := fun hj => absurd (h.joined hj) old.2.2 }

/-- Whoever has a reference has a live object. -/
theorem Core.alive_of_referenced (h : Core s) (hr : ¬ s.Unreferenced) : s.object = .alive := by
  by_contra hne
  exact hr (h.gone hne)

theorem LifeInv.next (h : LifeInv s) (a : LifeAction E V) (ha : s.enabled a) :
    LifeInv (s.next a) := by
  cases a with
  | thread a => exact h.thread ha
  | acquire =>
    have halive := h.alive_of_referenced fun hfree => Nat.ne_of_gt ha.2 hfree.1
    exact { h with
      gone := fun hne => absurd halive hne
      held := fun _ hfree => Nat.succ_ne_zero _ hfree.1 }
  | release =>
    have halive := h.alive_of_referenced fun hfree => Nat.ne_of_gt ha.2 hfree.1
    have hcore : Core { s with external := s.external - 1 } :=
      { h.toCore with gone := fun hne => absurd halive hne }
    exact hcore.collect
  | runTask =>
    have halive := h.alive_of_referenced fun hfree => Nat.ne_of_gt ha.2 hfree.2.1
    have hcore : Core { s with tasks := s.tasks - 1 } :=
      { h.toCore with
        gone := fun hne => absurd halive hne
        inPost := fun hp => by cases ha.1.2.symm.trans hp }
    exact hcore.collect
  | syncDone =>
    have hw := (h.inPost ha.2).2
    have hwaits : s.thread.waits := by
      by_contra hn
      cases hw.symm.trans (h.running.mpr hn)
    exact { h with
      inPost := nofun
      syncing := nofun
      running := iff_of_false nofun fun hn => hn hwaits
      blocked := nofun
      exited := nofun
      joined := fun hj => by cases hw.symm.trans (h.joined hj) }
  | join =>
    exact { h with
      gone := fun _ => h.gone fun he => by cases ha.1.symm.trans he
      blocked := fun hb => by cases ha.2.symm.trans hb
      exited := fun _ => nofun
      joined := fun _ => ha.2
      held := nofun }
  | return_ =>
    have hw : s.worker = .returning := ha
    refine h.worker ?_ ⟨nofun, nofun⟩ nofun nofun
    rw [hw]
    exact ⟨nofun, nofun, nofun⟩
  | block =>
    refine h.worker ?_ ⟨nofun, nofun⟩ (fun _ => ha.2) nofun
    rw [ha.1]
    exact ⟨nofun, nofun, nofun⟩
  | wake spurious =>
    have hw : s.worker = .blocked !spurious := ha
    refine h.worker ?_ ⟨nofun, nofun⟩ nofun nofun
    rw [hw]
    exact ⟨nofun, nofun, nofun⟩
  | exit =>
    refine h.worker ?_ ⟨nofun, nofun⟩ nofun fun _ => ha.2.2.2
    rw [ha.1]
    exact ⟨nofun, nofun, nofun⟩
  | notify =>
    refine h.worker ?_ ⟨nofun, nofun⟩ nofun nofun
    rw [ha.1]
    exact ⟨nofun, nofun, nofun⟩

theorem lifeInv_made : LifeInv (.made : Life E V) := by
  refine .of_alive placed_created ?_ rfl ?_ nofun ⟨nofun, nofun⟩ ⟨nofun, fun hn => ?_⟩ nofun nofun
  · exact fun i hi => absurd hi (Nat.not_lt_zero i)
  · exact fun hfree => Nat.one_ne_zero hfree.1
  · exact absurd (.inl rfl) hn

theorem lifeInv_of_reachable (h : (lifetime E V).Reachable s) : LifeInv s := by
  refine h.invariant ?_ fun s a hs ha => hs.next a ha
  rintro s rfl
  exact lifeInv_made

/-! ## The calls are those of the thread -/

/-- The step of a call. -/
def LifeAction.call? : LifeAction E V → Option (Action E V)
  | .thread a => some a
  | _ => none

@[simp] theorem Life.collect_thread (s : Life E V) : s.collect.thread = s.thread := by
  unfold Life.collect
  split <;> rfl

theorem next_thread (s : Life E V) (a : LifeAction E V) : (s.next a).thread =
    match a with
    | .thread a => Thread.next s.thread a
    | _ => s.thread := by
  cases a with
  | thread a =>
    cases a with
    | proceed i | destroy i => exact Life.collect_thread _
    | _ => rfl
  | release | runTask => exact Life.collect_thread _
  | _ => rfl

/-- Over the life of an object the calls on it take the steps they take without it, so that what
holds of every run of `thread` holds here. -/
theorem path_thread {t : Life E V} {as : List (LifeAction E V)}
    (h : (lifetime E V).Path s as t) :
    (thread E V).Path s.thread (as.filterMap LifeAction.call?) t.thread := by
  induction h with
  | nil => exact .nil _
  | @cons s t a as ha _ ih =>
    rw [show ((lifetime E V).next s a).thread = _ from next_thread s a] at ih
    cases a with
    | thread a => exact .cons ha.2 ih
    | _ => exact ih

/-! ## The destructor -/

/-- The steps that are left once the destructor runs. -/
def Life.toJoin (s : Life E V) : Nat :=
  match s.object, s.worker with
  | .joined, _ => 0
  | _, .exited => 1
  | _, .testing => 2
  | _, _ => 3

theorem LifeInv.toJoin_lt (h : LifeInv s) (hne : s.object ≠ .alive) {a : LifeAction E V}
    (ha : s.enabled a) : (s.next a).object ≠ .alive ∧ (s.next a).toJoin < s.toJoin := by
  have hfree := h.gone hne
  obtain ⟨-, hframes⟩ := h.empty hfree
  have hjoining : s.worker ≠ .exited → s.object = .joining := by
    intro hw
    cases ho : s.object with
    | alive => exact absurd ho hne
    | joining => rfl
    | joined => exact absurd (h.joined ho) hw
  cases a with
  | thread a => exact absurd (h.alive ha) hne
  | acquire => exact absurd hfree.1 (Nat.ne_of_gt ha.2)
  | release => exact absurd hfree.1 (Nat.ne_of_gt ha.2)
  | runTask => exact absurd hfree.2.1 (Nat.ne_of_gt ha.2)
  | syncDone => exact absurd hfree.2.1 (Nat.ne_of_gt (h.inPost ha.2).1)
  | join =>
    refine ⟨nofun, ?_⟩
    simp only [Life.toJoin, Life.next, ha.1, ha.2]
    decide
  | return_ =>
    have hw : s.worker = .returning := ha
    have ho := hjoining (by rw [hw]; nofun)
    refine ⟨hne, ?_⟩
    simp only [Life.toJoin, Life.next, ho, hw]
    decide
  | block => exact absurd (ha.2.2 hframes) hne
  | wake spurious =>
    have hw : s.worker = .blocked !spurious := ha
    have ho := hjoining (by rw [hw]; nofun)
    refine ⟨hne, ?_⟩
    simp only [Life.toJoin, Life.next, ho, hw]
    decide
  | exit =>
    have ho := hjoining (by rw [ha.1]; nofun)
    refine ⟨hne, ?_⟩
    simp only [Life.toJoin, Life.next, ho, ha.1]
    decide
  | notify => exact absurd hframes ha.2

/-- The steps that go on by themselves. -/
def LifeAction.Wanted (a : LifeAction E V) : Prop := a ≠ .wake true

theorem LifeInv.joined_of_quiescent (h : LifeInv s) (hne : s.object ≠ .alive)
    (hq : (lifetime E V).Quiescent LifeAction.Wanted s) : s.object = .joined := by
  have hfree := h.gone hne
  obtain ⟨hslot, hframes⟩ := h.empty hfree
  have hwaits : s.thread.waits := by
    unfold State.waits State.top
    rw [hframes]
    exact .inl rfl
  cases ho : s.object with
  | alive => exact absurd ho hne
  | joined => rfl
  | joining =>
    exfalso
    cases hw : s.worker with
    | testing => exact hq .exit nofun ⟨hw, hslot, hframes, hne⟩
    | blocked notified =>
      cases notified with
      | false => exact hne ((h.blocked hw).2 hframes)
      | true => exact hq (.wake false) nofun hw
    | running => exact h.running.mp hw hwaits
    | syncing => exact Nat.ne_of_gt (h.inPost (h.syncing hw)).1 hfree.2.1
    | returning => exact hq .return_ nofun hw
    | exited => exact hq .join nofun ⟨ho, hw⟩

/-- What the destructor finds, and that its `join` returns. -/
structure Destroyed (s : Life E V) : Prop where
  -- `assert(!waiter->m_fn)`, and the worker is not in a function
  idle : s.thread.slot = none ∧ s.thread.frames = []
  -- every call is over
  calls : ∀ i < s.thread.posted,
    (s.thread.requests i).stage = .finished ∨ (s.thread.requests i).stage = .dropped
  -- it was not called from the function of a `sync` whose end the worker waits for
  outside : s.inPost = false
  bounded : ∀ as t, (lifetime E V).Path s as t → as.length ≤ 3
  joins : ∀ as t, (lifetime E V).Path s as t →
    (lifetime E V).Quiescent LifeAction.Wanted t → t.object = .joined

/-- The destructor of a thread object never runs before the calls on it are over, nor where the
worker needs the event loop thread to come back from one. So its assertion holds, and the worker
exits and is joined within three steps. -/
theorem destroyed_idle (h : (lifetime E V).Reachable s) (hd : s.object ≠ .alive) :
    Destroyed s := by
  have hinv := lifeInv_of_reachable h
  have hfree := hinv.gone hd
  have hkeep : ∀ s a, LifeInv s ∧ s.object ≠ .alive → (lifetime E V).enabled s a →
      LifeInv ((lifetime E V).next s a) ∧ ((lifetime E V).next s a).object ≠ .alive :=
    fun s a hs ha => ⟨hs.1.next a ha, (hs.1.toJoin_lt hs.2 ha).1⟩
  refine ⟨hinv.empty hfree, fun i hi => ?_, hinv.not_inPost fun hw => ?_, fun as t hp => ?_,
    fun as t hp hq => ?_⟩
  · have hholds := hfree.2.2 i hi
    cases hs : (s.thread.requests i).stage with
    | finished => exact .inl rfl
    | dropped => exact .inr rfl
    | _ => rw [hs] at hholds; cases hholds
  · exact Nat.ne_of_gt (hinv.inPost (hinv.syncing hw)).1 hfree.2.1
  · have hlen := hp.length_le Life.toJoin hkeep
      (fun s a hs (_ : True) ha => (hs.1.toJoin_lt hs.2 ha).2) ⟨hinv, hd⟩ fun _ _ => trivial
    have hle : s.toJoin ≤ 3 := by
      unfold Life.toJoin
      split <;> decide
    omega
  · have ht := hp.keeps hkeep ⟨hinv, hd⟩
    exact ht.1.joined_of_quiescent ht.2 hq

/-- A call is made, and while its function runs the client lets go of the thread. -/
def letGo : List (LifeAction Unit Unit) :=
  [.thread .post, .thread (.proceed 0), .thread .take, .thread .signal, .release,
    .thread (.ret (.ok ())), .thread .resolve]

/-- The object outlives the function and the `sync` that settles its result; the destructor runs in
a turn of its own. -/
theorem destroyed_idle_letGo : ∃ s : Life Unit Unit, (lifetime Unit Unit).Reachable s ∧
    s.thread.posted = 1 ∧ s.object = .joining ∧ Destroyed s := by
  obtain ⟨s, hs, hp⟩ := (lifetime Unit Unit).exists_reachable_of_run rfl
    (letGo ++ [.syncDone, .runTask])
    (fun s => s.thread.posted = 1 && s.object = .joining) (by decide)
  simp only [Bool.and_eq_true, decide_eq_true_eq] at hp
  exact ⟨s, hs, hp.1, hp.2, destroyed_idle hs (by rw [hp.2]; nofun)⟩

/-! ## No thread is left -/

/-- Where no step is left to a live object and the event loop is free, the worker waits for a call
in its outermost `Waiter::wait`. -/
theorem LifeInv.waits_of_quiescent (h : LifeInv s) (halive : s.object = .alive)
    (hpost : s.inPost = false) (hq : (lifetime E V).Quiescent LifeAction.Wanted s) :
    s.thread.slot = none ∧ s.thread.frames = [] := by
  have hfree : s.free := ⟨by rw [halive]; nofun, hpost⟩
  cases hw : s.worker with
  | testing =>
    have hwaits : s.thread.waits := by
      by_contra hn
      cases hw.symm.trans (h.running.mpr hn)
    have hslot : s.thread.slot = none := by
      cases hs : s.thread.slot with
      | none => rfl
      | some i => exact absurd ⟨hw, hwaits, by rw [hs]; rfl⟩ (hq (.thread .take) nofun)
    exact absurd ⟨hw, hslot, fun _ => halive⟩ (hq .block nofun)
  | blocked notified =>
    cases notified with
    | true => exact absurd hw (hq (.wake false) nofun)
    | false =>
      refine ⟨(h.blocked hw).1, ?_⟩
      by_contra hframes
      exact hq .notify nofun ⟨hw, hframes⟩
  | running =>
    have hwaits := h.running.mp hw
    cases ht : s.thread.top with
    | none => exact absurd (.inl ht) hwaits
    | some stage =>
      obtain ⟨i, rest, hf, hs⟩ := top_eq_some ht
      have htaken := ((h.placed.frames i).mp (by rw [hf]; exact List.mem_cons_self)).2
      rw [hs] at htaken
      cases stage with
      | signaling => exact absurd ⟨⟨hfree, hw⟩, ht⟩ (hq (.thread .signal) nofun)
      | running => exact absurd ⟨hw, ht⟩ (hq (.thread .call) nofun)
      | calling => exact absurd (.inr ht) hwaits
      | resolving result =>
        exact absurd ⟨⟨hfree, hw⟩, result, ht⟩ (hq (.thread .resolve) nofun)
      | chained | slotted | finished | dropped => cases htaken
  | syncing => cases hpost.symm.trans (h.syncing hw)
  | returning => exact absurd hw (hq .return_ nofun)
  | exited => exact absurd halive (h.exited hw)

/-- Once the client has let go of the thread object and nothing is left to do, whatever was called,
canceled or nested before, the object is destroyed and its worker has exited and been joined. -/
theorem released_joined (h : (lifetime E V).Reachable s) (hreleased : s.external = 0)
    (hq : (lifetime E V).Quiescent LifeAction.Wanted s) :
    s.object = .joined ∧ s.worker = .exited := by
  have hinv := lifeInv_of_reachable h
  have hdead : s.object ≠ .alive := by
    intro halive
    have hjoin : s.object ≠ .joining := by rw [halive]; nofun
    have hpost : s.inPost = false := by
      cases hp : s.inPost with
      | false => rfl
      | true => exact absurd ⟨hjoin, hp⟩ (hq .syncDone nofun)
    have htasks : s.tasks = 0 := by
      by_contra hn
      exact hq .runTask nofun ⟨⟨hjoin, hpost⟩, Nat.pos_of_ne_zero hn⟩
    obtain ⟨hslot, hframes⟩ := hinv.waits_of_quiescent halive hpost hq
    refine hinv.held halive ⟨hreleased, htasks, fun i hi => ?_⟩
    cases hs : (s.thread.requests i).stage with
    | finished | dropped => rfl
    | chained =>
      exact absurd ⟨⟨hjoin, hpost⟩, hi, .inr hs⟩ (hq (.thread (.destroy i)) nofun)
    | slotted => cases hslot.symm.trans ((hinv.placed.slot i).mpr ⟨hi, hs⟩)
    | signaling | running | calling | resolving _ =>
      have hmem := (hinv.placed.frames i).mpr ⟨hi, by rw [hs]; rfl⟩
      rw [hframes] at hmem
      cases hmem
  have hjoined := hinv.joined_of_quiescent hdead hq
  exact ⟨hjoined, hinv.joined hjoined⟩

/-- A call is made, the client lets go of the thread while its function runs, and in the end the
worker is gone. -/
theorem released_joined_letGo : ∃ s : Life Unit Unit, (lifetime Unit Unit).Reachable s ∧
    s.thread.posted = 1 ∧ s.object = .joined ∧ s.worker = .exited := by
  obtain ⟨s, hs, hp⟩ := (lifetime Unit Unit).exists_reachable_of_run rfl
    (letGo ++ [.syncDone, .runTask, .return_, .exit, .join])
    (fun s => s.thread.posted = 1 && s.external = 0 && s.tasks = 0 && s.inPost = false &&
      s.object = .joined && s.worker = .exited && (s.thread.requests 0).stage = .finished &&
      (s.thread.requests 0).promise ≠ .pending)
    (by decide)
  simp only [Bool.and_eq_true, decide_eq_true_eq] at hp
  obtain ⟨⟨⟨⟨⟨⟨⟨hposted, hexternal⟩, htasks⟩, hpost⟩, hobject⟩, hworker⟩, hstage⟩, hpromise⟩ := hp
  refine ⟨s, hs, hposted, released_joined hs hexternal ?_⟩
  -- the worker has exited, nobody holds the object, and the one request is over
  intro a _ ha
  cases a with
  | thread a =>
    have hzero : ∀ i < s.thread.posted, i = 0 := by omega
    cases a with
    | post => exact absurd ha.1.2 (by rw [hexternal]; exact Nat.lt_irrefl 0)
    | proceed i =>
      obtain rfl := hzero i ha.2.1
      cases hstage.symm.trans ha.2.2.1
    | reject i =>
      obtain rfl := hzero i ha.2.1
      cases hstage.symm.trans ha.2.2.1
    | destroy i =>
      obtain rfl := hzero i ha.2.1
      rcases ha.2.2 with hpending | hchained
      · exact hpromise hpending
      · cases hstage.symm.trans hchained
    | take => cases hworker.symm.trans (show s.worker = .testing from ha.1)
    | answer => cases hworker.symm.trans (show s.worker = .testing from ha.1)
    | signal => cases hworker.symm.trans ha.1.2
    | resolve => cases hworker.symm.trans ha.1.2
    | call => cases hworker.symm.trans (show s.worker = .running from ha.1)
    | ret result => cases hworker.symm.trans (show s.worker = .running from ha.1)
  | acquire => exact absurd ha.2 (by rw [hexternal]; exact Nat.lt_irrefl 0)
  | release => exact absurd ha.2 (by rw [hexternal]; exact Nat.lt_irrefl 0)
  | runTask => exact absurd ha.2 (by rw [htasks]; exact Nat.lt_irrefl 0)
  | syncDone => cases hpost.symm.trans ha.2
  | join => cases hobject.symm.trans ha.1
  | return_ => cases hworker.symm.trans (show s.worker = .returning from ha)
  | block => cases hworker.symm.trans ha.1
  | wake spurious => cases hworker.symm.trans (show s.worker = .blocked _ from ha)
  | exit => cases hworker.symm.trans ha.1
  | notify => cases hworker.symm.trans ha.1

end Multiprocess.Thread
