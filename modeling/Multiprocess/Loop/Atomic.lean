import Multiprocess.Lib.Refinement
import Multiprocess.Loop.References

/-!
# `EventLoop::post` is atomic

The event loop thread owns data that nothing else touches: the Cap'n Proto state, the connections.
Its own events change the data, and other threads change and read it with functions they give to
`EventLoop::post` (`sync`), each of which leaves a result in a variable of its caller's frame
(`include/mp/proxy-io.h`, `src/mp/proxy.cpp`).

`shared` is the system of `Loop/Model.lean` with that data; what a thread posts may depend on what
its earlier calls have given it. `atomic` is what it is for: a call does its work in one step
between its start and its return. `post_linearizable` says that every interleaving of the first
shows its callers what some run of the second does: the functions take effect one at a time, each
once, within its call, and each caller gets the result of its own.
-/

namespace Multiprocess.Loop

open Transition (System)

variable {T D R E : Type}

/-- What the threads do to the data: the function a thread posts, from the results of the calls it
has made, and the loop's own events. -/
structure Work (T D R E : Type) where
  fn : Thread T → List (Option R) → D → D × R
  on : E → D → D

/-- What a caller of `post` sees: its calls, and their returns with what is then in the variable for
the result. -/
inductive Event (T R : Type) where
  | call (p : Thread T)
  | ret (p : Thread T) (r : Option R)

/-! ## The specification -/

/-- A thread in an atomic call. -/
inductive AtomicPc (R : Type) where
  | idle
  | called
  | ran (r : R)

structure Atomic (T D R : Type) where
  data : D
  pc : Thread T → AtomicPc R
  got : Thread T → List (Option R)

inductive AtomicAction (T E : Type) where
  | call (p : Thread T)
  | run (p : Thread T)
  | ret (p : Thread T)
  | event (e : E)

variable [DecidableEq T]

namespace Atomic

variable (w : Work T D R E) (s : Atomic T D R)

def enabled : AtomicAction T E → Prop
  | .call p => s.pc p = .idle
  | .run p => s.pc p = .called
  | .ret p => ∃ r, s.pc p = .ran r
  | .event _ => True

def next : AtomicAction T E → Atomic T D R
  | .call p => { s with pc := Function.update s.pc p .called }
  | .run p =>
    let r := w.fn p (s.got p) s.data
    { s with data := r.1, pc := Function.update s.pc p (.ran r.2) }
  | .ret p =>
    match s.pc p with
    | .ran r => { s with
        pc := Function.update s.pc p .idle
        got := Function.update s.got p (s.got p ++ [some r]) }
    | _ => s
  | .event e => { s with data := w.on e s.data }

def out : AtomicAction T E → List (Event T R)
  | .call p => [.call p]
  | .ret p =>
    match s.pc p with
    | .ran r => [.ret p (some r)]
    | _ => []
  | _ => []

end Atomic

/-- Calls that do their work in one step. -/
def atomic (w : Work T D R E) : System (Atomic T D R) (AtomicAction T E) where
  init s := ∀ p, s.pc p = .idle ∧ s.got p = []
  enabled := Atomic.enabled
  next := Atomic.next w

/-! ## The event loop with its data -/

/-- The event loop, the data of its thread, and for each call the variable for its result; and what
each thread has got from the calls it has returned from. -/
structure Shared (T D R : Type) where
  loop : State T
  data : D
  result : Call T → Option R
  got : Thread T → List (Option R)

inductive SharedAction (T E : Type) where
  | loop (a : Action T)
  | event (e : E)

namespace Shared

variable (w : Work T D R E) (s : Shared T D R)

/-- The call of the thread returns at this look at the slot. -/
def returns (p : Thread T) : Prop := s.loop.postFn ≠ some (s.loop.call p)

instance (p : Thread T) : Decidable (s.returns p) := inferInstanceAs (Decidable (_ ≠ _))

/-- The events of the loop are handled in its `read`, and in destructors `m_task_set.reset()`
runs. -/
def enabled : SharedAction T E → Prop
  | .loop a => Loop.enabled s.loop a
  | .event _ => s.loop.loop = .reading ∨ s.loop.loop = .breaking

def next : SharedAction T E → Shared T D R
  | .loop (.finish threw) =>
    match s.loop.loop with
    | .running c =>
      let r := w.fn c.thread (s.got c.thread) s.data
      { s with
        loop := Loop.next s.loop (.finish threw)
        data := r.1
        result := Function.update s.result c (some r.2) }
    | _ => { s with loop := Loop.next s.loop (.finish threw) }
  | .loop (.tryReturn p) => { s with
      loop := Loop.next s.loop (.tryReturn p)
      got := if s.returns p then
        Function.update s.got p (s.got p ++ [s.result (s.loop.call p)]) else s.got }
  | .loop a => { s with loop := Loop.next s.loop a }
  | .event e => { s with data := w.on e s.data }

def out : SharedAction T E → List (Event T R)
  | .loop (.post p) => [.call p]
  | .loop (.tryReturn p) => if s.returns p then [.ret p (s.result (s.loop.call p))] else []
  | _ => []

end Shared

/-- The event loop with any threads posting functions on its data. -/
def shared (w : Work T D R E) : System (Shared T D R) (SharedAction T E) where
  init s := Starts s.loop ∧ (∀ c, s.result c = none) ∧ ∀ p, s.got p = []
  enabled := Shared.enabled
  next := Shared.next w

instance (w : Work T D R E) (s : Shared T D R) :
    ∀ a : SharedAction T E, Decidable ((shared w).enabled s a)
  | .loop a => inferInstanceAs (Decidable (Loop.enabled s.loop a))
  | .event _ => inferInstanceAs (Decidable (_ ∨ _))

/-! ## What the steps of the loop do to a call -/

/-- Which threads are in `post`, and how many calls each has returned from. -/
structure State.SamePosts (s t : State T) : Prop where
  inPost : ∀ q, (t.post q).inPost = (s.post q).inPost
  calls : t.calls = s.calls

omit [DecidableEq T] in
/-- Waking everybody takes nobody out of `post`. -/
theorem samePosts_notifyAll (s : State T) : s.SamePosts s.notifyAll :=
  ⟨fun _ => PostPc.inPost_notified _, rfl⟩

theorem samePosts_setPost (s : State T) {p : Thread T} {c : PostPc}
    (h : c.inPost = (s.post p).inPost) : s.SamePosts (s.setPost p c) := by
  refine ⟨fun q => ?_, rfl⟩
  rw [setPost_post]
  split
  · next he => rw [he, h]
  · rfl

/-- A thread that resets a reference is not in `post` afterwards. -/
theorem reset_inPost (s : State T) (o : Owner T) (p q : Thread T) :
    ((s.reset o p).post q).inPost = if q = p then false else (s.post q).inPost := by
  have hset : ∀ pc : PostPc, pc.inPost = false → (((s.unref o).setPost p pc).post q).inPost =
      if q = p then false else (s.post q).inPost := by
    intro pc hpc
    rw [setPost_post]
    split
    · exact hpc
    · rfl
  unfold State.reset
  split
  · exact (PostPc.inPost_notified _).trans (hset .wake rfl)
  · exact hset .idle rfl

/-- `reset` moves no thread in or out of `post`. -/
theorem samePosts_reset (s : State T) (o : Owner T) {p : Thread T} (h : s.post p = .idle) :
    s.SamePosts (s.reset o p) := by
  refine ⟨fun q => ?_, reset_calls s o p⟩
  rw [reset_inPost]
  split
  · next he =>
    rw [he, h]
    rfl
  · rfl

/-- A look at the slot does not either. -/
theorem samePosts_tryInstall (s : State T) {p : Thread T} (h : (s.post p).inPost = true) :
    s.SamePosts (s.tryInstall p) := by
  unfold State.tryInstall
  split
  · have hset := samePosts_setPost s (p := p) (c := .notify) h.symm
    exact ⟨hset.inPost, rfl⟩
  · exact samePosts_setPost s h.symm

/-- A step that is neither a call of `post` nor a look at the slot that may return from one. -/
theorem samePosts_next {s : State T} (a : Action T) (ha : enabled s a)
    (hpost : ∀ p, a ≠ .post p) (hret : ∀ p, a ≠ .tryReturn p) : s.SamePosts (next s a) := by
  cases a with
  | post p => exact absurd rfl (hpost p)
  | tryReturn p => exact absurd rfl (hret p)
  | tryInstall p => exact samePosts_tryInstall s (by rw [show s.post p = _ from ha]; rfl)
  | write p =>
    exact ⟨(samePosts_setPost s.writeByte (c := .waitDone false) (by
      rw [show s.writeByte.post p = .notify from ha]; rfl)).inPost, rfl⟩
  | wakeUp p => exact samePosts_setPost s (PostPc.inPost_notified _)
  | drop p => exact samePosts_reset s _ ha.1.1
  | writeDone p =>
    exact ⟨(samePosts_setPost s.writeByte (c := .idle) (by
      rw [show s.writeByte.post p = .wake from ha]; rfl)).inPost, rfl⟩
  | loopDrop =>
    simp only [next, State.loopReset]
    split
    · exact ⟨(samePosts_notifyAll (s.unref .loop)).inPost, rfl⟩
    · exact ⟨fun _ => rfl, rfl⟩
  | addAsyncCleanup =>
    simp only [next, State.addAsyncCleanup, State.startAsyncThread]
    split_ifs
    · exact ⟨fun _ => rfl, rfl⟩
    · exact ⟨fun _ => rfl, rfl⟩
    · exact ⟨fun _ => PostPc.inPost_notified _, rfl⟩
  | check =>
    simp only [next, State.check]
    split <;> exact ⟨fun _ => rfl, rfl⟩
  | finish threw => exact ⟨fun _ => PostPc.inPost_notified _, rfl⟩
  | exit => exact ⟨fun _ => PostPc.inPost_notified _, rfl⟩
  | asyncCheck =>
    simp only [next, State.asyncCheck]
    split <;> exact ⟨fun _ => rfl, rfl⟩
  | asyncFinish =>
    simp only [next, State.asyncFinish]
    split
    · exact ⟨fun _ => PostPc.inPost_notified _, rfl⟩
    · exact ⟨fun _ => rfl, rfl⟩
  | _ => exact ⟨fun _ => rfl, rfl⟩

/-- A function is running until it ends. -/
theorem running_next {s : State T} (a : Action T) (ha : enabled s a) (hcheck : a ≠ .check)
    (hfinish : ∀ threw, a ≠ .finish threw) (c : Call T) :
    (next s a).loop = .running c ↔ s.loop = .running c := by
  cases a with
  | check => exact absurd rfl hcheck
  | finish threw => exact absurd rfl (hfinish threw)
  | post p =>
    have hloop : ((s.ref (.post p)).tryInstall p).loop = s.loop := by
      unfold State.tryInstall
      split <;> rfl
    simp only [next, hloop]
  | tryInstall p =>
    have hloop : (s.tryInstall p).loop = s.loop := by
      unfold State.tryInstall
      split <;> rfl
    simp only [next, hloop]
  | tryReturn p => simp only [next, (sameLoop_tryReturn s p).loop]
  | drop p => simp only [next, (sameLoop_reset s _ p).loop]
  | loopDrop => simp only [next, (sameLoop_loopReset s _).loop]
  | addAsyncCleanup => simp only [next, (sameLoop_addAsyncCleanup s).loop]
  | asyncCheck => simp only [next, (sameLoop_asyncCheck s).loop]
  | asyncFinish => simp only [next, (sameLoop_asyncFinish s).loop]
  | read => exact iff_of_false (fun h => by cases h) fun h => by cases ha.1.symm.trans h
  | resetTasks => exact iff_of_false (fun h => by cases h) fun h => by cases ha.1.symm.trans h
  | close => exact iff_of_false (fun h => by cases h) fun h => by cases ha.symm.trans h
  | exit => exact iff_of_false (fun h => by cases h) fun h => by cases ha.symm.trans h
  | destroy => exact iff_of_false (fun h => by cases h) fun h => by cases ha.1.symm.trans h
  | _ => exact Iff.rfl

/-! ## The invariant -/

/-- The variable of a call is written when its function has run to its end. -/
structure Written (s : Shared T D R) : Prop where
  rendezvous : Rendezvous s.loop
  written : ∀ c, (s.result c).isSome = true ↔ s.loop.runs c = 1 ∧ s.loop.loop ≠ .running c

variable {w : Work T D R E} {s : Shared T D R}

/-- At the start no call has a result. -/
theorem written_of_starts (h : (shared w).init s) : Written s := by
  obtain ⟨hstarts, hresult, -⟩ := h
  refine ⟨rendezvous_of_starts hstarts, fun c => ?_⟩
  rw [hresult, hstarts.runs]
  simp only [Option.isSome_none, Bool.false_eq_true, reduceCtorEq, false_and]

/-- A step of the loop that neither starts nor ends a function. -/
theorem written_loop (h : Written s) {a : Action T} (ha : enabled s.loop a) (hcheck : a ≠ .check)
    (hfinish : ∀ threw, a ≠ .finish threw) (got : Thread T → List (Option R)) :
    Written { s with loop := next s.loop a, got := got } := by
  refine ⟨rendezvous_next h.rendezvous a ha, fun c => ?_⟩
  have hruns : (next s.loop a).runs c = s.loop.runs c := by
    by_contra hne
    obtain ⟨hloop, -, hrun⟩ := runs_next a ha hne
    have := (running_next a ha hcheck hfinish c).mp hrun
    exact absurd (hloop.symm.trans this) nofun
  rw [hruns, Ne, running_next a ha hcheck hfinish c]
  exact h.written c

/-- A call that is run has not been run before. -/
theorem written_check (h : Written s) (ha : enabled s.loop .check) :
    Written { s with loop := next s.loop .check } := by
  refine ⟨rendezvous_next h.rendezvous .check ha, fun c => ?_⟩
  have hold := h.written c
  cases hslot : s.loop.postFn with
  | none =>
    simp only [next, check_of_free hslot]
    have hnot : s.loop.loop ≠ .running c := fun hr => by cases ha.symm.trans hr
    rw [hold]
    split <;> simp only [hnot, ne_eq, not_false_eq_true, and_true, reduceCtorEq]
  | some d =>
    simp only [next, check_of_slot hslot]
    have hnot : s.loop.loop ≠ .running c := fun hr => by cases ha.symm.trans hr
    by_cases he : c = d
    · subst he
      have hran : ¬ s.loop.ran c := by
        rintro (hlt | ⟨-, -, hne | hr⟩)
        · obtain ⟨-, heq⟩ := h.rendezvous.slot c hslot
          rw [heq] at hlt
          exact Nat.lt_irrefl _ hlt
        · exact hne hslot
        · exact hnot hr
      have hzero := h.rendezvous.runs c
      rw [if_neg hran] at hzero
      rw [hold, hzero]
      simp only [reduceCtorEq, false_and, ne_eq, not_true_eq_false, and_false]
    · rw [hold]
      have hother : ¬ LoopPc.running d = .running c := fun hr => he (LoopPc.running.inj hr).symm
      simp only [Function.update_of_ne he, hnot, hother, ne_eq, not_false_eq_true, and_true]

/-- The call whose function is running is the one in the slot, and it has been counted. -/
theorem running_call (h : Written s) {c : Call T} (hr : s.loop.loop = .running c) :
    c = s.loop.call c.thread ∧ (s.loop.post c.thread).installed = true ∧ s.loop.runs c = 1 := by
  obtain ⟨hin, heq⟩ := h.rendezvous.slot c (h.rendezvous.running c hr)
  refine ⟨heq, hin, ?_⟩
  rw [h.rendezvous.runs, if_pos (.inr ⟨heq, hin, .inr hr⟩)]

/-- Its result is written once, when it ends. -/
theorem written_finish (h : Written s) {threw : Bool} {c : Call T}
    (hr : s.loop.loop = .running c) (ha : enabled s.loop (.finish threw)) (r : R) (d : D) :
    Written { s with
      loop := next s.loop (.finish threw), data := d
      result := Function.update s.result c (some r) } := by
  refine ⟨rendezvous_next h.rendezvous (.finish threw) ha, fun c' => ?_⟩
  have hnot : (next s.loop (.finish threw)).loop ≠ .running c' := nofun
  have hruns : (next s.loop (.finish threw)).runs = s.loop.runs := rfl
  by_cases he : c' = c
  · subst he
    simp only [Function.update_self, Option.isSome_some, hruns, (running_call h hr).2.2, hnot,
      ne_eq, not_false_eq_true, and_self]
  · have hother : s.loop.loop ≠ .running c' := fun hr' =>
      he (LoopPc.running.inj (hr'.symm.trans hr))
    simp only [Function.update_of_ne he, h.written, hruns, hnot, hother, ne_eq, not_false_eq_true]

/-- Every step keeps what was written. -/
theorem written_next (h : Written s) (a : SharedAction T E) (ha : (shared w).enabled s a) :
    Written ((shared w).next s a) := by
  cases a with
  | event e => exact ⟨h.rendezvous, h.written⟩
  | loop a =>
    have hen : enabled s.loop a := ha
    cases a with
    | check => exact written_check h hen
    | finish threw =>
      obtain ⟨-, c, hr⟩ := id hen
      simp only [shared, Shared.next, hr]
      exact written_finish h hr hen _ _
    | tryReturn p => exact written_loop h hen nofun nofun _
    | _ => exact written_loop h hen nofun nofun _

/-! ## The simulation -/

namespace Shared

/-- How far a thread's call is: it has run when its variable is written. -/
def pc (s : Shared T D R) (p : Thread T) : AtomicPc R :=
  if (s.loop.post p).inPost then
    match s.result (s.loop.call p) with
    | none => .called
    | some r => .ran r
  else .idle

def toAtomic (s : Shared T D R) : Atomic T D R where
  data := s.data
  pc := s.pc
  got := s.got

/-- What a step is in the specification. -/
def acts (s : Shared T D R) : SharedAction T E → List (AtomicAction T E)
  | .loop (.post p) => [.call p]
  | .loop (.finish _) =>
    match s.loop.loop with
    | .running c => [.run c.thread]
    | _ => []
  | .loop (.tryReturn p) => if s.returns p then [.ret p] else []
  | .loop _ => []
  | .event e => [.event e]

end Shared

omit [DecidableEq T] in
/-- A step of the loop that is not visible leaves every call where it was. -/
theorem pc_of_samePosts {l : State T} (h : s.loop.SamePosts l) :
    Shared.pc { s with loop := l } = s.pc := by
  funext p
  have hcall : l.call p = s.loop.call p := by simp only [State.call, h.calls]
  simp only [Shared.pc, h.inPost, hcall]

/-- A call of `post` finds its variable unwritten. -/
theorem result_none_of_idle (h : Written s) {p : Thread T} (hp : s.loop.post p = .idle) :
    s.result (s.loop.call p) = none := by
  by_contra hne
  have hruns := ((h.written _).mp (Option.isSome_iff_ne_none.mpr hne)).1
  rw [h.rendezvous.runs, if_neg] at hruns
  · exact absurd hruns nofun
  · rintro (hlt | ⟨-, hin, -⟩)
    · exact Nat.lt_irrefl _ hlt
    · rw [show s.loop.post (s.loop.call p).thread = .idle from hp] at hin
      exact absurd hin nofun

/-- A call of `post` that returns finds its variable written. -/
theorem result_of_returns (h : Written s) {p : Thread T}
    (hp : s.loop.post p = .waitDone false) (hret : s.returns p) :
    ∃ r, s.result (s.loop.call p) = some r := by
  refine Option.isSome_iff_exists.mp ((h.written _).mpr ⟨?_, fun hr => ?_⟩)
  · rw [h.rendezvous.runs, if_pos]
    refine .inr ⟨rfl, ?_, .inl hret⟩
    rw [show s.loop.post (s.loop.call p).thread = _ from hp]
    rfl
  · exact hret (h.rendezvous.running _ hr)

theorem tryInstall_post (s : State T) (p q : Thread T) : (s.tryInstall p).post q =
    if q = p then (if s.postFn = none then .notify else .waitSlot true) else s.post q := by
  unfold State.tryInstall
  split <;> exact setPost_post _ _ _ _

/-- A call begins. -/
theorem pc_post (h : Written s) {p : Thread T} (hp : s.loop.post p = .idle) :
    Shared.pc { s with loop := next s.loop (.post p) } = Function.update s.pc p .called := by
  funext q
  have hcall : (next s.loop (.post p)).call q = s.loop.call q := by
    simp only [next, State.tryInstall]
    split <;> rfl
  have hpost : (next s.loop (.post p)).post q =
      if q = p then (if s.loop.postFn = none then .notify else .waitSlot true)
      else s.loop.post q := tryInstall_post (s.loop.ref (.post p)) p q
  by_cases hq : q = p
  · subst hq
    have hin : ((next s.loop (.post q)).post q).inPost = true := by
      rw [hpost, if_pos rfl]
      split <;> rfl
    simp only [Shared.pc, hin, hcall, result_none_of_idle h hp, if_true, Function.update_self]
  · simp only [Shared.pc, hpost, hq, if_false, hcall, Function.update_of_ne hq]

/-- The function of a call runs. -/
theorem pc_finish (h : Written s) {threw : Bool} {c : Call T} (hr : s.loop.loop = .running c)
    (d : D) (r : R) :
    Shared.pc { s with
      loop := next s.loop (.finish threw), data := d
      result := Function.update s.result c (some r) } =
      Function.update s.pc c.thread (.ran r) := by
  funext q
  obtain ⟨heq, hin, -⟩ := running_call h hr
  have hpost : ((next s.loop (.finish threw)).post q).inPost = (s.loop.post q).inPost :=
    PostPc.inPost_notified _
  have hcall : (next s.loop (.finish threw)).call q = s.loop.call q := rfl
  by_cases hq : q = c.thread
  · subst hq
    have hinPost := PostPc.inPost_of_installed hin
    simp only [Shared.pc, hpost, hinPost, hcall, ← heq, Function.update_self, if_true]
  · have hne : s.loop.call q ≠ c := fun he => hq (congrArg Call.thread he)
    simp only [Shared.pc, hpost, hcall, Function.update_of_ne hne, Function.update_of_ne hq]

/-- The call that runs has been called and has not returned. -/
theorem pc_running (h : Written s) {c : Call T} (hr : s.loop.loop = .running c) :
    s.pc c.thread = .called := by
  obtain ⟨heq, hin, -⟩ := running_call h hr
  have hnone : s.result c = none := by
    by_contra hne
    exact ((h.written c).mp (Option.isSome_iff_ne_none.mpr hne)).2 hr
  have hinPost := PostPc.inPost_of_installed hin
  simp only [Shared.pc, hinPost, if_true, ← heq, hnone]

/-- A call returns. -/
theorem pc_return {p : Thread T} (hret : s.returns p) (got : Thread T → List (Option R)) :
    Shared.pc { s with loop := next s.loop (.tryReturn p), got := got } =
      Function.update s.pc p .idle := by
  funext q
  have hnext : next s.loop (.tryReturn p) = { s.loop with
      calls := Function.update s.loop.calls p (s.loop.calls p + 1) }.reset (.post p) p :=
    if_neg hret
  have hpost : ((next s.loop (.tryReturn p)).post q).inPost =
      if q = p then false else (s.loop.post q).inPost := by
    rw [hnext, reset_inPost]
  have hcall : q ≠ p → (next s.loop (.tryReturn p)).call q = s.loop.call q := by
    intro hq
    rw [hnext]
    simp only [State.call, reset_calls, Function.update_of_ne hq]
  by_cases hq : q = p
  · subst hq
    simp only [Shared.pc, hpost, if_true, Bool.false_eq_true, if_false, Function.update_self]
  · simp only [Shared.pc, hpost, hq, if_false, hcall hq, Function.update_of_ne hq]

/-- Whose look at the slot does not return stays in `post`. -/
theorem samePosts_tryReturn {p : Thread T} (hp : s.loop.post p = .waitDone false)
    (hret : ¬ s.returns p) : s.loop.SamePosts (next s.loop (.tryReturn p)) := by
  have hnext : next s.loop (.tryReturn p) = s.loop.setPost p (.waitDone true) :=
    if_pos (not_not.mp hret)
  rw [hnext]
  exact samePosts_setPost s.loop (by rw [hp]; rfl)

omit [DecidableEq T] in
/-- A step that is not visible. -/
theorem toAtomic_of_samePosts {l : State T} (h : s.loop.SamePosts l) :
    Shared.toAtomic { s with loop := l } = s.toAtomic := by
  simp only [Shared.toAtomic, pc_of_samePosts h]

/-- Each step is a run of the atomic system. -/
theorem acts_path (h : Written s) (a : SharedAction T E) (ha : (shared w).enabled s a) :
    (atomic w).Path s.toAtomic (s.acts a) ((shared w).next s a).toAtomic := by
  have single : ∀ {u v : Atomic T D R} {b : AtomicAction T E}, (atomic w).enabled u b →
      v = (atomic w).next u b → (atomic w).Path u [b] v := fun hb he => he ▸ .single hb
  cases a with
  | event e => exact single (v := ((shared w).next s (.event e)).toAtomic) trivial rfl
  | loop a =>
    have hen : enabled s.loop a := ha
    cases a with
    | post p =>
      have hidle : s.loop.post p = .idle := hen.1
      refine single ?_ ?_
      · show s.pc p = .idle
        simp only [Shared.pc, hidle, PostPc.inPost, Bool.false_eq_true, if_false]
      · simp only [shared, Shared.next, Shared.toAtomic, pc_post h hidle]
        rfl
    | finish threw =>
      obtain ⟨-, c, hr⟩ := id hen
      simp only [shared, Shared.next, Shared.acts, hr]
      refine single (pc_running h hr) ?_
      simp only [Shared.toAtomic, pc_finish h hr]
      rfl
    | tryReturn p =>
      by_cases hret : s.returns p
      · obtain ⟨r, hr⟩ := result_of_returns h hen hret
        have hpc : s.pc p = .ran r := by
          simp only [Shared.pc, show s.loop.post p = .waitDone false from hen, PostPc.inPost,
            if_true, hr]
        simp only [Shared.acts, if_pos hret]
        refine single ⟨r, hpc⟩ ?_
        simp only [shared, Shared.next, Shared.toAtomic, pc_return hret, if_pos hret, hr, atomic,
          Atomic.next, hpc]
      · simp only [Shared.acts, if_neg hret, shared, Shared.next]
        rw [toAtomic_of_samePosts (samePosts_tryReturn hen hret)]
        exact .nil _
    | _ =>
      simp only [Shared.acts, shared, Shared.next]
      rw [toAtomic_of_samePosts (samePosts_next _ hen nofun nofun)]
      exact .nil _

/-- And it shows what the step shows. -/
theorem acts_shows (h : Written s) (a : SharedAction T E) (ha : (shared w).enabled s a) :
    (atomic w).trace Atomic.out s.toAtomic (s.acts a) = s.out a := by
  cases a with
  | event e => rfl
  | loop a =>
    have hen : enabled s.loop a := ha
    cases a with
    | finish threw =>
      obtain ⟨-, c, hr⟩ := id hen
      simp only [Shared.acts, hr]
      rfl
    | tryReturn p =>
      by_cases hret : s.returns p
      · obtain ⟨r, hr⟩ := result_of_returns h hen hret
        have hpc : s.toAtomic.pc p = .ran r := by
          simp only [Shared.toAtomic, Shared.pc, show s.loop.post p = .waitDone false from hen,
            PostPc.inPost, if_true, hr]
        simp only [Shared.acts, Shared.out, if_pos hret, System.trace, Atomic.out, hpc, hr,
          List.append_nil]
      · simp only [Shared.acts, Shared.out, if_neg hret, System.trace]
    | _ => rfl

/-- The event loop refines calls that do their work in one step. -/
def simulation (w : Work T D R E) :
    System.Simulation (shared w) (atomic w) Shared.out Atomic.out where
  inv := Written
  keeps _ a hs ha := written_next hs a ha
  abs := Shared.toAtomic
  acts := Shared.acts
  path _ a hs ha := acts_path hs a ha
  shows _ a hs ha := acts_shows hs a ha

/-- Whatever the threads do, what they see of their calls of `post` is what they see in some run in
which each call does its work in one step between its start and its return, on the same data. -/
theorem post_linearizable {s t : Shared T D R} {as : List (SharedAction T E)}
    (start : (shared w).init s) (path : (shared w).Path s as t) :
    ∃ s' bs t', (atomic w).init s' ∧ s'.data = s.data ∧ (atomic w).Path s' bs t' ∧
      (atomic w).trace Atomic.out s' bs = (shared w).trace Shared.out s as ∧
      t'.data = t.data ∧ t'.got = t.got := by
  obtain ⟨hpath, hshows⟩ := (simulation w).run path (written_of_starts start)
  refine ⟨s.toAtomic, _, t.toAtomic, fun p => ⟨?_, start.2.2 p⟩, rfl, hpath, hshows, rfl, rfl⟩
  have hidle := start.1.post p
  simp only [Shared.toAtomic, Shared.pc, hidle, PostPc.inPost, Bool.false_eq_true, if_false]

/-- Every call takes the next number. -/
def counter : Work Bool Nat Nat Unit where
  fn _ _ n := (n + 1, n)
  on _ n := n

def countingThreads : Shared Bool Nat Nat where
  loop := twoThreads
  data := 0
  result _ := none
  got _ := []

/-- Two threads post; the second returns first. -/
def countTwice : List (SharedAction Bool Unit) :=
  [.loop (.post (.client false)), .loop (.write (.client false)), .loop .read, .loop .check,
    .loop (.post (.client true)), .loop (.finish false), .loop (.tryInstall (.client true)),
    .loop (.write (.client true)), .loop .read, .loop .check, .loop (.finish false),
    .loop (.tryReturn (.client true)), .loop (.tryReturn (.client false))]

theorem post_linearizable_counter : ∃ s' bs t', (atomic counter).Path s' bs t' ∧
    (atomic counter).trace Atomic.out s' bs =
      [.call (.client false), .call (.client true), .ret (.client true) (some 1),
        .ret (.client false) (some 0)] ∧ t'.data = 2 := by
  have hrun : ((shared counter).run countingThreads countTwice).map (fun t => decide (t.data = 2)) =
      some true := by decide
  obtain ⟨t, ht, hdata⟩ := Option.map_eq_some_iff.mp hrun
  obtain ⟨s', bs, t', -, -, hpath, htrace, hsame, -⟩ := post_linearizable
    ⟨twoThreads_starts, fun _ => rfl, fun _ => rfl⟩ (System.run_eq_some_iff.mp ht)
  exact ⟨s', bs, t', hpath, htrace.trans rfl, hsame.trans (of_decide_eq_true hdata)⟩

end Multiprocess.Loop
