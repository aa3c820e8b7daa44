import Multiprocess.Lib.System
import Mathlib.Algebra.BigOperators.Group.Finset.Basic

/-!
# `ProxyServer<Thread>::post`

Any number of `post` calls on one thread object (`src/include/mp/proxy-io.h`). The closure of a
call waits in the continuation of `m_thread_ready`, then in `Waiter::m_fn`, then in a frame of the
worker thread; frames nest, because a function that waits for an IPC call of its own runs further
functions from `Waiter::wait`. A closure owns the fulfiller of the promise the next closure waits
for. The promise a call returned can be destroyed at any moment.

Handing a closure over to the worker is one step here, which `Handover` justifies. The end of the
thread object is in `Lifetime`.
-/

namespace Multiprocess.Thread

variable {E V : Type}

/-- Where the closure of a call is. -/
inductive Stage (E V : Type) where
  /-- the continuation of `m_thread_ready` that holds it has not run -/
  | chained
  /-- in `Waiter::m_fn` -/
  | slotted
  /-- in a frame of the worker, at the `sync` that fulfills `ready_fulfiller` -/
  | signaling
  /-- in `fn` -/
  | running
  /-- in `fn`, in `Waiter::wait` for an IPC call it made -/
  | calling
  /-- at the `sync` that settles the result -/
  | resolving (result : Except E V)
  | finished
  /-- destroyed before it ran -/
  | dropped
  deriving DecidableEq

/-- `ready.promise` of a call, which the next call waits for. -/
inductive Ready where
  | pending
  | fulfilled
  | rejected
  deriving DecidableEq

/-- The promise a call returned. A broken one is rejected because a fulfiller was destroyed. -/
inductive Promised (E V : Type) where
  | pending
  | settled (result : Except E V)
  | broken
  | canceled
  deriving DecidableEq

/-- One call. `monitor` is its `CancelMonitor`, by `m_canceled`, while it exists; `runs` counts the
calls of `fn` and `returned` is what the last of them came to. -/
structure Request (E V : Type) where
  stage : Stage E V
  ready : Ready
  promise : Promised E V
  monitor : Option Bool
  runs : Nat
  returned : Option (Except E V)
  deriving DecidableEq

/-- The thread object and its worker. The calls are numbered in order; `frames` are those whose
function is on the worker's stack, innermost first; `asserted` says that `assert(posted)` has
failed. -/
structure State (E V : Type) where
  requests : Nat → Request E V
  posted : Nat
  slot : Option Nat
  frames : List Nat
  asserted : Bool

/-- A promise that nothing has settled yet takes a result. -/
def Promised.settle (p : Promised E V) (result : Except E V) : Promised E V :=
  match p with
  | .pending => .settled result
  | p => p

/-- A promise that nothing has settled yet is rejected by a fulfiller that is gone. -/
def Promised.breakOff : Promised E V → Promised E V
  | .pending => .broken
  | p => p

/-- A promise that nothing has settled yet is destroyed. -/
def Promised.cancel : Promised E V → Promised E V
  | .pending => .canceled
  | p => p

namespace Request

/-- `post` has returned. -/
def fresh : Request E V where
  stage := .chained
  ready := .pending
  promise := .pending
  monitor := some false
  runs := 0
  returned := none

/-- The closure is destroyed with what it owns: `ready_fulfiller` and the `CancelMonitor`. -/
def drop (q : Request E V) : Request E V :=
  { q with stage := .dropped, ready := .rejected, monitor := none }

/-- The promise is destroyed: first the continuation it owns, if that has not run, then the
`CancelProbe`. -/
def destroy (q : Request E V) : Request E V :=
  match q.stage with
  | .chained => { q.drop with promise := q.promise.cancel }
  | _ => { q with monitor := q.monitor.map fun _ => true, promise := q.promise.cancel }

/-- The first `sync` of the posted function, and the call of `fn`. -/
def signal (q : Request E V) : Request E V :=
  { q with stage := .running, ready := .fulfilled, runs := q.runs + 1 }

/-- `fn` returns or throws. -/
def ret (result : Except E V) (q : Request E V) : Request E V :=
  { q with stage := .resolving result, returned := some result }

/-- The second `sync`: the `CancelMonitor` is destroyed, then the result is settled. -/
def resolve (q : Request E V) : Request E V :=
  match q.stage with
  | .resolving result =>
    { q with stage := .finished, monitor := none, promise := q.promise.settle result }
  | _ => q

end Request

namespace State

def update (s : State E V) (i : Nat) (f : Request E V → Request E V) : State E V :=
  { s with requests := Function.update s.requests i (f (s.requests i)) }

/-- The promise that `m_thread_ready` was when the call was made. -/
def threadReady (s : State E V) : Nat → Ready
  | 0 => .fulfilled
  | i + 1 => (s.requests i).ready

/-- The innermost frame of the worker, by its stage; `none` when it waits in its outermost
`Waiter::wait`. -/
def top (s : State E V) : Option (Stage E V) :=
  s.frames.head?.map fun i => (s.requests i).stage

def updateTop (s : State E V) (f : Request E V → Request E V) : State E V :=
  match s.frames with
  | i :: _ => s.update i f
  | [] => s

/-- `ProxyServer<Thread>::post`. -/
def post (s : State E V) : State E V :=
  { s with requests := Function.update s.requests s.posted .fresh, posted := s.posted + 1 }

/-- The continuation of `m_thread_ready`: `Waiter::post`, and the assertion that it did not
fail. -/
def proceed (s : State E V) (i : Nat) : State E V :=
  match s.slot with
  | none => { s.update i ({ · with stage := .slotted }) with slot := some i }
  | some _ =>
    { s.update i (fun q => { q.drop with promise := q.promise.breakOff }) with asserted := true }

/-- `m_thread_ready` was rejected: the continuation is not run. -/
def reject (s : State E V) (i : Nat) : State E V :=
  s.update i fun q => { q with promise := q.promise.breakOff }

/-- The worker moves the function out of `m_fn` and calls it. -/
def take (s : State E V) : State E V :=
  match s.slot with
  | some i =>
    { s.update i ({ · with stage := .signaling }) with slot := none, frames := i :: s.frames }
  | none => s

/-- The function returns to the `Waiter::wait` that called it. -/
def resolve (s : State E V) : State E V :=
  match s.frames with
  | i :: rest => { s.update i Request.resolve with frames := rest }
  | [] => s

end State

/-- The steps of the event loop thread (`post`, `proceed`, `reject`, `destroy`, and the functions
of `signal` and `resolve`) and of the worker thread. -/
inductive Action (E V : Type) where
  | post
  | proceed (i : Nat)
  | reject (i : Nat)
  | destroy (i : Nat)
  | take
  | signal
  | call
  | answer
  | ret (result : Except E V)
  | resolve

/-- The worker is in a `Waiter::wait`. -/
def State.waits (s : State E V) : Prop := s.top = none ∨ s.top = some .calling

/-- Where a step can happen. `Waiter::wait` returns only when `m_fn` is empty. A settled promise
owns nothing, so that its destruction is no step. -/
def enabled (s : State E V) : Action E V → Prop
  | .post => True
  | .proceed i => i < s.posted ∧ (s.requests i).stage = .chained ∧ s.threadReady i = .fulfilled
  | .reject i => i < s.posted ∧ (s.requests i).stage = .chained ∧
      (s.requests i).promise = .pending ∧ s.threadReady i = .rejected
  | .destroy i => i < s.posted ∧ ((s.requests i).promise = .pending ∨ (s.requests i).stage = .chained)
  | .take => s.waits ∧ s.slot.isSome = true
  | .signal => s.top = some .signaling
  | .call => s.top = some .running
  | .answer => s.top = some .calling ∧ s.slot = none
  | .ret _ => s.top = some .running
  | .resolve => ∃ result, s.top = some (.resolving result)

/-- What a step does. -/
def next (s : State E V) : Action E V → State E V
  | .post => s.post
  | .proceed i => s.proceed i
  | .reject i => s.reject i
  | .destroy i => s.update i Request.destroy
  | .take => s.take
  | .signal => s.updateTop Request.signal
  | .call => s.updateTop ({ · with stage := .calling })
  | .answer => s.updateTop ({ · with stage := .running })
  | .ret result => s.updateTop (Request.ret result)
  | .resolve => s.resolve

/-- A new thread object: `m_thread_ready` is `READY_NOW`. -/
def created : State E V where
  requests _ := .fresh
  posted := 0
  slot := none
  frames := []
  asserted := false

/-- The interleavings of the event loop and the worker. -/
def thread (E V : Type) : Transition.System (State E V) (Action E V) where
  init s := s = created
  enabled := enabled
  next := next

instance (stage : Option (Stage E V)) : Decidable (∃ result, stage = some (.resolving result)) :=
  match stage with
  | some (.resolving result) => .isTrue ⟨result, rfl⟩
  | some .chained | some .slotted | some .signaling | some .running | some .calling
  | some .finished | some .dropped | none => .isFalse nofun

instance [DecidableEq E] [DecidableEq V] (s : State E V) :
    ∀ a : Action E V, Decidable (enabled s a)
  | .post => inferInstanceAs (Decidable True)
  | .proceed _ | .reject _ | .destroy _ => inferInstanceAs (Decidable (_ ∧ _))
  | .take => inferInstanceAs (Decidable ((_ ∨ _) ∧ _))
  | .answer => inferInstanceAs (Decidable (_ ∧ _))
  | .signal | .call | .ret _ => inferInstanceAs (Decidable (_ = _))
  | .resolve => inferInstanceAs (Decidable (∃ _, _))

instance [DecidableEq E] [DecidableEq V] (s : State E V) (a : Action E V) :
    Decidable ((thread E V).enabled s a) := inferInstanceAs (Decidable (enabled s a))

/-! ## What the operations read and change -/

section Updates

variable {s : State E V} {i j : Nat} {f : Request E V → Request E V}

@[simp] theorem update_posted : (s.update i f).posted = s.posted := rfl

@[simp] theorem update_slot : (s.update i f).slot = s.slot := rfl

@[simp] theorem update_frames : (s.update i f).frames = s.frames := rfl

@[simp] theorem update_same : (s.update i f).requests i = f (s.requests i) := by
  simp only [State.update, Function.update_self]

/-- A change to one request leaves the others as they are. -/
theorem update_other (h : j ≠ i) : (s.update i f).requests j = s.requests j := by
  simp only [State.update, Function.update_of_ne h]

/-- The requests after a change to one. -/
theorem update_requests :
    (s.update i f).requests j = if j = i then f (s.requests i) else s.requests j := by
  simp only [State.update, Function.update_apply]

/-- The requests after another is posted, which is new. -/
theorem post_requests :
    s.post.requests j = if j = s.posted then .fresh else s.requests j := by
  simp only [State.post, Function.update_apply]

/-- The innermost frame has a stage when there is one. -/
theorem top_eq_some {stage : Stage E V} (h : s.top = some stage) :
    ∃ i rest, s.frames = i :: rest ∧ (s.requests i).stage = stage := by
  obtain ⟨i, hi, hs⟩ := Option.map_eq_some_iff.mp h
  obtain ⟨rest, hf⟩ := List.head?_eq_some_iff.mp hi
  exact ⟨i, rest, hf, hs⟩

/-- With a request on top of the stack, what is done to the top is done to it. -/
theorem updateTop_cons {rest : List Nat} (h : s.frames = i :: rest) :
    s.updateTop f = s.update i f := by
  unfold State.updateTop
  rw [h]

/-- A continuation that finds the slot of the waiter free fills it. -/
theorem proceed_none (h : s.slot = none) :
    s.proceed i = { s.update i ({ · with stage := .slotted }) with slot := some i } := by
  unfold State.proceed
  rw [h]

/-- A worker that finds a function there runs it. -/
theorem take_some (h : s.slot = some i) :
    s.take = { s.update i ({ · with stage := .signaling }) with
      slot := none, frames := i :: s.frames } := by
  unfold State.take
  rw [h]

/-- The worker comes back from `sync` and the frame of the request ends. -/
theorem resolve_cons {rest : List Nat} (h : s.frames = i :: rest) :
    s.resolve = { s.update i Request.resolve with frames := rest } := by
  unfold State.resolve
  rw [h]

/-- A request whose result is on its way is resolved with it. -/
theorem resolve_resolving {q : Request E V} {result : Except E V}
    (h : q.stage = .resolving result) :
    q.resolve = { q with
      stage := .finished, monitor := none, promise := q.promise.settle result } := by
  unfold Request.resolve
  rw [h]

/-- Destroying the promise of a request that still waits for its turn cancels it. -/
theorem destroy_chained {q : Request E V} (h : q.stage = .chained) :
    q.destroy = { q.drop with promise := q.promise.cancel } := by
  unfold Request.destroy
  rw [h]

/-- Of one that was handed to the waiter it only reports the cancellation. -/
theorem destroy_posted {q : Request E V} (h : q.stage ≠ .chained) :
    q.destroy = { q with monitor := q.monitor.map fun _ => true, promise := q.promise.cancel } := by
  unfold Request.destroy
  split
  · next hc => exact absurd hc h
  · rfl

end Updates

end Multiprocess.Thread
