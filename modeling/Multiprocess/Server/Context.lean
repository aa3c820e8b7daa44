import Multiprocess.Lib.System
import Multiprocess.Server.Model

/-!
# A worker and the event loop over one request

The worker thread runs the code of a request; the event loop thread runs the functions the worker
gives to `sync`, delivers the responses its IPC calls wait for, and may cancel the request at any
moment: it destroys the `CancelProbe` (`src/include/mp/util.h`), which runs `m_on_cancel` if it is
set, and then frees the params and results. One action is one operation of the worker, one event
of the loop, or the critical section of `m_on_cancel`.

Other requests are left out, also those whose functions the worker runs while it waits.
-/

namespace Multiprocess.Server

open Resumption

variable {E : Type}

/-- `CancelMonitor`, by whether `m_canceled` is true, `m_on_cancel` set and `m_probe` not null. -/
structure Monitor where
  canceled : Bool
  onCancel : Bool
  probe : Bool
  deriving DecidableEq

/-- `CancelProbe`, by whether `m_monitor` is not null. -/
structure Probe where
  monitor : Bool
  deriving DecidableEq

/-- Where the worker is with the request. -/
inductive Worker (E : Type) where
  /-- the continuation of `m_thread_ready` that posts the function has not run -/
  | queued (p : Comp E)
  | running (p : Comp E)
  /-- in `EventLoop::post`, its function not yet run -/
  | posted (fn : SyncFn) (p : Comp E)
  /-- in `Waiter::wait` for a response -/
  | awaiting (k : Except E Unit → Comp E)
  /-- the promise was destroyed before its function was posted -/
  | dropped

namespace Worker

def isQueued : Worker E → Bool
  | .queued _ => true
  | _ => false

def isPosted : Worker E → Bool
  | .posted _ _ => true
  | _ => false

def isAwaiting : Worker E → Bool
  | .awaiting _ => true
  | _ => false

/-- The worker can take a step: it has one, and does not need a lock that is held. -/
def canWork (held : Bool) : Worker E → Bool
  | .running (.op o _) => o != .lock || !held
  | _ => false

end Worker

/-- Where the event loop thread is. -/
inductive LoopPc where
  | idle
  /-- in `m_on_cancel`, at `Lock cancel_lock{cancel_mutex}` -/
  | onCancel
  /-- the probe is destroyed, the params and results are freed next -/
  | freeing
  deriving DecidableEq

/-- One request. `held` is `cancel_mutex` held by the worker, `frame` whether `cancel_mutex` and
`server_context` exist. `seen` (the worker has read `request_canceled` as false since it last took
the lock) and `onCancelRuns` are history. -/
structure State (E : Type) where
  worker : Worker E
  held : Bool
  frame : Bool
  requestCanceled : Bool
  monitor : Option Monitor
  probe : Option Probe
  loop : LoopPc
  freed : Bool
  seen : Bool
  onCancelRuns : Nat

namespace State

/-- What the worker is answered: a read of `request_canceled` gives its value. -/
def answer (s : State E) (env : (o : Op) → Op.Ans E o) : (o : Op) → Op.Ans E o
  | .canceled _ => s.requestCanceled
  | o => env o

/-- What an operation of the worker does to the request. -/
def perform (s : State E) : Op → State E
  | .enter => { s with frame := true, requestCanceled := false }
  | .leave => { s with frame := false }
  | .lock => { s with held := true, seen := false }
  | .unlock => { s with held := false }
  | .canceled _ => { s with seen := !s.requestCanceled }
  | _ => s

/-- One operation of the worker. -/
def work (s : State E) (env : (o : Op) → Op.Ans E o) : State E :=
  match s.worker with
  | .running (.op (.sync fn) k) => { s with worker := .posted fn (k ()) }
  | .running (.op .await k) => { s with worker := .awaiting k }
  | .running (.op o k) => { s.perform o with worker := .running (k (s.answer env o)) }
  | _ => s

/-- The first `sync` of the Context `PassField` lambda. -/
def register (s : State E) : State E :=
  match s.monitor with
  | some m => if m.canceled then { s with requestCanceled := true }
    else { s with monitor := some { m with onCancel := true } }
  | none => s

/-- `~CancelMonitor`. -/
def destroyMonitor (s : State E) : State E :=
  match s.monitor with
  | some m => { s with
      monitor := none
      probe := if m.probe then s.probe.map fun _ => ⟨false⟩ else s.probe }
  | none => s

/-- What a function the worker gave to `sync` does on the event loop thread. -/
def sync (s : State E) : SyncFn → State E
  | .register => s.register
  | .clear => { s with monitor := s.monitor.map ({ · with onCancel := false }) }
  | .finish => s.destroyMonitor
  | .ready | .build | .release | .other => s

/-- The event loop runs the function the worker waits for. -/
def runPosted (s : State E) : State E :=
  match s.worker with
  | .posted fn p => { s.sync fn with worker := .running p }
  | _ => s

/-- The response of an IPC call arrives, or the connection is gone. -/
def reply (s : State E) (r : Except E Unit) : State E :=
  match s.worker with
  | .awaiting k => { s with worker := .running (k r) }
  | _ => s

/-- `CancelMonitor::promiseDestroyed` up to the call of `m_on_cancel`, or its end if there is
nothing to call. -/
def promiseDestroyed (s : State E) : State E :=
  match s.monitor with
  | some m =>
    if m.onCancel then { s with
      monitor := some { m with canceled := true }, loop := .onCancel
      onCancelRuns := s.onCancelRuns + 1 }
    else { s with
      monitor := some { m with canceled := true, probe := false }, probe := none, loop := .freeing }
  | none => s

/-- `~CancelProbe`. -/
def destroyProbe (s : State E) : State E :=
  if s.probe = some ⟨true⟩ then s.promiseDestroyed else { s with probe := none, loop := .freeing }

/-- A closure that was not posted is destroyed with the `CancelMonitor` it holds. -/
def dropClosure (s : State E) : State E :=
  match s.worker with
  | .queued _ => { s.destroyMonitor with worker := .dropped }
  | _ => s

/-- The promise of the request is destroyed: first what it depends on, then the probe attached to
it. -/
def cancel (s : State E) : State E := s.dropClosure.destroyProbe

/-- `m_on_cancel` has the lock: it sets `request_canceled`, releases the lock and returns. -/
def onCancel (s : State E) : State E :=
  { s with
    requestCanceled := true
    monitor := s.monitor.map ({ · with probe := false })
    probe := none, loop := .freeing }

/-- The function is posted to the `Waiter`. -/
def start (s : State E) : State E :=
  match s.worker with
  | .queued p => { s with worker := .running p }
  | _ => s

end State

/-- The actions of the two threads. -/
inductive Action (E : Type) where
  | start
  | work (env : (o : Op) → Op.Ans E o)
  | runPosted
  | reply (r : Except E Unit)
  | cancel
  | onCancel
  | free

/-- Where an action can happen; the loop thread does one thing at a time. -/
def enabled (s : State E) : Action E → Prop
  | .start => s.loop = .idle ∧ s.worker.isQueued = true
  | .work _ => s.worker.canWork s.held = true
  | .runPosted => s.loop = .idle ∧ s.worker.isPosted = true
  | .reply _ => s.loop = .idle ∧ s.worker.isAwaiting = true
  | .cancel => s.loop = .idle ∧ s.probe.isSome = true
  | .onCancel => s.loop = .onCancel ∧ s.held = false
  | .free => s.loop = .freeing

/-- What an action does. -/
def next (s : State E) : Action E → State E
  | .start => s.start
  | .work env => s.work env
  | .runPosted => s.runPosted
  | .reply r => s.reply r
  | .cancel => s.cancel
  | .onCancel => s.onCancel
  | .free => { s with freed := true, loop := .idle }

instance (s : State E) : ∀ a : Action E, Decidable (enabled s a)
  | .start => inferInstanceAs (Decidable (_ ∧ s.worker.isQueued = true))
  | .work _ => inferInstanceAs (Decidable (_ = true))
  | .runPosted => inferInstanceAs (Decidable (_ ∧ s.worker.isPosted = true))
  | .reply _ => inferInstanceAs (Decidable (_ ∧ s.worker.isAwaiting = true))
  | .cancel => inferInstanceAs (Decidable (_ ∧ s.probe.isSome = true))
  | .onCancel => inferInstanceAs (Decidable (_ ∧ _))
  | .free => inferInstanceAs (Decidable (_ = _))

/-- `ProxyServer<Thread>::post` was called for the request: the promise with its probe exists, and
its closure holds the monitor. -/
def posted (p : Comp E) : State E where
  worker := .queued p
  held := false
  frame := false
  requestCanceled := false
  monitor := some ⟨false, false, true⟩
  probe := some ⟨true⟩
  loop := .idle
  freed := false
  seen := false
  onCancelRuns := 0

/-- The requests of a kind, each with a cancellation at any moment or never. -/
def requests [ExceptionTypes E] (kind : Innermost → List (Wrapper E) → Prop) :
    Transition.System (State E) (Action E) where
  init s := ∃ inner ws, kind inner ws ∧ s = posted (request inner ws)
  enabled := enabled
  next := next

instance [ExceptionTypes E] (kind : Innermost → List (Wrapper E) → Prop) (s : State E)
    (a : Action E) : Decidable ((requests kind).enabled s a) :=
  inferInstanceAs (Decidable (enabled s a))

end Multiprocess.Server
