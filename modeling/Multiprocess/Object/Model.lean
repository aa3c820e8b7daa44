import Mathlib.Logic.Function.Basic
import Multiprocess.Lib.System

/-!
# Remote objects and the calls made on them

The proxy objects of one connection and the calls on them, from both sides: `ProxyClientBase`,
`ProxyServerBase` and `~Connection` (`include/mp/proxy-io.h`, `src/mp/proxy.cpp`), `clientInvoke`
and `serverInvoke` (`include/mp/proxy-types.h`), the `self` references of `PassField` for
`mp.Context` (`include/mp/type-context.h`), and the objects that results carry
(`include/mp/type-interface.h`). One side calls and the other serves; callbacks are the same
protocol with the sides exchanged, on a connection of their own here.

* Each way, the stream is a queue. A Return message is taken in pieces: the objects its results
  carry, as its decoders read them, and then its end.
* The references to a server object are the connection's export and one for each request that has
  arrived and is not over: `thisCap()` in the lambda of `PassField`, or the one Cap'n Proto holds
  while a method runs on the event loop. Whoever drops the last one runs the destructor.
* Either side can lose the connection at any point, and the other then reaches the end of the
  stream. `m_rpc_system.reset()` drops the exports and the requests not yet posted one at a time.
* The application is held to C++'s rules for objects: it makes no call on a `ProxyClient` whose
  destructor has begun, and begins none before the calls on it have returned.
* No encoder throws here, neither that of a request nor that of a reply. A caller whose request's
  encoder throws waits for ever (`Client/Invoke`), so that nothing is said of such a call.
* Objects are passed in results only, and not in parameters. A server object that owns
  `ProxyClient`s of its caller calls back from its destructor, which can deadlock (`Server/Deadlock`).
* A reply that is built when the server's end is closed makes no objects.

`stage`, `runs` and `released` are history where no step reads them.
-/

namespace Multiprocess.Object

open Transition (System)

/-- A remote object: the one of `bootstrap`, or the `i`-th that the results of a call carry. -/
inductive Obj (C : Type) where
  | root
  | result (k : C) (i : Nat)
  deriving DecidableEq

/-- A request: a method called by the application, or the `destroy` of `~ProxyClientBase`. -/
inductive Req (C : Type) where
  | call (k : C)
  | destroy (o : Obj C)
  deriving DecidableEq

/-- What the calls are: the object of each, how many objects its results carry, whether a request
has a `Context`, and whether an object's interface declares `destroy`. -/
structure Program (C : Type) where
  target : C → Obj C
  results : C → Nat
  context : Req C → Bool
  destroys : Obj C → Bool

/-- What `clientInvoke` comes to: it returns, it throws what the server answered, or it throws
because the connection is gone. -/
inductive Outcome where
  | ok
  | exception
  | disconnected
  deriving DecidableEq

/-- Where a request is. -/
inductive Stage where
  | idle
  -- in `clientInvoke`, given to `EventLoop::post`
  | posting
  -- the client's connection was null
  | unsent
  -- in the stream to the server
  | sent
  -- arrived; neither started on the event loop nor posted to its worker
  | queued
  -- in the `Waiter` of its worker
  | posted
  -- in the method, or in `invokeDestroy`
  | executing
  -- on its way out without having entered it
  | failing
  -- its Return message is written
  | replied (out : Outcome)
  -- over on the server with no reply
  | dropped
  deriving DecidableEq

/-- A `ProxyClient` object. -/
inductive Handle where
  | absent
  | alive
  -- in the destructor
  | closing
  | gone
  deriving DecidableEq

/-- A `ProxyServer` object, and whether its `m_impl` is not null. -/
inductive Server where
  | absent
  | live (impl : Bool)
  | destroyed
  deriving DecidableEq

/-- A message to the server: a call, or the release of an export. -/
inductive ToServer (C : Type) where
  | request (r : Req C)
  | release (o : Obj C)
  deriving DecidableEq

/-- A piece of a message to the client: an object carried by a Return, or its end. -/
inductive ToClient (C : Type) where
  | cap (o : Obj C)
  | ret (r : Req C) (out : Outcome)
  deriving DecidableEq

/-- The two sides of the connection and the stream between them. -/
structure State (C : Type) where
  -- the `Connection` objects
  clientUp : Bool
  serverUp : Bool
  client : Obj C → Handle
  -- the objects whose destructor has begun and has not ended
  closing : List (Obj C)
  -- the requests in `clientInvoke`, and what it came to for the others
  calls : List (Req C)
  outcome : Req C → Option Outcome
  stage : Req C → Stage
  toServer : List (ToServer C)
  toClient : List (ToClient C)
  -- the server's table of exports, and the requests that hold a reference
  exports : List (Obj C)
  serving : List (Req C)
  server : Obj C → Server
  -- the request whose method runs on the server's event loop thread
  loopBusy : Option (Req C)
  -- the objects whose `m_impl` was given to `addAsyncCleanup`
  asyncFns : List (Obj C)
  -- how often the method of a request was entered, and `m_impl` of an object released
  runs : Req C → Nat
  released : Obj C → Nat

variable {C : Type}

/-- The object a request is for. -/
def Program.on (p : Program C) : Req C → Obj C
  | .call k => p.target k
  | .destroy o => o

/-- The objects the results of a request carry. -/
def Program.caps (p : Program C) : Req C → Outcome → List (Obj C)
  | .call k, .ok => (List.range (p.results k)).map (.result k)
  | _, _ => []

/-- Arrived and not over: the request holds a reference to its object. -/
def Stage.serving : Stage → Bool
  | .queued | .posted | .executing | .failing => true
  | _ => false

variable [DecidableEq C]

namespace State

variable (p : Program C) (s : State C)

def setStage (r : Req C) (stage : Stage) : State C :=
  { s with stage := Function.update s.stage r stage }

/-- `clientInvoke` ends. -/
def return_ (r : Req C) (out : Outcome) : State C :=
  { s with calls := s.calls.erase r, outcome := Function.update s.outcome r (some out) }

/-- The application calls `clientInvoke`. -/
def invoke (r : Req C) : State C := { s with calls := r :: s.calls }.setStage r .posting

/-- `~ProxyClientBase` begins: `Sub::destroy` is a call if the interface declares `destroy`, and an
empty stub if not. -/
def beginDestroy (o : Obj C) : State C :=
  let s := { s with client := Function.update s.client o .closing, closing := o :: s.closing }
  if p.destroys o then s.invoke (.destroy o) else s

/-- The function `clientInvoke` posts. -/
def build (r : Req C) : State C :=
  if s.clientUp then { s.setStage r .sent with toServer := s.toServer ++ [.request r] }
  else (s.setStage r .unsent).return_ r .disconnected

/-- The client's `~Connection`: every request that is waited for is rejected. -/
def closeClient : State C :=
  { s with
    clientUp := false
    outcome := fun r => if r ∈ s.calls ∧ s.stage r ≠ .posting then some .disconnected
      else s.outcome r
    calls := s.calls.filter (s.stage · = .posting) }

/-- The client drops its reference to an object. -/
def releaseCap (o : Obj C) : State C :=
  { s with
    client := Function.update s.client o .gone
    toServer := if s.clientUp then s.toServer ++ [.release o] else s.toServer }

/-- The posted half of the cleanup function of `ProxyClientBase`. The client of the bootstrap
object was made with `destroy_connection`. -/
def release (o : Obj C) : State C :=
  let s := { s.releaseCap o with closing := s.closing.erase o }
  if o = .root then s.closeClient else s

/-- The client reads one piece of a message. A decoder makes a `ProxyClient` of an object, or does
not come to it, and the object goes with the message. -/
def deliver (kept : Bool) : State C :=
  match s.toClient with
  | [] => s
  | .cap o :: ms =>
    if kept then { s with toClient := ms, client := Function.update s.client o .alive }
    else { s with toClient := ms }.releaseCap o
  | .ret r out :: ms => { s with toClient := ms }.return_ r out

/-- How many references there are to a server object. -/
def refs (o : Obj C) : Nat := s.exports.count o + s.serving.countP (p.on · = o)

/-- `~ProxyServerBase`, if the reference just dropped was the last one. -/
def collect (o : Obj C) : State C :=
  if s.refs p o = 0 then
    match s.server o with
    | .live true => { s with
        server := Function.update s.server o .destroyed, asyncFns := s.asyncFns ++ [o] }
    | .live false => { s with server := Function.update s.server o .destroyed }
    | _ => s
  else s

/-- A request's last reference goes. -/
def leave (r : Req C) : State C := { s with serving := s.serving.erase r }.collect p (p.on r)

/-- The connection's reference goes. -/
def unexport (o : Obj C) : State C := { s with exports := s.exports.erase o }.collect p o

/-- The server reads one message. -/
def arrive : State C :=
  match s.toServer with
  | [] => s
  | .request r :: ms =>
    if p.on r ∈ s.exports then { s.setStage r .queued with
      toServer := ms, serving := r :: s.serving }
    else { s.setStage r (.replied .exception) with
      toServer := ms, toClient := s.toClient ++ [.ret r .exception] }
  | .release o :: ms => { s with toServer := ms }.unexport p o

/-- The method is entered: for `destroy`, `invokeDestroy` resets `m_impl`. -/
def execute (r : Req C) : State C :=
  let s' := { s.setStage r .executing with runs := Function.update s.runs r (s.runs r + 1) }
  match r with
  | .call _ => s'
  | .destroy o =>
    if s.server o = .live true then { s' with
      server := Function.update s.server o (.live false)
      released := Function.update s.released o (s.released o + 1) }
    else s'

/-- A request comes to its method, on its worker or on the event loop thread, unless it finds itself
canceled or an argument cannot be decoded. -/
def begin_ (r : Req C) (decoded : Bool) : State C :=
  let s := { s with loopBusy := if p.context r then none else some r }
  if s.serverUp ∧ decoded then s.execute r else s.setStage r .failing

/-- The Return message of a request, which makes the `ProxyServer` objects its results carry. It is
written if the connection is still there. -/
def reply (r : Req C) (out : Outcome) : State C :=
  if s.serverUp then { s.setStage r (.replied out) with
    exports := s.exports ++ p.caps r out
    server := fun o => if o ∈ p.caps r out then .live true else s.server o
    toClient := s.toClient ++ ((p.caps r out).map .cap ++ [.ret r out]) }
  else s.setStage r .dropped

/-- A request ends: its promise is fulfilled or rejected, and its reference goes. It is rejected if
an exception leaves the callables; the `PassField` of a `Context` answers an `InterruptException` of
the method as if it had returned. -/
def finish (r : Req C) (threw : Bool) : State C :=
  let out := if s.stage r = .executing ∧ ¬ threw then .ok else .exception
  { s.reply p r out with loopBusy := none }.leave p r

/-- `m_async_thread` runs its next function. -/
def asyncRun : State C :=
  match s.asyncFns with
  | [] => s
  | o :: os => { s with
      asyncFns := os, released := Function.update s.released o (s.released o + 1) }

/-- The server's event loop thread is not running a method. -/
def free : Prop := s.loopBusy = none

end State

/-- The steps of the two sides. -/
inductive Action (C : Type) where
  -- the application: a call, and the destruction of a `ProxyClient`
  | start (k : C)
  | destroy (o : Obj C)
  -- the client's event loop
  | build (r : Req C)
  | release (o : Obj C)
  | deliver (kept : Bool)
  -- the client's connection closes, or reaches the end of the stream
  | clientClose
  | clientEof
  -- the server's event loop and workers
  | arrive
  | post (r : Req C)
  | refuse (r : Req C)
  | begin_ (r : Req C) (decoded : Bool)
  | finish (r : Req C) (threw : Bool)
  | asyncRun
  | serverClose
  | serverEof
  -- what `~Connection` of the server drops
  | dropExport (o : Obj C)
  | dropCall (r : Req C)
  deriving DecidableEq

/-- The steps that are neither the application's nor a failure of the connection. -/
def Action.internal : Action C → Prop
  | .start _ | .destroy _ | .clientClose | .serverClose => False
  | _ => True

/-- Where a step can happen. -/
def enabled (p : Program C) (s : State C) : Action C → Prop
  | .start k => s.client (p.target k) = .alive ∧ s.stage (.call k) = .idle
  | .destroy o => s.client o = .alive ∧ ∀ r ∈ s.calls, p.on r ≠ o
  | .build r => s.stage r = .posting
  | .release o => s.client o = .closing ∧ (p.destroys o → s.outcome (.destroy o) ≠ none)
  | .deliver _ => s.clientUp ∧ s.toClient ≠ []
  | .clientClose => s.clientUp
  | .clientEof => s.clientUp ∧ ¬ s.serverUp ∧ s.toClient = []
  | .arrive => s.serverUp ∧ s.free ∧ s.toServer ≠ []
  | .post r => s.serverUp ∧ s.free ∧ p.context r ∧ s.stage r = .queued
  | .refuse r => s.serverUp ∧ s.free ∧ p.context r ∧ s.stage r = .queued
  | .begin_ r _ => s.free ∧
    (p.context r ∧ s.stage r = .posted ∨ ¬ p.context r ∧ s.serverUp ∧ s.stage r = .queued)
  | .finish r _ => (s.stage r = .executing ∨ s.stage r = .failing) ∧
    (s.free ∨ s.loopBusy = some r)
  | .asyncRun => s.asyncFns ≠ []
  | .serverClose => s.serverUp ∧ s.free
  | .serverEof => s.serverUp ∧ s.free ∧ ¬ s.clientUp ∧ s.toServer = []
  | .dropExport o => ¬ s.serverUp ∧ s.free ∧ o ∈ s.exports
  | .dropCall r => ¬ s.serverUp ∧ s.free ∧ s.stage r = .queued

instance (s : State C) : Decidable s.free := inferInstanceAs (Decidable (_ = _))

instance (p : Program C) (s : State C) : ∀ a : Action C, Decidable (enabled p s a)
  | .start _ | .destroy _ | .release _ | .deliver _ | .clientEof | .arrive | .post _ | .refuse _
  | .begin_ _ _ | .finish _ _ | .serverClose | .serverEof | .dropExport _ | .dropCall _ => by
    unfold enabled
    infer_instance
  | .build _ | .asyncRun | .clientClose => by
    unfold enabled
    infer_instance

/-- What a step does. -/
def next (p : Program C) (s : State C) : Action C → State C
  | .start k => s.invoke (.call k)
  | .destroy o => s.beginDestroy p o
  | .build r => s.build r
  | .release o => s.release o
  | .deliver kept => s.deliver kept
  | .clientClose | .clientEof => s.closeClient
  | .arrive => s.arrive p
  | .post r => s.setStage r .posted
  | .refuse r => s.setStage r .failing
  | .begin_ r decoded => s.begin_ p r decoded
  | .finish r threw => s.finish p r threw
  | .asyncRun => s.asyncRun
  | .serverClose | .serverEof => { s with serverUp := false }
  | .dropExport o => s.unexport p o
  | .dropCall r => (s.setStage r .dropped).leave p r

/-- The connection is set up: each side has its object of `bootstrap`. -/
def started : State C where
  clientUp := true
  serverUp := true
  client o := if o = .root then .alive else .absent
  closing := []
  calls := []
  outcome _ := none
  stage _ := .idle
  toServer := []
  toClient := []
  exports := [.root]
  serving := []
  server o := if o = .root then .live true else .absent
  loopBusy := none
  asyncFns := []
  runs _ := 0
  released _ := 0

/-- The two sides, with any number of calls and objects. -/
def connection (p : Program C) : System (State C) (Action C) where
  init s := s = started
  enabled := enabled p
  next := next p

instance (p : Program C) (s : State C) (a : Action C) : Decidable ((connection p).enabled s a) :=
  inferInstanceAs (Decidable (enabled p s a))

end Multiprocess.Object
