import Multiprocess.Lib.Resumption

/-!
# An asynchronous server call as a program

What a worker thread does for one request, from the function `ProxyServer<Thread>::post` gave to
the `Waiter` (`src/include/mp/proxy-io.h`) through the Context `PassField` lambda
(`src/include/mp/type-context.h`) down the chain of wrappers the generator emits around
`ServerCall` or `ServerDestroy` (`src/include/mp/proxy-types.h`).

The program asks its environment for everything the code does not decide: what a reader, a
builder or the method does (return or throw), what application code waits for on the event loop
thread, whether a variable still owns its `ProxyClient`, what a flag of the message is, and the
value of `request_canceled` where it is read. Exceptions are the results `.error`; a destructor
runs on both results, as in unwinding.

Not modelled are the values that are passed, and what the event loop thread does with a function
given to it beyond what the request itself relies on.
-/

namespace Multiprocess.Server

open Resumption (Prog)
open Resumption.Prog (perform)

/-- The C++ exception types of an application: `catches t e` says whether `catch (const t&)`
catches an `e`. `InterruptException` is final and derives from `std::exception` alone. -/
class ExceptionTypes (E : Type) where
  stdException : E
  interrupt : E
  catches : E → E → Bool
  catches_interrupt : ∀ t, catches t interrupt = true ↔ t = interrupt ∨ t = stdException

/-- The two exception types every application has. -/
inductive StandardException where
  | stdException
  | interrupt
  deriving DecidableEq

instance : ExceptionTypes StandardException where
  stdException := .stdException
  interrupt := .interrupt
  catches t e := t == .stdException || t == e
  catches_interrupt t := by cases t <;> decide

/-- A capnp interface, by whether it declares `construct` and `destroy` methods. -/
structure Interface where
  construct : Bool
  destroy : Bool
  deriving DecidableEq

/-- The functions the worker gives to `EventLoop::sync`. -/
inductive SyncFn where
  /-- fulfill the promise that releases the next request of the thread -/
  | ready
  /-- look at `m_canceled`, set `m_on_cancel`, `SetThread` -/
  | register
  /-- `clientInvoke` builds and sends a request -/
  | build
  /-- the cleanup function of `ProxyClientBase` -/
  | release
  /-- a function of the application -/
  | other
  /-- clear `m_on_cancel`, drop `self`, erase the `request_threads` entry -/
  | clear
  /-- destroy the `CancelMonitor`, fulfill or reject the result -/
  | finish
  deriving DecidableEq

/-- Where `request_canceled` is read: before `fn.invoke`, or by `ServerCall` after the method. -/
inductive Site where
  | beforeInvoke
  | afterBody
  deriving DecidableEq

/-- Code that returns or throws: a reader, a builder, the method, a `CustomPassField` or
`CustomPassMessage` overload, the destructor of the implementation, and a cleanup function. -/
inductive Code where
  | read
  | build
  | body
  | custom
  | destructor
  | cleanup
  deriving DecidableEq

/-- How application code waits for the event loop thread: by an IPC call, by the destruction of a
`ProxyClient` it owns, and by a `sync` of its own. -/
inductive Wait where
  | call
  | destroy (iface : Interface)
  | sync
  deriving DecidableEq

/-- What the worker asks of its environment. -/
inductive Op where
  | sync (fn : SyncFn)
  /-- whether the build function sent a request: the connection was not null -/
  | sent
  /-- `Waiter::wait` for the response -/
  | await
  | lock
  | unlock
  | canceled (site : Site)
  | getParams
  | getResults
  /-- the `want` flag of a pointer parameter -/
  | want
  /-- what application code waits for on its way -/
  | waits
  /-- whether a frame's variable still owns the `ProxyClient` -/
  | owned
  | code (c : Code)
  /-- the `InterruptException` handler of the Context `PassField` -/
  | interrupted
  /-- `cancel_mutex` and `server_context` come into scope, and go out of it -/
  | enter
  | leave
  deriving DecidableEq

variable {E : Type}

/-- The answers to an operation. -/
def Op.Ans (E : Type) : Op → Type
  | .code _ | .await => Except E Unit
  | .sent | .canceled _ | .want | .owned => Bool
  | .waits => List Wait
  | _ => Unit

/-- C++ code: a program that returns or throws. -/
abbrev Comp (E : Type) : Type := Prog Op (Op.Ans E) (Except E Unit)

namespace Comp

/-- Nothing. -/
def skip : Comp E := .pure (.ok ())

/-- `throw`. -/
def throw (e : E) : Comp E := .pure (.error e)

/-- A statement and the next one. -/
def seq (p q : Comp E) : Comp E := Prog.bind p fun
  | .ok () => q
  | .error e => throw e

/-- A scope with a destructor: it runs whether the scope is left by return or by unwinding. -/
def scope (p destructor : Comp E) : Comp E :=
  Prog.bind p fun r => Prog.bind destructor fun _ => .pure r

/-- `try { p } catch (const t&) { handler }`. -/
def tryCatch [ExceptionTypes E] (p : Comp E) (t : E) (handler : Comp E) : Comp E :=
  Prog.bind p fun
    | .ok () => skip
    | .error e => if ExceptionTypes.catches t e then handler else throw e

/-- `TryFinally`. -/
def tryFinally (fn after : Comp E) : Comp E := Prog.bind fn fun
  | .ok () => after
  | .error e => after.seq (throw e)

/-- An operation that just returns. -/
def act (o : Op) : Comp E := .op o fun _ => skip

end Comp

open Multiprocess.Server.Comp

/-- `clientInvoke`, on the worker thread. -/
def clientInvoke : Comp E :=
  (act (.sync .build)).seq (.op .sent fun (sent : Bool) => if sent then perform Op.await else skip)

/-- The part of the constructor of `ProxyClientBase` that may wait: `Sub::construct`. -/
def constructClient (iface : Interface) : Comp E := if iface.construct then clientInvoke else skip

/-- The destructor of `ProxyClientBase`: `Sub::destroy` with its exceptions caught, then the
cleanup on the event loop thread. -/
def destroyClient (iface : Interface) : Comp E :=
  Prog.bind (if iface.destroy then clientInvoke else skip) fun _ => act (.sync .release)

/-- One wait. -/
def Wait.run : Wait → Comp E
  | .call => clientInvoke
  | .destroy iface => destroyClient iface
  | .sync => act (.sync .other)

/-- One after the other, whatever they throw. -/
def waits : List Wait → Comp E
  | [] => skip
  | w :: ws => Prog.bind w.run fun _ => waits ws

/-- Code that returns or throws, whatever it waits for on its way. -/
def code (c : Code) : Comp E :=
  .op .waits fun (ws : List Wait) => Prog.bind (waits ws) fun _ => perform (Op.code c)

/-- The destructor of a variable that owns a `ProxyClient` unless it was moved away. -/
def destroyOwned (iface : Interface) : Comp E :=
  .op .owned fun (owned : Bool) => if owned then destroyClient iface else skip

/-- A scope whose variable's value is made with `ProxyClient` objects. -/
def withClients : List Interface → Comp E → Comp E
  | [], p => p
  | iface :: ifaces, p =>
    (constructClient iface).seq ((withClients ifaces p).scope (destroyOwned iface))

/-- A scope whose variable holds `ProxyClient` objects somebody else made. -/
def holdingClients (p : Comp E) : List Interface → Comp E
  | [] => p
  | iface :: ifaces => (holdingClients p ifaces).scope (destroyOwned iface)

/-- What the generator wraps around `ServerCall`, and which `PassField` overload it selects. The
lists are the interfaces of the `ProxyClient` objects in the value. -/
inductive Wrapper (E : Type) where
  /-- the default `PassField` of a parameter with a local type -/
  | field (isIn isOut : Bool) (clients : List Interface)
  /-- the default `PassField` of a `count(0)` parameter -/
  | field0
  /-- `PassField` of a C++ pointer -/
  | pointer (isIn isOut : Bool) (clients : List Interface)
  /-- `PassField` of a callable interface reference -/
  | reference (iface : Interface)
  /-- `CustomPassField` through `CustomPassMessage` -/
  | message
  | ret (clients : List Interface)
  | except (t : E)

/-- The innermost callable. A destroy method runs the `cleanup_fns` of its object, which has so
many. -/
inductive Innermost where
  | call
  | destroy (cleanupFns : Nat)
  deriving DecidableEq

/-- `MaybeReadField` and `MaybeBuildField`. -/
def maybe (present : Bool) (p : Comp E) : Comp E := if present then p else skip

/-- What `ServerCall` does after the method: relock, and throw if the request was canceled. -/
def afterBody [ExceptionTypes E] : Comp E :=
  (act .lock).seq (.op (.canceled .afterBody) fun (canceled : Bool) =>
    if canceled then throw ExceptionTypes.interrupt else skip)

/-- `ServerCall::invoke`. -/
def serverCall [ExceptionTypes E] : Comp E := (act .unlock).seq (tryFinally (code .body) afterBody)

/-- `CleanupRun`: a function that throws leaves those after it. -/
def cleanupRun : Nat → Comp E
  | 0 => skip
  | n + 1 => (code .cleanup).seq (cleanupRun n)

/-- `ServerDestroy::invoke`: `invokeDestroy` resets `m_impl`, whose destructor does not throw, and
runs the cleanup functions. It leaves `cancel_lock` held. -/
def serverDestroy (cleanupFns : Nat) : Comp E :=
  Prog.bind (code .destructor) fun _ => cleanupRun cleanupFns

/-- `invoke` of the innermost callable. -/
def Innermost.invoke [ExceptionTypes E] : Innermost → Comp E
  | .call => serverCall
  | .destroy cleanupFns => serverDestroy cleanupFns

/-- `invoke` of one wrapper around the `invoke` of its parent. -/
def Wrapper.invoke [ExceptionTypes E] (parent : Comp E) : Wrapper E → Comp E
  | .field isIn isOut clients =>
    (act .getParams).seq <| (maybe isIn (code .read)).seq <|
      withClients clients <| parent.seq <|
        (act .getResults).seq (maybe isOut (code .build))
  | .field0 =>
    (act .getParams).seq <| (code .read).seq <| parent.seq <|
      (act .getResults).seq (code .build)
  | .pointer isIn isOut clients =>
    (act .getParams).seq <| .op .want fun (want : Bool) =>
      if want then
        (maybe isIn (code .read)).seq <| withClients clients <| parent.seq <|
          (act .getResults).seq (maybe isOut (code .build))
      else parent
  | .reference iface =>
    (act .getParams).seq <| (constructClient iface).seq <| parent.scope (destroyClient iface)
  | .message =>
    (act .getParams).seq <| (act .getResults).seq <| (code .custom).seq <|
      parent.seq (code .custom)
  | .ret clients =>
    parent.seq (holdingClients ((act .getResults).seq (code .build)) clients)
  | .except t => parent.tryCatch t ((act .getResults).seq (code .build))

/-- The chain, outermost wrapper first. -/
def chain [ExceptionTypes E] (inner : Innermost) : List (Wrapper E) → Comp E
  | [] => inner.invoke
  | w :: ws => w.invoke (chain inner ws)

/-- The Context `PassField` lambda past its first `sync`, up to the deferred block. -/
def passContext [ExceptionTypes E] (fn : Comp E) : Comp E :=
  .op (.canceled .beforeInvoke) fun (canceled : Bool) =>
    if canceled then skip else fn.tryCatch ExceptionTypes.interrupt (act .interrupted)

/-- The deferred block of the lambda, the end of its scope, and the last `sync` of `post`. -/
def finishRequest (result : Except E Unit) : Comp E :=
  .op .unlock fun _ => .op (.sync .clear) fun _ => .op .leave fun _ =>
    .op (.sync .finish) fun _ => .pure result

/-- The function the `Waiter` runs for the request. -/
def request [ExceptionTypes E] (inner : Innermost) (ws : List (Wrapper E)) : Comp E :=
  .op (.sync .ready) fun _ => .op .enter fun _ => .op .lock fun _ => .op (.sync .register) fun _ =>
    Prog.bind (passContext (chain inner ws)) finishRequest

end Multiprocess.Server
