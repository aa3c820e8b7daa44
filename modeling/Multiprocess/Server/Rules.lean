import Multiprocess.Server.Model

/-!
# Rules for the code of a request

The rules of `Resumption.Prog.Follows` for the statements of `Comp`, and `Keeps`: code that stays
inside a protocol without moving it. Both developments about the request, `Chain` and `Stages`,
take the parts that do not matter to them apart with these:

* `follows_seq` cuts a program at a statement, and `Keeps.bind` does where the first part keeps the
  state of the protocol;
* `keeps_seq`, `keeps_scope`, `keeps_tryCatch` and `keeps_maybe` are the statements themselves;
* `Calls` collects what a protocol has to say of the operations an IPC call is made of, and
  `keeps_waits` and `keeps_code` carry it over to application code that waits.

The rules are about the protocol alone: none of them says that the code returns.
-/

namespace Multiprocess.Server

open Resumption Multiprocess.Server.Comp
open Resumption.Prog (Follows)

variable {E S : Type} {P : Protocol Op (Op.Ans E) S} {s : S} {Q : S → Except E Unit → Prop}

/-- How a result goes on: to the next statement, or out of the scope. -/
def onOk (next : S → Prop) (Q : S → Except E Unit → Prop) : S → Except E Unit → Prop
  | s, .ok () => next s
  | s, .error e => Q s (.error e)

/-- A statement and the next one: the next one starts where the first one returns. -/
theorem follows_seq {p q : Comp E} :
    Follows P s (p.seq q) Q ↔ Follows P s p (onOk (fun s' => Follows P s' q Q) Q) := by
  unfold Comp.seq
  rw [Prog.follows_bind]
  constructor
  · intro h
    refine h.mono fun s' r hr => ?_
    cases r with
    | ok => exact hr
    | error e => exact hr
  · intro h
    refine h.mono fun s' r hr => ?_
    cases r with
    | ok => exact hr
    | error e => exact hr

/-- The code keeps to the protocol and leaves it in the state it was in. -/
def Keeps (P : Protocol Op (Op.Ans E) S) (s : S) (p : Comp E) : Prop :=
  Follows P s p fun s' _ => s' = s

/-- The protocol allows the operation and is not moved by it. -/
def Idle (P : Protocol Op (Op.Ans E) S) (s : S) (o : Op) : Prop :=
  P.allows s o ∧ ∀ b, P.after s o b = s

/-- What comes after code that keeps the state starts in that state. -/
theorem Keeps.bind {p : Comp E} {f : Except E Unit → Comp E} (h : Keeps P s p)
    (hf : ∀ r, Follows P s (f r) Q) : Follows P s (p.bind f) Q :=
  Prog.follows_bind.mpr (h.mono fun s' r hs => by subst hs; exact hf r)

/-- After an operation that does not move the protocol, only the expected answers go on. -/
theorem Idle.op {o : Op} {k : Op.Ans E o → Comp E} (h : Idle P s o)
    (hk : ∀ b, P.expects s o b → Follows P s (k b) Q) : Follows P s (.op o k) Q := by
  refine ⟨h.1, fun b hb => ?_⟩
  rw [h.2 b]
  exact hk b hb

/-- An operation that leaves the automaton in its state. -/
theorem keeps_act {o : Op} (h : Idle P s o) : Keeps P s (act o : Comp E) := h.op fun _ _ => rfl

/-- Two statements that keep the state keep it one after the other. -/
theorem keeps_seq {p q : Comp E} (hp : Keeps P s p) (hq : Keeps P s q) :
    Keeps P s (p.seq q) := by
  refine Keeps.bind hp fun r => ?_
  cases r with
  | ok => exact hq
  | error e => exact rfl

/-- A scope keeps the state if its body and its destructor do. -/
theorem keeps_scope {p d : Comp E} (hp : Keeps P s p) (hd : Keeps P s d) :
    Keeps P s (p.scope d) := Keeps.bind hp fun _ => Keeps.bind hd fun _ => rfl

/-- So does a `try` block, caught or not. -/
theorem keeps_tryCatch [ExceptionTypes E] {p handler : Comp E} {t : E} (hp : Keeps P s p)
    (hh : Keeps P s handler) : Keeps P s (p.tryCatch t handler) := by
  refine Keeps.bind hp fun r => ?_
  cases r with
  | ok => exact rfl
  | error e =>
    simp only
    split
    · exact hh
    · exact rfl

/-- Code that is left out keeps the state as well. -/
theorem keeps_maybe (present : Bool) {p : Comp E} (hp : Keeps P s p) :
    Keeps P s (maybe present p) := by
  cases present with
  | false => exact rfl
  | true => exact hp

/-! ## Code that waits -/

/-- The protocol allows the worker to wait for the event loop thread. -/
structure Calls (P : Protocol Op (Op.Ans E) S) (s : S) : Prop where
  build : Idle P s (.sync .build)
  sent : Idle P s .sent
  await : Idle P s .await
  release : Idle P s (.sync .release)
  other : Idle P s (.sync .other)

/-- A call of another process, whatever it is answered. -/
theorem keeps_clientInvoke (h : Calls P s) : Keeps P s (clientInvoke : Comp E) := by
  refine keeps_seq (keeps_act h.build) (h.sent.op fun (sent : Bool) _ => ?_)
  cases sent with
  | false => exact rfl
  | true => exact h.await.op fun _ _ => rfl

/-- The constructor of a client calls at most `construct`. -/
theorem keeps_constructClient (h : Calls P s) (iface : Interface) :
    Keeps P s (constructClient iface : Comp E) := by
  unfold constructClient
  split
  · exact keeps_clientInvoke h
  · exact rfl

/-- The destructor of a client calls at most `destroy`. -/
theorem keeps_destroyClient (h : Calls P s) (iface : Interface) :
    Keeps P s (destroyClient iface : Comp E) := by
  have hdestroy : Keeps P s (if iface.destroy then clientInvoke else skip : Comp E) := by
    split
    · exact keeps_clientInvoke h
    · exact rfl
  exact Keeps.bind hdestroy fun _ => keeps_act h.release

/-- One case for each way to wait. -/
theorem keeps_wait (h : Calls P s) (w : Wait) : Keeps P s (w.run : Comp E) := by
  cases w with
  | call => exact keeps_clientInvoke h
  | destroy iface => exact keeps_destroyClient h iface
  | sync => exact keeps_act h.other

/-- Waiting for the event loop, or for a call, any number of times. -/
theorem keeps_waits (h : Calls P s) (ws : List Wait) : Keeps P s (waits ws : Comp E) := by
  induction ws with
  | nil => exact rfl
  | cons w ws ih => exact Keeps.bind (keeps_wait h w) fun _ => ih

/-- Application code keeps to a protocol that does not look at it, if it may wait where it is
expected to. -/
theorem keeps_code {c : Code} (asks : Idle P s .waits)
    (mayWait : ∀ ws : List Wait, P.expects s .waits ws → Keeps P s (waits ws : Comp E))
    (runs : Idle P s (.code c)) : Keeps P s (code c : Comp E) :=
  asks.op fun ws hws => Keeps.bind (mayWait ws hws) fun _ => runs.op fun _ _ => rfl

/-- The destructor of a variable that is expected not to own its `ProxyClient` does not wait. -/
theorem keeps_destroyOwned (owned : Idle P s .owned) (iface : Interface)
    (mayWait : P.expects s .owned true → Keeps P s (destroyClient iface : Comp E)) :
    Keeps P s (destroyOwned iface : Comp E) := by
  refine owned.op fun (owned : Bool) hexp => ?_
  cases owned with
  | false => exact rfl
  | true => exact mayWait hexp

/-- The cleanup functions, one after the other. -/
theorem keeps_cleanupRun (h : Keeps P s (code .cleanup : Comp E)) (n : Nat) :
    Keeps P s (cleanupRun n : Comp E) := by
  induction n with
  | zero => exact rfl
  | succ n ih => exact keeps_seq h ih

/-- The destruction of a server object: the implementation's destructor and its cleanup functions.
-/
theorem keeps_serverDestroy (destructor : Keeps P s (code .destructor : Comp E))
    (cleanup : Keeps P s (code .cleanup : Comp E)) (n : Nat) :
    Keeps P s (serverDestroy n : Comp E) :=
  Keeps.bind destructor fun _ => keeps_cleanupRun cleanup n

end Multiprocess.Server
