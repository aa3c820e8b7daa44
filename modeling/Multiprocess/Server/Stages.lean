import Multiprocess.Server.Rules

/-!
# The stages of a request

What the worker has in scope and holds as it goes through a request, as an automaton: the frame
with `cancel_mutex` and `server_context`, the lock, and whether `m_on_cancel` was registered.
`follows_stages` says that every chain goes through the stages in order, touching the params and
results only with the lock held.

With `mayWait = false` the automaton also forbids to wait for the event loop with the lock held.
Two things decide whether a request keeps to that. The frames of its chain must not wait by
themselves, which `loopFree` says of the chain. And the answers of the environment must not make it
wait, which `Op.waitless` says of an answer: application code that runs with the lock held waits
for nothing, and no variable destroyed with the lock held still owns a `ProxyClient`. The automaton
counts on these answers there and nowhere else.
-/

namespace Multiprocess.Server

open Resumption Multiprocess.Server.Comp
open Resumption.Prog (Follows)

variable {E : Type}

/-- How far the worker is with a request. -/
inductive Stage where
  | start
  /-- the frame is entered; the first `sync` has not run -/
  | entered (held : Bool)
  /-- the first `sync` has run -/
  | registered (held : Bool)
  /-- the deferred `sync` has run -/
  | cleared
  /-- the frame is left -/
  | left
  /-- the last `sync` has run -/
  | finished
  deriving DecidableEq

namespace Stage

/-- The worker holds `cancel_lock`. -/
def held : Stage → Bool
  | .entered held | .registered held => held
  | _ => false

/-- `cancel_mutex` and `server_context` exist. -/
def frame : Stage → Bool
  | .entered _ | .registered _ | .cleared => true
  | _ => false

/-- `m_on_cancel` may be set. -/
def isRegistered : Stage → Bool
  | .registered _ => true
  | _ => false

/-- What a stage allows; waiting with the lock held only if `mayWait`. -/
def allows (mayWait : Bool) : Stage → Op → Prop
  | .start, o => o = .sync .ready ∨ o = .enter
  | .entered held, o => if held then o = .sync .register else o = .lock
  | .registered held, o => match o with
    | .sync .build | .sync .release | .sync .other | .await => held = false ∨ mayWait = true
    | .sync .clear => held = false
    | .sync _ => False
    | .sent | .want | .waits | .owned | .code _ | .interrupted => True
    | .getParams | .getResults | .canceled _ | .unlock => held = true
    | .lock => held = false
    | .enter | .leave => False
  | .cleared, o => o = .leave
  | .left, o => o = .sync .finish
  | .finished, _ => False

def after (st : Stage) (o : Op) : Stage :=
  match o with
  | .enter => .entered false
  | .lock => match st with
    | .entered _ => .entered true
    | _ => .registered true
  | .unlock => .registered false
  | .sync .register => .registered true
  | .sync .clear => .cleared
  | .leave => .left
  | .sync .finish => .finished
  | _ => st

end Stage

/-- An answer after which the worker does not wait for the event loop: code that waits for nothing,
a variable that owns no `ProxyClient`. -/
def Op.waitless : (o : Op) → Op.Ans E o → Prop
  | .waits, (ws : List Wait) => ws = []
  | .owned, (own : Bool) => own = false
  | _, _ => True

instance : ∀ (o : Op) (b : Op.Ans E o), Decidable (o.waitless b)
  | .waits, (ws : List Wait) => inferInstanceAs (Decidable (ws = []))
  | .owned, (own : Bool) => inferInstanceAs (Decidable (own = false))
  | .sync _, _ | .sent, _ | .await, _ | .lock, _ | .unlock, _ | .canceled _, _ | .getParams, _
  | .getResults, _ | .want, _ | .code _, _ | .interrupted, _ | .enter, _ | .leave, _ =>
    inferInstanceAs (Decidable True)

/-- The stages as a protocol for the code of a request. Unless it may wait, the worker is expected
to get waitless answers where it holds the lock. -/
def stages (E : Type) (mayWait : Bool) : Protocol Op (Op.Ans E) Stage where
  allows := Stage.allows mayWait
  expects st o b := mayWait = true ∨ st.held = false ∨ o.waitless b
  after st o _ := st.after o

variable {mayWait : Bool}

/-! ## The stage of an operation -/

namespace Stage

variable {st : Stage}

theorem eq_of_enter (h : st.allows mayWait .enter) : st = .start := by
  cases st with
  | start => rfl
  | entered held => cases held <;> cases h
  | registered held => exact absurd h id
  | finished => exact absurd h id
  | _ => cases h

theorem eq_of_leave (h : st.allows mayWait .leave) : st = .cleared := by
  cases st with
  | cleared => rfl
  | start => rcases h with h | h <;> cases h
  | entered held => cases held <;> cases h
  | registered held => exact absurd h id
  | finished => exact absurd h id
  | _ => cases h

theorem eq_of_lock (h : st.allows mayWait .lock) : st = .entered false ∨ st = .registered false := by
  cases st with
  | start => rcases h with h | h <;> cases h
  | entered held =>
    cases held with
    | false => exact .inl rfl
    | true => cases h
  | registered held => exact .inr (congrArg _ h)
  | finished => exact absurd h id
  | _ => cases h

theorem eq_of_unlock (h : st.allows mayWait .unlock) : st = .registered true := by
  cases st with
  | start => rcases h with h | h <;> cases h
  | entered held => cases held <;> cases h
  | registered held => exact congrArg _ h
  | finished => exact absurd h id
  | _ => cases h

theorem eq_of_canceled {site : Site} (h : st.allows mayWait (.canceled site)) :
    st = .registered true := by
  cases st with
  | start => rcases h with h | h <;> cases h
  | entered held => cases held <;> cases h
  | registered held => exact congrArg _ h
  | finished => exact absurd h id
  | _ => cases h

/-- The stage in which each function is given to `sync`. -/
theorem eq_of_sync {fn : SyncFn} (h : st.allows mayWait (.sync fn)) :
    fn = .ready ∧ st = .start ∨ fn = .register ∧ st = .entered true ∨
      (fn = .build ∨ fn = .release ∨ fn = .other) ∧ st.isRegistered = true ∨
      fn = .clear ∧ st = .registered false ∨ fn = .finish ∧ st = .left := by
  cases st with
  | start =>
    rcases h with h | h
    · cases h
      exact .inl ⟨rfl, rfl⟩
    · cases h
  | entered held =>
    cases held with
    | false => cases h
    | true =>
      cases h
      exact .inr (.inl ⟨rfl, rfl⟩)
  | registered held =>
    cases fn with
    | build => exact .inr (.inr (.inl ⟨.inl rfl, rfl⟩))
    | release => exact .inr (.inr (.inl ⟨.inr (.inl rfl), rfl⟩))
    | other => exact .inr (.inr (.inl ⟨.inr (.inr rfl), rfl⟩))
    | clear => exact .inr (.inr (.inr (.inl ⟨rfl, congrArg _ h⟩)))
    | _ => exact absurd h id
  | cleared => cases h
  | left =>
    cases h
    exact .inr (.inr (.inr (.inr ⟨rfl, rfl⟩)))
  | finished => exact absurd h id

/-- Where waiting with the lock held is forbidden, a wait past the registration is without it. -/
theorem wait_unheld {o : Op} (h : st.allows false o) (wait : o = .await ∨ ∃ fn, o = .sync fn)
    (registered : st.isRegistered = true) : st.held = false := by
  cases st with
  | registered held =>
    rcases wait with rfl | ⟨fn, rfl⟩
    · exact Or.resolve_right h nofun
    · cases fn with
      | build => exact Or.resolve_right h nofun
      | release => exact Or.resolve_right h nofun
      | other => exact Or.resolve_right h nofun
      | clear => exact h
      | _ => exact absurd h id
  | _ => cases registered

end Stage

/-! ## Every chain keeps to the stages -/

/-- The frame of the wrapper does not wait for the event loop by itself: it makes no temporary
`ProxyClient`, as an interface reference does, and none by a `construct` call. -/
def Wrapper.loopFree : Wrapper E → Bool
  | .field _ _ clients | .pointer _ _ clients => clients.all (!·.construct)
  | .reference _ => false
  | .field0 | .message | .ret _ | .except _ => true

/-- No frame of the chain waits for the event loop by itself. -/
def loopFree (ws : List (Wrapper E)) : Bool := ws.all Wrapper.loopFree

theorem idle_stages {st : Stage} (o : Op) (allowed : st.allows mayWait o) (same : st.after o = st) :
    Idle (stages E mayWait) st o := ⟨allowed, fun _ => same⟩

/-- Waits of the worker, with the lock released or where waiting is allowed. -/
theorem calls_stages {held : Bool} (h : held = false ∨ mayWait = true) :
    Calls (stages E mayWait) (.registered held) where
  build := idle_stages (.sync .build) h rfl
  sent := idle_stages .sent trivial rfl
  await := idle_stages .await h rfl
  release := idle_stages (.sync .release) h rfl
  other := idle_stages (.sync .other) h rfl

/-- An answer counted on with the lock held is waitless, unless the worker may wait. -/
theorem waits_or_waitless {o : Op} {b : Op.Ans E o}
    (h : (stages E mayWait).expects (.registered true) o b) : mayWait = true ∨ o.waitless b :=
  h.imp_right fun h => h.resolve_left nofun

section Chain

variable [ExceptionTypes E]

/-- Code between the registration and the deferred block that gives the lock back as it got it. -/
abbrev Inside (mayWait : Bool) (p : Comp E) : Prop := Keeps (stages E mayWait) (.registered true) p

omit [ExceptionTypes E] in
/-- Application code may wait with the lock released, and does not with the lock held. -/
theorem keeps_code_stages {held : Bool} (c : Code) :
    Keeps (stages E mayWait) (.registered held) (code c : Comp E) := by
  refine keeps_code (idle_stages .waits trivial rfl) (fun ws hexp => ?_)
    (idle_stages (.code c) trivial rfl)
  cases held with
  | false => exact keeps_waits (calls_stages (.inl rfl)) ws
  | true =>
    rcases waits_or_waitless hexp with hwait | hnone
    · exact keeps_waits (calls_stages (.inr hwait)) ws
    · obtain rfl : ws = [] := hnone
      exact rfl

omit [ExceptionTypes E] in
theorem inside_getParams : Inside mayWait (act .getParams : Comp E) :=
  keeps_act (idle_stages .getParams rfl rfl)

omit [ExceptionTypes E] in
theorem inside_getResults : Inside mayWait (act .getResults : Comp E) :=
  keeps_act (idle_stages .getResults rfl rfl)

omit [ExceptionTypes E] in
/-- A variable that went out of scope with the lock held did not own its `ProxyClient`, or the
worker may wait. -/
theorem inside_destroyOwned (iface : Interface) :
    Inside mayWait (destroyOwned iface : Comp E) := by
  have hidle : Idle (stages E mayWait) (.registered true) .owned :=
    idle_stages .owned trivial rfl
  refine keeps_destroyOwned hidle iface fun hexp => ?_
  rcases waits_or_waitless hexp with hwait | hnone
  · exact keeps_destroyClient (calls_stages (.inr hwait)) iface
  · exact absurd (show true = false from hnone) nofun

omit [ExceptionTypes E] in
theorem inside_constructClient {iface : Interface}
    (h : mayWait = true ∨ iface.construct = false) :
    Inside mayWait (constructClient iface : Comp E) := by
  rcases h with hwait | hnone
  · exact keeps_constructClient (calls_stages (.inr hwait)) iface
  · unfold constructClient
    rw [hnone, if_neg nofun]
    exact rfl

omit [ExceptionTypes E] in
theorem inside_withClients (clients : List Interface)
    (h : mayWait = true ∨ clients.all (!·.construct) = true) {p : Comp E}
    (hp : Inside mayWait p) : Inside mayWait (withClients clients p) := by
  induction clients with
  | nil => exact hp
  | cons iface ifaces ih =>
    have hsplit : mayWait = true ∨
        iface.construct = false ∧ ifaces.all (!·.construct) = true := by
      simpa only [List.all_cons, Bool.and_eq_true, Bool.not_eq_true'] using h
    exact keeps_seq (inside_constructClient (hsplit.imp_right And.left))
      (keeps_scope (ih (hsplit.imp_right And.right)) (inside_destroyOwned iface))

omit [ExceptionTypes E] in
theorem inside_holdingClients (clients : List Interface) {p : Comp E} (hp : Inside mayWait p) :
    Inside mayWait (holdingClients p clients) := by
  induction clients with
  | nil => exact hp
  | cons iface _ ih => exact keeps_scope ih (inside_destroyOwned iface)

/-- `ServerCall` releases the lock around the method and takes it back. -/
theorem inside_serverCall : Inside mayWait (serverCall : Comp E) := by
  have hafter : Follows (stages E mayWait) (.registered false) (afterBody : Comp E)
      fun st _ => st = .registered true := by
    refine ⟨rfl, fun _ _ => ⟨rfl, fun (canceled : Bool) _ => ?_⟩⟩
    cases canceled <;> exact rfl
  have hfinally : Follows (stages E mayWait) (.registered false) (tryFinally (code .body) afterBody)
      fun st (_ : Except E Unit) => st = .registered true := by
    refine Keeps.bind (keeps_code_stages .body) fun r => ?_
    cases r with
    | ok => exact hafter
    | error e =>
      refine follows_seq.mpr (hafter.mono fun st r hst => ?_)
      subst hst
      cases r <;> exact rfl
  exact ⟨rfl, fun _ _ => hfinally⟩

/-- `ServerDestroy` leaves the lock alone. -/
theorem inside_innermost (inner : Innermost) : Inside mayWait (inner.invoke : Comp E) := by
  cases inner with
  | call => exact inside_serverCall
  | destroy cleanupFns =>
    exact keeps_serverDestroy (keeps_code_stages .destructor) (keeps_code_stages .cleanup) cleanupFns

/-- One case for each wrapper. -/
theorem inside_wrapper {parent : Comp E} (hp : Inside mayWait parent) (w : Wrapper E)
    (h : mayWait = true ∨ w.loopFree = true) : Inside mayWait (w.invoke parent) := by
  have hresults : ∀ present, Inside mayWait
      ((act .getResults).seq (maybe present (code .build)) : Comp E) := fun present =>
    keeps_seq inside_getResults (keeps_maybe present (keeps_code_stages _))
  have hbuild : Inside mayWait ((act .getResults).seq (code .build) : Comp E) :=
    keeps_seq inside_getResults (keeps_code_stages _)
  cases w with
  | field isIn isOut clients =>
    exact keeps_seq inside_getParams <| keeps_seq (keeps_maybe isIn (keeps_code_stages _)) <|
      inside_withClients clients h <| keeps_seq hp (hresults isOut)
  | field0 =>
    exact keeps_seq inside_getParams <| keeps_seq (keeps_code_stages _) <| keeps_seq hp hbuild
  | pointer isIn isOut clients =>
    have hidle : Idle (stages E mayWait) (.registered true) .want :=
      idle_stages .want trivial rfl
    refine keeps_seq inside_getParams (hidle.op fun (want : Bool) _ => ?_)
    cases want with
    | false => exact hp
    | true =>
      exact keeps_seq (keeps_maybe isIn (keeps_code_stages _)) <|
        inside_withClients clients h <| keeps_seq hp (hresults isOut)
  | reference iface =>
    have hwait : mayWait = true := h.resolve_right nofun
    have hcalls : Calls (stages E mayWait) (.registered true) := calls_stages (.inr hwait)
    exact keeps_seq inside_getParams <| keeps_seq (keeps_constructClient hcalls iface) <|
      keeps_scope hp (keeps_destroyClient hcalls iface)
  | message =>
    exact keeps_seq inside_getParams <| keeps_seq inside_getResults <|
      keeps_seq (keeps_code_stages _) <| keeps_seq hp (keeps_code_stages _)
  | ret clients => exact keeps_seq hp (inside_holdingClients clients hbuild)
  | except t => exact keeps_tryCatch hp hbuild

/-- The chain, by induction over its wrappers from the innermost callable outwards. -/
theorem inside_chain (inner : Innermost) (ws : List (Wrapper E))
    (h : mayWait = true ∨ loopFree ws = true) : Inside mayWait (chain inner ws) := by
  induction ws with
  | nil => exact inside_innermost inner
  | cons w ws ih =>
    have hsplit : mayWait = true ∨ w.loopFree = true ∧ loopFree ws = true := by
      simpa only [loopFree, List.all_cons, Bool.and_eq_true] using h
    exact inside_wrapper (ih (hsplit.imp_right And.right)) w (hsplit.imp_right And.left)

/-- Every request goes through the stages in order, whatever its environment answers. If the chain
is loop-free and the answers with the lock held are waitless, it never waits for the event loop
with the lock held. -/
theorem follows_stages (inner : Innermost) (ws : List (Wrapper E))
    (h : mayWait = true ∨ loopFree ws = true) :
    Follows (stages E mayWait) .start (request inner ws) fun st _ => st = .finished := by
  have hpass : Inside mayWait (passContext (chain inner ws)) := by
    have hidle : Idle (stages E mayWait) (.registered true) (.canceled .beforeInvoke) :=
      idle_stages _ rfl rfl
    refine hidle.op fun (canceled : Bool) _ => ?_
    cases canceled with
    | true => exact rfl
    | false =>
      exact keeps_tryCatch (inside_chain inner ws h) (keeps_act (idle_stages .interrupted trivial rfl))
  have hfinish : ∀ r, Follows (stages E mayWait) (.registered true) (finishRequest r)
      fun st _ => st = .finished := fun r =>
    ⟨rfl, fun _ _ => ⟨rfl, fun _ _ => ⟨rfl, fun _ _ => ⟨rfl, fun _ _ => rfl⟩⟩⟩⟩
  exact ⟨.inl rfl, fun _ _ => ⟨.inr rfl, fun _ _ => ⟨rfl, fun _ _ => ⟨rfl, fun _ _ =>
    Keeps.bind hpass hfinish⟩⟩⟩⟩

end Chain

end Multiprocess.Server
