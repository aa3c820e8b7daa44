import Mathlib.Data.List.Basic
import Multiprocess.Server.Rules

/-!
# Cancellation against the chain of wrappers

`ServerCall` throws `InterruptException` when it finds the request canceled after the method.
`watch` is the automaton that says what must not happen then: nothing touches the params or
results any more, and the exception reaches its handler. Every wrapper keeps to it but a
`ServerExcept` declared for a type that catches `InterruptException`.

Only a cancellation that `ServerCall` finds is watched here. `Cancel` is about the protocol as a
whole.
-/

namespace Multiprocess.Server

open Resumption Multiprocess.Server.Comp
open Resumption.Prog (Trace Event Follows)

variable {E : Type}

/-! ## What must not happen after a cancellation was seen -/

/-- Whether `ServerCall` found the request canceled, and whether the handler was reached since. -/
structure Watch where
  canceled : Bool
  handled : Bool
  deriving DecidableEq

def Watch.clean : Watch := ⟨false, false⟩

def Watch.after (s : Watch) : (o : Op) → Op.Ans E o → Watch
  | .canceled .afterBody, (canceled : Bool) => if canceled then ⟨true, false⟩ else s
  | .interrupted, _ => { s with handled := true }
  | _, _ => s

/-- Once canceled, the params and results are not touched, whatever the answers. -/
def watch (E : Type) : Protocol Op (Op.Ans E) Watch where
  allows s o := s.canceled = true → o ≠ .getParams ∧ o ≠ .getResults
  expects _ _ _ := True
  after := Watch.after

/-- The program changes nothing the automaton sees. -/
def Quiet (p : Comp E) : Prop := ∀ s, Keeps (watch E) s p

/-- Nothing was canceled, or the exception for it is on its way up. -/
def Won [ExceptionTypes E] (s : Watch) (r : Except E Unit) : Prop :=
  s = .clean ∨ s = ⟨true, false⟩ ∧ r = .error ExceptionTypes.interrupt

/-- The code keeps to the automaton, and leaves by the exception if it saw the cancellation. -/
def Wins [ExceptionTypes E] (p : Comp E) : Prop := Follows (watch E) .clean p Won

/-! ### Quiet code -/

/-- The operations the automaton does not look at. -/
def Op.unwatched : Op → Bool
  | .getParams | .getResults | .interrupted | .canceled .afterBody => false
  | _ => true

/-- The operations that `watch` does not look at. -/
theorem idle_watch (o : Op) (h : o.unwatched = true) (s : Watch) : Idle (watch E) s o := by
  cases o with
  | getParams => cases h
  | getResults => cases h
  | interrupted => cases h
  | canceled site =>
    cases site with
    | afterBody => cases h
    | beforeInvoke => exact ⟨fun _ => ⟨nofun, nofun⟩, fun _ => rfl⟩
  | _ => exact ⟨fun _ => ⟨nofun, nofun⟩, fun _ => rfl⟩

/-- Nothing at all is quiet. -/
theorem quiet_skip : Quiet (skip : Comp E) := fun _ => rfl

/-- Calls of other processes are not watched, however they end. -/
theorem calls_watch (s : Watch) : Calls (watch E) s where
  build := idle_watch (.sync .build) rfl s
  sent := idle_watch .sent rfl s
  await := idle_watch .await rfl s
  release := idle_watch (.sync .release) rfl s
  other := idle_watch (.sync .other) rfl s

/-- Application code is quiet, whatever it waits for. -/
theorem quiet_code (c : Code) : Quiet (code c : Comp E) := fun s =>
  keeps_code (idle_watch .waits rfl s) (fun ws _ => keeps_waits (calls_watch s) ws)
    (idle_watch (.code c) rfl s)

/-- Constructing a client is quiet. -/
theorem quiet_constructClient (iface : Interface) : Quiet (constructClient iface : Comp E) :=
  fun s => keeps_constructClient (calls_watch s) iface

/-- So is destroying one. -/
theorem quiet_destroyClient (iface : Interface) : Quiet (destroyClient iface : Comp E) := fun s =>
  keeps_destroyClient (calls_watch s) iface

/-- And destroying one that the implementation owns. -/
theorem quiet_destroyOwned (iface : Interface) : Quiet (destroyOwned iface : Comp E) := fun s =>
  keeps_destroyOwned (idle_watch .owned rfl s) iface fun _ => quiet_destroyClient iface s

/-! ### Code that lets the cancellation win -/

section Wins

variable [ExceptionTypes E]

/-- Code that is quiet lets a cancellation win. -/
theorem wins_of_quiet {p : Comp E} (h : Quiet p) : Wins p := (h .clean).mono fun _ _ => .inl

/-- Code that wins goes on with code that wins: either nothing was canceled yet, or the exception
skips it. -/
theorem Wins.bind {p : Comp E} {f : Except E Unit → Comp E} (hp : Wins p)
    (clean : ∀ r, Wins (f r))
    (canceled : Follows (watch E) ⟨true, false⟩ (f (.error ExceptionTypes.interrupt)) Won) :
    Wins (p.bind f) := by
  refine Prog.follows_bind.mpr (hp.mono fun s r hr => ?_)
  rcases hr with rfl | ⟨rfl, rfl⟩
  · exact clean r
  · exact canceled

/-- A throw does, since nothing comes after it. -/
theorem wins_throw (e : E) : Wins (throw e) := .inl rfl

/-- Two programs one after the other: the second runs only if nothing left the first. -/
theorem wins_seq {p q : Comp E} (hp : Wins p) (hq : Wins q) : Wins (p.seq q) := by
  refine hp.bind (fun r => ?_) (.inr ⟨rfl, rfl⟩)
  cases r with
  | ok => exact hq
  | error e => exact wins_throw e

/-- A scope with a quiet destructor. -/
theorem wins_scope {p d : Comp E} (hp : Wins p) (hd : Quiet d) : Wins (p.scope d) := by
  refine hp.bind (fun r => ?_) ?_
  · refine Prog.follows_bind.mpr ((hd .clean).mono fun s _ hs => ?_)
    exact .inl hs
  · refine Prog.follows_bind.mpr ((hd _).mono fun s _ hs => ?_)
    exact .inr ⟨hs, rfl⟩

/-- A handler that does not catch `InterruptException` never runs after a cancellation. -/
theorem wins_tryCatch {p handler : Comp E} {t : E} (hp : Wins p) (hh : Wins handler)
    (ht : ExceptionTypes.catches t (ExceptionTypes.interrupt : E) = false) :
    Wins (p.tryCatch t handler) := by
  refine hp.bind (fun r => ?_) ?_
  · cases r with
    | ok => exact wins_of_quiet quiet_skip
    | error e =>
      simp only
      split
      · exact hh
      · exact wins_throw e
  · simp only [ht, Bool.false_eq_true, ↓reduceIte]
    exact .inr ⟨rfl, rfl⟩

theorem wins_getParams : Wins (act .getParams : Comp E) := ⟨nofun, fun _ _ => .inl rfl⟩

theorem wins_getResults : Wins (act .getResults : Comp E) := ⟨nofun, fun _ _ => .inl rfl⟩

/-- The application's code touches neither the params nor the results. -/
theorem wins_code (c : Code) : Wins (code c : Comp E) := wins_of_quiet (quiet_code c)

theorem wins_maybe (present : Bool) {p : Comp E} (hp : Wins p) : Wins (maybe present p) := by
  cases present with
  | false => exact wins_of_quiet quiet_skip
  | true => exact hp

/-- Clients held around a program are constructed and destroyed quietly. -/
theorem wins_withClients (clients : List Interface) {p : Comp E} (hp : Wins p) :
    Wins (withClients clients p) := by
  induction clients with
  | nil => exact hp
  | cons iface _ ih =>
    exact wins_seq (wins_of_quiet (quiet_constructClient iface))
      (wins_scope ih (quiet_destroyOwned iface))

/-- So are those that are passed by value. -/
theorem wins_holdingClients (clients : List Interface) {p : Comp E} (hp : Wins p) :
    Wins (holdingClients p clients) := by
  induction clients with
  | nil => exact hp
  | cons iface _ ih => exact wins_scope ih (quiet_destroyOwned iface)

/-- What `ServerCall` does after the method throws `InterruptException` if the request was canceled.
-/
theorem wins_afterBody (r : Except E Unit) :
    Wins (match r with | .ok () => afterBody | .error e => afterBody.seq (throw e)) := by
  have hafter : Wins (afterBody : Comp E) := by
    refine ⟨fun _ => ⟨nofun, nofun⟩, fun _ _ => ⟨fun _ => ⟨nofun, nofun⟩, fun canceled _ => ?_⟩⟩
    cases canceled with
    | false => exact .inl rfl
    | true => exact .inr ⟨rfl, rfl⟩
  cases r with
  | ok => exact hafter
  | error e => exact wins_seq hafter (wins_throw e)

/-- The innermost callable lets a cancellation win. -/
theorem wins_serverCall : Wins (serverCall : Comp E) := by
  have hunlock : Quiet (act .unlock : Comp E) := fun s =>
    keeps_act (idle_watch .unlock rfl s)
  refine wins_seq (wins_of_quiet hunlock) ?_
  refine Prog.follows_bind.mpr ((quiet_code .body .clean).mono fun s r hs => ?_)
  subst hs
  exact wins_afterBody r

/-- One case for each wrapper. -/
theorem wins_wrapper {parent : Comp E} (hp : Wins parent) (w : Wrapper E)
    (hw : ∀ t, w = .except t →
      ExceptionTypes.catches t (ExceptionTypes.interrupt : E) = false) :
    Wins (w.invoke parent) := by
  cases w with
  | field isIn isOut clients =>
    exact wins_seq wins_getParams <| wins_seq (wins_maybe isIn (wins_code _)) <|
      wins_withClients clients <| wins_seq hp <|
        wins_seq wins_getResults (wins_maybe isOut (wins_code _))
  | field0 =>
    exact wins_seq wins_getParams <| wins_seq (wins_code _) <| wins_seq hp <|
      wins_seq wins_getResults (wins_code _)
  | pointer isIn isOut clients =>
    refine wins_seq wins_getParams ⟨fun _ => ⟨nofun, nofun⟩, fun want _ => ?_⟩
    cases want with
    | false => exact hp
    | true =>
      exact wins_seq (wins_maybe isIn (wins_code _)) <| wins_withClients clients <|
        wins_seq hp <| wins_seq wins_getResults (wins_maybe isOut (wins_code _))
  | reference iface =>
    exact wins_seq wins_getParams <| wins_seq (wins_of_quiet (quiet_constructClient iface)) <|
      wins_scope hp (quiet_destroyClient iface)
  | message =>
    exact wins_seq wins_getParams <| wins_seq wins_getResults <| wins_seq (wins_code _) <|
      wins_seq hp (wins_code _)
  | ret clients =>
    exact wins_seq hp (wins_holdingClients clients (wins_seq wins_getResults (wins_code _)))
  | except t => exact wins_tryCatch hp (wins_seq wins_getResults (wins_code _)) (hw t rfl)

/-- So does the whole chain, where no declared type catches `InterruptException`. -/
theorem wins_chain {ws : List (Wrapper E)}
    (hws : ∀ t, .except t ∈ ws →
      ExceptionTypes.catches t (ExceptionTypes.interrupt : E) = false) :
    Wins (chain .call ws) := by
  induction ws with
  | nil => exact wins_serverCall
  | cons w ws ih =>
    refine wins_wrapper (ih fun t ht => hws t (List.mem_cons_of_mem _ ht)) w ?_
    rintro t rfl
    exact hws t List.mem_cons_self

/-- `catch (const InterruptException&)` catches it. -/
theorem catches_interrupt_self :
    ExceptionTypes.catches (ExceptionTypes.interrupt : E) ExceptionTypes.interrupt = true :=
  (ExceptionTypes.catches_interrupt _).mpr (.inl rfl)

/-- The whole request: what was canceled was handled. -/
theorem follows_request {ws : List (Wrapper E)} (h : Wins (chain .call ws)) :
    Follows (watch E) .clean (request .call ws) fun s _ => s.canceled = true → s.handled = true := by
  have finish : ∀ (s : Watch) (r : Except E Unit), (s.canceled = true → s.handled = true) →
      Follows (watch E) s (finishRequest r) fun s _ => s.canceled = true → s.handled = true :=
    fun s r hs => ⟨fun _ => ⟨nofun, nofun⟩, fun _ _ => ⟨fun _ => ⟨nofun, nofun⟩, fun _ _ =>
      ⟨fun _ => ⟨nofun, nofun⟩, fun _ _ => ⟨fun _ => ⟨nofun, nofun⟩, fun _ _ => hs⟩⟩⟩⟩
  refine ⟨fun _ => ⟨nofun, nofun⟩, fun _ _ => ⟨fun _ => ⟨nofun, nofun⟩, fun _ _ =>
    ⟨fun _ => ⟨nofun, nofun⟩, fun _ _ => ⟨fun _ => ⟨nofun, nofun⟩, fun _ _ => ?_⟩⟩⟩⟩
  refine Prog.follows_bind.mpr ⟨fun _ => ⟨nofun, nofun⟩, fun canceled _ => ?_⟩
  cases canceled with
  | true => exact finish _ _ nofun
  | false =>
    refine Prog.follows_bind.mpr (h.mono fun s r hr => ?_)
    rcases hr with rfl | ⟨rfl, rfl⟩
    · cases r with
      | ok => exact finish _ _ nofun
      | error e =>
        simp only
        split
        · exact ⟨fun _ => ⟨nofun, nofun⟩, fun _ _ => finish _ _ nofun⟩
        · exact finish _ _ nofun
    · simp only [catches_interrupt_self, ↓reduceIte]
      exact ⟨fun _ => ⟨nofun, nofun⟩, fun _ _ => finish _ _ fun _ => rfl⟩

end Wins

/-! ## What it means for a trace -/

/-- Once `ServerCall` has found the request canceled, the params and results are not touched any
more and the exception reaches its handler. -/
def CancelWins (es : List (Event (Op.Ans E))) : Prop :=
  ∀ before after, es = before ++ ⟨.canceled .afterBody, true⟩ :: after →
    (∀ e ∈ after, e.1 ≠ .getParams ∧ e.1 ≠ .getResults) ∧ ∃ e ∈ after, e.1 = .interrupted

/-- A request that was found canceled stays so. -/
theorem after_canceled (s : Watch) (o : Op) (b : Op.Ans E o) (h : s.canceled = true) :
    (s.after o b).canceled = true := by
  unfold Watch.after
  split
  · split
    · rfl
    · exact h
  · exact h
  · exact h

/-- After that, neither the params nor the results are touched. -/
theorem untouched_of_accepts {s : Watch} {es : List (Event (Op.Ans E))}
    (h : (watch E).Accepts s es) (canceled : s.canceled = true) :
    ∀ e ∈ es, e.1 ≠ .getParams ∧ e.1 ≠ .getResults := by
  induction es generalizing s with
  | nil => nofun
  | cons e es ih =>
    intro f hf
    rcases List.mem_cons.mp hf with rfl | hf
    · exact h.1 canceled
    · exact ih h.2 (after_canceled s e.1 e.2 canceled) f hf

/-- Only the handler of `PassField` handles the exception. -/
theorem after_handled (s : Watch) (o : Op) (b : Op.Ans E o) (ho : o ≠ .interrupted)
    (h : s.handled = false) : (s.after o b).handled = false := by
  unfold Watch.after
  split
  · split
    · rfl
    · exact h
  · exact absurd rfl ho
  · exact h

/-- Where it was handled, that handler has run. -/
theorem handled_of_reach {s : Watch} {es : List (Event (Op.Ans E))} (h : s.handled = false)
    (handled : ((watch E).reach s es).handled = true) : ∃ e ∈ es, e.1 = .interrupted := by
  induction es generalizing s with
  | nil =>
    rw [Protocol.reach, h] at handled
    cases handled
  | cons e es ih =>
    by_cases he : e.1 = .interrupted
    · exact ⟨e, List.mem_cons_self, he⟩
    · obtain ⟨f, hf, hi⟩ := ih (after_handled s e.1 e.2 he h) handled
      exact ⟨f, List.mem_cons_of_mem _ hf, hi⟩

/-- Found canceled stays found canceled, over any events. -/
theorem canceled_of_reach {s : Watch} {es : List (Event (Op.Ans E))}
    (h : s.canceled = true) : ((watch E).reach s es).canceled = true := by
  induction es generalizing s with
  | nil => exact h
  | cons e es ih => exact ih (after_canceled s e.1 e.2 h)

/-- A run that `watch` accepts to its end is one in which a cancellation wins. -/
theorem cancelWins_of_accepts {s : Watch} {es : List (Event (Op.Ans E))}
    (h : (watch E).Accepts s es)
    (fin : ((watch E).reach s es).canceled = true → ((watch E).reach s es).handled = true) :
    CancelWins es := by
  intro before after hes
  induction before generalizing s es with
  | nil =>
    subst hes
    obtain ⟨-, hacc⟩ := h
    have hcanceled : ((watch E).reach ⟨true, false⟩ after).canceled = true := canceled_of_reach rfl
    exact ⟨untouched_of_accepts hacc rfl, handled_of_reach rfl (fin hcanceled)⟩
  | cons e before ih =>
    subst hes
    exact ih h.2 fin rfl

/-! ## A chain that catches the exception for the cancellation -/

section Catching

variable [ExceptionTypes E]

/-- The wrapper catches `InterruptException`. -/
def Wrapper.catching : Wrapper E → Bool
  | .except t => ExceptionTypes.catches t (ExceptionTypes.interrupt : E)
  | _ => false

instance : ∀ o : Op, Nonempty (Op.Ans E o)
  | .code _ | .await => ⟨Except.ok ()⟩
  | .sent | .canceled _ | .want | .owned => ⟨false⟩
  | .waits => ⟨([] : List Wait)⟩
  | .sync _ | .lock | .unlock | .getParams | .getResults | .interrupted | .enter | .leave => ⟨()⟩

omit [ExceptionTypes E] in
/-- Every program has some run. -/
theorem exists_trace {α : Type} (p : Prog Op (Op.Ans E) α) : ∃ es r, Trace p es r := by
  induction p with
  | pure a => exact ⟨[], a, .pure a⟩
  | op o k ih =>
    obtain ⟨b⟩ := (inferInstance : Nonempty (Op.Ans E o))
    obtain ⟨es, r, h⟩ := ih b
    exact ⟨_, r, .op b h⟩

/-- Some trace of the program contains each trace of the parent, and the exception for a
cancellation passes through it. -/
def Opens (parent p : Comp E) : Prop :=
  ∃ before, ∀ es r, Trace parent es r → ∃ after r', Trace p (before ++ (es ++ after)) r' ∧
    (r = .error ExceptionTypes.interrupt → r' = r)

theorem opens_refl (p : Comp E) : Opens p p :=
  ⟨[], fun es r h => ⟨[], r, by simpa only [List.append_nil, List.nil_append] using h, fun _ => rfl⟩⟩

/-- An operation before the parent, with any answer. -/
theorem opens_op {parent : Comp E} {o : Op} {k : Op.Ans E o → Comp E} (b : Op.Ans E o)
    (h : Opens parent (k b)) : Opens parent (.op o k) := by
  obtain ⟨before, h⟩ := h
  refine ⟨⟨o, b⟩ :: before, fun es r ht => ?_⟩
  obtain ⟨after, r', htrace, hr⟩ := h es r ht
  exact ⟨after, r', .op b htrace, hr⟩

/-- The program can return normally. -/
def CanReturn (p : Comp E) : Prop := ∃ es, Trace p es (.ok ())

/-- A program that can return before the parent. -/
theorem opens_before {parent p q : Comp E} (hp : CanReturn p) (hq : Opens parent q) :
    Opens parent (p.seq q) := by
  obtain ⟨es₀, h₀⟩ := hp
  obtain ⟨before, h⟩ := hq
  refine ⟨es₀ ++ before, fun es r ht => ?_⟩
  obtain ⟨after, r', htrace, hr⟩ := h es r ht
  refine ⟨after, r', ?_, hr⟩
  rw [List.append_assoc]
  exact h₀.bind htrace

/-- A program after the parent, which passes the exception on. -/
theorem opens_bind {parent : Comp E} (f : Except E Unit → Comp E)
    (pass : Trace (f (.error ExceptionTypes.interrupt)) []
      (.error (ExceptionTypes.interrupt : E))) : Opens parent (Prog.bind parent f) := by
  refine ⟨[], fun es r ht => ?_⟩
  by_cases hr : r = .error ExceptionTypes.interrupt
  · subst hr
    exact ⟨[], _, ht.bind pass, fun _ => rfl⟩
  · obtain ⟨after, r', hafter⟩ := exists_trace (f r)
    exact ⟨after, r', ht.bind hafter, fun h => absurd h hr⟩

/-- The exception skips what comes after in sequence. -/
theorem opens_seq (parent q : Comp E) : Opens parent (parent.seq q) := opens_bind _ (.pure _)

/-- It leaves a scope once the destructor has run. -/
theorem opens_scope {parent p : Comp E} (h : Opens parent p) (d : Comp E) :
    Opens parent (p.scope d) := by
  obtain ⟨before, h⟩ := h
  obtain ⟨es₁, r₁, hd⟩ := exists_trace d
  refine ⟨before, fun es r ht => ?_⟩
  obtain ⟨after, r', htrace, hr⟩ := h es r ht
  refine ⟨after ++ es₁, r', ?_, hr⟩
  have hleave : Trace (Prog.bind d fun _ => .pure r') (es₁ ++ []) r' := hd.bind (.pure r')
  have hscope : Trace (p.scope d) _ r' := htrace.bind hleave
  simpa only [List.append_nil, List.append_assoc] using hscope

/-- It passes a handler that does not catch it. -/
theorem opens_catch (parent : Comp E) {t : E} (handler : Comp E)
    (ht : ExceptionTypes.catches t (ExceptionTypes.interrupt : E) = false) :
    Opens parent (parent.tryCatch t handler) := by
  refine opens_bind _ ?_
  simp only [ht, Bool.false_eq_true, ↓reduceIte]
  exact .pure _

omit [ExceptionTypes E] in
/-- An operation has the run of that one event. -/
theorem trace_act (o : Op) (b : Op.Ans E o) : Trace (act o : Comp E) [⟨o, b⟩] (.ok ()) :=
  .op b (.pure _)

omit [ExceptionTypes E] in
theorem trace_perform (o : Op) (b : Op.Ans E o) :
    Trace (Prog.perform o : Prog Op (Op.Ans E) (Op.Ans E o)) [⟨o, b⟩] b := .op b (.pure b)

omit [ExceptionTypes E] in
/-- Code that waits for nothing. -/
theorem trace_code (c : Code) (r : Except E Unit) :
    Trace (code c : Comp E) [⟨.waits, ([] : List Wait)⟩, ⟨.code c, r⟩] r := by
  have hrest : Trace (Prog.bind (waits []) fun _ => Prog.perform (Op.code c) : Comp E)
      [⟨.code c, r⟩] r := trace_perform (.code c) r
  exact .op _ hrest

omit [ExceptionTypes E] in
theorem canReturn_act (o : Op) : CanReturn (act o : Comp E) := by
  obtain ⟨b⟩ := (inferInstance : Nonempty (Op.Ans E o))
  exact ⟨_, trace_act o b⟩

omit [ExceptionTypes E] in
/-- The application's code can return. -/
theorem canReturn_code (c : Code) : CanReturn (code c : Comp E) := ⟨_, trace_code c (.ok ())⟩

omit [ExceptionTypes E] in
theorem canReturn_maybe (present : Bool) {p : Comp E} (h : CanReturn p) :
    CanReturn (maybe present p) := by
  cases present with
  | false => exact ⟨[], .pure _⟩
  | true => exact h

omit [ExceptionTypes E] in
/-- A call of another process can return. -/
theorem canReturn_clientInvoke : CanReturn (clientInvoke : Comp E) := by
  have hsent : Trace (.op .sent fun (sent : Bool) => if sent then Prog.perform Op.await else skip :
      Comp E) [⟨.sent, false⟩] (.ok ()) := .op _ (.pure _)
  exact ⟨_, (trace_act (.sync .build) ()).bind hsent⟩

omit [ExceptionTypes E] in
theorem canReturn_constructClient (iface : Interface) :
    CanReturn (constructClient iface : Comp E) := by
  unfold constructClient
  split
  · exact canReturn_clientInvoke
  · exact ⟨[], .pure _⟩

/-- Clients around a program do not keep its parent from being reached. -/
theorem opens_withClients {parent p : Comp E} (clients : List Interface) (h : Opens parent p) :
    Opens parent (withClients clients p) := by
  induction clients with
  | nil => exact h
  | cons iface _ ih => exact opens_before (canReturn_constructClient iface) (opens_scope ih _)

/-- A wrapper that does not catch the exception for a cancellation lets it through. -/
theorem opens_wrapper (parent : Comp E) {w : Wrapper E} (hw : w.catching = false) :
    Opens parent (w.invoke parent) := by
  cases w with
  | field isIn isOut clients =>
    exact opens_before (canReturn_act _) <| opens_before (canReturn_maybe isIn (canReturn_code _)) <|
      opens_withClients clients (opens_seq parent _)
  | field0 =>
    exact opens_before (canReturn_act _) <| opens_before (canReturn_code _) (opens_seq parent _)
  | pointer isIn isOut clients =>
    exact opens_before (canReturn_act _) <| opens_op (o := .want) true <|
      opens_before (canReturn_maybe isIn (canReturn_code _)) <|
        opens_withClients clients (opens_seq parent _)
  | reference iface =>
    exact opens_before (canReturn_act _) <| opens_before (canReturn_constructClient iface) <|
      opens_scope (opens_refl parent) _
  | message =>
    exact opens_before (canReturn_act _) <| opens_before (canReturn_act _) <|
      opens_before (canReturn_code _) (opens_seq parent _)
  | ret clients => exact opens_seq parent _
  | except t => exact opens_catch parent _ hw

/-- The event of a cancellation found by `ServerCall`. -/
def foundCanceled : Event (Op.Ans E) := ⟨.canceled .afterBody, true⟩

/-- The results are touched after the cancellation was found. -/
def Spoiled (es : List (Event (Op.Ans E))) : Prop :=
  ∃ before after, es = before ++ foundCanceled :: after ∧ ∃ e ∈ after, e.1 = .getResults

omit [ExceptionTypes E] in
/-- A run with a spoiled part is spoiled. -/
theorem Spoiled.extend {es : List (Event (Op.Ans E))} (h : Spoiled es)
    (before after : List (Event (Op.Ans E))) : Spoiled (before ++ (es ++ after)) := by
  obtain ⟨b, a, rfl, e, he, hr⟩ := h
  refine ⟨before ++ b, a ++ after, ?_, e, List.mem_append_left _ he, hr⟩
  simp only [List.append_assoc, List.cons_append]

omit [ExceptionTypes E] in
/-- And in a spoiled run the cancellation has not won. -/
theorem Spoiled.not_cancelWins {es : List (Event (Op.Ans E))} (h : Spoiled es) :
    ¬ CancelWins es := by
  obtain ⟨b, a, hes, e, he, hr⟩ := h
  intro hw
  exact ((hw b a hes).1 e he).2 hr

/-- A request canceled while its method ran leaves `ServerCall` by `InterruptException`. -/
theorem serverCall_canceled :
    ∃ es, Trace (serverCall : Comp E) es (.error ExceptionTypes.interrupt) ∧
      foundCanceled ∈ es := by
  refine ⟨[⟨.unlock, ()⟩, ⟨.waits, ([] : List Wait)⟩, ⟨.code .body, Except.ok ()⟩, ⟨.lock, ()⟩,
    foundCanceled], ?_, ?_⟩
  · exact .op _ (.op _ (.op _ (.op _ (.op _ (.pure _)))))
  · simp only [List.mem_cons, true_or, or_true]

/-- Catching the exception, a `ServerExcept` builds its field in the results. -/
theorem catch_spoils {parent : Comp E} {t : E} {es : List (Event (Op.Ans E))}
    (ht : ExceptionTypes.catches t (ExceptionTypes.interrupt : E) = true)
    (h : Trace parent es (.error ExceptionTypes.interrupt)) (found : foundCanceled ∈ es) :
    ∃ es' r, Trace ((Wrapper.except t).invoke parent) es' r ∧ Spoiled es' := by
  obtain ⟨before, after, rfl⟩ := List.append_of_mem found
  have hbuild : Trace ((act .getResults).seq (code .build) : Comp E)
      ([⟨.getResults, ()⟩] ++ [⟨.waits, ([] : List Wait)⟩, ⟨.code .build, Except.ok ()⟩])
      (.ok ()) :=
    (trace_act .getResults ()).bind (trace_code .build (.ok ()))
  have hcatch : Trace ((Wrapper.except t).invoke parent) ((before ++ foundCanceled :: after) ++
      ([⟨.getResults, ()⟩] ++ [⟨.waits, ([] : List Wait)⟩, ⟨.code .build, Except.ok ()⟩]))
      (.ok ()) := by
    refine h.bind ?_
    simp only [ht, ↓reduceIte]
    exact hbuild
  refine ⟨_, _, hcatch, before, after ++ [⟨.getResults, ()⟩, ⟨.waits, ([] : List Wait)⟩,
    ⟨.code .build, Except.ok ()⟩], ?_, ⟨.getResults, ()⟩, ?_, rfl⟩
  · simp only [List.append_assoc, List.cons_append, List.nil_append]
  · simp only [List.mem_append, List.mem_cons, true_or, or_true]

/-- Any wrapper keeps what was spoiled inside it. -/
theorem wrapper_spoiled {parent : Comp E} {es : List (Event (Op.Ans E))} {r : Except E Unit}
    (h : Trace parent es r) (spoiled : Spoiled es) (w : Wrapper E) :
    ∃ es' r', Trace (w.invoke parent) es' r' ∧ Spoiled es' := by
  cases hw : w.catching with
  | false =>
    obtain ⟨before, hopen⟩ := opens_wrapper parent hw
    obtain ⟨after, r', ht, -⟩ := hopen es r h
    exact ⟨_, r', ht, spoiled.extend before after⟩
  | true =>
    cases w with
    | except t =>
      obtain ⟨after, r', ht⟩ := exists_trace (E := E) (match r with
        | .ok () => skip
        | .error e => if ExceptionTypes.catches t e then
            (act .getResults).seq (code .build) else throw e)
      exact ⟨_, r', h.bind ht, spoiled.extend [] after⟩
    | _ => cases hw

/-- A canceled call comes out of the chain as the exception, or some wrapper has caught it. -/
theorem chain_canceled (ws : List (Wrapper E)) :
    (∃ es r, Trace (chain .call ws) es r ∧ Spoiled es) ∨ (∀ w ∈ ws, w.catching = false) ∧
      ∃ es, Trace (chain .call ws) es (.error ExceptionTypes.interrupt) ∧ foundCanceled ∈ es := by
  induction ws with
  | nil => exact .inr ⟨nofun, serverCall_canceled⟩
  | cons w ws ih =>
    rcases ih with ⟨es, r, ht, hs⟩ | ⟨hws, es, ht, hfound⟩
    · exact .inl (wrapper_spoiled ht hs w)
    · cases hw : w.catching with
      | false =>
        right
        refine ⟨fun v hv => ?_, ?_⟩
        · rcases List.mem_cons.mp hv with rfl | hv
          · exact hw
          · exact hws v hv
        · obtain ⟨before, hopen⟩ := opens_wrapper (chain .call ws) hw
          obtain ⟨after, r', ht', hr⟩ := hopen es _ ht
          rw [hr rfl] at ht'
          refine ⟨_, ht', ?_⟩
          exact List.mem_append_right _ (List.mem_append_left _ hfound)
      | true =>
        left
        cases w with
        | except t => exact catch_spoils hw ht hfound
        | _ => cases hw

/-- A trace of the chain is part of a trace of the request. -/
theorem request_trace {ws : List (Wrapper E)} {es : List (Event (Op.Ans E))} {r : Except E Unit}
    (h : Trace (chain .call ws) es r) :
    ∃ before after r', Trace (request .call ws) (before ++ (es ++ after)) r' := by
  obtain ⟨mid, r₁, hmid⟩ := exists_trace (E := E) (match r with
    | .ok () => skip
    | .error e => if ExceptionTypes.catches ExceptionTypes.interrupt e then act .interrupted
        else throw e)
  obtain ⟨last, r₂, hlast⟩ := exists_trace (finishRequest r₁)
  have hpass : Trace (passContext (chain .call ws))
      (⟨.canceled .beforeInvoke, false⟩ :: (es ++ mid)) r₁ := by
    unfold passContext
    exact .op _ (h.bind hmid)
  refine ⟨[⟨.sync .ready, ()⟩, ⟨.enter, ()⟩, ⟨.lock, ()⟩, ⟨.sync .register, ()⟩,
    ⟨.canceled .beforeInvoke, false⟩], mid ++ last, r₂, ?_⟩
  have hall := hpass.bind hlast
  simp only [List.cons_append, List.append_assoc] at hall
  exact .op _ (.op _ (.op _ (.op _ hall)))

/-- Cancellation wins in every run of the request exactly if no `ServerExcept` of the chain is
declared for `std::exception` or `InterruptException`. -/
theorem cancel_wins_iff (ws : List (Wrapper E)) :
    (∀ es r, Trace (request .call ws) es r → CancelWins es) ↔
      ∀ t, .except t ∈ ws → t ≠ ExceptionTypes.stdException ∧ t ≠ ExceptionTypes.interrupt := by
  have hcatch : ∀ t : E, t ≠ ExceptionTypes.stdException ∧ t ≠ ExceptionTypes.interrupt ↔
      ExceptionTypes.catches t (ExceptionTypes.interrupt : E) = false := by
    intro t
    rw [← Bool.not_eq_true, ExceptionTypes.catches_interrupt, not_or, and_comm]
  simp only [hcatch]
  constructor
  · intro hall t ht
    rcases chain_canceled ws with ⟨es, r, htrace, hspoiled⟩ | ⟨hws, -⟩
    · obtain ⟨before, after, r', hreq⟩ := request_trace htrace
      exact absurd (hall _ _ hreq) (hspoiled.extend before after).not_cancelWins
    · exact hws _ ht
  · intro hws es r ht
    have hexpected := Protocol.expected_of_forall (P := watch E) (fun _ _ _ => trivial) .clean es
    obtain ⟨hacc, hend⟩ := (follows_request (wins_chain hws)).trace ht hexpected
    exact cancelWins_of_accepts hacc hend

end Catching

/-- A method with an `error :Text $Proxy.exception("std::exception")` result is canceled while it
runs: the handler of the wrapper gets the results of the canceled request. -/
theorem cancel_loses_to_std_exception :
    ¬ ∀ es r, Trace (request .call [Wrapper.except StandardException.stdException]) es r →
      CancelWins es := by
  intro hall
  have hrun : Trace (request .call [Wrapper.except StandardException.stdException])
      ([⟨.sync .ready, ()⟩, ⟨.enter, ()⟩, ⟨.lock, ()⟩, ⟨.sync .register, ()⟩,
          ⟨.canceled .beforeInvoke, false⟩, ⟨.unlock, ()⟩, ⟨.waits, ([] : List Wait)⟩,
          ⟨.code .body, Except.ok ()⟩, ⟨.lock, ()⟩] ++ ⟨.canceled .afterBody, true⟩ ::
        [⟨.getResults, ()⟩, ⟨.waits, ([] : List Wait)⟩, ⟨.code .build, Except.ok ()⟩,
          ⟨.unlock, ()⟩, ⟨.sync .clear, ()⟩, ⟨.leave, ()⟩, ⟨.sync .finish, ()⟩]) (.ok ()) := by
    refine .op _ (.op _ (.op _ (.op _ (.op _ (.op _ (.op _ (.op _ (.op _ (.op _ ?_)))))))))
    exact .op _ (.op _ (.op _ (.op _ (.op _ (.op _ (.op _ (.pure _)))))))
  exact ((hall _ _ hrun _ _ rfl).1 ⟨.getResults, ()⟩ List.mem_cons_self).2 rfl

end Multiprocess.Server
