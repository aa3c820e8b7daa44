import Multiprocess.Lib.System

/-!
# `clientInvoke`

One call of `clientInvoke` from a thread that is not the event loop thread
(`src/include/mp/proxy-types.h`), with the event loop thread running its build function and the
continuations of its request. A scenario says how every stage turns out: whether the connection is
null, what each encoder of the request does, what comes back, what each decoder does. The caller
and the event loop interleave in every way.

`never_left_waiting_iff` says which scenarios let the caller wait for ever. A request that is sent
is taken to come back, resolved or rejected: whether a peer answers at all is no part of it.
-/

namespace Multiprocess.Client

variable {E : Type}

/-- `kj::Exception::Type`. -/
inductive KjType where
  | failed
  | overloaded
  | disconnected
  | unimplemented
  deriving DecidableEq

/-- What the request's promise comes to. A declared exception is a decoder that throws. -/
inductive Reply (E : Type) where
  | response (reads : List (Except E Unit))
  | rejected (type : KjType) (text : String)

/-- How every stage of a call turns out: `builds` are the `BuildParams` steps in order, with
`SetThread` where a Context is built. -/
structure Scenario (E : Type) where
  connected : Bool
  builds : List (Except E Unit)
  reply : Reply E

/-- How `clientInvoke` ends: by returning, by `std::rethrow_exception`, or by a `Log::Raise`. -/
inductive Ending (E : Type) where
  | returned
  | rethrown (e : E)
  | raised (text : String)
  deriving DecidableEq

/-- Where the calling thread is. -/
inductive Caller (E : Type) where
  /-- in `loop->sync` -/
  | posting
  /-- in `Waiter::wait` -/
  | waiting
  | ended (endings : List (Ending E))
  deriving DecidableEq

/-- How far the build function is. -/
inductive Build (E : Type) where
  | queued
  | running (left : List (Except E Unit))
  | finished

/-- How far the request is. -/
inductive Request (E : Type) where
  | unsent
  | pending
  /-- its response is being decoded -/
  | reading (left : List (Except E Unit))
  | settled

/-- The call: its threads' positions and the local variables they share. -/
structure State (E : Type) where
  caller : Caller E
  build : Build E
  request : Request E
  done : Bool
  exception : Option E
  kjException : String
  disconnected : Option String

namespace State

/-- The statements of `clientInvoke` after the wait. -/
def endings (s : State E) : List (Ending E) :=
  match s.exception with
  | some e => [.rethrown e]
  | none =>
    let raises := (if s.kjException ≠ "" then [.raised s.kjException] else []) ++
      (s.disconnected.map Ending.raised).toList
    if raises.isEmpty then [.returned] else raises

/-- The build function looks at the connection. -/
def runBuild (sc : Scenario E) (s : State E) : State E :=
  if sc.connected then { s with build := .running sc.builds }
  else { s with
    build := .finished, done := true
    disconnected := some "IPC client method called after disconnect." }

/-- One encoder; what it throws is caught and logged by `EventLoop::loop`. -/
def buildField (s : State E) : State E :=
  match s.build with
  | .running (.ok () :: left) => { s with build := .running left }
  | .running (.error _ :: _) => { s with build := .finished }
  | _ => s

/-- The request's promise is resolved or rejected. -/
def resolve (sc : Scenario E) (s : State E) : State E :=
  match sc.reply with
  | .response reads => { s with request := .reading reads }
  | .rejected .disconnected _ => { s with
      request := .settled, done := true
      disconnected := some "IPC client method call interrupted by disconnect." }
  | .rejected _ text => { s with
      request := .settled, done := true, kjException := "kj::Exception: " ++ text }

/-- One decoder, or the end of them. -/
def readField (s : State E) : State E :=
  match s.request with
  | .reading (.ok () :: left) => { s with request := .reading left }
  | .reading (.error e :: _) => { s with request := .settled, exception := some e, done := true }
  | .reading [] => { s with request := .settled, done := true }
  | _ => s

end State

/-- The steps of the two threads. -/
inductive Action where
  | runBuild
  | buildField
  | send
  | returnPost
  | resolve
  | readField
  | wakeUp
  deriving DecidableEq

/-- Where a step can happen. -/
def enabled (s : State E) : Action → Prop
  | .runBuild => s.build = .queued
  | .buildField => ∃ r left, s.build = .running (r :: left)
  | .send => s.build = .running []
  | .returnPost => s.caller = .posting ∧ s.build = .finished
  | .resolve => s.request = .pending
  | .readField => ∃ left, s.request = .reading left
  | .wakeUp => s.caller = .waiting ∧ s.done = true

/-- What a step does. -/
def next (sc : Scenario E) (s : State E) : Action → State E
  | .runBuild => s.runBuild sc
  | .buildField => s.buildField
  | .send => { s with build := .finished, request := .pending }
  | .returnPost => { s with caller := .waiting }
  | .resolve => s.resolve sc
  | .readField => s.readField
  | .wakeUp => { s with caller := .ended s.endings }

/-- The call has begun. -/
def started : State E where
  caller := .posting
  build := .queued
  request := .unsent
  done := false
  exception := none
  kjException := ""
  disconnected := none

/-- The interleavings of a call in a scenario. -/
def invocation (sc : Scenario E) : Transition.System (State E) Action where
  init s := s = started
  enabled := enabled
  next := next sc

variable {sc : Scenario E} {s : State E}

/-! ## What the outcome says the call comes to -/

/-- The exception of the first decoder that throws. -/
def thrown : List (Except E Unit) → Option E
  | [] => none
  | .ok () :: reads => thrown reads
  | .error e :: _ => some e

/-- The ending the outcome of the stages calls for. -/
def Scenario.expected (sc : Scenario E) : Ending E :=
  if sc.connected then
    match sc.reply with
    | .response reads => (thrown reads).elim .returned .rethrown
    | .rejected .disconnected _ => .raised "IPC client method call interrupted by disconnect."
    | .rejected _ text => .raised ("kj::Exception: " ++ text)
  else .raised "IPC client method called after disconnect."

/-- What a caller may rely on: a completion it waits for can still come, the wait ends in exactly
the ending its outcome calls for, and where nothing more can happen it has ended. -/
structure Fulfills (sc : Scenario E) (s : State E) : Prop where
  promised : s.caller = .waiting → s.done = false →
    s.build ≠ .finished ∨ s.request = .pending ∨ ∃ left, s.request = .reading left
  ends : ∀ es, s.caller = .ended es → es = [sc.expected]
  completes : (invocation sc).Quiescent (fun _ => True) s → s.caller = .ended [sc.expected]

/-- No encoder throws in a call that gets as far as building its request. -/
def Scenario.Builds (sc : Scenario E) : Prop :=
  sc.connected = true → ∀ r ∈ sc.builds, r = .ok ()

/-! ## The stages of a call whose request is built -/

/-- The call when its request is built and nothing has come back. -/
def sent (caller : Caller E) (request : Request E) : State E :=
  { started with caller := caller, build := .finished, request := request }

/-- The stages a call goes through, with the caller anywhere it can be in each. -/
inductive Stage (sc : Scenario E) (s : State E) : Prop
  | queued (h : s = started)
  | building (left : List (Except E Unit)) (conn : sc.connected = true)
      (builds : ∀ r ∈ left, r = .ok ()) (h : s = { started with build := .running left })
  | pending (caller : Caller E) (conn : sc.connected = true) (notEnded : ∀ es, caller ≠ .ended es)
      (h : s = sent caller .pending)
  | reading (caller : Caller E) (left reads : List (Except E Unit)) (conn : sc.connected = true)
      (reply : sc.reply = .response reads) (same : thrown left = thrown reads)
      (notEnded : ∀ es, caller ≠ .ended es) (h : s = sent caller (.reading left))
  | completed (built : s.build = .finished)
      (complete : s.request = .unsent ∨ s.request = .settled) (done : s.done = true)
      (outcome : s.endings = [sc.expected])
      (ended : ∀ es, s.caller = .ended es → es = [sc.expected])

/-- A call that failed with a kj exception raises its text. -/
theorem endings_kjException (h : s.exception = none) (hk : s.kjException ≠ "")
    (hd : s.disconnected = none) : s.endings = [.raised s.kjException] := by
  unfold State.endings
  rw [h, if_pos hk, hd]
  rfl

namespace Stage

/-- Before the posted function runs, nothing has happened. -/
theorem of_queued (h : Stage sc s) (hb : s.build = .queued) : s = started := by
  cases h with
  | queued h => exact h
  | building left conn builds h => rw [h] at hb; cases hb
  | pending caller conn notEnded h => rw [h] at hb; cases hb
  | reading caller left reads conn reply same notEnded h => rw [h] at hb; cases hb
  | completed built => cases built.symm.trans hb

/-- While the request is built, no encoder has thrown yet. -/
theorem of_building (h : Stage sc s) {left : List (Except E Unit)}
    (hb : s.build = .running left) :
    sc.connected = true ∧ (∀ r ∈ left, r = .ok ()) ∧ s = { started with build := .running left } := by
  cases h with
  | queued h => rw [h] at hb; cases hb
  | building left' conn builds h =>
    obtain rfl : left' = left := by
      rw [h] at hb
      cases hb
      rfl
    exact ⟨conn, builds, h⟩
  | pending caller conn notEnded h => rw [h] at hb; cases hb
  | reading caller left reads conn reply same notEnded h => rw [h] at hb; cases hb
  | completed built => cases built.symm.trans hb

/-- Once it is sent, the caller waits for the response. -/
theorem of_pending (h : Stage sc s) (hr : s.request = .pending) :
    sc.connected = true ∧ ∃ caller, (∀ es, caller ≠ .ended es) ∧ s = sent caller .pending := by
  cases h with
  | queued h => rw [h] at hr; cases hr
  | building left conn builds h => rw [h] at hr; cases hr
  | pending caller conn notEnded h => exact ⟨conn, caller, notEnded, h⟩
  | reading caller left reads conn reply same notEnded h => rw [h] at hr; cases hr
  | completed built complete =>
    rcases complete with complete | complete <;> cases complete.symm.trans hr

/-- While the response is read, the caller still waits. -/
theorem of_reading (h : Stage sc s) {left : List (Except E Unit)}
    (hr : s.request = .reading left) :
    sc.connected = true ∧ (∃ reads, sc.reply = .response reads ∧ thrown left = thrown reads) ∧
      ∃ caller, (∀ es, caller ≠ .ended es) ∧ s = sent caller (.reading left) := by
  cases h with
  | queued h => rw [h] at hr; cases hr
  | building left conn builds h => rw [h] at hr; cases hr
  | pending caller conn notEnded h => rw [h] at hr; cases hr
  | reading caller left' reads conn reply same notEnded h =>
    obtain rfl : left' = left := by
      rw [h] at hr
      cases hr
      rfl
    exact ⟨conn, ⟨reads, reply, same⟩, caller, notEnded, h⟩
  | completed built complete =>
    rcases complete with complete | complete <;> cases complete.symm.trans hr

/-- The posted function begins with whether the connection is there. -/
theorem runBuild (hc : sc.Builds) (h : Stage sc s) (hb : s.build = .queued) :
    Stage sc (s.runBuild sc) := by
  obtain rfl := h.of_queued hb
  unfold State.runBuild
  split
  · next conn => exact .building sc.builds conn (hc conn) rfl
  · next conn =>
    refine .completed rfl (.inl rfl) rfl ?_ (fun es hes => by cases hes)
    simp only [State.endings, Scenario.expected, started, conn, if_false, Bool.false_eq_true]
    rfl

/-- A field that is encoded is one less to encode. -/
theorem buildField (h : Stage sc s) {r : Except E Unit} {left : List (Except E Unit)}
    (hb : s.build = .running (r :: left)) : Stage sc s.buildField := by
  obtain ⟨conn, builds, rfl⟩ := h.of_building hb
  obtain rfl := builds r List.mem_cons_self
  exact .building left conn (fun b hb => builds b (List.mem_cons_of_mem _ hb)) rfl

/-- The request is sent when all its fields are. -/
theorem send (h : Stage sc s) (hb : s.build = .running []) :
    Stage sc { s with build := .finished, request := .pending } := by
  obtain ⟨conn, -, rfl⟩ := h.of_building hb
  exact .pending _ conn (fun es hes => by cases hes) rfl

/-- The posted function returns, and its caller waits. -/
theorem returnPost (h : Stage sc s) (hb : s.build = .finished) :
    Stage sc { s with caller := .waiting } := by
  cases h with
  | queued h => rw [h] at hb; cases hb
  | building left conn builds h => rw [h] at hb; cases hb
  | pending caller conn notEnded h =>
    subst h
    exact .pending .waiting conn (fun es hes => by cases hes) rfl
  | reading caller left reads conn reply same notEnded h =>
    subst h
    exact .reading .waiting left reads conn reply same (fun es hes => by cases hes) rfl
  | completed built complete done outcome ended =>
    exact .completed built complete done outcome fun es hes => by cases hes

/-- The promise of the request is fulfilled or rejected. -/
theorem resolve (h : Stage sc s) (hr : s.request = .pending) : Stage sc (s.resolve sc) := by
  obtain ⟨conn, caller, notEnded, rfl⟩ := h.of_pending hr
  unfold State.resolve
  split
  · next reads hreply => exact .reading caller reads reads conn hreply rfl notEnded rfl
  · next text hreply =>
    refine .completed rfl (.inr rfl) rfl ?_ (fun es hes => absurd hes (notEnded es))
    simp only [Scenario.expected, conn, hreply, if_true]
    rfl
  · next type text hne hreply =>
    have hraise : "kj::Exception: " ++ text ≠ "" := fun he =>
      absurd (String.append_eq_empty_iff.mp he).1 (by decide)
    have hexp : sc.expected = .raised ("kj::Exception: " ++ text) := by
      cases type with
      | disconnected => exact absurd rfl hne
      | _ => simp only [Scenario.expected, conn, hreply, if_true]
    refine .completed rfl (.inr rfl) rfl ?_ (fun es hes => absurd hes (notEnded es))
    rw [hexp]
    exact endings_kjException rfl hraise rfl

/-- A field that is read is one less to read; the first that throws ends it. -/
theorem readField (h : Stage sc s) {left : List (Except E Unit)}
    (hr : s.request = .reading left) : Stage sc s.readField := by
  obtain ⟨conn, ⟨reads, reply, same⟩, caller, notEnded, rfl⟩ := h.of_reading hr
  have hexp : sc.expected = (thrown left).elim .returned .rethrown := by
    simp only [Scenario.expected, conn, reply, same, if_true]
  unfold State.readField
  match left with
  | [] =>
    refine .completed rfl (.inr rfl) rfl ?_ (fun es hes => absurd hes (notEnded es))
    rw [hexp]
    rfl
  | .ok () :: left => exact .reading caller left reads conn reply same notEnded rfl
  | .error e :: left =>
    refine .completed rfl (.inr rfl) rfl ?_ (fun es hes => absurd hes (notEnded es))
    rw [hexp]
    rfl

/-- The caller finds `done` set and ends. -/
theorem wakeUp (h : Stage sc s) (hd : s.done = true) :
    Stage sc { s with caller := .ended s.endings } := by
  cases h with
  | queued h => rw [h] at hd; cases hd
  | building left conn builds h => rw [h] at hd; cases hd
  | pending caller conn notEnded h => rw [h] at hd; cases hd
  | reading caller left reads conn reply same notEnded h => rw [h] at hd; cases hd
  | completed built complete done outcome ended =>
    refine .completed built complete done outcome fun es hes => ?_
    cases hes
    exact outcome

/-- In each stage the caller has what it may rely on. -/
theorem fulfills (h : Stage sc s) : Fulfills sc s := by
  cases h with
  | queued h =>
    subst h
    refine ⟨(fun hw => by cases hw), (fun es hes => by cases hes), fun hq => ?_⟩
    exact absurd rfl (hq .runBuild trivial)
  | building left conn builds h =>
    subst h
    refine ⟨(fun hw => by cases hw), (fun es hes => by cases hes), fun hq => ?_⟩
    cases left with
    | nil => exact absurd rfl (hq .send trivial)
    | cons r left => exact absurd ⟨r, left, rfl⟩ (hq .buildField trivial)
  | pending caller conn notEnded h =>
    subst h
    refine ⟨fun _ _ => .inr (.inl rfl), fun es hes => absurd hes (notEnded es), fun hq => ?_⟩
    exact absurd rfl (hq .resolve trivial)
  | reading caller left reads conn reply same notEnded h =>
    subst h
    refine ⟨fun _ _ => .inr (.inr ⟨left, rfl⟩), fun es hes => absurd hes (notEnded es), fun hq => ?_⟩
    exact absurd ⟨left, rfl⟩ (hq .readField trivial)
  | completed built complete done outcome ended =>
    refine ⟨fun _ hd => Bool.noConfusion (done.symm.trans hd), ended, fun hq => ?_⟩
    cases hc : s.caller with
    | posting => exact absurd ⟨hc, built⟩ (hq .returnPost trivial)
    | waiting => exact absurd ⟨hc, done⟩ (hq .wakeUp trivial)
    | ended es => rw [ended es hc]

end Stage

/-- A step keeps the call in one of its stages. -/
theorem Stage.next (hc : sc.Builds) (s : State E) (a : Action) (h : Stage sc s)
    (ha : (invocation sc).enabled s a) : Stage sc ((invocation sc).next s a) := by
  cases a with
  | runBuild => exact h.runBuild hc ha
  | buildField =>
    obtain ⟨r, left, hb⟩ := ha
    exact h.buildField hb
  | send => exact h.send ha
  | returnPost => exact h.returnPost ha.2
  | resolve => exact h.resolve ha
  | readField =>
    obtain ⟨left, hr⟩ := ha
    exact h.readField hr
  | wakeUp => exact h.wakeUp ha.2

/-- Every reachable state of a call that sends is in one of the stages. -/
theorem stage_of_reachable (hc : sc.Builds) (h : (invocation sc).Reachable s) : Stage sc s :=
  h.invariant (fun _ hs => .queued hs) (Stage.next hc)

/-! ## Every call comes to its end -/

/-- The decoders a reply runs at most. -/
def Reply.length : Reply E → Nat
  | .response reads => reads.length
  | .rejected _ _ => 0

/-- The steps a call has left at most. -/
def left (sc : Scenario E) (s : State E) : Nat :=
  (match s.caller with
    | .posting => 2
    | .waiting => 1
    | .ended _ => 0) +
  (match s.build with
    | .queued => sc.builds.length + sc.reply.length + 5
    | .running left => left.length + sc.reply.length + 4
    | .finished => 0) +
  match s.request with
    | .pending => sc.reply.length + 2
    | .reading left => left.length + 1
    | _ => 0

/-- Every step leaves fewer. -/
theorem left_next_lt (s : State E) (a : Action) (ha : (invocation sc).enabled s a) :
    left sc ((invocation sc).next s a) < left sc s := by
  obtain ⟨caller, build, request, done, exception, kjException, disconnected⟩ := s
  cases a with
  | runBuild =>
    obtain rfl : build = .queued := ha
    simp only [invocation, next, State.runBuild]
    split <;> simp only [left] <;> omega
  | buildField =>
    obtain ⟨r, rest, hb⟩ := ha
    obtain rfl : build = .running (r :: rest) := hb
    rcases r with e | u <;> simp only [invocation, next, State.buildField, left, List.length_cons] <;>
      omega
  | send =>
    obtain rfl : build = .running [] := ha
    simp only [invocation, next, left, List.length_nil]
    cases request <;> simp only <;> omega
  | returnPost =>
    obtain ⟨hc, -⟩ := ha
    obtain rfl : caller = .posting := hc
    simp only [invocation, next, left]
    omega
  | resolve =>
    obtain rfl : request = .pending := ha
    simp only [invocation, next, State.resolve]
    split <;> next hreply => simp only [left, hreply, Reply.length]; omega
  | readField =>
    obtain ⟨rest, hr⟩ := ha
    obtain rfl : request = .reading rest := hr
    rcases rest with _ | ⟨_ | _, rest⟩ <;>
      simp only [invocation, next, State.readField, left, List.length_cons, List.length_nil] <;> omega
  | wakeUp =>
    obtain ⟨hc, -⟩ := ha
    obtain rfl : caller = .waiting := hc
    simp only [invocation, next, left]
    omega

/-- However a call is interleaved, it can go on to the ending its outcome calls for, and it does
when the two threads keep taking steps. -/
theorem call_ends (hc : sc.Builds) (h : (invocation sc).Reachable s) :
    (∀ as t, (invocation sc).Path s as t → as.length ≤ left sc s) ∧
      ∃ as t, (invocation sc).Path s as t ∧ t.caller = .ended [sc.expected] := by
  have lower : ∀ s a, Stage sc s → True → (invocation sc).enabled s a →
      left sc ((invocation sc).next s a) < left sc s := fun s a _ _ ha => left_next_lt s a ha
  have hs := stage_of_reachable hc h
  constructor
  · intro as t hp
    have hlen := hp.length_le (left sc) (Stage.next hc) lower hs fun _ _ => trivial
    omega
  · obtain ⟨as, t, -, hp, hq⟩ :=
      Transition.System.exists_quiescent (left sc) (Stage.next hc) lower s hs
    exact ⟨as, t, hp, (stage_of_reachable hc (h.path hp)).fulfills.completes hq⟩

/-! ## A call whose encoder throws -/

/-- The build function runs up to the encoder that throws, and ends there. -/
theorem exists_path_unsent (sc : Scenario E) (builds : List (Except E Unit)) (h : ¬ ∀ r ∈ builds, r = .ok ()) :
    ∃ as, (invocation sc).Path { started with build := .running builds } as
      { started with build := .finished } := by
  induction builds with
  | nil => exact absurd (fun r hr => by cases hr) h
  | cons r builds ih =>
    cases r with
    | error e => exact ⟨[.buildField], .single ⟨_, _, rfl⟩⟩
    | ok u =>
      have hrest : ¬ ∀ r ∈ builds, r = .ok () := by
        intro hall
        refine h fun r hr => ?_
        rcases List.mem_cons.mp hr with rfl | hr
        · rfl
        · exact hall r hr
      obtain ⟨as, hp⟩ := ih hrest
      exact ⟨.buildField :: as, .cons ⟨_, _, rfl⟩ hp⟩

/-- The caller then waits with nothing left to complete it. -/
theorem exists_waiting (hc : ¬ sc.Builds) :
    ∃ s, (invocation sc).Reachable s ∧ ¬ Fulfills sc s := by
  obtain ⟨conn, hall⟩ : sc.connected = true ∧ ¬ ∀ r ∈ sc.builds, r = .ok () := by
    simpa only [Scenario.Builds, Classical.not_imp] using hc
  obtain ⟨as, hp⟩ := exists_path_unsent sc sc.builds hall
  have hrun : (invocation sc).Path started (.runBuild :: (as ++ [.returnPost]))
      { started with caller := .waiting, build := .finished } := by
    refine .cons rfl ?_
    have hbuild : (invocation sc).next started .runBuild
        = { started with build := .running sc.builds } := by
      simp only [invocation, next, State.runBuild, conn, if_true]
    rw [hbuild]
    exact hp.append (.single ⟨rfl, rfl⟩)
  refine ⟨_, (Transition.System.Reachable.start rfl).path hrun, fun hf => ?_⟩
  rcases hf.promised rfl rfl with hb | hr | ⟨_, hr⟩
  · exact hb rfl
  · cases hr
  · cases hr

end Multiprocess.Client
