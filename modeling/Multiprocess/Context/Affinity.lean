import Multiprocess.Context.RequestThreads

/-!
# The threads that calls with a `Context` run on

The two endpoints of one connection, with all the threads on both sides that make calls over it or
execute them. A call names the thread that is to execute it and the thread for calls back: the
entries for the connection in the caller's `request_threads` and `callback_threads`, which
`CustomBuildField` fills, and the first of which `PassField` fills for the time of an execution
(`src/include/mp/type-context.h`).

The connection stays and no request is canceled; what becomes of the maps otherwise is in
`RequestThreads`, `SetThread` and `Entries`. That the calls return is in `Nesting`.
-/

namespace Multiprocess.Context.Affinity

open Transition (System)

inductive Side where
  | left
  | right
  deriving DecidableEq

def Side.other : Side → Side
  | .left => .right
  | .right => .left

/-- A thread that calls on its own, or the one that `makeThread` creates for a `Thread::Client`. -/
inductive Thread where
  | client (side : Side) (n : Nat)
  | worker (side : Side) (handle : Nat)
  deriving DecidableEq

namespace Thread

def side : Thread → Side
  | client side _ | worker side _ => side

def isClient : Thread → Bool
  | client _ _ => true
  | worker _ _ => false

end Thread

/-- A `Thread::Client`: the thread its `ProxyServer<Thread>` is for, which one from `makeThread` has
not got before that has run. -/
structure Handle where
  thread : Thread
  ready : Bool

/-- A request with its `Context`. `origin` and `ran` are history: the thread that made the top-level
call it belongs to, and the thread that has started to execute it. -/
structure Request where
  caller : Thread
  /-- the request that was executed when it was made; none for a top-level call -/
  parent : Option Nat
  origin : Thread
  thread : Nat
  callbackThread : Nat
  ran : Option Thread
  done : Bool

/-- What a thread does: it waits in `clientInvoke`, or is in the lambda of `PassField`. -/
inductive Frame where
  | calling (r : Nat)
  | executing (r : Nat) (phase : Phase) (inserted : Bool)
  deriving DecidableEq

/-- The maps have one entry for a thread, as there is one connection. The innermost frame is the
first of a stack. -/
structure State where
  callback_threads : Thread → Option Nat
  request_threads : Thread → Option Nat
  handles : Nat → Handle
  made : Nat
  requests : Nat → Request
  sent : Nat
  stack : Thread → List Frame

inductive Action where
  | call (t : Thread)
  | makeThread (handle : Nat)
  | execute (r : Nat)
  | enter (t : Thread)
  | finish (t : Thread)
  | leave (t : Thread)
  | return (t : Thread)

namespace State

/-- `CustomBuildField` sets `callback_threads`, with the `ProxyServer<Thread>` of the thread. -/
def setCallback (s : State) (t : Thread) : State × Nat :=
  match s.callback_threads t with
  | some handle => (s, handle)
  | none =>
    ({ s with
      callback_threads := (setThread s.callback_threads t s.made).1
      handles := Function.update s.handles s.made ⟨t, true⟩
      made := s.made + 1 }, s.made)

/-- And `request_threads`, with what the `makeThread` request will return. -/
def setRequest (s : State) (t : Thread) : State × Nat :=
  match s.request_threads t with
  | some handle => (s, handle)
  | none =>
    ({ s with
      request_threads := (setThread s.request_threads t s.made).1
      handles := Function.update s.handles s.made ⟨.worker t.side.other s.made, false⟩
      made := s.made + 1 }, s.made)

/-- The request the thread is executing when it calls. -/
def parent (s : State) (t : Thread) : Option Nat :=
  match s.stack t with
  | .executing r _ _ :: _ => some r
  | _ => none

def origin (s : State) (t : Thread) : Thread :=
  match s.parent t with
  | some r => (s.requests r).origin
  | none => t

def send (s : State) (t : Thread) (thread callbackThread : Nat) : State :=
  { s with
    requests := Function.update s.requests s.sent
      { caller := t, parent := s.parent t, origin := s.origin t, thread, callbackThread
        ran := none, done := false }
    sent := s.sent + 1
    stack := Function.update s.stack t (.calling s.sent :: s.stack t) }

/-- `clientInvoke`. -/
def call (s : State) (t : Thread) : State :=
  let (s, callbackThread) := s.setCallback t
  let (s, thread) := s.setRequest t
  s.send t thread callbackThread

/-- The thread that `getLocalServer` finds for the request. -/
def executor (s : State) (r : Nat) : Thread := (s.handles (s.requests r).thread).thread

/-- The `Waiter` of the thread starts the lambda. -/
def execute (s : State) (r : Nat) : State :=
  { s with
    requests := Function.update s.requests r { s.requests r with ran := some (s.executor r) }
    stack := Function.update s.stack (s.executor r)
      (.executing r .entering false :: s.stack (s.executor r)) }

/-- The first `sync` of the lambda. -/
def enter (s : State) (t : Thread) : State :=
  match s.stack t with
  | .executing r _ _ :: rest =>
    let (request_threads, inserted) := setThread s.request_threads t (s.requests r).callbackThread
    { s with
      request_threads
      stack := Function.update s.stack t (.executing r .running inserted :: rest) }
  | _ => s

/-- `fn.invoke` returns. -/
def finish (s : State) (t : Thread) : State :=
  match s.stack t with
  | .executing r _ inserted :: rest =>
    { s with stack := Function.update s.stack t (.executing r .leaving inserted :: rest) }
  | _ => s

/-- The `sync` of the deferred block, and the response. -/
def leave (s : State) (t : Thread) : State :=
  match s.stack t with
  | .executing r _ inserted :: rest =>
    { s with
      request_threads := if inserted then Function.update s.request_threads t none
        else s.request_threads
      requests := Function.update s.requests r { s.requests r with done := true }
      stack := Function.update s.stack t rest }
  | _ => s

/-- The thread runs code that may call. -/
def runs (s : State) (t : Thread) : Bool :=
  match s.stack t with
  | [] => t.isClient
  | .executing _ .running _ :: _ => true
  | _ => false

/-- The thread is in `Waiter::wait`. -/
def waits (s : State) (t : Thread) : Bool :=
  match s.stack t with
  | [] => !t.isClient
  | .calling _ :: _ => true
  | _ => false

end State

/-- The innermost frame is in the phase. -/
def InPhase (phase : Phase) : List Frame → Bool
  | .executing _ p _ :: _ => p = phase
  | _ => false

def enabled (s : State) : Action → Prop
  | .call t => s.runs t = true
  | .makeThread handle => handle < s.made ∧ (s.handles handle).ready = false
  | .execute r => r < s.sent ∧ (s.requests r).ran = none ∧
      (s.handles (s.requests r).thread).ready = true ∧ s.waits (s.executor r) = true
  | .enter t => InPhase .entering (s.stack t) = true
  | .finish t => InPhase .running (s.stack t) = true
  | .leave t => InPhase .leaving (s.stack t) = true
  | .return t =>
    match s.stack t with
    | .calling r :: _ => (s.requests r).done = true
    | _ => False

def next (s : State) : Action → State
  | .call t => s.call t
  | .makeThread handle =>
    { s with handles := Function.update s.handles handle { s.handles handle with ready := true } }
  | .execute r => s.execute r
  | .enter t => s.enter t
  | .finish t => s.finish t
  | .leave t => s.leave t
  | .return t => { s with stack := Function.update s.stack t (s.stack t).tail }

/-- Before the first call. -/
def started : State where
  callback_threads _ := none
  request_threads _ := none
  handles _ := ⟨.client .left 0, false⟩
  made := 0
  requests _ := ⟨.client .left 0, none, .client .left 0, 0, 0, none, false⟩
  sent := 0
  stack _ := []

/-- The threads of both endpoints. -/
def endpoints : System State Action where
  init s := s = started
  enabled := enabled
  next := next

instance (s : State) : ∀ a : Action, Decidable (enabled s a)
  | .call _ | .enter _ | .finish _ | .leave _ => inferInstanceAs (Decidable (_ = true))
  | .makeThread _ => inferInstanceAs (Decidable (_ ∧ _))
  | .execute _ => inferInstanceAs (Decidable (_ ∧ _ ∧ _ ∧ _))
  | .return t =>
    match h : s.stack t with
    | .calling r :: _ => decidable_of_iff ((s.requests r).done = true) (by simp only [enabled, h])
    | [] => .isFalse (by simp only [enabled, h, not_false_eq_true])
    | .executing _ _ _ :: _ => .isFalse (by simp only [enabled, h, not_false_eq_true])

instance (s : State) (a : Action) : Decidable (endpoints.enabled s a) :=
  inferInstanceAs (Decidable (enabled s a))

/-! ## Nested calls on one thread -/

/-- The requests of the call tree of a request. -/
inductive Within (s : State) (r₀ : Nat) : Nat → Prop where
  | self : Within s r₀ r₀
  | nested {r p : Nat} : r < s.sent → (s.requests r).parent = some p → Within s r₀ p → Within s r₀ r

/-- A top-level call made by the thread. -/
structure TopLevel (s : State) (t : Thread) (r : Nat) : Prop where
  sent : r < s.sent
  parent : (s.requests r).parent = none
  caller : (s.requests r).caller = t

/-- All requests of the thread's call trees in its own direction run on the thread `w`, which
`makeThread` created; those in the other direction run on the thread itself; `w` runs no others; and
while it executes one, its `request_threads` entry is the handle that the thread gave for calls
back. -/
structure Affine (s : State) (t w : Thread) : Prop where
  remote : ∃ handle, w = .worker t.side.other handle
  forward : ∀ r₀ r, TopLevel s t r₀ → Within s r₀ r → (s.requests r).caller.side = t.side →
    ∀ t', (s.requests r).ran = some t' → t' = w
  backward : ∀ r₀ r, TopLevel s t r₀ → Within s r₀ r → (s.requests r).caller.side = t.side.other →
    ∀ t', (s.requests r).ran = some t' → t' = t
  alone : ∀ t' r₀ r, t' ≠ t → TopLevel s t' r₀ → Within s r₀ r → (s.requests r).ran ≠ some w
  entry : ∀ r phase inserted, .executing r phase inserted ∈ s.stack w → phase ≠ .entering →
    s.request_threads w = s.callback_threads t ∧ (s.callback_threads t).isSome = true

/-! ## The invariant -/

namespace Frame

def request : Frame → Nat
  | calling r | executing r _ _ => r

def inserted : Frame → Bool
  | calling _ => false
  | executing _ _ inserted => inserted

/-- The first `sync` of the lambda is over. -/
def settled : Frame → Bool
  | executing _ .entering _ => false
  | calling _ | executing _ _ _ => true

/-- The frame is one of the thread. -/
def On (s : State) (t : Thread) : Frame → Prop
  | calling r => r < s.sent ∧ (s.requests r).caller = t
  | executing r _ _ => r < s.sent ∧ s.executor r = t

/-- On a worker only the outermost execution has inserted the entry, and calls are made inside an
execution. -/
def Placed (rest : List Frame) : Frame → Prop
  | calling _ => rest ≠ []
  | executing _ phase inserted => phase ≠ .entering → (inserted = true ↔ rest = [])

end Frame

/-- The stack of a worker: only its innermost frame may be entering. -/
def Layers : List Frame → Prop
  | [] => True
  | f :: rest => f.Placed rest ∧ (∀ g ∈ rest, g.settled = true) ∧ Layers rest

/-- A request of a thread's call tree names the two ends of that thread's pair: its worker and the
thread itself. -/
structure Request.Routed (s : State) (q : Request) : Prop where
  client : q.origin.isClient = true
  ends : ∃ handle callbackThread, s.request_threads q.origin = some handle ∧
    s.callback_threads q.origin = some callbackThread ∧
    (q.caller = q.origin ∧ q.thread = handle ∧ q.callbackThread = callbackThread ∨
      q.caller = .worker q.origin.side.other handle ∧ q.thread = callbackThread)

/-- The parent of a request belongs to the same top-level call. -/
def Request.Descends (s : State) (q : Request) : Prop :=
  match q.parent with
  | none => q.caller = q.origin
  | some p => p < s.sent ∧ (s.requests p).origin = q.origin

/-- What holds of the handles and requests. -/
structure Known (s : State) : Prop where
  callback : ∀ t handle, s.callback_threads t = some handle →
    handle < s.made ∧ (s.handles handle).thread = t
  request : ∀ t handle, t.isClient = true → s.request_threads t = some handle →
    handle < s.made ∧ (s.handles handle).thread = .worker t.side.other handle
  unique : ∀ t t' handle, t.isClient = true → t'.isClient = true →
    s.request_threads t = some handle → s.request_threads t' = some handle → t = t'
  routed : ∀ r < s.sent, (s.requests r).Routed s
  descends : ∀ r < s.sent, (s.requests r).Descends s
  ran : ∀ r < s.sent, ∀ t, (s.requests r).ran = some t → t = s.executor r

/-- What holds of one thread. -/
structure Local (s : State) (t : Thread) : Prop where
  frames : ∀ f ∈ s.stack t, f.On s t
  client : t.isClient = true → ∀ f ∈ s.stack t, f.inserted = false
  layers : t.isClient = false → Layers (s.stack t)
  entry : t.isClient = false → ∀ f ∈ s.stack t, f.settled = true →
    s.request_threads t = s.callback_threads (s.requests f.request).origin
  idle : t.isClient = false → (∀ f ∈ s.stack t, f.settled = false) → s.request_threads t = none

structure Inv (s : State) : Prop where
  known : Known s
  threads : ∀ t, Local s t

/-- A thread with no frames. -/
theorem Local.of_nil {s : State} {t : Thread} (stack : s.stack t = [])
    (idle : t.isClient = false → s.request_threads t = none) : Local s t := by
  constructor
  · rw [stack]
    exact fun f hf => absurd hf List.not_mem_nil
  · rw [stack]
    exact fun _ f hf => absurd hf List.not_mem_nil
  · rw [stack]
    exact fun _ => trivial
  · rw [stack]
    exact fun _ f hf => absurd hf List.not_mem_nil
  · exact fun ht _ => idle ht

/-- At the start no thread has a frame or an entry. -/
theorem inv_started : Inv started where
  known :=
    { callback := nofun
      request := nofun
      unique := nofun
      routed := fun r hr => absurd hr (Nat.not_lt_zero r)
      descends := fun r hr => absurd hr (Nat.not_lt_zero r)
      ran := fun r hr => absurd hr (Nat.not_lt_zero r) }
  threads _ := .of_nil rfl fun _ => rfl

variable {s s' : State} {t : Thread}

/-- The request of a frame was sent. -/
theorem Frame.On.sent {f : Frame} (h : f.On s t) : f.request < s.sent := by
  cases f with
  | calling r => exact h.1
  | executing r phase inserted => exact h.1

/-- A frame is on the thread its top-level call was made by, or on the worker of that thread. -/
theorem Known.home (h : Known s) {f : Frame} (hf : f.On s t) :
    t = (s.requests f.request).origin ∨
      ∃ handle, s.request_threads (s.requests f.request).origin = some handle ∧
        t = .worker (s.requests f.request).origin.side.other handle := by
  have hrouted := h.routed f.request hf.sent
  obtain ⟨handle, callbackThread, hr, hc, hends⟩ := hrouted.ends
  cases f with
  | calling r =>
    obtain rfl : (s.requests r).caller = t := hf.2
    rcases hends with ⟨hcaller, -, -⟩ | ⟨hcaller, -⟩
    · exact .inl hcaller
    · exact .inr ⟨handle, hr, hcaller⟩
  | executing r phase inserted =>
    obtain rfl : s.executor r = t := hf.2
    rcases hends with ⟨-, hthread, -⟩ | ⟨-, hthread⟩
    · refine .inr ⟨handle, hr, ?_⟩
      have hworker := (h.request _ handle hrouted.client hr).2
      rw [← hthread] at hworker
      rw [← hthread]
      exact hworker
    · left
      have hown := (h.callback _ callbackThread hc).2
      rw [← hthread] at hown
      exact hown

theorem Known.origin_of_client (h : Known s) {f : Frame} (hf : f.On s t)
    (ht : t.isClient = true) : (s.requests f.request).origin = t := by
  rcases h.home hf with heq | ⟨handle, -, heq⟩
  · exact heq.symm
  · rw [heq] at ht
    cases ht

theorem Known.worker_of (h : Known s) {f : Frame} (hf : f.On s t) (ht : t.isClient = false) :
    ∃ handle, s.request_threads (s.requests f.request).origin = some handle ∧
      t = .worker (s.requests f.request).origin.side.other handle := by
  rcases h.home hf with heq | hworker
  · have hclient := (h.routed f.request hf.sent).client
    rw [← heq, ht] at hclient
    cases hclient
  · exact hworker

/-- All frames of a thread belong to top-level calls of the same thread. -/
theorem Known.origin_eq (h : Known s) {f g : Frame} (hf : f.On s t) (hg : g.On s t) :
    (s.requests f.request).origin = (s.requests g.request).origin := by
  cases ht : t.isClient with
  | true => exact (h.origin_of_client hf ht).trans (h.origin_of_client hg ht).symm
  | false =>
    obtain ⟨i, hi, hti⟩ := h.worker_of hf ht
    obtain ⟨j, hj, htj⟩ := h.worker_of hg ht
    obtain ⟨-, rfl⟩ := Thread.worker.inj (hti.symm.trans htj)
    exact h.unique _ _ i (h.routed _ hf.sent).client (h.routed _ hg.sent).client hi hj

/-! ## What a step leaves as it was -/

/-- What a request has from the start. -/
structure Request.Same (q q' : Request) : Prop where
  caller : q'.caller = q.caller
  parent : q'.parent = q.parent
  origin : q'.origin = q.origin
  thread : q'.thread = q.thread
  callbackThread : q'.callbackThread = q.callbackThread

/-- A request is the same as itself. -/
theorem Request.Same.refl (q : Request) : q.Same q := ⟨rfl, rfl, rfl, rfl, rfl⟩

/-- Entries, handles and requests are added. -/
structure Extends (s s' : State) : Prop where
  sent : s.sent ≤ s'.sent
  made : s.made ≤ s'.made
  requests : ∀ r < s.sent, (s.requests r).Same (s'.requests r)
  callback : ∀ t handle, s.callback_threads t = some handle → s'.callback_threads t = some handle
  request : ∀ t handle, t.isClient = true → s.request_threads t = some handle →
    s'.request_threads t = some handle
  handles : ∀ handle < s.made, (s'.handles handle).thread = (s.handles handle).thread

/-- Which thread executes a request does not change. -/
theorem Known.executor_eq (h : Known s) (e : Extends s s') {r : Nat} (hr : r < s.sent) :
    s'.executor r = s.executor r := by
  have hrouted := h.routed r hr
  have hlt : (s.requests r).thread < s.made := by
    obtain ⟨handle, callbackThread, hr, hc, hends⟩ := hrouted.ends
    rcases hends with ⟨-, hthread, -⟩ | ⟨-, hthread⟩
    · rw [hthread]
      exact (h.request _ handle hrouted.client hr).1
    · rw [hthread]
      exact (h.callback _ callbackThread hc).1
  unfold State.executor
  rw [(e.requests r hr).thread]
  exact e.handles _ hlt

/-- Nor does where it is routed. -/
theorem Request.Routed.extend {q q' : Request} (h : q.Routed s) (e : Extends s s')
    (same : q.Same q') : q'.Routed s' := by
  obtain ⟨handle, callbackThread, hr, hc, hends⟩ := h.ends
  constructor
  · rw [same.origin]
    exact h.client
  · rw [same.origin, same.caller, same.thread, same.callbackThread]
    exact ⟨handle, callbackThread, e.request _ _ h.client hr, e.callback _ _ hc, hends⟩

/-- Nor does which requests it descends from. -/
theorem Request.Descends.extend {q q' : Request} (h : q.Descends s) (e : Extends s s')
    (same : q.Same q') : q'.Descends s' := by
  unfold Request.Descends at h ⊢
  rw [same.parent, same.caller, same.origin]
  split
  · next hp =>
    rw [hp] at h
    exact h
  · next p hp =>
    rw [hp] at h
    exact ⟨Nat.lt_of_lt_of_le h.1 e.sent, (e.requests p h.1).origin.trans h.2⟩

/-- Nor does the request of a frame. -/
theorem Frame.On.extend {f : Frame} (hf : f.On s t) (h : Known s) (e : Extends s s') :
    f.On s' t := by
  cases f with
  | calling r =>
    exact ⟨Nat.lt_of_lt_of_le hf.1 e.sent, (e.requests r hf.1).caller.trans hf.2⟩
  | executing r phase inserted =>
    exact ⟨Nat.lt_of_lt_of_le hf.1 e.sent, (h.executor_eq e hf.1).trans hf.2⟩

/-- The thread that gave the handle for calls back still gives the same. -/
theorem Known.callback_eq (h : Known s) (e : Extends s s') {r : Nat} (hr : r < s.sent) :
    s'.callback_threads (s'.requests r).origin = s.callback_threads (s.requests r).origin := by
  obtain ⟨-, callbackThread, -, hc, -⟩ := (h.routed r hr).ends
  rw [(e.requests r hr).origin, hc]
  exact e.callback _ _ hc

/-- A thread whose stack and entry stay. -/
theorem Local.extend (hl : Local s t) (h : Known s) (e : Extends s s')
    (stack : s'.stack t = s.stack t)
    (entry : t.isClient = false → s'.request_threads t = s.request_threads t) : Local s' t where
  frames := by
    rw [stack]
    exact fun f hf => (hl.frames f hf).extend h e
  client := by
    rw [stack]
    exact hl.client
  layers := by
    rw [stack]
    exact hl.layers
  entry ht := by
    rw [stack, entry ht]
    intro f hf hs
    rw [h.callback_eq e (hl.frames f hf).sent]
    exact hl.entry ht f hf hs
  idle ht := by
    rw [stack, entry ht]
    exact hl.idle ht

/-- A thread with a frame put on, its entry kept. -/
theorem Local.push (hl : Local s t) (h : Known s) (e : Extends s s') {f : Frame}
    (stack : s'.stack t = f :: s.stack t) (on : f.On s' t) (inserted : f.inserted = false)
    (placed : t.isClient = false → f.Placed (s.stack t))
    (below : t.isClient = false → ∀ g ∈ s.stack t, g.settled = true)
    (entry : t.isClient = false → s'.request_threads t = s.request_threads t)
    (settled : t.isClient = false → f.settled = true →
      s.request_threads t = s'.callback_threads (s'.requests f.request).origin) : Local s' t := by
  constructor
  · rw [stack]
    intro g hg
    rcases List.mem_cons.mp hg with rfl | hg
    · exact on
    · exact (hl.frames g hg).extend h e
  · rw [stack]
    intro ht g hg
    rcases List.mem_cons.mp hg with rfl | hg
    · exact inserted
    · exact hl.client ht g hg
  · rw [stack]
    exact fun ht => ⟨placed ht, below ht, hl.layers ht⟩
  · intro ht
    rw [stack, entry ht]
    intro g hg hs
    rcases List.mem_cons.mp hg with rfl | hg
    · exact settled ht hs
    · rw [h.callback_eq e (hl.frames g hg).sent]
      exact hl.entry ht g hg hs
  · intro ht
    rw [stack, entry ht]
    exact fun hall => hl.idle ht fun g hg => hall g (List.mem_cons_of_mem f hg)

/-- A thread with an inner frame taken off, its entry kept. -/
theorem Local.pop (hl : Local s t) (h : Known s) (e : Extends s s') {f : Frame} {rest : List Frame}
    (hst : s.stack t = f :: rest) (below : t.isClient = false → rest ≠ [])
    (stack : s'.stack t = rest)
    (entry : t.isClient = false → s'.request_threads t = s.request_threads t) : Local s' t := by
  have hsub : ∀ g ∈ rest, g ∈ s.stack t := by
    intro g hg
    rw [hst]
    exact List.mem_cons_of_mem f hg
  constructor
  · rw [stack]
    exact fun g hg => (hl.frames g (hsub g hg)).extend h e
  · rw [stack]
    exact fun ht g hg => hl.client ht g (hsub g hg)
  · intro ht
    have hlayers := hl.layers ht
    rw [hst] at hlayers
    rw [stack]
    exact hlayers.2.2
  · intro ht
    rw [stack, entry ht]
    intro g hg hs
    rw [h.callback_eq e (hl.frames g (hsub g hg)).sent]
    exact hl.entry ht g (hsub g hg) hs
  · intro ht hall
    have hlayers := hl.layers ht
    rw [hst] at hlayers
    rw [stack] at hall
    obtain ⟨g, hg⟩ := List.exists_mem_of_ne_nil rest (below ht)
    cases (hlayers.2.1 g hg).symm.trans (hall g hg)

/-- A step that sends nothing: what is new in the maps has to be good. -/
theorem Known.of_maps (h : Known s) (e : Extends s s') (sent : s'.sent = s.sent)
    (callback : ∀ t handle, s'.callback_threads t = some handle →
      s.callback_threads t = some handle ∨ handle < s'.made ∧ (s'.handles handle).thread = t)
    (request : ∀ t handle, t.isClient = true → s'.request_threads t = some handle →
      s.request_threads t = some handle ∨
        handle < s'.made ∧ (s'.handles handle).thread = .worker t.side.other handle)
    (unique : ∀ t t' handle, t.isClient = true → t'.isClient = true →
      s'.request_threads t = some handle → s'.request_threads t' = some handle → t = t')
    (ran : ∀ r < s.sent, ∀ t, (s'.requests r).ran = some t →
      (s.requests r).ran = some t ∨ t = s.executor r) : Known s' where
  callback t handle hc := by
    rcases callback t handle hc with hold | hnew
    · obtain ⟨hlt, hthread⟩ := h.callback t handle hold
      exact ⟨Nat.lt_of_lt_of_le hlt e.made, (e.handles handle hlt).trans hthread⟩
    · exact hnew
  request t handle ht hr := by
    rcases request t handle ht hr with hold | hnew
    · obtain ⟨hlt, hthread⟩ := h.request t handle ht hold
      exact ⟨Nat.lt_of_lt_of_le hlt e.made, (e.handles handle hlt).trans hthread⟩
    · exact hnew
  unique := unique
  routed r hr := by
    rw [sent] at hr
    exact (h.routed r hr).extend e (e.requests r hr)
  descends r hr := by
    rw [sent] at hr
    exact (h.descends r hr).extend e (e.requests r hr)
  ran r hr _ hran := by
    rw [sent] at hr
    rw [h.executor_eq e hr]
    exact (ran r hr _ hran).elim (h.ran r hr _) id

/-- A step that makes no handles and sends nothing. -/
theorem Known.extend (h : Known s) (e : Extends s s') (sent : s'.sent = s.sent)
    (callback : s'.callback_threads = s.callback_threads)
    (request : ∀ t, t.isClient = true → s'.request_threads t = s.request_threads t)
    (ran : ∀ r < s.sent, ∀ t, (s'.requests r).ran = some t →
      (s.requests r).ran = some t ∨ t = s.executor r) : Known s' := by
  refine h.of_maps e sent (fun t _ hc => .inl (callback ▸ hc))
    (fun t _ ht hr => .inl ((request t ht).symm.trans hr)) (fun t t' handle ht ht' hr hr' => ?_) ran
  rw [request t ht] at hr
  rw [request t' ht'] at hr'
  exact h.unique t t' handle ht ht' hr hr'

/-! ## Calls -/

/-- An entry of a map to which one has been added. -/
theorem entry_cases {threads : Thread → Option Nat} {t u : Thread} {added handle : Nat}
    (h : Function.update threads t (some added) u = some handle) :
    u = t ∧ handle = added ∨ threads u = some handle := by
  rw [Function.update_apply] at h
  split at h
  · next heq => exact .inl ⟨heq, (Option.some.inj h).symm⟩
  · exact .inr h

/-- `SetThread` for the callback thread keeps the invariant. -/
theorem inv_setCallback (h : Inv s) (t : Thread) : Inv (s.setCallback t).1 := by
  unfold State.setCallback
  split
  · exact h
  · next hnone =>
    rw [setThread_none hnone]
    have hk := h.known
    have hnot : ∀ u handle, s.callback_threads u = some handle → u ≠ t := by
      rintro u handle hu rfl
      cases hnone.symm.trans hu
    have e : Extends s { s with
        callback_threads := Function.update s.callback_threads t (some s.made)
        handles := Function.update s.handles s.made ⟨t, true⟩
        made := s.made + 1 } :=
      { sent := Nat.le_refl _
        made := Nat.le_succ _
        requests := fun r _ => .refl _
        callback := fun u handle hu =>
          (Function.update_of_ne (hnot u handle hu) _ _).trans hu
        request := fun _ _ _ hu => hu
        handles := fun handle hlt =>
          congrArg Handle.thread (Function.update_of_ne (Nat.ne_of_lt hlt) _ _) }
    constructor
    · refine hk.of_maps e rfl (fun u handle hu => ?_) (fun _ _ _ hu => .inl hu) hk.unique
        fun _ _ _ hran => .inl hran
      rcases entry_cases hu with ⟨rfl, rfl⟩ | hold
      · exact .inr ⟨Nat.lt_succ_self _, congrArg Handle.thread (Function.update_self _ _ s.handles)⟩
      · exact .inl hold
    · exact fun u => (h.threads u).extend hk e rfl fun _ => rfl

/-- After it the thread has an entry with the handle returned. -/
theorem setCallback_entry (s : State) (t : Thread) :
    (s.setCallback t).1.callback_threads t = some (s.setCallback t).2 := by
  unfold State.setCallback
  split
  · next handle hc => exact hc
  · next hnone =>
    rw [setThread_none hnone]
    exact Function.update_self _ _ _

theorem setCallback_stack (s : State) (t : Thread) : (s.setCallback t).1.stack = s.stack := by
  unfold State.setCallback
  split <;> rfl

/-- A worker that may call has its entry. -/
theorem Inv.entry_of_runs (h : Inv s) (ht : t.isClient = false) (hr : s.runs t = true) :
    ∃ f ∈ s.stack t, ∃ rest, s.stack t = f :: rest ∧ f.settled = true ∧
      s.origin t = (s.requests f.request).origin ∧
      s.request_threads t = s.callback_threads (s.requests f.request).origin := by
  unfold State.runs at hr
  split at hr
  · rw [ht] at hr
    cases hr
  · next r inserted rest hst =>
    have hmem : .executing r .running inserted ∈ s.stack t := by
      rw [hst]
      exact List.mem_cons_self
    refine ⟨_, hmem, rest, hst, rfl, ?_, (h.threads t).entry ht _ hmem rfl⟩
    unfold State.origin State.parent
    rw [hst]
    rfl
  · cases hr

/-- `SetThread` for the request thread keeps the invariant. -/
theorem inv_setRequest (h : Inv s) (hr : s.runs t = true) : Inv (s.setRequest t).1 := by
  unfold State.setRequest
  split
  · exact h
  · next hnone =>
    rw [setThread_none hnone]
    have hk := h.known
    have hclient : t.isClient = true := by
      cases ht : t.isClient with
      | true => rfl
      | false =>
        obtain ⟨f, hf, -, -, -, -, hentry⟩ := h.entry_of_runs ht hr
        obtain ⟨-, callbackThread, -, hc, -⟩ :=
          (hk.routed _ ((h.threads t).frames f hf).sent).ends
        cases hnone.symm.trans (hentry.trans hc)
    have hnot : ∀ u handle, s.request_threads u = some handle → u ≠ t := by
      rintro u handle hu rfl
      cases hnone.symm.trans hu
    have e : Extends s { s with
        request_threads := Function.update s.request_threads t (some s.made)
        handles := Function.update s.handles s.made ⟨.worker t.side.other s.made, false⟩
        made := s.made + 1 } :=
      { sent := Nat.le_refl _
        made := Nat.le_succ _
        requests := fun r _ => .refl _
        callback := fun _ _ hu => hu
        request := fun u handle _ hu =>
          (Function.update_of_ne (hnot u handle hu) _ _).trans hu
        handles := fun handle hlt =>
          congrArg Handle.thread (Function.update_of_ne (Nat.ne_of_lt hlt) _ _) }
    constructor
    · refine hk.of_maps e rfl (fun _ _ hu => .inl hu) ?_ ?_ fun _ _ _ hran => .inl hran
      · intro u handle _ hr
        rcases entry_cases hr with ⟨rfl, rfl⟩ | hold
        · exact .inr ⟨Nat.lt_succ_self _,
            congrArg Handle.thread (Function.update_self _ _ s.handles)⟩
        · exact .inl hold
      · intro u u' handle hu hu' hr hr'
        rcases entry_cases hr with ⟨rfl, rfl⟩ | hold <;>
          rcases entry_cases hr' with ⟨rfl, hmade⟩ | hold'
        · rfl
        · exact absurd (hk.request u' _ hu' hold').1 (Nat.lt_irrefl _)
        · subst hmade
          exact absurd (hk.request u _ hu hold).1 (Nat.lt_irrefl _)
        · exact hk.unique u u' handle hu hu' hold hold'
    · intro u
      apply (h.threads u).extend hk e rfl
      rintro hu
      have hne : u ≠ t := by
        rintro rfl
        cases hu.symm.trans hclient
      exact Function.update_of_ne hne _ _

/-- After it the thread has an entry with the handle returned. -/
theorem setRequest_entry (s : State) (t : Thread) :
    (s.setRequest t).1.request_threads t = some (s.setRequest t).2 := by
  unfold State.setRequest
  split
  · next handle hc => exact hc
  · next hnone =>
    rw [setThread_none hnone]
    exact Function.update_self _ _ _

theorem setRequest_callback (s : State) (t : Thread) :
    (s.setRequest t).1.callback_threads = s.callback_threads := by
  unfold State.setRequest
  split <;> rfl

theorem setRequest_stack (s : State) (t : Thread) : (s.setRequest t).1.stack = s.stack := by
  unfold State.setRequest
  split <;> rfl

theorem runs_congr (h : s'.stack = s.stack) : s'.runs t = s.runs t := by
  unfold State.runs
  rw [h]

/-- The thread of the top-level call that a call of the thread will belong to. -/
theorem origin_of_runs (hr : s.runs t = true) :
    (∃ f ∈ s.stack t, s.origin t = (s.requests f.request).origin ∧
      s.parent t = some f.request) ∨ t.isClient = true ∧ s.origin t = t ∧ s.parent t = none := by
  unfold State.runs at hr
  unfold State.origin State.parent
  cases hst : s.stack t with
  | nil =>
    rw [hst] at hr
    exact .inr ⟨hr, rfl, rfl⟩
  | cons f rest =>
    cases f with
    | calling r =>
      rw [hst] at hr
      cases hr
    | executing r phase inserted => exact .inl ⟨_, List.mem_cons_self, rfl, rfl⟩

section Send

variable {thread callbackThread : Nat}

/-- The requests sent before are as they were. -/
theorem send_old {r : Nat} (hr : r < s.sent) :
    (s.send t thread callbackThread).requests r = s.requests r :=
  Function.update_of_ne (Nat.ne_of_lt hr) _ _

theorem send_new : (s.send t thread callbackThread).requests s.sent =
    { caller := t, parent := s.parent t, origin := s.origin t, thread, callbackThread
      ran := none, done := false } := Function.update_self _ _ _

theorem extends_send : Extends s (s.send t thread callbackThread) where
  sent := Nat.le_succ _
  made := Nat.le_refl _
  requests r hr := by
    rw [send_old hr]
    exact .refl _
  callback _ _ hu := hu
  request _ _ _ hu := hu
  handles _ _ := rfl

/-- A thread calls its worker, and a worker calls back. -/
theorem routed_send (h : Inv s) (hr : s.runs t = true)
    (request : s.request_threads t = some thread)
    (callback : s.callback_threads t = some callbackThread) :
    ((s.send t thread callbackThread).requests s.sent).Routed
      (s.send t thread callbackThread) := by
  have hk := h.known
  rw [send_new]
  cases ht : t.isClient with
  | true =>
    have horigin : s.origin t = t := by
      rcases origin_of_runs hr with ⟨f, hf, horigin, -⟩ | ⟨-, horigin, -⟩
      · exact horigin.trans (hk.origin_of_client ((h.threads t).frames f hf) ht)
      · exact horigin
    constructor
    · rw [horigin]
      exact ht
    · rw [horigin]
      exact ⟨thread, callbackThread, request, callback, .inl ⟨rfl, rfl, rfl⟩⟩
  | false =>
    obtain ⟨f, hf, rest, hst, -, horigin, hentry⟩ := h.entry_of_runs ht hr
    have hon := (h.threads t).frames f hf
    obtain ⟨handle, hhandle, hworker⟩ := hk.worker_of hon ht
    constructor
    · rw [horigin]
      exact (hk.routed _ hon.sent).client
    · rw [horigin]
      exact ⟨handle, thread, hhandle, hentry.symm.trans request, .inr ⟨hworker, rfl⟩⟩

theorem descends_send (h : Inv s) (hr : s.runs t = true) :
    ((s.send t thread callbackThread).requests s.sent).Descends
      (s.send t thread callbackThread) := by
  rw [send_new]
  unfold Request.Descends
  rcases origin_of_runs hr with ⟨f, hf, horigin, hparent⟩ | ⟨-, horigin, hparent⟩
  · have hlt := ((h.threads t).frames f hf).sent
    simp only [hparent]
    rw [send_old hlt]
    exact ⟨Nat.lt_succ_of_lt hlt, horigin.symm⟩
  · simp only [hparent]
    exact horigin.symm

/-- Sending a request keeps the invariant, with the thread's own entries in it. -/
theorem inv_send (h : Inv s) (hr : s.runs t = true)
    (request : s.request_threads t = some thread)
    (callback : s.callback_threads t = some callbackThread) :
    Inv (s.send t thread callbackThread) := by
  have hk := h.known
  have e : Extends s (s.send t thread callbackThread) := extends_send
  constructor
  · constructor
    · exact hk.callback
    · exact hk.request
    · exact hk.unique
    · intro r hlt
      rcases Nat.lt_succ_iff_lt_or_eq.mp hlt with hlt | rfl
      · exact (hk.routed r hlt).extend e (e.requests r hlt)
      · exact routed_send h hr request callback
    · intro r hlt
      rcases Nat.lt_succ_iff_lt_or_eq.mp hlt with hlt | rfl
      · exact (hk.descends r hlt).extend e (e.requests r hlt)
      · exact descends_send h hr
    · intro r hlt u hu
      rcases Nat.lt_succ_iff_lt_or_eq.mp hlt with hlt | rfl
      · rw [send_old hlt] at hu
        exact (hk.ran r hlt u hu).trans (hk.executor_eq e hlt).symm
      · rw [send_new] at hu
        cases hu
  · intro u
    by_cases heq : u = t
    · subst heq
      have hl := h.threads u
      apply hl.push hk e (Function.update_self _ _ _)
      · exact ⟨Nat.lt_succ_self _, congrArg Request.caller send_new⟩
      · rfl
      · intro ht
        obtain ⟨f, -, rest, hst, -⟩ := h.entry_of_runs ht hr
        rw [hst]
        exact List.cons_ne_nil _ _
      · intro ht
        obtain ⟨f, -, rest, hst, hsettled, -⟩ := h.entry_of_runs ht hr
        have hlayers := hl.layers ht
        rw [hst] at hlayers ⊢
        exact List.forall_mem_cons.mpr ⟨hsettled, hlayers.2.1⟩
      · exact fun _ => rfl
      · intro ht _
        obtain ⟨f, -, rest, -, -, horigin, hentry⟩ := h.entry_of_runs ht hr
        change s.request_threads u = s.callback_threads
          ((s.send u thread callbackThread).requests s.sent).origin
        rw [send_new, horigin]
        exact hentry
    · exact (h.threads u).extend hk e (Function.update_of_ne heq _ _) fun _ => rfl

end Send

/-- A call keeps the invariant. -/
theorem inv_call (h : Inv s) (hr : s.runs t = true) : Inv (s.call t) := by
  have hc := inv_setCallback h t
  have hrc : (s.setCallback t).1.runs t = true :=
    (runs_congr (setCallback_stack s t)).trans hr
  apply inv_send (inv_setRequest hc hrc)
  · exact (runs_congr (setRequest_stack _ t)).trans hrc
  · exact setRequest_entry _ t
  · rw [setRequest_callback]
    exact setCallback_entry s t

/-! ## Executions -/

/-- A thread made on the other side keeps the invariant. -/
theorem inv_makeThread (h : Inv s) (handle : Nat) : Inv (next s (.makeThread handle)) := by
  have hkept : ∀ i, ((next s (.makeThread handle)).handles i).thread = (s.handles i).thread :=
    (Function.forall_update_iff s.handles fun i h => h.thread = (s.handles i).thread).mpr
      ⟨rfl, fun _ _ => rfl⟩
  have e : Extends s (next s (.makeThread handle)) :=
    { sent := Nat.le_refl _
      made := Nat.le_refl _
      requests := fun r _ => .refl _
      callback := fun _ _ hu => hu
      request := fun _ _ _ hu => hu
      handles := fun i _ => hkept i }
  constructor
  · exact h.known.extend e rfl rfl (fun _ _ => rfl) fun _ _ _ hu => .inl hu
  · exact fun u => (h.threads u).extend h.known e rfl fun _ => rfl

/-- A thread that waits is between frames. -/
theorem Local.settled_of_waits (h : Local s t) (hw : s.waits t = true) (ht : t.isClient = false) :
    ∀ f ∈ s.stack t, f.settled = true := by
  have hlayers := h.layers ht
  unfold State.waits at hw
  split at hw
  · next hst =>
    rw [hst]
    exact fun f hf => absurd hf List.not_mem_nil
  · next r rest hst =>
    rw [hst] at hlayers ⊢
    intro f hf
    rcases List.mem_cons.mp hf with rfl | hf
    · rfl
    · exact hlayers.2.1 f hf
  · cases hw

/-- A request that is taken by its thread keeps the invariant. -/
theorem inv_execute (h : Inv s) {r : Nat} (hr : r < s.sent)
    (hw : s.waits (s.executor r) = true) : Inv (s.execute r) := by
  have hk := h.known
  have hsame : ∀ i, (s.requests i).Same ((s.execute r).requests i) ∧
      ∀ u, ((s.execute r).requests i).ran = some u →
        (s.requests i).ran = some u ∨ u = s.executor i := by
    refine (Function.forall_update_iff s.requests fun i q => (s.requests i).Same q ∧
      ∀ u, q.ran = some u → (s.requests i).ran = some u ∨ u = s.executor i).mpr ⟨?_, ?_⟩
    · exact ⟨⟨rfl, rfl, rfl, rfl, rfl⟩, fun u hu => .inr (Option.some.inj hu).symm⟩
    · exact fun i _ => ⟨.refl _, fun u hu => .inl hu⟩
  have e : Extends s (s.execute r) :=
    { sent := Nat.le_refl _
      made := Nat.le_refl _
      requests := fun i _ => (hsame i).1
      callback := fun _ _ hu => hu
      request := fun _ _ _ hu => hu
      handles := fun _ _ => rfl }
  constructor
  · exact hk.extend e rfl rfl (fun _ _ => rfl) fun i _ => (hsame i).2
  · intro u
    by_cases heq : u = s.executor r
    · subst heq
      have hl := h.threads (s.executor r)
      apply hl.push hk e (Function.update_self _ _ _)
      · exact ⟨hr, hk.executor_eq e hr⟩
      · rfl
      · exact fun _ hne => absurd rfl hne
      · exact hl.settled_of_waits hw
      · exact fun _ => rfl
      · exact fun _ hs => nomatch hs
    · exact (h.threads u).extend hk e (Function.update_of_ne heq _ _) fun _ => rfl

/-- A step on the stack of one thread that leaves the rest. -/
theorem extends_stack (s : State) (t : Thread) (frames : List Frame) :
    Extends s { s with stack := Function.update s.stack t frames } :=
  ⟨Nat.le_refl _, Nat.le_refl _, fun _ _ => .refl _, fun _ _ hu => hu, fun _ _ _ hu => hu,
    fun _ _ => rfl⟩

theorem inv_stack (h : Inv s) {frames : List Frame}
    (step : Local { s with stack := Function.update s.stack t frames } t) :
    Inv { s with stack := Function.update s.stack t frames } := by
  have e := extends_stack s t frames
  constructor
  · exact h.known.extend e rfl rfl (fun _ _ => rfl) fun _ _ _ hu => .inl hu
  · intro u
    by_cases heq : u = t
    · subst heq
      exact step
    · exact (h.threads u).extend h.known e (Function.update_of_ne heq _ _) fun _ => rfl

/-- The innermost frame of a thread in a phase. -/
theorem stack_of_inPhase {phase : Phase} (h : InPhase phase (s.stack t) = true) :
    ∃ r inserted rest, s.stack t = .executing r phase inserted :: rest := by
  unfold InPhase at h
  split at h
  · next r p inserted rest hst =>
    obtain rfl : p = phase := of_decide_eq_true h
    exact ⟨r, inserted, rest, hst⟩
  · cases h

/-- The entry that the first `sync` finds or inserts. -/
theorem Inv.entry_of_entering (h : Inv s) {r : Nat} {inserted : Bool} {rest : List Frame}
    (hst : s.stack t = .executing r .entering inserted :: rest) :
    ((s.request_threads t).isSome = true ∧ (t.isClient = false → rest ≠ []) ∨
      s.request_threads t = none ∧ t.isClient = false ∧ rest = [] ∧
        s.callback_threads (s.requests r).origin = some (s.requests r).callbackThread) := by
  have hk := h.known
  have hl := h.threads t
  have hmem : .executing r .entering inserted ∈ s.stack t := by
    rw [hst]
    exact List.mem_cons_self
  have hon := hl.frames _ hmem
  cases ht : t.isClient with
  | true =>
    have horigin : (s.requests r).origin = t := hk.origin_of_client hon ht
    obtain ⟨handle, -, hrequest, -, -⟩ := (hk.routed r hon.sent).ends
    left
    constructor
    · rw [← horigin, hrequest]
      rfl
    · exact nofun
  | false =>
    have hlayers := hl.layers ht
    rw [hst] at hlayers
    cases rest with
    | nil =>
      right
      refine ⟨hl.idle ht fun f hf => ?_, rfl, rfl, ?_⟩
      · rw [hst] at hf
        obtain rfl := List.mem_singleton.mp hf
        rfl
      · obtain ⟨handle, callbackThread, -, hc, hends⟩ := (hk.routed r hon.sent).ends
        rcases hends with ⟨-, -, heq⟩ | ⟨-, hthread⟩
        · rw [heq]
          exact hc
        · -- a call back to the origin would be on a client thread
          have hown : s.executor r = (s.requests r).origin := by
            unfold State.executor
            rw [hthread]
            exact (hk.callback _ callbackThread hc).2
          have hclient := (hk.routed r hon.sent).client
          rw [← hown, hon.2, ht] at hclient
          cases hclient
    | cons g rest =>
      left
      have hg : g ∈ s.stack t := by
        rw [hst]
        exact List.mem_cons_of_mem _ List.mem_cons_self
      constructor
      · rw [hl.entry ht g hg (hlayers.2.1 g List.mem_cons_self)]
        obtain ⟨-, callbackThread, -, hc, -⟩ := (hk.routed _ (hl.frames g hg).sent).ends
        rw [hc]
        rfl
      · exact fun _ => List.cons_ne_nil _ _

/-- The innermost execution moves on. -/
theorem Local.moves (hl : Local s t) (hk : Known s) (e : Extends s s') {r : Nat}
    {phase phase' : Phase} {inserted inserted' : Bool} {rest : List Frame}
    (hst : s.stack t = .executing r phase inserted :: rest)
    (hst' : s'.stack t = .executing r phase' inserted' :: rest) (hphase : phase' ≠ .entering)
    (client : t.isClient = true → inserted' = false)
    (placed : t.isClient = false → (inserted' = true ↔ rest = []))
    (head : t.isClient = false →
      s'.request_threads t = s.callback_threads (s.requests r).origin)
    (tail : t.isClient = false → rest ≠ [] → s'.request_threads t = s.request_threads t) :
    Local s' t := by
  have hhead : .executing r phase inserted ∈ s.stack t := by
    rw [hst]
    exact List.mem_cons_self
  have htail : ∀ f ∈ rest, f ∈ s.stack t := by
    intro f hf
    rw [hst]
    exact List.mem_cons_of_mem _ hf
  have hon := hl.frames _ hhead
  have hsettled : (Frame.executing r phase' inserted').settled = true := by
    cases phase' with
    | entering => exact absurd rfl hphase
    | running | leaving => rfl
  constructor
  · rw [hst']
    intro f hf
    rcases List.mem_cons.mp hf with rfl | hf
    · exact ⟨Nat.lt_of_lt_of_le hon.1 e.sent, (hk.executor_eq e hon.1).trans hon.2⟩
    · exact (hl.frames f (htail f hf)).extend hk e
  · intro ht
    rw [hst']
    intro f hf
    rcases List.mem_cons.mp hf with rfl | hf
    · exact client ht
    · exact hl.client ht f (htail f hf)
  · intro ht
    have hlayers := hl.layers ht
    rw [hst] at hlayers
    rw [hst']
    exact ⟨fun _ => placed ht, hlayers.2⟩
  · intro ht
    rw [hst']
    intro f hf hs
    rcases List.mem_cons.mp hf with rfl | hf
    · rw [head ht]
      exact (hk.callback_eq e hon.1).symm
    · rw [hk.callback_eq e (hl.frames f (htail f hf)).sent, tail ht (List.ne_nil_of_mem hf)]
      exact hl.entry ht f (htail f hf) hs
  · intro _ hall
    rw [hst'] at hall
    cases hsettled.symm.trans (hall _ List.mem_cons_self)

/-- The entry that `PassField` makes keeps the invariant. -/
theorem inv_enter (h : Inv s) (ht : InPhase .entering (s.stack t) = true) : Inv (s.enter t) := by
  obtain ⟨r, inserted, rest, hst⟩ := stack_of_inPhase ht
  have hk := h.known
  have hl := h.threads t
  have hmem : .executing r .entering inserted ∈ s.stack t := by
    rw [hst]
    exact List.mem_cons_self
  unfold State.enter
  rw [hst]
  simp only
  rcases h.entry_of_entering hst with ⟨hsome, hrest⟩ | ⟨hnone, hworker, rfl, hcallback⟩
  · obtain ⟨handle, hhandle⟩ := Option.isSome_iff_exists.mp hsome
    rw [setThread_some hhandle]
    apply inv_stack h
    apply hl.moves hk (extends_stack s t _) hst (Function.update_self _ _ _)
    · exact nofun
    · exact fun _ => rfl
    · exact fun hu => ⟨nofun, fun hnil => absurd hnil (hrest hu)⟩
    · intro hu
      have hlayers := hl.layers hu
      rw [hst] at hlayers
      obtain ⟨g, hg⟩ := List.exists_mem_of_ne_nil rest (hrest hu)
      have hgs : g ∈ s.stack t := by
        rw [hst]
        exact List.mem_cons_of_mem _ hg
      have horigin := hk.origin_eq (hl.frames g hgs) (hl.frames _ hmem)
      exact (hl.entry hu g hgs (hlayers.2.1 g hg)).trans (congrArg s.callback_threads horigin)
    · exact fun _ _ => rfl
  · rw [setThread_none hnone]
    have hne : ∀ u, u.isClient = true → u ≠ t := by
      rintro u hu rfl
      cases hu.symm.trans hworker
    have e : Extends s { s with
        request_threads :=
          Function.update s.request_threads t (some (s.requests r).callbackThread)
        stack := Function.update s.stack t [.executing r .running true] } :=
      ⟨Nat.le_refl _, Nat.le_refl _, fun _ _ => .refl _, fun _ _ hu => hu,
        fun u _ hu hr => (Function.update_of_ne (hne u hu) _ _).trans hr, fun _ _ => rfl⟩
    constructor
    · exact hk.extend e rfl rfl (fun u hu => Function.update_of_ne (hne u hu) _ _)
        fun _ _ _ hu => .inl hu
    · intro u
      by_cases heq : u = t
      · subst heq
        apply hl.moves hk e hst (Function.update_self _ _ _) nofun
        · exact fun hu => nomatch hu.symm.trans hworker
        · exact fun _ => ⟨fun _ => rfl, fun _ => rfl⟩
        · exact fun _ => (Function.update_self _ _ _).trans hcallback.symm
        · exact fun _ hnil => absurd rfl hnil
      · exact (h.threads u).extend hk e (Function.update_of_ne heq _ _) fun _ =>
          Function.update_of_ne heq _ _

/-- The end of the method keeps the invariant. -/
theorem inv_finish (h : Inv s) (ht : InPhase .running (s.stack t) = true) : Inv (s.finish t) := by
  obtain ⟨r, inserted, rest, hst⟩ := stack_of_inPhase ht
  have hl := h.threads t
  have hmem : .executing r .running inserted ∈ s.stack t := by
    rw [hst]
    exact List.mem_cons_self
  unfold State.finish
  rw [hst]
  simp only
  apply inv_stack h
  apply hl.moves h.known (extends_stack s t _) hst (Function.update_self _ _ _)
  · exact nofun
  · exact fun ht => hl.client ht _ hmem
  · intro ht
    have hlayers := hl.layers ht
    rw [hst] at hlayers
    exact hlayers.1 nofun
  · exact fun ht => hl.entry ht _ hmem rfl
  · exact fun _ _ => rfl

section Leave

variable {r : Nat} {phase : Phase} {inserted : Bool} {rest : List Frame}

theorem leave_eq (hst : s.stack t = .executing r phase inserted :: rest) :
    s.leave t = { s with
      request_threads := if inserted then Function.update s.request_threads t none
        else s.request_threads
      requests := Function.update s.requests r { s.requests r with done := true }
      stack := Function.update s.stack t rest } := by
  unfold State.leave
  rw [hst]

theorem leave_requests (hst : s.stack t = .executing r phase inserted :: rest) :
    ∀ i, (s.requests i).Same ((s.leave t).requests i) ∧
      ((s.leave t).requests i).ran = (s.requests i).ran := by
  rw [leave_eq hst]
  refine (Function.forall_update_iff s.requests fun i q =>
    (s.requests i).Same q ∧ q.ran = (s.requests i).ran).mpr ⟨?_, ?_⟩
  · exact ⟨⟨rfl, rfl, rfl, rfl, rfl⟩, rfl⟩
  · exact fun i _ => ⟨.refl _, rfl⟩

/-- The deferred block leaves all entries but the one it has inserted. -/
theorem leave_entry (hst : s.stack t = .executing r phase inserted :: rest) {u : Thread}
    (hu : inserted = false ∨ u ≠ t) : (s.leave t).request_threads u = s.request_threads u := by
  rw [leave_eq hst]
  rcases hu with rfl | hne
  · rfl
  · simp only
    split
    · exact Function.update_of_ne hne _ _
    · rfl

/-- Clients have inserted none. -/
theorem leave_client (hl : Local s t) (hst : s.stack t = .executing r phase inserted :: rest)
    {u : Thread} (hu : u.isClient = true) :
    (s.leave t).request_threads u = s.request_threads u := by
  apply leave_entry hst
  by_cases heq : u = t
  · subst heq
    left
    apply hl.client hu (.executing r phase inserted)
    rw [hst]
    exact List.mem_cons_self
  · exact .inr heq

theorem extends_leave (hl : Local s t) (hst : s.stack t = .executing r phase inserted :: rest) :
    Extends s (s.leave t) := by
  have hleave := leave_eq hst
  constructor
  · exact Nat.le_of_eq (congrArg State.sent hleave).symm
  · exact Nat.le_of_eq (congrArg State.made hleave).symm
  · exact fun i _ => (leave_requests hst i).1
  · rw [hleave]
    exact fun _ _ hu => hu
  · exact fun u _ hu hr => (leave_client hl hst hu).trans hr
  · rw [hleave]
    exact fun _ _ => rfl

/-- The thread itself: an inner execution keeps the entry, the outermost one of a worker removes
it. -/
theorem local_leave (h : Inv s) (hst : s.stack t = .executing r .leaving inserted :: rest) :
    Local (s.leave t) t := by
  have hl := h.threads t
  have hstack : (s.leave t).stack t = rest := by
    rw [leave_eq hst]
    exact Function.update_self _ _ _
  have houtermost : t.isClient = false → (inserted = true ↔ rest = []) := by
    intro ht
    have hlayers := hl.layers ht
    rw [hst] at hlayers
    exact hlayers.1 nofun
  cases hins : inserted with
  | false =>
    refine hl.pop h.known (extends_leave hl hst) hst (fun ht hnil => ?_) hstack fun _ =>
      leave_entry hst (.inl hins)
    cases hins.symm.trans ((houtermost ht).mpr hnil)
  | true =>
    have hworker : t.isClient = false := by
      cases ht : t.isClient with
      | false => rfl
      | true =>
        have hmem : .executing r .leaving inserted ∈ s.stack t := by
          rw [hst]
          exact List.mem_cons_self
        cases hins.symm.trans (hl.client ht _ hmem)
    apply Local.of_nil (hstack.trans ((houtermost hworker).mp hins))
    intro _
    rw [leave_eq hst, hins]
    exact Function.update_self _ _ _

end Leave

/-- The entry taken out at the end keeps the invariant. -/
theorem inv_leave (h : Inv s) (ht : InPhase .leaving (s.stack t) = true) : Inv (s.leave t) := by
  obtain ⟨r, inserted, rest, hst⟩ := stack_of_inPhase ht
  have hl := h.threads t
  have e := extends_leave hl hst
  constructor
  · apply h.known.extend e
    · rw [leave_eq hst]
    · rw [leave_eq hst]
    · exact fun u hu => leave_client hl hst hu
    · intro i _ u hu
      rw [(leave_requests hst i).2] at hu
      exact .inl hu
  · intro u
    by_cases heq : u = t
    · subst heq
      exact local_leave h hst
    · apply (h.threads u).extend h.known e
      · rw [leave_eq hst]
        exact Function.update_of_ne heq _ _
      · exact fun _ => leave_entry hst (.inr heq)

/-- A call that returns keeps the invariant. -/
theorem inv_return (h : Inv s) (ha : enabled s (.return t)) : Inv (next s (.return t)) := by
  have hl := h.threads t
  obtain ⟨r, rest, hst⟩ : ∃ r rest, s.stack t = .calling r :: rest := by
    unfold enabled at ha
    simp only at ha
    split at ha
    · next r rest hst => exact ⟨r, rest, hst⟩
    · cases ha
  have hstack : (next s (.return t)).stack t = rest :=
    (Function.update_self _ _ _).trans (congrArg List.tail hst)
  apply inv_stack h
  refine hl.pop h.known (extends_stack s t _) hst (fun ht => ?_) hstack fun _ => rfl
  have hlayers := hl.layers ht
  rw [hst] at hlayers
  exact hlayers.1

/-- Every step keeps the invariant. -/
theorem inv_next (s : State) (a : Action) (h : Inv s) (ha : enabled s a) : Inv (next s a) := by
  cases a with
  | call t => exact inv_call h ha
  | makeThread handle => exact inv_makeThread h handle
  | execute r => exact inv_execute h ha.1 ha.2.2.2
  | enter t => exact inv_enter h ha
  | finish t => exact inv_finish h ha
  | leave t => exact inv_leave h ha
  | «return» t => exact inv_return h ha

/-! ## The result -/

/-- The other side is another one. -/
theorem Side.other_ne (side : Side) : side.other ≠ side := by
  cases side <;> nofun

/-- All requests of a call tree have its thread as their origin. -/
theorem Known.within_origin (h : Known s) {r₀ r : Nat} (top : TopLevel s t r₀)
    (hw : Within s r₀ r) : r < s.sent ∧ (s.requests r).origin = t := by
  induction hw with
  | self =>
    have hdesc := h.descends r₀ top.sent
    unfold Request.Descends at hdesc
    rw [top.parent] at hdesc
    exact ⟨top.sent, hdesc.symm.trans top.caller⟩
  | @nested r p hr hparent _ ih =>
    have hdesc := h.descends r hr
    unfold Request.Descends at hdesc
    rw [hparent] at hdesc
    exact ⟨hr, hdesc.2.symm.trans ih.2⟩

/-- Where the requests of a thread's call trees are executed: those of the thread on its worker,
those of the worker on the thread. -/
theorem Known.executor_cases (h : Known s) {r : Nat} (hr : r < s.sent) {handle : Nat}
    (request : s.request_threads (s.requests r).origin = some handle) :
    (s.requests r).caller = (s.requests r).origin ∧
        s.executor r = .worker (s.requests r).origin.side.other handle ∨
      (s.requests r).caller = .worker (s.requests r).origin.side.other handle ∧
        s.executor r = (s.requests r).origin := by
  have hrouted := h.routed r hr
  obtain ⟨handle', callbackThread, hrequest, hc, hends⟩ := hrouted.ends
  obtain rfl : handle' = handle := Option.some.inj (hrequest.symm.trans request)
  unfold State.executor
  rcases hends with ⟨hcaller, hthread, -⟩ | ⟨hcaller, hthread⟩
  · left
    rw [hthread]
    exact ⟨hcaller, (h.request _ handle' hrouted.client request).2⟩
  · right
    rw [hthread]
    exact ⟨hcaller, (h.callback _ callbackThread hc).2⟩

section Tree

variable {r₀ r handle : Nat} {u : Thread}

/-- A request of the thread's call trees which has run, on the thread's worker or on itself. -/
theorem Known.ran_cases (h : Known s) (top : TopLevel s t r₀) (hw : Within s r₀ r)
    (request : s.request_threads t = some handle) (hran : (s.requests r).ran = some u) :
    (s.requests r).caller = t ∧ u = .worker t.side.other handle ∨
      (s.requests r).caller = .worker t.side.other handle ∧ u = t := by
  obtain ⟨hr, horigin⟩ := h.within_origin top hw
  have hexec := h.executor_cases hr (by rw [horigin]; exact request)
  rw [horigin] at hexec
  rw [h.ran r hr u hran]
  exact hexec

theorem Known.forward (h : Known s) (top : TopLevel s t r₀) (hw : Within s r₀ r)
    (request : s.request_threads t = some handle) (side : (s.requests r).caller.side = t.side)
    (hran : (s.requests r).ran = some u) : u = .worker t.side.other handle := by
  rcases h.ran_cases top hw request hran with ⟨-, hu⟩ | ⟨hcaller, -⟩
  · exact hu
  · rw [hcaller] at side
    exact absurd side (Side.other_ne _)

theorem Known.backward (h : Known s) (top : TopLevel s t r₀) (hw : Within s r₀ r)
    (request : s.request_threads t = some handle)
    (side : (s.requests r).caller.side = t.side.other) (hran : (s.requests r).ran = some u) :
    u = t := by
  rcases h.ran_cases top hw request hran with ⟨hcaller, -⟩ | ⟨-, hu⟩
  · rw [hcaller] at side
    exact absurd side.symm (Side.other_ne _)
  · exact hu

/-- The worker of a thread runs nothing of the call trees of another. -/
theorem Known.alone (h : Known s) (ht : t.isClient = true)
    (request : s.request_threads t = some handle) (hne : u ≠ t) (top : TopLevel s u r₀)
    (hw : Within s r₀ r) : (s.requests r).ran ≠ some (.worker t.side.other handle) := by
  intro hran
  obtain ⟨hr, horigin⟩ := h.within_origin top hw
  have hrouted := h.routed r hr
  obtain ⟨handle', -, hrequest, -, -⟩ := hrouted.ends
  have hclient := hrouted.client
  rw [horigin] at hrequest hclient
  rcases h.ran_cases top hw hrequest hran with ⟨-, hworker⟩ | ⟨-, hworker⟩
  · obtain ⟨-, rfl⟩ := Thread.worker.inj hworker
    exact hne (h.unique u t _ hclient ht hrequest request)
  · rw [← hworker] at hclient
    cases hclient

/-- What the worker of a thread executes belongs to the call trees of the thread, and it has the
handle for calls back. -/
theorem Inv.entry (h : Inv s) (ht : t.isClient = true)
    (request : s.request_threads t = some handle) {f : Frame}
    (hf : f ∈ s.stack (.worker t.side.other handle)) (settled : f.settled = true) :
    s.request_threads (.worker t.side.other handle) = s.callback_threads t := by
  have hk := h.known
  have hl := h.threads (.worker t.side.other handle)
  have hon := hl.frames f hf
  obtain ⟨handle', hrequest, hworker⟩ := hk.worker_of hon rfl
  obtain ⟨-, rfl⟩ := Thread.worker.inj hworker
  have horigin : (s.requests f.request).origin = t :=
    hk.unique _ _ _ (hk.routed _ hon.sent).client ht hrequest request
  rw [← horigin]
  rw [← horigin] at hl hf
  exact hl.entry rfl f hf settled

end Tree

/-- Whatever calls the threads of both endpoints make and however they interleave: the calls of a
thread have a worker of their own, and calls back come to the thread itself. -/
theorem thread_affinity (h : endpoints.Reachable s) {r₀ : Nat} (top : TopLevel s t r₀) :
    ∃ w, Affine s t w := by
  have hinv : Inv s := h.invariant (by rintro _ rfl; exact inv_started) inv_next
  have hk := hinv.known
  have horigin := (hk.within_origin top .self).2
  have hrouted := hk.routed r₀ top.sent
  obtain ⟨handle, callbackThread, hrequest, hcallback, -⟩ := hrouted.ends
  have hclient := hrouted.client
  rw [horigin] at hrequest hcallback hclient
  refine ⟨.worker t.side.other handle, ⟨handle, rfl⟩, ?_, ?_, ?_, ?_⟩
  · exact fun r₁ r top' hw hside u hran => hk.forward top' hw hrequest hside hran
  · exact fun r₁ r top' hw hside u hran => hk.backward top' hw hrequest hside hran
  · exact fun u r₁ r hne top' hw => hk.alone hclient hrequest hne top' hw
  · intro r phase inserted hf hphase
    have hsettled : (Frame.executing r phase inserted).settled = true := by
      cases phase with
      | entering => exact absurd rfl hphase
      | running | leaving => rfl
    refine ⟨hinv.entry hclient hrequest hf hsettled, ?_⟩
    rw [hcallback]
    rfl

/-- A thread of the left side is called back in its call, and calls again in that. -/
theorem nested_affinity : ∃ s, endpoints.Reachable s ∧
    TopLevel s (.client .left 0) 0 ∧ Within s 0 2 ∧ (s.requests 2).ran = some (.worker .right 1) ∧
      ∃ w, Affine s (.client .left 0) w := by
  have hrun := endpoints.exists_reachable_of_run (s := started) rfl
    [.call (.client .left 0), .makeThread 1, .execute 0, .enter (.worker .right 1),
      .call (.worker .right 1), .execute 1, .enter (.client .left 0), .call (.client .left 0),
      .execute 2, .enter (.worker .right 1)]
    (fun s => decide (s.sent = 3 ∧ (s.requests 0).parent = none ∧
      (s.requests 0).caller = .client .left 0 ∧ (s.requests 1).parent = some 0 ∧
      (s.requests 2).parent = some 1 ∧ (s.requests 2).ran = some (.worker .right 1))) (by decide)
  obtain ⟨s, hs, hp⟩ := hrun
  obtain ⟨hsent, hparent, hcaller, hfirst, hsecond, hran⟩ := of_decide_eq_true hp
  have htop : TopLevel s (.client .left 0) 0 := ⟨by omega, hparent, hcaller⟩
  have hwithin : Within s 0 2 :=
    .nested (by omega) hsecond (.nested (by omega) hfirst .self)
  exact ⟨s, hs, htop, hwithin, hran, thread_affinity hs htop⟩

end Multiprocess.Context.Affinity
