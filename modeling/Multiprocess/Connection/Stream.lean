import Multiprocess.Lib.System

/-!
# The connection of `ConnectStream`

An outgoing `Connection` (`src/include/mp/proxy-io.h`) has two deleters: the disconnect handler,
which holds a raw pointer and runs in a turn of the event loop after the one that queued it, and
the `ProxyClient` made over it, whose owner may destroy it at any time. The calling thread
dereferences the connection off the event loop thread while it constructs that client.

One client is made over the connection. Further clients of it and the requests on it are left out;
the incoming side is in `Loop/Incoming`.
-/

namespace Multiprocess.Stream

open Transition (System)

/-- Where the thread that called `ConnectStream` is, and later the client it made. -/
inductive Caller where
  /-- in `loop.sync`, the connection not yet made -/
  | creating
  /-- at the constructor of `ProxyContext`, which reads `connection->m_loop` -/
  | context
  /-- at `connection->addSyncCleanup` -/
  | registering
  /-- in `Sub::construct` -/
  | constructing
  | owning
  /-- in `~ProxyClient`, its function for `loop->sync` not yet run -/
  | destroying
  | gone
  /-- `Sub::construct` threw, and there is no client -/
  | failed
  deriving DecidableEq

/-- The disconnect handler. -/
inductive Handler where
  | unset
  /-- in `m_on_disconnect`, waiting for `m_network.onDisconnect()` -/
  | armed
  /-- in `EventLoop::m_task_set`, to run in a later turn -/
  | queued
  | ran
  /-- destroyed with `m_on_disconnect` -/
  | canceled
  deriving DecidableEq

/-- Who runs a `~Connection`. -/
inductive Deleter where
  | handler
  | owner
  deriving DecidableEq

/-- The connection and what refers to it: `pointer` is `m_context.connection` of the client not
being null, `entry` its callback in `m_sync_cleanup_fns`, `deleting` the `~Connection` being run.
`deletes` and `misused` (a use of the connection while or after it is deleted) are history. -/
structure State where
  caller : Caller
  handler : Handler
  deleting : Option Deleter
  pointer : Bool
  entry : Bool
  closed : Bool
  deletes : Nat
  misused : Bool

namespace State

/-- The connection is dereferenced. -/
def use (s : State) : State :=
  if s.deletes = 0 ∧ s.deleting = none then s else { s with misused := true }

/-- A client method, run on the event loop thread, looks at `m_context.connection` first. -/
def call (s : State) : State := if s.pointer then s.use else s

/-- The function of `~ProxyClientBase`: `removeSyncCleanup`, then `delete m_context.connection`. -/
def runDestroy (s : State) : State :=
  if s.pointer then { s.use with entry := false, deleting := some .owner }
  else { s with caller := .gone }

/-- The handler deletes the connection. -/
def runHandler (s : State) : State :=
  { s.use with handler := .ran, deleting := some .handler }

/-- `~Connection` runs the callback of the client. -/
def drain (s : State) : State := { s with entry := false, pointer := false }

/-- The end of `~Connection`: `m_on_disconnect` is destroyed and the memory freed. The function of
`~ProxyClientBase` then ends. -/
def free (s : State) : State :=
  let freed := { s with
    deletes := s.deletes + 1
    deleting := none
    handler := if s.handler = .armed then .canceled else s.handler }
  if s.deleting = some .owner then { freed with pointer := false, caller := .gone } else freed

end State

/-- The steps of the calling thread, of the event loop thread and of the peer. -/
inductive Action where
  | create
  | context
  | register
  | call
  | constructed
  | constructThrows
  | destroy
  | runDestroy
  | close
  | fire
  | runHandler
  | drain
  | free
  deriving DecidableEq

/-- Where a step can happen. A `~Connection` is not interrupted by other work of the event loop
thread. -/
def enabled (s : State) : Action → Prop
  | .create => s.caller = .creating ∧ s.deleting = none
  | .context => s.caller = .context
  | .register => s.caller = .registering
  | .call => (s.caller = .constructing ∨ s.caller = .owning ∨ s.caller = .destroying) ∧
      s.deleting = none
  | .constructed => s.caller = .constructing
  | .constructThrows => s.caller = .constructing
  | .destroy => s.caller = .owning
  | .runDestroy => s.caller = .destroying ∧ s.deleting = none
  | .close => True
  | .fire => s.handler = .armed ∧ s.closed = true ∧ s.deleting = none
  | .runHandler => s.handler = .queued ∧ s.deleting = none
  | .drain => s.deleting.isSome = true ∧ s.entry = true
  | .free => s.deleting.isSome = true ∧ s.entry = false

/-- What a step does. -/
def next (s : State) : Action → State
  | .create => { s with caller := .context, handler := .armed }
  | .context => { s.use with caller := .registering, pointer := true }
  | .register => { s.use with caller := .constructing, entry := true }
  | .call => s.call
  | .constructed => { s with caller := .owning }
  | .constructThrows => { s with caller := .failed }
  | .destroy => { s with caller := .destroying }
  | .runDestroy => s.runDestroy
  | .close => { s with closed := true }
  | .fire => { s with handler := .queued }
  | .runHandler => s.runHandler
  | .drain => s.drain
  | .free => s.free

instance (s : State) : ∀ a, Decidable (enabled s a)
  | .create | .runDestroy | .runHandler | .drain | .free => inferInstanceAs (Decidable (_ ∧ _))
  | .fire => inferInstanceAs (Decidable (_ ∧ _ ∧ _))
  | .call => inferInstanceAs (Decidable ((_ ∨ _ ∨ _) ∧ _))
  | .context | .register | .constructed | .constructThrows | .destroy =>
    inferInstanceAs (Decidable (_ = _))
  | .close => inferInstanceAs (Decidable True)

/-- `ConnectStream` is called. -/
def called : State where
  caller := .creating
  handler := .unset
  deleting := none
  pointer := false
  entry := false
  closed := false
  deletes := 0
  misused := false

/-- The interleavings of the two threads and the peer. -/
def stream : System State Action where
  init s := s = called
  enabled := enabled
  next := next

instance (s : State) (a : Action) : Decidable (stream.enabled s a) :=
  inferInstanceAs (Decidable (enabled s a))

/-- The condition on the steps: the handler runs after the client's constructor is done with the
connection, the owner's function does not run between the turn that queues the handler and the
turn that runs it, and the client's constructor does not fail while the peer is there. -/
def Orderly (s : State) : Action → Prop
  | .runHandler => s.caller ≠ .context ∧ s.caller ≠ .registering
  | .runDestroy => s.handler ≠ .queued
  | .constructThrows => s.closed = true
  | _ => True

instance (s : State) : ∀ a, Decidable (Orderly s a)
  | .runHandler => inferInstanceAs (Decidable (_ ∧ _))
  | .runDestroy => inferInstanceAs (Decidable (_ ≠ _))
  | .constructThrows => inferInstanceAs (Decidable (_ = _))
  | .create | .context | .register | .call | .constructed | .destroy | .close | .fire | .drain
  | .free => inferInstanceAs (Decidable True)

/-- The runs whose steps all meet the condition. -/
def orderly : System State Action := stream.guardedBy Orderly

instance (s : State) (a : Action) : Decidable (orderly.enabled s a) :=
  inferInstanceAs (Decidable (Orderly s a ∧ enabled s a))

/-! ## The life of the connection -/

variable {s : State}

/-- The caller has a client over the connection, whose constructor has registered its callback. -/
def Caller.isConstructed : Caller → Bool
  | .constructing | .owning | .destroying => true
  | _ => false

/-- The connection is not yet made, alive, being deleted by one of its deleters, or deleted. -/
inductive Life (s : State) : Prop
  | absent (caller : s.caller = .creating) (deleting : s.deleting = none) (deletes : s.deletes = 0)
      (handler : s.handler = .unset) (entry : s.entry = false)
  | constructing (caller : s.caller = .context ∨ s.caller = .registering)
      (deleting : s.deleting = none) (deletes : s.deletes = 0)
      (handler : s.handler = .armed ∨ s.handler = .queued) (entry : s.entry = false)
      (pointer : s.caller = .registering → s.pointer = true)
  | alive (caller : s.caller.isConstructed = true ∨ s.caller = .failed ∧ s.closed = true)
      (deleting : s.deleting = none) (deletes : s.deletes = 0)
      (handler : s.handler = .armed ∨ s.handler = .queued) (entry : s.entry = true)
      (pointer : s.pointer = true)
  | handled (caller : s.caller.isConstructed = true ∨ s.caller = .failed)
      (deleting : s.deleting = some .handler) (deletes : s.deletes = 0) (handler : s.handler = .ran)
      (pointer : s.pointer = s.entry)
  | owned (caller : s.caller = .destroying) (deleting : s.deleting = some .owner)
      (deletes : s.deletes = 0) (handler : s.handler = .armed) (entry : s.entry = false)
  | deleted (caller : s.caller.isConstructed = true ∨ s.caller = .gone ∨ s.caller = .failed)
      (deleting : s.deleting = none) (deletes : s.deletes = 1)
      (handler : s.handler = .ran ∨ s.handler = .canceled) (entry : s.entry = false)
      (pointer : s.pointer = false)

/-- A disconnect handler that is still to run belongs to one of two. -/
@[elab_as_elim]
theorem Life.casesPending {motive : Life s → Prop}
    (pending : s.handler = .armed ∨ s.handler = .queued) (none : s.deleting = none)
    (constructing : ∀ caller deleting deletes handler entry pointer,
      motive (.constructing caller deleting deletes handler entry pointer))
    (alive : ∀ caller deleting deletes handler entry pointer,
      motive (.alive caller deleting deletes handler entry pointer)) (h : Life s) : motive h := by
  cases h with
  | constructing caller deleting deletes handler entry pointer =>
    exact constructing caller deleting deletes handler entry pointer
  | alive caller deleting deletes handler entry pointer =>
    exact alive caller deleting deletes handler entry pointer
  | absent caller deleting deletes handler =>
    rcases pending with hp | hp <;> cases handler.symm.trans hp
  | handled caller deleting | owned caller deleting => cases deleting.symm.trans none
  | deleted caller deleting deletes handler =>
    rcases handler with handler | handler <;> rcases pending with hp | hp <;>
      cases handler.symm.trans hp

/-- So does a delete that has begun. -/
@[elab_as_elim]
theorem Life.casesDeleting {motive : Life s → Prop} (begun : s.deleting.isSome = true)
    (handled : ∀ caller deleting deletes handler pointer,
      motive (.handled caller deleting deletes handler pointer))
    (owned : ∀ caller deleting deletes handler entry,
      motive (.owned caller deleting deletes handler entry)) (h : Life s) : motive h := by
  have hno : s.deleting ≠ none := Option.isSome_iff_ne_none.mp begun
  cases h with
  | handled caller deleting deletes handler pointer =>
    exact handled caller deleting deletes handler pointer
  | owned caller deleting deletes handler entry =>
    exact owned caller deleting deletes handler entry
  | absent _ deleting | constructing _ deleting | alive _ deleting | deleted _ deleting =>
    exact absurd deleting hno

/-- Until the client's constructor has registered its callback, the connection is not made yet or in
the hands of `ConnectStream`. -/
@[elab_as_elim]
theorem Life.casesCalling {motive : Life s → Prop}
    (calling : s.caller = .creating ∨ s.caller = .context ∨ s.caller = .registering)
    (absent : ∀ caller deleting deletes handler entry,
      motive (.absent caller deleting deletes handler entry))
    (constructing : ∀ caller deleting deletes handler entry pointer,
      motive (.constructing caller deleting deletes handler entry pointer)) (h : Life s) :
    motive h := by
  have hcaller : s.caller.isConstructed = false ∧ s.caller ≠ .failed ∧ s.caller ≠ .destroying ∧
      s.caller ≠ .gone := by
    rcases calling with hc | hc | hc <;> rw [hc] <;>
      exact ⟨rfl, by decide, by decide, by decide⟩
  obtain ⟨hconstructed, hfailed, hdestroying, hgone⟩ := hcaller
  cases h with
  | absent caller deleting deletes handler entry =>
    exact absent caller deleting deletes handler entry
  | constructing caller deleting deletes handler entry pointer =>
    exact constructing caller deleting deletes handler entry pointer
  | alive caller =>
    rcases caller with caller | ⟨caller, -⟩
    · cases caller.symm.trans hconstructed
    · exact absurd caller hfailed
  | handled caller =>
    rcases caller with caller | caller
    · cases caller.symm.trans hconstructed
    · exact absurd caller hfailed
  | owned caller => exact absurd caller hdestroying
  | deleted caller =>
    rcases caller with caller | caller | caller
    · cases caller.symm.trans hconstructed
    · exact absurd caller hgone
    · exact absurd caller hfailed

/-- Where the client is being destroyed and no delete has begun, the connection is alive or was
deleted before. -/
@[elab_as_elim]
theorem Life.casesDestroying {motive : Life s → Prop} (destroying : s.caller = .destroying)
    (none : s.deleting = none)
    (alive : ∀ caller deleting deletes handler entry pointer,
      motive (.alive caller deleting deletes handler entry pointer))
    (deleted : ∀ caller deleting deletes handler entry pointer,
      motive (.deleted caller deleting deletes handler entry pointer)) (h : Life s) : motive h := by
  cases h with
  | alive caller deleting deletes handler entry pointer =>
    exact alive caller deleting deletes handler entry pointer
  | deleted caller deleting deletes handler entry pointer =>
    exact deleted caller deleting deletes handler entry pointer
  | absent caller => cases caller.symm.trans destroying
  | constructing caller =>
    rcases caller with caller | caller <;> cases caller.symm.trans destroying
  | handled caller deleting | owned caller deleting => cases deleting.symm.trans none

/-- The connection is somewhere in its life and has not been misused. -/
structure Sound (s : State) : Prop where
  life : Life s
  unmisused : s.misused = false

/-- At the call nothing is registered yet. -/
theorem sound_called : Sound called := ⟨.absent rfl rfl rfl rfl rfl, rfl⟩

/-- Using a connection that is there is no misuse. -/
theorem use_of_alive (deletes : s.deletes = 0) (deleting : s.deleting = none) : s.use = s :=
  if_pos ⟨deletes, deleting⟩

/-- A use changes only what is known of misuse. -/
theorem use_fields : s.use.caller = s.caller ∧ s.use.handler = s.handler ∧
    s.use.deleting = s.deleting ∧ s.use.entry = s.entry := by
  unfold State.use
  split <;> exact ⟨rfl, rfl, rfl, rfl⟩

/-! ## One lemma for each step -/

/-- The connection is made, with its handler armed later. -/
theorem sound_create (h : Sound s) (ha : s.caller = .creating) :
    Sound { s with caller := .context, handler := .armed } := by
  refine ⟨?_, h.unmisused⟩
  cases h.life using Life.casesCalling (.inl ha) with
  | absent caller deleting deletes handler entry =>
    exact .constructing (.inl rfl) deleting deletes (.inl rfl) entry nofun
  | constructing caller => rcases caller with caller | caller <;> cases caller.symm.trans ha

/-- The client takes its context from the connection, which is there. -/
theorem sound_context (h : Sound s) (ha : s.caller = .context) :
    Sound { s.use with caller := .registering, pointer := true } := by
  cases h.life using Life.casesCalling (.inr (.inl ha)) with
  | absent caller => cases caller.symm.trans ha
  | constructing caller deleting deletes handler entry pointer =>
    rw [use_of_alive deletes deleting]
    exact ⟨.constructing (.inr rfl) deleting deletes handler entry fun _ => rfl, h.unmisused⟩

/-- It registers its cleanup, with the connection still there. -/
theorem sound_register (h : Sound s) (ha : s.caller = .registering) :
    Sound { s.use with caller := .constructing, entry := true } := by
  cases h.life using Life.casesCalling (.inr (.inr ha)) with
  | absent caller => cases caller.symm.trans ha
  | constructing caller deleting deletes handler entry pointer =>
    rw [use_of_alive deletes deleting]
    exact ⟨.alive (.inl rfl) deleting deletes handler rfl (pointer ha), h.unmisused⟩

/-- A call of the application finds the connection or none. -/
theorem sound_call (h : Sound s) (hd : s.deleting = none) : Sound s.call := by
  unfold State.call
  split
  · next hp =>
    cases h.life with
    | deleted caller deleting deletes handler entry pointer => cases hp.symm.trans pointer
    | handled caller deleting => cases deleting.symm.trans hd
    | owned caller deleting => cases deleting.symm.trans hd
    | absent caller deleting deletes | constructing caller deleting deletes
    | alive caller deleting deletes =>
      rw [use_of_alive deletes deleting]
      exact h
  · exact h

/-- The caller goes on with a client it has, or drops it while the peer is gone. -/
theorem sound_caller (h : Sound s) (hc : s.caller.isConstructed = true) {caller : Caller}
    (hto : caller.isConstructed = true ∨ caller = .failed ∧ s.closed = true)
    (hd : s.caller ≠ .destroying) : Sound { s with caller := caller } := by
  refine ⟨?_, h.unmisused⟩
  have hto' : caller.isConstructed = true ∨ caller = .failed := hto.imp_right And.left
  cases h.life with
  | alive caller deleting deletes handler entry pointer =>
    exact .alive hto deleting deletes handler entry pointer
  | handled caller deleting deletes handler pointer =>
    exact .handled hto' deleting deletes handler pointer
  | owned caller => exact absurd caller hd
  | deleted caller deleting deletes handler entry pointer =>
    exact .deleted (hto'.imp_right .inr) deleting deletes handler entry pointer
  | absent caller =>
    rw [caller] at hc
    cases hc
  | constructing caller =>
    rcases caller with caller | caller <;> rw [caller] at hc <;> cases hc

/-- The destructor deletes the connection if no handler is about to. -/
theorem sound_runDestroy (h : Sound s) (ha : s.caller = .destroying) (hd : s.deleting = none)
    (hok : s.handler ≠ .queued) : Sound s.runDestroy := by
  unfold State.runDestroy
  cases h.life using Life.casesDestroying ha hd with
  | alive caller deleting deletes handler entry pointer =>
    rw [if_pos pointer, use_of_alive deletes deleting]
    exact ⟨.owned ha rfl deletes (handler.resolve_right hok) rfl, h.unmisused⟩
  | deleted caller deleting deletes handler entry pointer =>
    rw [if_neg (by rw [pointer]; nofun)]
    exact ⟨.deleted (.inr (.inl rfl)) deleting deletes handler entry pointer, h.unmisused⟩

/-- The peer may close its end at any time. -/
theorem sound_close (h : Sound s) : Sound { s with closed := true } := by
  refine ⟨?_, h.unmisused⟩
  cases h.life with
  | absent caller deleting deletes handler entry =>
    exact .absent caller deleting deletes handler entry
  | constructing caller deleting deletes handler entry pointer =>
    exact .constructing caller deleting deletes handler entry pointer
  | alive caller deleting deletes handler entry pointer =>
    exact .alive (caller.imp_right fun hc => ⟨hc.1, rfl⟩) deleting deletes handler entry pointer
  | handled caller deleting deletes handler pointer =>
    exact .handled caller deleting deletes handler pointer
  | owned caller deleting deletes handler entry =>
    exact .owned caller deleting deletes handler entry
  | deleted caller deleting deletes handler entry pointer =>
    exact .deleted caller deleting deletes handler entry pointer

/-- The armed handler is queued when the end of the stream is reached. -/
theorem sound_fire (h : Sound s) (ha : s.handler = .armed) (hd : s.deleting = none) :
    Sound { s with handler := .queued } := by
  refine ⟨?_, h.unmisused⟩
  cases h.life using Life.casesPending (.inl ha) hd with
  | constructing caller deleting deletes handler entry pointer =>
    exact .constructing caller deleting deletes (.inr rfl) entry pointer
  | alive caller deleting deletes handler entry pointer =>
    exact .alive caller deleting deletes (.inr rfl) entry pointer

/-- The queued handler deletes the connection, which is still there. -/
theorem sound_runHandler (h : Sound s) (ha : s.handler = .queued) (hd : s.deleting = none)
    (hok : s.caller ≠ .context ∧ s.caller ≠ .registering) : Sound s.runHandler := by
  unfold State.runHandler
  cases h.life using Life.casesPending (.inr ha) hd with
  | constructing caller =>
    rcases caller with hc | hc
    · exact absurd hc hok.1
    · exact absurd hc hok.2
  | alive caller deleting deletes handler entry pointer =>
    rw [use_of_alive deletes deleting]
    exact ⟨.handled (caller.imp_right And.left) rfl deletes rfl (pointer.trans entry.symm),
      h.unmisused⟩

/-- `~Connection` runs the client's cleanup function. -/
theorem sound_drain (h : Sound s) (ha : s.deleting.isSome = true) (he : s.entry = true) :
    Sound s.drain := by
  refine ⟨?_, h.unmisused⟩
  cases h.life using Life.casesDeleting ha with
  | handled caller deleting deletes handler pointer =>
    exact .handled caller deleting deletes handler rfl
  | owned caller deleting deletes handler entry => cases entry.symm.trans he

/-- With no function left the connection is freed. -/
theorem sound_free (h : Sound s) (ha : s.deleting.isSome = true) (he : s.entry = false) :
    Sound s.free := by
  unfold State.free
  cases h.life using Life.casesDeleting ha with
  | handled caller deleting deletes handler pointer =>
    rw [deleting, if_neg nofun]
    refine ⟨.deleted ?_ rfl ?_ (.inl ?_) he (pointer.trans he), h.unmisused⟩
    · exact caller.imp_right .inr
    · exact congrArg (· + 1) deletes
    · simp only [handler, reduceCtorEq, if_false]
  | owned caller deleting deletes handler entry =>
    rw [deleting, if_pos rfl]
    refine ⟨.deleted (.inr (.inl rfl)) rfl ?_ (.inr ?_) he rfl, h.unmisused⟩
    · exact congrArg (· + 1) deletes
    · simp only [handler, if_true]

/-- Every step that meets the condition keeps the connection sound. -/
theorem sound_next (s : State) (a : Action) (h : Sound s) (ha : orderly.enabled s a) :
    Sound (orderly.next s a) := by
  obtain ⟨hok, ha⟩ := ha
  cases a with
  | create => exact sound_create h ha.1
  | context => exact sound_context h ha
  | register => exact sound_register h ha
  | call => exact sound_call h ha.2
  | constructed =>
    have ha : s.caller = .constructing := ha
    exact sound_caller h (by rw [ha]; rfl) (.inl rfl) (by rw [ha]; nofun)
  | constructThrows =>
    have ha : s.caller = .constructing := ha
    exact sound_caller h (by rw [ha]; rfl) (.inr ⟨rfl, hok⟩) (by rw [ha]; nofun)
  | destroy =>
    have ha : s.caller = .owning := ha
    exact sound_caller h (by rw [ha]; rfl) (.inl rfl) (by rw [ha]; nofun)
  | runDestroy => exact sound_runDestroy h ha.1 ha.2 hok
  | close => exact sound_close h
  | fire => exact sound_fire h ha.1 ha.2.2
  | runHandler => exact sound_runHandler h ha.1 ha.2 hok
  | drain => exact sound_drain h ha.1 ha.2
  | free => exact sound_free h ha.1 ha.2

/-- So every state of an orderly run is sound. -/
theorem sound_reachable (h : orderly.Reachable s) : Sound s :=
  h.invariant (fun s hs => by
    have hs : s = called := hs
    rw [hs]
    exact sound_called) sound_next

/-! ## It is deleted in the end -/

/-- The steps that take the client and the connection to their ends. -/
def Action.IsProgress : Action → Prop
  | .close | .call | .constructThrows => False
  | _ => True

/-- The steps the caller has left at most, with those of the callback it registers. -/
def Caller.left : Caller → Nat
  | .creating => 8
  | .context => 7
  | .registering => 6
  | .constructing => 3
  | .owning => 2
  | .destroying => 1
  | .gone | .failed => 0

/-- The steps the handler has left at most, with the deletion it begins. -/
def Handler.left : Handler → Nat
  | .unset | .armed => 3
  | .queued => 2
  | .ran | .canceled => 0

/-- The steps left at most. -/
def left (s : State) : Nat :=
  s.caller.left + s.handler.left + (s.deleting.elim 0 fun _ => 1) + bif s.entry then 2 else 0

/-- Each of them leaves fewer. -/
theorem left_next_lt (s : State) (a : Action) (h : Sound s) (hk : a.IsProgress)
    (ha : orderly.enabled s a) : left (orderly.next s a) < left s := by
  obtain ⟨hok, ha⟩ := ha
  cases a with
  | close => cases hk
  | call => cases hk
  | constructThrows => cases hk
  | create =>
    obtain ⟨hc, hd⟩ := ha
    have hh : s.handler = .unset := by
      cases h.life using Life.casesCalling (.inl hc) with
      | absent caller deleting deletes handler => exact handler
      | constructing caller => rcases caller with caller | caller <;> cases caller.symm.trans hc
    simp only [orderly, stream, System.guardedBy, next, left, hc, hh, Caller.left, Handler.left]
    omega
  | context =>
    have hc : s.caller = .context := ha
    simp only [orderly, stream, System.guardedBy, next, left, use_fields, hc, Caller.left]
    omega
  | register =>
    have hc : s.caller = .registering := ha
    simp only [orderly, stream, System.guardedBy, next, left, use_fields, hc, Caller.left,
      cond_true]
    cases s.entry <;> simp only [cond_true, cond_false] <;> omega
  | constructed =>
    have hc : s.caller = .constructing := ha
    simp only [orderly, stream, System.guardedBy, next, left, hc, Caller.left]
    omega
  | destroy =>
    have hc : s.caller = .owning := ha
    simp only [orderly, stream, System.guardedBy, next, left, hc, Caller.left]
    omega
  | runDestroy =>
    obtain ⟨hc, hd⟩ := ha
    simp only [orderly, stream, System.guardedBy, next, State.runDestroy]
    split
    · next hp =>
      have he : s.entry = true := by
        cases h.life using Life.casesDestroying hc hd with
        | alive caller deleting deletes handler entry => exact entry
        | deleted caller deleting deletes handler entry pointer => cases hp.symm.trans pointer
      simp only [left, use_fields, hd, he, cond_true, cond_false, Option.elim_some, Option.elim_none]
      omega
    · simp only [left, hc, Caller.left]
      omega
  | fire =>
    obtain ⟨hh, -⟩ := ha
    simp only [orderly, stream, System.guardedBy, next, left, hh, Handler.left]
    omega
  | runHandler =>
    obtain ⟨hh, hd⟩ := ha
    simp only [orderly, stream, System.guardedBy, next, State.runHandler, left, use_fields, hh, hd,
      Handler.left, Option.elim_some, Option.elim_none]
    omega
  | drain =>
    obtain ⟨-, he⟩ := ha
    simp only [orderly, stream, System.guardedBy, next, State.drain, left, he, cond_true, cond_false]
    omega
  | free =>
    obtain ⟨hd, he⟩ := ha
    obtain ⟨deleter, hd⟩ := Option.isSome_iff_exists.mp hd
    have hhandler : (if s.handler = .armed then .canceled else s.handler).left ≤ s.handler.left := by
      split
      · exact Nat.zero_le _
      · exact Nat.le_refl _
    simp only [orderly, stream, System.guardedBy, next, State.free]
    split
    · simp only [left, hd, Caller.left, Option.elim_some, Option.elim_none]
      omega
    · simp only [left, hd, Option.elim_some, Option.elim_none]
      omega

/-- Where none of them can be taken, the connection is deleted. -/
theorem deleted_of_quiescent (h : Sound s) (hq : orderly.Quiescent Action.IsProgress s) :
    s.deletes = 1 := by
  cases h.life with
  | absent caller deleting => exact absurd ⟨trivial, caller, deleting⟩ (hq .create trivial)
  | constructing caller =>
    rcases caller with hc | hc
    · exact absurd ⟨trivial, hc⟩ (hq .context trivial)
    · exact absurd ⟨trivial, hc⟩ (hq .register trivial)
  | alive caller deleting deletes handler entry pointer =>
    rcases handler with handler | handler
    · rcases caller with caller | ⟨-, closed⟩
      · have hnot : s.handler ≠ .queued := by
          rw [handler]
          nofun
        cases hc : s.caller with
        | constructing => exact absurd ⟨trivial, hc⟩ (hq .constructed trivial)
        | owning => exact absurd ⟨trivial, hc⟩ (hq .destroy trivial)
        | destroying => exact absurd ⟨hnot, hc, deleting⟩ (hq .runDestroy trivial)
        | _ =>
          rw [hc] at caller
          cases caller
      · exact absurd ⟨trivial, handler, closed, deleting⟩ (hq .fire trivial)
    · have hnot : s.caller ≠ .context ∧ s.caller ≠ .registering := by
        rcases caller with caller | ⟨caller, -⟩
        · constructor <;> intro hc <;> rw [hc] at caller <;> cases caller
        · rw [caller]
          exact ⟨nofun, nofun⟩
      exact absurd ⟨hnot, handler, deleting⟩ (hq .runHandler trivial)
  | handled caller deleting | owned caller deleting =>
    have hsome : s.deleting.isSome = true := by rw [deleting]; rfl
    cases he : s.entry with
    | true => exact absurd ⟨trivial, hsome, he⟩ (hq .drain trivial)
    | false => exact absurd ⟨trivial, hsome, he⟩ (hq .free trivial)
  | deleted caller deleting deletes => exact deletes

/-- In a run that meets the condition the connection is deleted at most once and not used while
or after it is deleted; it can always be taken to its end, every way there is finite, and where
nothing is left to do it is deleted exactly once. -/
theorem deleted_once (h : orderly.Reachable s) :
    s.deletes ≤ 1 ∧ s.misused = false ∧
      (orderly.Quiescent Action.IsProgress s → s.deletes = 1) ∧
      (∀ as t, (∀ a ∈ as, a.IsProgress) → orderly.Path s as t → as.length ≤ left s) ∧
      ∃ as t, (∀ a ∈ as, a.IsProgress) ∧ orderly.Path s as t ∧ t.deletes = 1 := by
  have hs := sound_reachable h
  refine ⟨?_, hs.unmisused, deleted_of_quiescent hs, fun as t hk hp => ?_, ?_⟩
  · cases hs.life with
    | deleted caller deleting deletes => omega
    | absent _ _ deletes | constructing _ _ deletes | alive _ _ deletes | handled _ _ deletes
    | owned _ _ deletes => omega
  · have hlen := hp.length_le left sound_next left_next_lt hs hk
    omega
  · obtain ⟨as, t, hk, hp, hq⟩ := System.exists_quiescent left sound_next left_next_lt s hs
    exact ⟨as, t, hk, hp, deleted_of_quiescent (sound_reachable (h.path hp)) hq⟩

/-- A run in which the peer closes and the handler deletes the connection while its owner has the
client. -/
theorem deleted_once_after_disconnect :
    ∃ s, orderly.Reachable s ∧ (s.closed = true ∧ s.caller = .gone) ∧
      s.deletes ≤ 1 ∧ s.misused = false ∧
      (orderly.Quiescent Action.IsProgress s → s.deletes = 1) ∧
      (∀ as t, (∀ a ∈ as, a.IsProgress) → orderly.Path s as t → as.length ≤ left s) ∧
      ∃ as t, (∀ a ∈ as, a.IsProgress) ∧ orderly.Path s as t ∧ t.deletes = 1 := by
  obtain ⟨s, hs, hp⟩ := System.exists_reachable_of_run orderly (s := called) rfl
    [.create, .context, .register, .close, .fire, .constructed, .call, .runHandler, .drain, .free,
      .call, .destroy, .runDestroy]
    (fun s => decide (s.closed = true ∧ s.caller = .gone)) (by decide)
  exact ⟨s, hs, of_decide_eq_true hp, deleted_once hs⟩

/-- The handler runs before the constructor has read the connection; or the owner's function runs
while the handler is queued. -/
theorem misused_and_deleted_twice :
    (∃ s, stream.Reachable s ∧ s.deletes = 1 ∧ s.misused = true) ∧
      ∃ s, stream.Reachable s ∧ s.deletes = 2 := by
  constructor
  · obtain ⟨s, hs, hp⟩ := System.exists_reachable_of_run stream (s := called) rfl
      [.create, .close, .fire, .runHandler, .free, .context]
      (fun s => decide (s.deletes = 1 ∧ s.misused = true)) (by decide)
    exact ⟨s, hs, of_decide_eq_true hp⟩
  · obtain ⟨s, hs, hp⟩ := System.exists_reachable_of_run stream (s := called) rfl
      [.create, .context, .register, .constructed, .close, .fire, .destroy, .runDestroy, .free,
        .runHandler, .free]
      (fun s => decide (s.deletes = 2)) (by decide)
    exact ⟨s, hs, of_decide_eq_true hp⟩

end Multiprocess.Stream
