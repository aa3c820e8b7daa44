import Multiprocess.Lib.System
import Mathlib.Logic.Function.Basic

/-!
# `m_sync_cleanup_fns`

The `ProxyClient` objects of one `Connection` (`src/include/mp/proxy-io.h`,
`src/src/mp/proxy.cpp`): each registers a callback when it is constructed and takes it back when it
is destroyed, and one held in a map of `SetThread` has a second callback that destroys it.
`~Connection` runs the callbacks that are left. Clients are constructed and begin to be destroyed
on any thread; the cleanup functions, `SetThread`, the removal of map entries and `~Connection` run
on the event loop thread.

What else `~Connection` does, and the requests on the connection, are left out.
-/

namespace Multiprocess.Cleanup

variable {C : Type}

/-- What a client is: `owner` has `destroy_connection`, `thread` is held in a map of `SetThread`. -/
inductive Kind where
  | plain
  | owner
  | thread
  deriving DecidableEq

/-- Where a client is in its life. -/
inductive Phase where
  | absent
  /-- its callback is registered, and it is in `Sub::construct` -/
  | constructing
  /-- in `SetThread`, its second callback not yet registered -/
  | emplaced
  | live
  /-- in `~ProxyClientBase` on another thread, its cleanup function not yet run -/
  | destroying
  /-- its cleanup function is deleting the connection -/
  | cleaning
  | gone
  /-- `Sub::construct` threw, so that its destructor does not run -/
  | failed
  deriving DecidableEq

/-- The object exists, and its cleanup function has not begun. -/
def Phase.holds : Phase → Bool
  | .constructing | .emplaced | .live | .destroying => true
  | _ => false

/-- The object exists. -/
def Phase.exists : Phase → Bool
  | .cleaning => true
  | p => p.holds

/-- A client: `connection` says that `m_context.connection` is not null, `disconnectCb` that
`m_disconnect_cb` is set. -/
structure Client where
  phase : Phase
  connection : Bool
  disconnectCb : Bool
  deriving DecidableEq

/-- A registered function: the `disconnect_cb` of `ProxyClientBase`, or the function `SetThread`
registers. Each is registered once, so that it also names its iterator. -/
inductive Entry (C : Type) where
  | own (c : C)
  | disconnect (c : C)
  deriving DecidableEq

/-- The client a function refers to. -/
def Entry.client : Entry C → C
  | .own c => c
  | .disconnect c => c

/-- Where the event loop thread is. -/
inductive LoopPc (C : Type) where
  | idle
  /-- in `SetThread`, between `emplace` and `addSyncCleanup` -/
  | setting (c : C)
  /-- in `~Connection`, called by the cleanup function of a client or by a disconnect handler;
  `running` was taken out of the list and is being run -/
  | deleting (deleter : Option C) (running : Option (Entry C))
  deriving DecidableEq

/-- The function that is being run. -/
def LoopPc.running : LoopPc C → Option (Entry C)
  | .deleting _ e => e
  | _ => none

/-- The client in `SetThread`. -/
def LoopPc.set : LoopPc C → Option C
  | .setting c => some c
  | _ => none

/-- The client whose cleanup function deletes the connection. -/
def LoopPc.deleter : LoopPc C → Option C
  | .deleting d _ => d
  | _ => none

/-- In `~Connection`, at the head of its loop. -/
def LoopPc.between : LoopPc C → Bool
  | .deleting _ none => true
  | _ => false

/-- The connection and its clients. `added`, `ran`, `erased` (how often each function was
registered, run by `~Connection`, erased by `removeSyncCleanup`) and `misused` (a function run for
an object that does not exist, an iterator that is not in the list, a null connection dereferenced)
are history. -/
structure State (C : Type) where
  clients : C → Client
  fns : List (Entry C)
  loop : LoopPc C
  deleted : Bool
  added : Entry C → Nat
  ran : Entry C → Nat
  erased : Entry C → Nat
  misused : Bool

variable [DecidableEq C]

namespace State

def update (s : State C) (c : C) (f : Client → Client) : State C :=
  { s with clients := Function.update s.clients c (f (s.clients c)) }

/-- `Connection::addSyncCleanup`. -/
def addSyncCleanup (s : State C) (e : Entry C) : State C :=
  { s with fns := e :: s.fns, added := Function.update s.added e (s.added e + 1) }

/-- `Connection::removeSyncCleanup`. -/
def removeSyncCleanup (s : State C) (e : Entry C) : State C :=
  if e ∈ s.fns then
    { s with fns := s.fns.erase e, erased := Function.update s.erased e (s.erased e + 1) }
  else { s with misused := true }

/-- The constructor of `ProxyClientBase`, up to `Sub::construct`. -/
def register (s : State C) (c : C) (phase : Phase) : State C :=
  (s.addSyncCleanup (.own c)).update c fun _ => ⟨phase, true, false⟩

/-- The second half of `SetThread`. -/
def addDisconnect (s : State C) (c : C) : State C :=
  { (s.addSyncCleanup (.disconnect c)).update c
      ({ · with phase := .live, disconnectCb := true }) with loop := .idle }

def setPhase (s : State C) (c : C) (phase : Phase) : State C :=
  s.update c ({ · with phase := phase })

/-- The cleanup function of `ProxyClientBase`, and the rest of `~ProxyClientBase`. -/
def cleanup (s : State C) (kind : Kind) (c : C) : State C :=
  if (s.clients c).connection then
    if kind = .owner then
      { (s.removeSyncCleanup (.own c)).setPhase c .cleaning with loop := .deleting (some c) none }
    else (s.removeSyncCleanup (.own c)).setPhase c .gone
  else s.setPhase c .gone

/-- `ProxyClient<Thread>::~ProxyClient`, and then `~ProxyClientBase`. -/
def destroyThread (s : State C) (c : C) : State C :=
  if (s.clients c).disconnectCb then
    (if (s.clients c).connection then s.removeSyncCleanup (.disconnect c)
      else { s with misused := true }).cleanup .thread c
  else s.cleanup .thread c

/-- `~Connection` moves the first function out of the list. -/
def splice (s : State C) : State C :=
  match s.loop, s.fns with
  | .deleting d _, e :: fns =>
    { s with fns := fns, loop := .deleting d (some e), ran := Function.update s.ran e (s.ran e + 1) }
  | _, _ => s

/-- The function is run for its client. -/
def touch (s : State C) (c : C) : State C :=
  if (s.clients c).phase.exists then s else { s with misused := true }

/-- The registered functions. -/
def runFn (s : State C) : Entry C → State C
  | .own c => (s.touch c).update c ({ · with connection := false })
  | .disconnect c =>
    ((s.touch c).update c ({ · with disconnectCb := false })).destroyThread c

/-- `~Connection` runs the function it took. -/
def run (s : State C) : State C :=
  match s.loop with
  | .deleting d (some e) => { s.runFn e with loop := .deleting d none }
  | _ => s

/-- The end of `~Connection`, and of the cleanup function that called it. -/
def finish (s : State C) : State C :=
  match s.loop with
  | .deleting (some c) _ =>
    { s.update c ({ · with phase := .gone, connection := false }) with
      loop := .idle, deleted := true }
  | .deleting none _ => { s with loop := .idle, deleted := true }
  | _ => s

end State

/-- The steps. -/
inductive Action (C : Type) where
  | construct (c : C)
  | constructed (c : C)
  | constructThrows (c : C)
  | emplace (c : C)
  | addDisconnect (c : C)
  | destroy (c : C)
  | cleanup (c : C)
  | destroyOnLoop (c : C)
  | removeThread (c : C)
  | deleteConnection
  | splice
  | run
  | finish

/-- The event loop thread can destroy the client. It can in `~Connection` too, where
`m_rpc_system.reset()` and the functions that are run destroy further objects, but not the one the
function was registered for. -/
def LoopPc.canDestroy (c : C) : LoopPc C → Bool
  | .idle => true
  | .setting _ => false
  | .deleting _ e => e != some (.own c) && e != some (.disconnect c)

/-- Where a step can happen. -/
def enabled (kind : C → Kind) (s : State C) : Action C → Prop
  | .construct c => (s.clients c).phase = .absent ∧ kind c ≠ .thread ∧ s.deleted = false
  | .constructed c => (s.clients c).phase = .constructing
  | .constructThrows c => (s.clients c).phase = .constructing
  | .emplace c => (s.clients c).phase = .absent ∧ kind c = .thread ∧ s.deleted = false ∧
      s.loop = .idle
  | .addDisconnect c => s.loop = .setting c
  | .destroy c => (s.clients c).phase = .live ∧ kind c ≠ .thread
  | .cleanup c => (s.clients c).phase = .destroying ∧ s.loop = .idle
  | .destroyOnLoop c => (s.clients c).phase = .live ∧ kind c ≠ .thread ∧
      s.loop.canDestroy c = true ∧ (kind c = .owner → s.loop = .idle)
  | .removeThread c => (s.clients c).phase = .live ∧ kind c = .thread ∧ s.loop.canDestroy c = true
  | .deleteConnection => s.loop = .idle ∧ s.deleted = false
  | .splice => s.loop.between = true ∧ s.fns ≠ []
  | .run => s.loop.running.isSome = true
  | .finish => s.loop.between = true ∧ s.fns = []

/-- What a step does. -/
def next (kind : C → Kind) (s : State C) : Action C → State C
  | .construct c => s.register c .constructing
  | .constructed c => s.setPhase c .live
  | .constructThrows c => s.setPhase c .failed
  | .emplace c => { s.register c .emplaced with loop := .setting c }
  | .addDisconnect c => s.addDisconnect c
  | .destroy c => s.setPhase c .destroying
  | .cleanup c => s.cleanup (kind c) c
  | .destroyOnLoop c => s.cleanup (kind c) c
  | .removeThread c => s.destroyThread c
  | .deleteConnection => { s with loop := .deleting none none }
  | .splice => s.splice
  | .run => s.run
  | .finish => s.finish

instance (kind : C → Kind) (s : State C) : ∀ a, Decidable (enabled kind s a)
  | .construct _ | .removeThread _ => inferInstanceAs (Decidable (_ ∧ _ ∧ _))
  | .emplace _ => inferInstanceAs (Decidable (_ ∧ _ ∧ _ ∧ _))
  | .destroyOnLoop _ => inferInstanceAs (Decidable (_ ∧ _ ∧ _ ∧ (_ → _)))
  | .destroy _ | .cleanup _ | .deleteConnection | .splice | .finish =>
    inferInstanceAs (Decidable (_ ∧ _))
  | .constructed _ | .constructThrows _ | .addDisconnect _ | .run =>
    inferInstanceAs (Decidable (_ = _))

/-- A connection with no clients. -/
def opened : State C where
  clients _ := ⟨.absent, false, false⟩
  fns := []
  loop := .idle
  deleted := false
  added _ := 0
  ran _ := 0
  erased _ := 0
  misused := false

/-- The interleavings of all threads over the clients of the given kinds. -/
def cleanups (kind : C → Kind) : Transition.System (State C) (Action C) where
  init s := s = opened
  enabled := enabled kind
  next := next kind

instance (kind : C → Kind) (s : State C) (a : Action C) : Decidable ((cleanups kind).enabled s a) :=
  inferInstanceAs (Decidable (enabled kind s a))

/-! ## What the operations read and change -/

section Updates

variable {s : State C} {c d : C} {e : Entry C} {f : Client → Client}

omit [DecidableEq C] in
/-- A client's own cleanup function is that client's. -/
@[simp] theorem Entry.client_own : (Entry.own c).client = c := rfl

theorem update_same : (s.update c f).clients c = f (s.clients c) := by
  simp only [State.update, Function.update_self]

/-- A change to one client leaves the others as they are. -/
theorem update_other (h : d ≠ c) : (s.update c f).clients d = s.clients d := by
  simp only [State.update, Function.update_of_ne h]

/-- Registering connects the client and gives it no disconnect callback yet. -/
theorem register_same (phase : Phase) : (s.register c phase).clients c = ⟨phase, true, false⟩ :=
  update_same

theorem register_other (phase : Phase) (h : d ≠ c) :
    (s.register c phase).clients d = s.clients d := update_other h

/-- A client of a thread that is registered has its disconnect callback. -/
theorem addDisconnect_same : (s.addDisconnect c).clients c =
    ⟨.live, (s.clients c).connection, true⟩ := by
  simp only [State.addDisconnect, update_same, State.addSyncCleanup]

theorem addDisconnect_other (h : d ≠ c) : (s.addDisconnect c).clients d = s.clients d := by
  simp only [State.addDisconnect, update_other h, State.addSyncCleanup]

/-- A phase change keeps the connection pointer and the callback of the client. -/
theorem setPhase_same (phase : Phase) : (s.setPhase c phase).clients c =
    ⟨phase, (s.clients c).connection, (s.clients c).disconnectCb⟩ := update_same

theorem setPhase_other {phase : Phase} (h : d ≠ c) :
    (s.setPhase c phase).clients d = s.clients d := update_other h

@[simp] theorem setPhase_fns {phase : Phase} : (s.setPhase c phase).fns = s.fns := rfl

@[simp] theorem setPhase_loop {phase : Phase} : (s.setPhase c phase).loop = s.loop := rfl

@[simp] theorem setPhase_deleted {phase : Phase} : (s.setPhase c phase).deleted = s.deleted := rfl

@[simp] theorem setPhase_misused {phase : Phase} : (s.setPhase c phase).misused = s.misused := rfl

/-- `removeSyncCleanup` of a function that is in the list takes it out of it. -/
theorem removeSyncCleanup_mem (h : e ∈ s.fns) : s.removeSyncCleanup e =
    { s with fns := s.fns.erase e, erased := Function.update s.erased e (s.erased e + 1) } :=
  if_pos h

theorem removeSyncCleanup_fns (h : e ∈ s.fns) : (s.removeSyncCleanup e).fns = s.fns.erase e := by
  rw [removeSyncCleanup_mem h]

/-- An iterator that is in the list is not misused by removing it. -/
theorem removeSyncCleanup_misused (h : e ∈ s.fns) :
    (s.removeSyncCleanup e).misused = s.misused := by
  rw [removeSyncCleanup_mem h]

@[simp] theorem removeSyncCleanup_clients : (s.removeSyncCleanup e).clients = s.clients := by
  unfold State.removeSyncCleanup
  split <;> rfl

@[simp] theorem removeSyncCleanup_loop : (s.removeSyncCleanup e).loop = s.loop := by
  unfold State.removeSyncCleanup
  split <;> rfl

@[simp] theorem removeSyncCleanup_deleted : (s.removeSyncCleanup e).deleted = s.deleted := by
  unfold State.removeSyncCleanup
  split <;> rfl

/-- The cleanup of a client without a connection only ends it. -/
theorem cleanup_null {kind : Kind} (h : (s.clients c).connection = false) :
    s.cleanup kind c = s.setPhase c .gone := by
  unfold State.cleanup
  rw [h, if_neg nofun]

/-- The cleanup of a connected client removes its function from the list first. -/
theorem cleanup_connected {kind : Kind} (h : (s.clients c).connection = true)
    (hk : kind ≠ .owner) :
    s.cleanup kind c = (s.removeSyncCleanup (.own c)).setPhase c .gone := by
  unfold State.cleanup
  rw [if_pos h, if_neg hk]

/-- That of the client that owns the connection goes on to delete the connection. -/
theorem cleanup_owner (h : (s.clients c).connection = true) :
    s.cleanup .owner c = { (s.removeSyncCleanup (.own c)).setPhase c .cleaning with
      loop := .deleting (some c) none } := by
  unfold State.cleanup
  rw [if_pos h, if_pos rfl]

/-- A thread's client whose callback has run is destroyed like any other. -/
theorem destroyThread_unset (h : (s.clients c).disconnectCb = false) :
    s.destroyThread c = s.cleanup .thread c := by
  unfold State.destroyThread
  rw [h, if_neg nofun]

/-- One whose callback has not run takes that out of the list too. -/
theorem destroyThread_set (h : (s.clients c).disconnectCb = true)
    (hc : (s.clients c).connection = true) :
    s.destroyThread c = (s.removeSyncCleanup (.disconnect c)).cleanup .thread c := by
  unfold State.destroyThread
  rw [if_pos h, if_pos hc]

/-- `~Connection` takes the first function of the list out of it and is to run it. -/
theorem splice_cons {d : Option C} {fns : List (Entry C)} (hl : s.loop = .deleting d none)
    (hf : s.fns = e :: fns) : s.splice = { s with
      fns := fns, loop := .deleting d (some e), ran := Function.update s.ran e (s.ran e + 1) } := by
  unfold State.splice
  rw [hl, hf]

/-- With the list empty the deletion that a handler began is over. -/
theorem finish_handler (hl : s.loop = .deleting none none) :
    s.finish = { s with loop := .idle, deleted := true } := by
  unfold State.finish
  rw [hl]

/-- So is one that began with a client, which is destroyed with it. -/
theorem finish_owner (hl : s.loop = .deleting (some c) none) :
    s.finish = { s.update c ({ · with phase := .gone, connection := false }) with
      loop := .idle, deleted := true } := by
  unfold State.finish
  rw [hl]

omit [DecidableEq C] in
/-- Setting the pointer of a client that exists is no misuse. -/
theorem touch_exists (h : (s.clients c).phase.exists = true) : s.touch c = s := if_pos h

/-- What holds a registration exists. -/
theorem Phase.exists_of_holds {p : Phase} (h : p.holds = true) : p.exists = true := by
  cases p <;> first | rfl | cases h

/-- And what exists holds one, except while its own cleanup runs. -/
theorem Phase.holds_of_exists {p : Phase} (h : p.exists = true) (hc : p ≠ .cleaning) :
    p.holds = true := by
  cases p <;> first | rfl | exact absurd rfl hc | cases h

end Updates

end Multiprocess.Cleanup
