import Mathlib.Logic.Function.Basic
import Multiprocess.Lib.System

/-!
# `SetThread` and the entries it leaves

`SetThread` of `src/mp/proxy.cpp` with every way it can fail, and the turns of the event loop that
call it or take entries out of a `ConnThreads` map: `CustomBuildField` and `PassField` for
`mp.Context` (`include/mp/type-context.h`), `~Connection`, and the end of a thread. A turn runs to
its end before the next one starts; an exception ends it and is logged by `EventLoop::loop`.

A node of a map is known by its thread, which of the thread's two maps it is in, and its key: a
`Connection*`, that is an address. `m_sync_cleanup_fns` of the connection at an address holds the
callbacks registered for clients, each known by the node of the client and the client's number.

As the turns do not overlap, nothing is said of a thread that ends while a connection is being
destroyed. `Entries` is about that.
-/

namespace Multiprocess.Context.SetThread

open Transition (System)

inductive Threads where
  | callback
  | request
  deriving DecidableEq

structure Key where
  thread : Nat
  map : Threads
  connection : Nat
  deriving DecidableEq

/-- `ProxyClient<Thread>`: `m_client`, whether `m_context.connection` is not null, and whether
`m_disconnect_cb` is set. -/
structure Client (T : Type) where
  number : Nat
  client : Option T
  connection : Bool
  disconnectCb : Bool

/-- The callback of the `ProxyClientBase` constructor, and that of `SetThread`. -/
inductive Fn where
  | own (key : Key) (number : Nat)
  | disconnect (key : Key) (number : Nat)
  deriving DecidableEq

/-- How far a call of `SetThread` that has inserted a node gets. -/
inductive Construction (T : Type) where
  | makeThreadThrows
  /-- `addSyncCleanup` throws in the constructor of the client -/
  | registerThrows
  /-- the constructor throws later -/
  | constructThrows
  /-- `addSyncCleanup` throws in `SetThread` -/
  | disconnectThrows (client : T)
  | completes (client : T)

/-- `make_thread()` and the construction of the client succeed. -/
def Construction.engages {T : Type} : Construction T → Bool
  | .makeThreadThrows | .registerThrows | .constructThrows => false
  | .disconnectThrows _ | .completes _ => true

def Construction.succeeds {T : Type} : Construction T → Bool
  | .completes _ => true
  | _ => false

inductive Result where
  | returns (inserted : Bool)
  | throws
  deriving DecidableEq

/-- An execution of the lambda of `PassField`: its connection, and `erase_thread`. -/
structure Frame where
  connection : Nat
  eraseThread : Bool
  deriving DecidableEq

/-- The maps of all threads, the connections, and the executions on each thread. -/
structure State (T : Type) where
  threads : Key → Option (Option (Client T))
  alive : Nat → Bool
  -- `m_sync_cleanup_fns` of the connection at an address
  fns : Nat → List Fn
  -- the clients constructed so far
  made : Nat
  -- the connection `~Connection` is running for
  closing : Option Nat
  frames : Nat → List Frame
  -- an empty optional has been dereferenced
  derefEmpty : Bool

namespace State

variable {T : Type} (s : State T)

/-- `threads.ref[key] = entry`, or the removal of the node. -/
def set (key : Key) (entry : Option (Option (Client T))) : State T :=
  { s with threads := Function.update s.threads key entry }

def addSyncCleanup (connection : Nat) (fn : Fn) : State T :=
  { s with fns := Function.update s.fns connection (fn :: s.fns connection) }

def removeSyncCleanup (connection : Nat) (fn : Fn) : State T :=
  { s with fns := Function.update s.fns connection ((s.fns connection).erase fn) }

/-- The constructor of the client, as far as its callback is registered. -/
def register (key : Key) : State T :=
  { s.addSyncCleanup key.connection (.own key s.made) with made := s.made + 1 }

/-- `SetThread`. -/
def setThread (key : Key) (construction : Construction T) : Result × State T :=
  match s.threads key with
  | some _ => (.returns false, s)
  | none =>
    -- `try_emplace`, with an empty optional
    let inserted := s.set key (some none)
    match construction with
    | .makeThreadThrows | .registerThrows => (.throws, inserted)
    | .constructThrows => (.throws, inserted.register key)
    | .disconnectThrows client =>
      (.throws, (inserted.register key).set key (some (some ⟨s.made, some client, true, false⟩)))
    | .completes client =>
      (.returns true, ((inserted.register key).set key
        (some (some ⟨s.made, some client, true, true⟩))).addSyncCleanup key.connection
          (.disconnect key s.made))

/-- `->second->m_client`. -/
def deref (key : Key) : State T :=
  match s.threads key with
  | some (some _) => s
  | _ => { s with derefEmpty := true }

/-- The turn that runs `CustomBuildField` for a call of a thread over a connection. -/
def customBuildField (thread connection : Nat) (callback request : Construction T) : State T :=
  match s.setThread ⟨thread, .callback, connection⟩ callback with
  | (.throws, s) => s
  | (.returns _, s) =>
    match s.setThread ⟨thread, .request, connection⟩ request with
    | (.throws, s) => s
    | (.returns _, s) =>
      (s.deref ⟨thread, .request, connection⟩).deref ⟨thread, .callback, connection⟩

def push (thread : Nat) (frame : Frame) : State T :=
  { s with frames := Function.update s.frames thread (frame :: s.frames thread) }

/-- The first `sync` of an execution on a thread; `inserted` is false unless `SetThread` returns. -/
def passField (thread connection : Nat) (canceled : Bool) (construction : Construction T) :
    State T :=
  if canceled then s.push thread ⟨connection, false⟩
  else
    match s.setThread ⟨thread, .request, connection⟩ construction with
    | (.throws, s) => s.push thread ⟨connection, false⟩
    | (.returns inserted, s) => s.push thread ⟨connection, inserted⟩

/-- The destructors of a client and of its base class. -/
def destroyClient (key : Key) (client : Client T) : State T :=
  let s := if client.disconnectCb then
    s.removeSyncCleanup key.connection (.disconnect key client.number) else s
  if client.connection then s.removeSyncCleanup key.connection (.own key client.number) else s

/-- A node is taken out of its map and destroyed. -/
def erase (key : Key) : State T :=
  match s.threads key with
  | some (some client) => (s.set key none).destroyClient key client
  | _ => s.set key none

/-- The last `sync` of an execution. -/
def leave (thread : Nat) : State T :=
  match s.frames thread with
  | [] => s
  | frame :: frames =>
    let s := { s with frames := Function.update s.frames thread frames }
    if frame.eraseThread then s.erase ⟨thread, .request, frame.connection⟩ else s

/-- A callback called by `~Connection`. One whose client does not exist any more, because its
constructor threw, changes nothing here. -/
def runFn : Fn → State T
  | .own key number =>
    match s.threads key with
    | some (some client) =>
      if client.number = number then
        s.set key (some (some { client with client := none, connection := false })) else s
    | _ => s
  | .disconnect key number =>
    match s.threads key with
    | some (some client) =>
      if client.number = number then
        (s.set key none).destroyClient key { client with disconnectCb := false } else s
    | _ => s

/-- One round of the loop of `~Connection`. -/
def runFront (connection : Nat) : State T :=
  match s.fns connection with
  | [] => s
  | fn :: fns => { s with fns := Function.update s.fns connection fns }.runFn fn

end State

/-- The turns. `~Connection` is one turn, taken apart into its start, the calls of the callbacks, and
its end. -/
inductive Action (T : Type) where
  | connect (connection : Nat)
  | customBuildField (thread connection : Nat) (callback request : Construction T)
  | passField (thread connection : Nat) (canceled : Bool) (construction : Construction T)
  | leave (thread : Nat)
  -- a thread that ends, or is ended by `~ProxyServer<Thread>`, destroys a node of its maps
  | destroy (key : Key)
  | disconnect (connection : Nat)
  | runFront
  | disconnected

variable {T : Type}

def enabled (s : State T) : Action T → Prop
  | .connect c => s.closing = none ∧ s.alive c = false
  | .customBuildField _ c _ _ => s.closing = none ∧ s.alive c = true
  -- a request whose connection is gone is canceled
  | .passField _ c canceled _ => s.closing = none ∧ (canceled = false → s.alive c = true)
  | .leave t => s.closing = none ∧ s.frames t ≠ []
  | .destroy key => s.closing = none ∧ s.frames key.thread = []
  | .disconnect c => s.closing = none ∧ s.alive c = true
  | .runFront => ∃ c, s.closing = some c ∧ s.fns c ≠ []
  | .disconnected => ∃ c, s.closing = some c ∧ s.fns c = []

instance (s : State T) : ∀ a : Action T, Decidable (enabled s a)
  | .connect _ | .customBuildField _ _ _ _ | .leave _ | .destroy _ | .disconnect _ =>
    inferInstanceAs (Decidable (_ ∧ _))
  | .passField _ c canceled _ =>
    inferInstanceAs (Decidable (s.closing = none ∧ (canceled = false → s.alive c = true)))
  | .runFront => inferInstanceAs (Decidable (∃ c, c ∈ s.closing ∧ s.fns c ≠ []))
  | .disconnected => inferInstanceAs (Decidable (∃ c, c ∈ s.closing ∧ s.fns c = []))

def next (s : State T) : Action T → State T
  | .connect c =>
    { s with alive := Function.update s.alive c true, fns := Function.update s.fns c [] }
  | .customBuildField t c callback request => s.customBuildField t c callback request
  | .passField t c canceled construction => s.passField t c canceled construction
  | .leave t => s.leave t
  | .destroy key => s.erase key
  | .disconnect c => { s with closing := some c }
  | .runFront => (s.closing.map s.runFront).getD s
  | .disconnected =>
    { s with
      alive := fun c => s.alive c && s.closing ≠ some c
      closing := none }

/-- No thread has an entry, and there is no connection. -/
def started (T : Type) : State T where
  threads := fun _ => none
  alive := fun _ => false
  fns := fun _ => []
  made := 0
  closing := none
  frames := fun _ => []
  derefEmpty := false

def connThreads (T : Type) : System (State T) (Action T) where
  init s := s = started T
  enabled := enabled
  next := next

instance (s : State T) (a : Action T) : Decidable ((connThreads T).enabled s a) :=
  inferInstanceAs (Decidable (enabled s a))

/-! ## What is expected of `SetThread` -/

/-- The entry holds a client whose `m_disconnect_cb` is registered. -/
def State.registered (s : State T) (key : Key) : Prop :=
  ∃ client, s.threads key = some (some client) ∧ client.disconnectCb = true ∧
    .disconnect key client.number ∈ s.fns key.connection

/-- If `SetThread` returns, the entry is registered, and if it throws, nothing has changed. -/
structure AllOrNothing (s : State T) (key : Key) (construction : Construction T) : Prop where
  returns : ∀ inserted, (s.setThread key construction).1 = .returns inserted →
    (s.setThread key construction).2.registered key
  throws : (s.setThread key construction).1 = .throws →
    (s.setThread key construction).2.threads = s.threads ∧
      (s.setThread key construction).2.fns = s.fns

/-- Between turns, every entry that `CustomBuildField` can look up holds a client. -/
def Engaged (s : State T) : Prop :=
  s.closing = none → ∀ key, s.alive key.connection = true → s.threads key ≠ some none

/-- The calls of `SetThread` that insert a node get as far as `ok` says. -/
def EachInsert (ok : Construction T → Bool) (s : State T) : Action T → Prop
  | .customBuildField t c callback request =>
    (s.threads ⟨t, .callback, c⟩ = none → ok callback = true) ∧
      ((s.threads ⟨t, .callback, c⟩ = none → callback.succeeds = true) →
        s.threads ⟨t, .request, c⟩ = none → ok request = true)
  | .passField t c canceled construction =>
    canceled = false → s.threads ⟨t, .request, c⟩ = none → ok construction = true
  | _ => True

/-! ## One call of `SetThread` -/

/-- What the optional of the new node holds in the end. -/
def Construction.entry (number : Nat) : Construction T → Option (Client T)
  | .makeThreadThrows | .registerThrows | .constructThrows => none
  | .disconnectThrows client => some ⟨number, some client, true, false⟩
  | .completes client => some ⟨number, some client, true, true⟩

/-- The callbacks that have been registered in the end. -/
def Construction.fns (key : Key) (number : Nat) : Construction T → List Fn
  | .makeThreadThrows | .registerThrows => []
  | .constructThrows | .disconnectThrows _ => [.own key number]
  | .completes _ => [.disconnect key number, .own key number]

/-- The entry stays empty exactly when the `std::optional` is not engaged. -/
theorem entry_eq_none_iff (construction : Construction T) (number : Nat) :
    construction.entry number = none ↔ construction.engages = false := by
  cases construction <;> simp only [Construction.entry, Construction.engages, reduceCtorEq]

/-- A construction that succeeds engages the `std::optional`. -/
theorem engages_of_succeeds {construction : Construction T} (h : construction.succeeds = true) :
    construction.engages = true := by
  cases construction with
  | completes client => rfl
  | _ => cases h

variable {s : State T} {key : Key}

/-- A key that is in the map is left as it is. -/
theorem setThread_present (construction : Construction T) (h : s.threads key ≠ none) :
    s.setThread key construction = (.returns false, s) := by
  obtain ⟨entry, he⟩ := Option.ne_none_iff_exists'.mp h
  unfold State.setThread
  rw [he]

/-- A call that inserts a node. -/
theorem setThread_absent (construction : Construction T) (h : s.threads key = none) :
    (s.setThread key construction).1 =
        (if construction.succeeds then .returns true else .throws) ∧
      (s.setThread key construction).2.threads =
        Function.update s.threads key (some (construction.entry s.made)) ∧
      (s.setThread key construction).2.fns = Function.update s.fns key.connection
        (construction.fns key s.made ++ s.fns key.connection) := by
  unfold State.setThread
  rw [h]
  cases construction with
  | makeThreadThrows => exact ⟨rfl, rfl, (Function.update_eq_self _ _).symm⟩
  | registerThrows => exact ⟨rfl, rfl, (Function.update_eq_self _ _).symm⟩
  | constructThrows => exact ⟨rfl, rfl, rfl⟩
  | disconnectThrows client => exact ⟨rfl, Function.update_idem .., rfl⟩
  | completes client =>
    refine ⟨rfl, Function.update_idem .., ?_⟩
    simp only [State.addSyncCleanup, State.set, State.register, Function.update_self,
      Function.update_idem, Construction.fns, List.cons_append, List.nil_append]

/-- A call leaves the rest of the state alone. -/
theorem setThread_frame (s : State T) (key : Key) (construction : Construction T) :
    (s.setThread key construction).2.alive = s.alive ∧
      (s.setThread key construction).2.closing = s.closing ∧
      (s.setThread key construction).2.frames = s.frames ∧
      (s.setThread key construction).2.derefEmpty = s.derefEmpty := by
  unfold State.setThread
  split
  · exact ⟨rfl, rfl, rfl, rfl⟩
  · cases construction <;> exact ⟨rfl, rfl, rfl, rfl⟩

/-- And every other key is too. -/
theorem setThread_other {key' : Key} (construction : Construction T) (h : key' ≠ key) :
    (s.setThread key construction).2.threads key' = s.threads key' := by
  by_cases hk : s.threads key = none
  · rw [(setThread_absent construction hk).2.1, Function.update_of_ne h]
  · rw [setThread_present construction hk]

/-- A new entry whose construction succeeds has a registered disconnect callback. -/
theorem registered_setThread {construction : Construction T} (h : s.threads key = none)
    (ok : construction.succeeds = true) : (s.setThread key construction).2.registered key := by
  obtain ⟨-, hthreads, hfns⟩ := setThread_absent construction h
  cases construction with
  | completes client =>
    refine ⟨⟨s.made, some client, true, true⟩, ?_, rfl, ?_⟩
    · rw [hthreads, Function.update_self]
      rfl
    · rw [hfns, Function.update_self]
      exact List.mem_cons_self
  | _ => cases ok

/-- `SetThread` is all or nothing exactly where there is a registered entry already, or there is none
and nothing throws. -/
theorem allOrNothing_iff (s : State T) (key : Key) (construction : Construction T) :
    AllOrNothing s key construction ↔
      s.registered key ∨ s.threads key = none ∧ construction.succeeds = true := by
  by_cases hk : s.threads key = none
  · obtain ⟨hresult, hthreads, -⟩ := setThread_absent construction hk
    have hno : ¬ s.registered key := by
      rintro ⟨client, hc, -⟩
      cases hk.symm.trans hc
    cases hs : construction.succeeds with
    | true =>
      rw [hs] at hresult
      refine iff_of_true ⟨fun _ _ => registered_setThread hk hs, fun ht => ?_⟩ (.inr ⟨hk, rfl⟩)
      cases hresult.symm.trans ht
    | false =>
      -- the node stays in the map
      rw [hs] at hresult
      refine iff_of_false (fun h => ?_) (not_or.mpr ⟨hno, fun h => by cases h.2⟩)
      have hsame := congrFun (h.throws hresult).1 key
      rw [hthreads, Function.update_self, hk] at hsame
      cases hsame
  · have hset := setThread_present construction hk
    constructor
    · intro h
      have hreg := h.returns false (congrArg Prod.fst hset)
      rw [hset] at hreg
      exact .inl hreg
    · intro h
      have hreg := h.resolve_right fun hn => hk hn.1
      refine ⟨fun _ _ => by rw [hset]; exact hreg, fun ht => ?_⟩
      rw [hset] at ht
      cases ht

/-! ## Entries that hold nothing -/

/-- No entry is empty. -/
def Full (s : State T) : Prop := ∀ key, s.threads key ≠ some none

/-- No entry is empty, and none has been when it was dereferenced. -/
structure Sound (s : State T) : Prop where
  threads : Full s
  derefEmpty : s.derefEmpty = false

/-- `Sound` depends on the entries and on `derefEmpty` alone. -/
theorem sound_congr {t : State T} (h : Sound s)
    (threads : ∀ key, t.threads key = some none → s.threads key = some none)
    (derefEmpty : t.derefEmpty = s.derefEmpty) : Sound t :=
  ⟨fun key hk => h.threads key (threads key hk), derefEmpty.trans h.derefEmpty⟩

/-- Destroying a client changes no entry. -/
theorem destroyClient_frame (s : State T) (key : Key) (client : Client T) :
    (s.destroyClient key client).threads = s.threads ∧
      (s.destroyClient key client).alive = s.alive ∧
      (s.destroyClient key client).closing = s.closing ∧
      (s.destroyClient key client).derefEmpty = s.derefEmpty := by
  unfold State.destroyClient
  split <;> split <;> exact ⟨rfl, rfl, rfl, rfl⟩

/-- `erase` changes the entry of its key and no other. -/
theorem erase_frame (s : State T) (key : Key) :
    (s.erase key).threads = Function.update s.threads key none ∧
      (s.erase key).alive = s.alive ∧ (s.erase key).closing = s.closing ∧
      (s.erase key).derefEmpty = s.derefEmpty := by
  unfold State.erase
  split
  · next client _ => exact destroyClient_frame (s.set key none) key client
  · exact ⟨rfl, rfl, rfl, rfl⟩

/-- An empty entry after an update with a full one was there before. -/
theorem empty_of_update {key' : Key} {entry : Option (Option (Client T))}
    (h : Function.update s.threads key entry key' = some none) (full : entry ≠ some none) :
    s.threads key' = some none := by
  by_cases hk : key' = key
  · subst hk
    rw [Function.update_self] at h
    exact absurd h full
  · rwa [Function.update_of_ne hk] at h

/-- Erasing an entry keeps the map sound. -/
theorem sound_erase (h : Sound s) (key : Key) : Sound (s.erase key) := by
  obtain ⟨hthreads, -, -, hderef⟩ := erase_frame s key
  refine sound_congr h (fun key' hk => ?_) hderef
  rw [hthreads] at hk
  exact empty_of_update hk nofun

/-- So does running a disconnect callback. -/
theorem sound_runFn (h : Sound s) (fn : Fn) : Sound (s.runFn fn) := by
  unfold State.runFn
  split
  · split
    · split
      · refine sound_congr h (fun key' hk => ?_) rfl
        have hk : Function.update s.threads _ _ key' = some none := hk
        exact empty_of_update hk nofun
      · exact h
    · exact h
  · next key number =>
    split
    · next client _ =>
      split
      · obtain ⟨hthreads, -, -, hderef⟩ :=
          destroyClient_frame (s.set key none) key { client with disconnectCb := false }
        refine sound_congr h (fun key' hk => ?_) hderef
        rw [hthreads] at hk
        have hk : Function.update s.threads key none key' = some none := hk
        exact empty_of_update hk nofun
      · exact h
    · exact h

/-- And the step of `~Connection` that takes one out and runs it. -/
theorem sound_runFront (h : Sound s) (connection : Nat) : Sound (s.runFront connection) := by
  unfold State.runFront
  split
  · exact h
  · refine sound_runFn ?_ _
    exact sound_congr h (fun _ hk => hk) rfl

/-- The end of a call does too. -/
theorem sound_leave (h : Sound s) (thread : Nat) : Sound (s.leave thread) := by
  unfold State.leave
  split
  · exact h
  · next frame frames _ =>
    have hpop : Sound { s with frames := Function.update s.frames thread frames } :=
      sound_congr h (fun _ hk => hk) rfl
    dsimp only
    split
    · exact sound_erase hpop _
    · exact hpop

/-! ## The turns that call `SetThread` -/

/-- `SetThread` keeps all entries full exactly if a new one is engaged. -/
theorem full_setThread_iff (h : Full s) (key : Key) (construction : Construction T) :
    Full (s.setThread key construction).2 ↔
      (s.threads key = none → construction.engages = true) := by
  by_cases hk : s.threads key = none
  · obtain ⟨-, hthreads, -⟩ := setThread_absent construction hk
    constructor
    · intro hfull _
      cases he : construction.engages with
      | true => rfl
      | false =>
        refine absurd ?_ (hfull key)
        rw [hthreads, Function.update_self, (entry_eq_none_iff _ _).mpr he]
    · intro hok key' hk'
      rw [hthreads] at hk'
      refine h key' (empty_of_update hk' fun he => ?_)
      cases (hok hk).symm.trans ((entry_eq_none_iff _ _).mp (Option.some.inj he))
  · rw [setThread_present construction hk]
    exact iff_of_true h fun hn => absurd hn hk

/-- It throws exactly if the key is new and the construction fails. -/
theorem setThread_throws_iff (s : State T) (key : Key) (construction : Construction T) :
    (s.setThread key construction).1 = .throws ↔
      s.threads key = none ∧ construction.succeeds = false := by
  by_cases hk : s.threads key = none
  · rw [(setThread_absent construction hk).1]
    cases construction.succeeds <;> simp only [hk, true_and, reduceCtorEq, if_true,
      Bool.false_eq_true, if_false, Bool.true_eq_false]
  · rw [setThread_present construction hk]
    exact iff_of_false nofun fun h => hk h.1

/-- It erases nothing. -/
theorem setThread_stays {key' : Key} (construction : Construction T)
    (h : s.threads key' ≠ none) : (s.setThread key construction).2.threads key' ≠ none := by
  by_cases hk : s.threads key = none
  · have hne : key' ≠ key := by
      rintro rfl
      exact h hk
    rw [setThread_other construction hne]
    exact h
  · rw [setThread_present construction hk]
    exact h

/-- After it the key is in the map, also when it threw. -/
theorem setThread_inMap (s : State T) (key : Key) (construction : Construction T) :
    (s.setThread key construction).2.threads key ≠ none := by
  by_cases hk : s.threads key = none
  · rw [(setThread_absent construction hk).2.1, Function.update_self]
    nofun
  · exact setThread_stays construction hk

/-- Dereferencing an entry changes nothing but `derefEmpty`. -/
theorem deref_frame (s : State T) (key : Key) : (s.deref key).threads = s.threads ∧
    (s.deref key).alive = s.alive ∧ (s.deref key).closing = s.closing := by
  unfold State.deref
  split <;> exact ⟨rfl, rfl, rfl⟩

/-- And not even that where the entry is full. -/
theorem deref_of_full (h : Full s) (there : s.threads key ≠ none) : s.deref key = s := by
  obtain ⟨entry, he⟩ := Option.ne_none_iff_exists'.mp there
  unfold State.deref
  cases entry with
  | none => exact absurd he (h key)
  | some client => rw [he]

section CustomBuildField

variable (s) (t c : Nat) (callback request : Construction T)

/-- After the first call of `SetThread` in `CustomBuildField`. -/
def State.withCallback : State T := (s.setThread ⟨t, .callback, c⟩ callback).2

/-- After the second. -/
def State.withRequest : State T :=
  ((s.withCallback t c callback).setThread ⟨t, .request, c⟩ request).2

variable {s t c callback request}

/-- If the callback thread's `SetThread` throws, that of the request thread is not reached. -/
theorem customBuildField_first (h : (s.setThread ⟨t, .callback, c⟩ callback).1 = .throws) :
    s.customBuildField t c callback request = s.withCallback t c callback := by
  unfold State.customBuildField State.withCallback
  generalize s.setThread ⟨t, .callback, c⟩ callback = r at h ⊢
  obtain ⟨result, s'⟩ := r
  cases h
  rfl

/-- The second call throws, or the entries of both maps are dereferenced. -/
theorem customBuildField_second (h : (s.setThread ⟨t, .callback, c⟩ callback).1 ≠ .throws) :
    s.customBuildField t c callback request = s.withRequest t c callback request ∨
      s.customBuildField t c callback request =
        ((s.withRequest t c callback request).deref ⟨t, .request, c⟩).deref
          ⟨t, .callback, c⟩ := by
  unfold State.customBuildField State.withRequest State.withCallback
  generalize s.setThread ⟨t, .callback, c⟩ callback = r at h ⊢
  obtain ⟨result, s'⟩ := r
  cases result with
  | throws => exact absurd rfl h
  | returns inserted =>
    dsimp only
    generalize s'.setThread ⟨t, .request, c⟩ request = r'
    obtain ⟨result', s''⟩ := r'
    cases result' with
    | throws => exact .inl rfl
    | returns inserted' => exact .inr rfl

variable (s t c callback request) in
/-- `CustomBuildField` changes the entries of its own connection only. -/
theorem customBuildField_frame : (s.customBuildField t c callback request).alive = s.alive ∧
    (s.customBuildField t c callback request).closing = s.closing ∧
    ∀ key, key.connection ≠ c →
      (s.customBuildField t c callback request).threads key = s.threads key := by
  obtain ⟨halive, hclosing, -, -⟩ := setThread_frame s ⟨t, .callback, c⟩ callback
  obtain ⟨halive', hclosing', -, -⟩ :=
    setThread_frame (s.withCallback t c callback) ⟨t, .request, c⟩ request
  have hother : ∀ key, key.connection ≠ c →
      (s.withCallback t c callback).threads key = s.threads key := by
    intro key hk
    refine setThread_other callback ?_
    rintro rfl
    exact hk rfl
  have hother' : ∀ key, key.connection ≠ c →
      (s.withRequest t c callback request).threads key = s.threads key := by
    intro key hk
    refine (setThread_other request ?_).trans (hother key hk)
    rintro rfl
    exact hk rfl
  by_cases hr : (s.setThread ⟨t, .callback, c⟩ callback).1 = .throws
  · rw [customBuildField_first hr]
    exact ⟨halive, hclosing, hother⟩
  · rcases customBuildField_second hr with he | he
    · rw [he]
      exact ⟨halive'.trans halive, hclosing'.trans hclosing, hother'⟩
    · obtain ⟨ht, ha, hc⟩ := deref_frame (s.withRequest t c callback request) ⟨t, .request, c⟩
      obtain ⟨ht', ha', hc'⟩ := deref_frame
        ((s.withRequest t c callback request).deref ⟨t, .request, c⟩) ⟨t, .callback, c⟩
      rw [he, ha', ha, hc', hc, ht', ht]
      exact ⟨halive'.trans halive, hclosing'.trans hclosing, hother'⟩

/-- It keeps all entries full exactly if each that it inserts is engaged. -/
theorem full_customBuildField_iff (h : Full s) : Full (s.customBuildField t c callback request) ↔
    EachInsert Construction.engages s (.customBuildField t c callback request) := by
  have hfirst : Full (s.withCallback t c callback) ↔ _ := full_setThread_iff h _ callback
  by_cases hr : (s.setThread ⟨t, .callback, c⟩ callback).1 = .throws
  · obtain ⟨hnone, hfails⟩ := (setThread_throws_iff _ _ _).mp hr
    rw [customBuildField_first hr, hfirst]
    refine ⟨fun hok => ⟨hok, fun hs => ?_⟩, fun hok => hok.1⟩
    cases hfails.symm.trans (hs hnone)
  · have hsucceeds : s.threads ⟨t, .callback, c⟩ = none → callback.succeeds = true := by
      intro hnone
      cases hs : callback.succeeds with
      | true => rfl
      | false => exact absurd ((setThread_throws_iff _ _ _).mpr ⟨hnone, hs⟩) hr
    have hengages := fun hnone => engages_of_succeeds (hsucceeds hnone)
    have hsame : (s.withCallback t c callback).threads ⟨t, .request, c⟩ =
        s.threads ⟨t, .request, c⟩ := setThread_other callback (by simp)
    have hsecond := full_setThread_iff (hfirst.mpr hengages) ⟨t, .request, c⟩ request
    rw [hsame] at hsecond
    have hthreads : (s.customBuildField t c callback request).threads =
        (s.withRequest t c callback request).threads := by
      rcases customBuildField_second hr with he | he
      · rw [he]
      · rw [he, (deref_frame _ _).1, (deref_frame _ _).1]
    unfold Full
    rw [hthreads]
    exact hsecond.trans ⟨fun hok => ⟨hengages, fun _ => hok⟩, fun hok => hok.2 hsucceeds⟩

/-- Then it keeps the map sound too. -/
theorem sound_customBuildField (h : Sound s)
    (ok : EachInsert Construction.engages s (.customBuildField t c callback request)) :
    Sound (s.customBuildField t c callback request) := by
  have hfull := (full_customBuildField_iff h.threads).mpr ok
  refine ⟨hfull, ?_⟩
  have hfirst : (s.withCallback t c callback).derefEmpty = false :=
    (setThread_frame s _ callback).2.2.2.trans h.derefEmpty
  have hsecond : (s.withRequest t c callback request).derefEmpty = false :=
    (setThread_frame _ _ request).2.2.2.trans hfirst
  by_cases hr : (s.setThread ⟨t, .callback, c⟩ callback).1 = .throws
  · rw [customBuildField_first hr]
    exact hfirst
  · rcases customBuildField_second hr with he | he
    · rw [he]
      exact hsecond
    · -- both entries are there, and hold something
      rw [he] at hfull ⊢
      have hrequest := setThread_inMap (s.withCallback t c callback) ⟨t, .request, c⟩ request
      have hcallback : (s.withRequest t c callback request).threads ⟨t, .callback, c⟩ ≠ none :=
        setThread_stays request (setThread_inMap s ⟨t, .callback, c⟩ callback)
      have hwhole : Full (s.withRequest t c callback request) := by
        unfold Full at hfull ⊢
        rwa [(deref_frame _ _).1, (deref_frame _ _).1] at hfull
      rw [deref_of_full hwhole hrequest, deref_of_full hwhole hcallback]
      exact hsecond

end CustomBuildField

/-- `PassField` is `SetThread` for the worker's entry and a frame on its stack. -/
theorem passField_eq (s : State T) (t c : Nat) (construction : Construction T) :
    ∃ frame, s.passField t c false construction =
      (s.setThread ⟨t, .request, c⟩ construction).2.push t frame := by
  unfold State.passField
  generalize s.setThread ⟨t, .request, c⟩ construction = r
  obtain ⟨result, s'⟩ := r
  cases result with
  | throws => exact ⟨⟨c, false⟩, rfl⟩
  | returns inserted => exact ⟨⟨c, inserted⟩, rfl⟩

/-! ## Runs in which every client is constructed -/

/-- In a sound state no client dereferences an empty entry. -/
theorem engaged_of_sound (h : Sound s) : Engaged s := fun _ key _ => h.threads key

/-- Every step keeps the map sound, if what it inserts is engaged. -/
theorem sound_next (h : Sound s) (a : Action T) (ok : EachInsert Construction.engages s a) :
    Sound (next s a) := by
  have hsame : ∀ {t : State T}, t.threads = s.threads → t.derefEmpty = s.derefEmpty → Sound t :=
    fun ht hd => sound_congr h (fun key hk => (congrFun ht key).symm.trans hk) hd
  cases a with
  | connect c => exact hsame rfl rfl
  | customBuildField t c callback request => exact sound_customBuildField h ok
  | passField t c canceled construction =>
    cases canceled with
    | true => exact hsame rfl rfl
    | false =>
      obtain ⟨frame, he⟩ := passField_eq s t c construction
      change Sound (s.passField t c false construction)
      rw [he]
      refine ⟨(full_setThread_iff h.threads _ construction).mpr (ok rfl), ?_⟩
      exact (setThread_frame s _ construction).2.2.2.trans h.derefEmpty
  | leave t => exact sound_leave h t
  | destroy key => exact sound_erase h key
  | disconnect c => exact hsame rfl rfl
  | runFront =>
    change Sound ((s.closing.map s.runFront).getD s)
    cases s.closing with
    | none => exact h
    | some c => exact sound_runFront h c
  | disconnected => exact hsame rfl rfl

/-- A turn leaves no empty entry to be looked up exactly where each node it inserts gets a
client. -/
theorem engaged_next_iff (h : Sound s) (a : Action T) (en : enabled s a) :
    Engaged (next s a) ↔ EachInsert Construction.engages s a := by
  refine ⟨fun hengaged => ?_, fun ok => engaged_of_sound (sound_next h a ok)⟩
  cases a with
  | customBuildField t c callback request =>
    obtain ⟨hclosing, halive⟩ := en
    obtain ⟨ha, hc, hother⟩ := customBuildField_frame s t c callback request
    refine (full_customBuildField_iff h.threads).mp fun key hk => ?_
    by_cases hkey : key.connection = c
    · refine hengaged (hc.trans hclosing) key ?_ hk
      exact (congrFun ha _).trans (hkey ▸ halive)
    · exact h.threads key ((hother key hkey).symm.trans hk)
  | passField t c canceled construction =>
    intro hcanceled
    subst hcanceled
    obtain ⟨hclosing, halive⟩ := en
    obtain ⟨frame, he⟩ := passField_eq s t c construction
    obtain ⟨ha, hc, -, -⟩ := setThread_frame s ⟨t, .request, c⟩ construction
    have hengaged : Engaged (s.passField t c false construction) := hengaged
    rw [he] at hengaged
    refine (full_setThread_iff h.threads _ construction).mp fun key hk => ?_
    by_cases hkey : key = ⟨t, .request, c⟩
    · subst hkey
      exact hengaged (hc.trans hclosing) _ ((congrFun ha _).trans (halive rfl)) hk
    · exact h.threads key ((setThread_other construction hkey).symm.trans hk)
  | connect _ | leave _ | destroy _ | disconnect _ | runFront | disconnected => trivial

theorem sound_started : Sound (started T) := ⟨fun _ => nofun, rfl⟩

/-! ## Runs in which nothing throws -/

/-- Every entry is registered, with a connection that is there. -/
def Registered (s : State T) : Prop :=
  ∀ key, s.threads key ≠ none → s.registered key ∧ s.alive key.connection = true

/-- Registration depends on the entry and on the functions of its connection. -/
theorem registered_congr {t : State T} (h : s.registered key)
    (threads : t.threads key = s.threads key)
    (fns : ∀ number, .disconnect key number ∈ s.fns key.connection →
      .disconnect key number ∈ t.fns key.connection) : t.registered key := by
  obtain ⟨client, hc, hcb, hmem⟩ := h
  exact ⟨client, threads.trans hc, hcb, fns _ hmem⟩

/-- What is kept of one connection's list is in the lists. -/
theorem mem_update_fns {connection : Nat} {fns : List Fn} {fn : Fn} {c : Nat}
    (keep : fn ∈ s.fns connection → fn ∈ fns) (h : fn ∈ s.fns c) :
    fn ∈ Function.update s.fns connection fns c := by
  by_cases hc : c = connection
  · subst hc
    rw [Function.update_self]
    exact keep h
  · rwa [Function.update_of_ne hc]

/-- `SetThread` keeps every entry registered, if a new one's construction succeeds. -/
theorem registered_setThread_all (h : Registered s) {construction : Construction T}
    (ok : s.threads key = none → construction.succeeds = true)
    (alive : s.alive key.connection = true) : Registered (s.setThread key construction).2 := by
  by_cases hk : s.threads key = none
  · obtain ⟨-, -, hfns⟩ := setThread_absent construction hk
    have halive := (setThread_frame s key construction).1
    intro key' hthere
    rw [halive]
    by_cases hkey : key' = key
    · subst hkey
      exact ⟨registered_setThread hk (ok hk), alive⟩
    · have hsame := setThread_other (s := s) construction hkey
      obtain ⟨hreg, ha⟩ := h key' (hsame ▸ hthere)
      refine ⟨registered_congr hreg hsame fun number hmem => ?_, ha⟩
      rw [hfns]
      exact mem_update_fns (List.mem_append_right _) hmem
  · rw [setThread_present construction hk]
    exact h

/-- Removing one function keeps the others. -/
theorem mem_removeSyncCleanup {fn fn' : Fn} {connection c : Nat} (hne : fn ≠ fn')
    (h : fn ∈ s.fns c) : fn ∈ (s.removeSyncCleanup connection fn').fns c :=
  mem_update_fns (s := s) (fun hmem => (List.mem_erase_of_ne hne).mpr hmem) h

/-- The destructor of a client removes no callback of another one. -/
theorem mem_destroyClient {client : Client T} {fn : Fn} {c : Nat}
    (hown : fn ≠ .own key client.number) (hdisconnect : fn ≠ .disconnect key client.number)
    (h : fn ∈ s.fns c) : fn ∈ (s.destroyClient key client).fns c := by
  unfold State.destroyClient
  dsimp only
  split <;> split
  · exact mem_removeSyncCleanup hown (mem_removeSyncCleanup hdisconnect h)
  · exact mem_removeSyncCleanup hown h
  · exact mem_removeSyncCleanup hdisconnect h
  · exact h

/-- A client that goes takes no callback but its own with it. -/
theorem registered_without (key : Key) (client : Client T)
    (h : ∀ key', key' ≠ key → s.threads key' ≠ none →
      s.registered key' ∧ s.alive key'.connection = true) :
    Registered ((s.set key none).destroyClient key client) := by
  obtain ⟨hthreads, halive, -, -⟩ := destroyClient_frame (s.set key none) key client
  intro key' hthere
  rw [halive]
  rw [hthreads] at hthere
  have hkey : key' ≠ key := by
    rintro rfl
    exact hthere (Function.update_self _ _ _)
  have hsame : (s.set key none).threads key' = s.threads key' := Function.update_of_ne hkey _ _
  obtain ⟨hreg, ha⟩ := h key' hkey (hsame ▸ hthere)
  refine ⟨registered_congr hreg ((congrFun hthreads _).trans hsame) fun number hmem => ?_, ha⟩
  refine mem_destroyClient nofun (fun he => ?_) hmem
  cases he
  exact hkey rfl

/-- A registered entry is not empty. -/
theorem client_of_registered (h : Registered s) {entry : Option (Client T)}
    (hk : s.threads key = some entry) : ∃ client, entry = some client := by
  obtain ⟨client, hc, -⟩ := (h key (by rw [hk]; nofun)).1
  exact ⟨client, Option.some.inj (hk.symm.trans hc)⟩

/-- Erasing an entry keeps the others registered. -/
theorem registered_erase (h : Registered s) (key : Key) : Registered (s.erase key) := by
  cases hk : s.threads key with
  | none =>
    have hset : s.set key none = s := by
      unfold State.set
      rw [← hk, Function.update_eq_self]
    have hsame : s.erase key = s.set key none := by
      unfold State.erase
      rw [hk]
    rw [hsame, hset]
    exact h
  | some entry =>
    obtain ⟨client, rfl⟩ := client_of_registered h hk
    have he : s.erase key = (s.set key none).destroyClient key client := by
      unfold State.erase
      rw [hk]
    rw [he]
    exact registered_without key client fun key' _ => h key'

/-- The callback of a base class leaves the client in the map. -/
theorem registered_own (h : Registered s) (key : Key) (number : Nat) :
    Registered (s.runFn (.own key number)) := by
  unfold State.runFn
  dsimp only
  split
  · next client hc =>
    split
    · intro key' hthere
      by_cases hkey : key' = key
      · subst hkey
        obtain ⟨⟨client', hc', hcb, hmem⟩, ha⟩ := h key' (by rw [hc]; nofun)
        cases Option.some.inj (Option.some.inj (hc.symm.trans hc'))
        exact ⟨⟨_, Function.update_self _ _ _, hcb, hmem⟩, ha⟩
      · have hsame : (s.set key (some (some { client with
            client := none, connection := false }))).threads key' = s.threads key' :=
          Function.update_of_ne hkey _ _
        obtain ⟨hreg, ha⟩ := h key' (hsame ▸ hthere)
        exact ⟨registered_congr hreg hsame fun _ hmem => hmem, ha⟩
    · exact h
  · exact h

/-- `~Connection` takes a callback off the list and calls it; that of `SetThread` erases the node it
is registered for. -/
theorem registered_runFront (h : Registered s) (connection : Nat) :
    Registered (s.runFront connection) := by
  unfold State.runFront
  cases hfns : s.fns connection with
  | nil => exact h
  | cons fn fns =>
    dsimp only
    have hmem : ∀ {key' : Key} {number : Nat}, fn ≠ .disconnect key' number →
        .disconnect key' number ∈ s.fns key'.connection →
        .disconnect key' number ∈ Function.update s.fns connection fns key'.connection := by
      intro key' number hne hin
      refine mem_update_fns (fun hcons => ?_) hin
      rw [hfns] at hcons
      exact (List.mem_cons.mp hcons).resolve_left (Ne.symm hne)
    have hpop : ∀ {key' : Key}, (∀ client, s.threads key' = some (some client) →
        fn ≠ .disconnect key' client.number) → s.threads key' ≠ none →
        State.registered { s with fns := Function.update s.fns connection fns } key' ∧
          s.alive key'.connection = true := by
      intro key' hne hthere
      obtain ⟨⟨client, hc, hcb, hin⟩, ha⟩ := h key' hthere
      exact ⟨⟨client, hc, hcb, hmem (hne client hc) hin⟩, ha⟩
    cases fn with
    | own key number => exact registered_own (fun key' hthere => hpop (fun _ _ => nofun) hthere) _ _
    | disconnect key number =>
      have hothers : ∀ key', key' ≠ key → s.threads key' ≠ none →
          State.registered { s with fns := Function.update s.fns connection fns } key' ∧
            s.alive key'.connection = true := by
        intro key' hkey
        refine hpop fun client _ he => ?_
        cases he
        exact hkey rfl
      unfold State.runFn
      dsimp only
      split
      · next client hc =>
        split
        · exact registered_without key _ hothers
        · next hnumber =>
          intro key' hthere
          refine hpop (fun client' hc' he => ?_) hthere
          cases he
          cases Option.some.inj (Option.some.inj (hc.symm.trans hc'))
          exact hnumber rfl
      · next hno =>
        intro key' hthere
        refine hpop (fun client' hc' he => ?_) hthere
        cases he
        exact hno client' hc'

/-- Dereferencing one does too. -/
theorem deref_registered (h : Registered s) (key : Key) : Registered (s.deref key) := by
  unfold State.deref
  split
  · exact h
  · exact h

/-- And `CustomBuildField`, if what it inserts is constructed. -/
theorem registered_customBuildField {t c : Nat} {callback request : Construction T}
    (h : Registered s) (alive : s.alive c = true)
    (ok : EachInsert Construction.succeeds s (.customBuildField t c callback request)) :
    Registered (s.customBuildField t c callback request) := by
  have hfirst : Registered (s.withCallback t c callback) :=
    registered_setThread_all h ok.1 alive
  by_cases hr : (s.setThread ⟨t, .callback, c⟩ callback).1 = .throws
  · rw [customBuildField_first hr]
    exact hfirst
  · have hsame : (s.withCallback t c callback).threads ⟨t, .request, c⟩ =
        s.threads ⟨t, .request, c⟩ := setThread_other callback (by simp)
    have hsecond : Registered (s.withRequest t c callback request) := by
      refine registered_setThread_all hfirst (fun hn => ok.2 ok.1 (hsame ▸ hn)) ?_
      exact (congrFun (setThread_frame s _ callback).1 c).trans alive
    rcases customBuildField_second hr with he | he
    · rw [he]
      exact hsecond
    · rw [he]
      exact deref_registered (deref_registered hsecond _) _

/-- Every step keeps every entry registered, if what it inserts is constructed. -/
theorem registered_next (h : Registered s) (a : Action T) (en : enabled s a)
    (ok : EachInsert Construction.succeeds s a) : Registered (next s a) := by
  cases a with
  | connect c =>
    intro key hthere
    obtain ⟨hreg, ha⟩ := h key hthere
    have hkey : key.connection ≠ c := by
      rintro rfl
      cases en.2.symm.trans ha
    refine ⟨registered_congr hreg rfl fun number hmem => ?_, ?_⟩
    · exact (congrArg (_ ∈ ·) (Function.update_of_ne hkey _ _)).mpr hmem
    · exact (Function.update_of_ne hkey _ _).trans ha
  | customBuildField t c callback request => exact registered_customBuildField h en.2 ok
  | passField t c canceled construction =>
    cases canceled with
    | true => exact h
    | false =>
      obtain ⟨frame, he⟩ := passField_eq s t c construction
      change Registered (s.passField t c false construction)
      rw [he]
      exact registered_setThread_all h (ok rfl) (en.2 rfl)
  | leave t =>
    change Registered (s.leave t)
    unfold State.leave
    split
    · exact h
    · next frame frames _ =>
      dsimp only
      split
      · exact registered_erase (s := { s with frames := Function.update s.frames t frames }) h _
      · exact h
  | destroy key => exact registered_erase h key
  | disconnect c => exact h
  | runFront =>
    change Registered ((s.closing.map s.runFront).getD s)
    cases s.closing with
    | none => exact h
    | some c => exact registered_runFront h c
  | disconnected =>
    -- no callback is left, so no entry is
    obtain ⟨c, hclosing, hfns⟩ := en
    intro key hthere
    obtain ⟨hreg, ha⟩ := h key hthere
    refine ⟨hreg, ?_⟩
    have hkey : key.connection ≠ c := by
      rintro rfl
      obtain ⟨client, -, -, hmem⟩ := hreg
      rw [hfns] at hmem
      cases hmem
    change (s.alive key.connection && decide (s.closing ≠ some key.connection)) = true
    rw [ha, hclosing]
    simpa only [ne_eq, Option.some.injEq, Bool.true_and, decide_eq_true_eq] using Ne.symm hkey

theorem registered_started : Registered (started T) := fun _ hthere => absurd rfl hthere

/-! ## The result -/

/-- `SetThread` is all or nothing exactly where the entry is registered already, or there is none and
nothing throws. In a run, every entry that `CustomBuildField` can look up between turns holds a
client exactly if `make_thread()` and the constructor of the client never throw where a node is
inserted, and then no empty optional is dereferenced; and if nothing throws at all, every entry
there is is registered. -/
theorem setThread_allOrNothing_iff (s : State T) (key : Key) (construction : Construction T)
    (as : List (Action T)) (t : State T) (path : (connThreads T).Path (started T) as t) :
    (AllOrNothing s key construction ↔
      s.registered key ∨ s.threads key = none ∧ construction.succeeds = true) ∧
    ((connThreads T).Meets (fun s a => Engaged (next s a)) (started T) as ↔
      (connThreads T).Meets (EachInsert Construction.engages) (started T) as) ∧
    ((connThreads T).Meets (EachInsert Construction.engages) (started T) as →
      t.derefEmpty = false) ∧
    ((connThreads T).Meets (EachInsert Construction.succeeds) (started T) as →
      ∀ key, t.threads key ≠ none → t.registered key) := by
  have keep : ∀ s a, Sound s → (connThreads T).enabled s a →
      EachInsert Construction.engages s a → Sound (next s a) := fun s a h _ => sound_next h a
  refine ⟨allOrNothing_iff s key construction, ?_, fun hok => ?_, fun hok key hthere => ?_⟩
  · exact path.meets_iff keep (fun s a h ha => engaged_next_iff h a ha) sound_started
  · exact (path.keeps_of_meets keep hok sound_started).derefEmpty
  · exact (path.keeps_of_meets (I := Registered) (fun s a h => registered_next h a) hok
      registered_started key hthere).1

/-- A request is executed on a thread, whose method makes a call over the same connection and another
one, and the connections go away. -/
def twoConnections : List (Action Nat) :=
  [.connect 16, .connect 32, .passField 0 16 false (.completes 1),
    .customBuildField 0 16 (.completes 2) (.completes 3),
    .customBuildField 0 32 (.completes 4) (.completes 5), .leave 0, .disconnect 16, .runFront,
    .disconnected]

/-- Nothing throws, and what is left is registered. -/
theorem setThread_allOrNothing_two :
    ∃ t, (connThreads Nat).Path (started Nat) twoConnections t ∧
      (connThreads Nat).Meets (fun s a => Engaged (next s a)) (started Nat) twoConnections ∧
      t.derefEmpty = false ∧ t.registered ⟨0, .request, 32⟩ ∧
      AllOrNothing t ⟨0, .request, 32⟩ .makeThreadThrows := by
  have hrun : ((connThreads Nat).run (started Nat) twoConnections).map
      (fun t => t.threads ⟨0, .request, 32⟩ |>.isSome) = some true := by decide
  obtain ⟨t, ht, hthere⟩ := Option.map_eq_some_iff.mp hrun
  have hpath := System.run_eq_some_iff.mp ht
  have hall := setThread_allOrNothing_iff t ⟨0, .request, 32⟩ .makeThreadThrows _ t hpath
  obtain ⟨hcall, hengaged, hderef, hregistered⟩ := hall
  have hmeets : ∀ ok : Construction Nat → Bool, (∀ client, ok (.completes client) = true) →
      (connThreads Nat).Meets (EachInsert ok) (started Nat) twoConnections := by
    intro ok hok
    refine ⟨trivial, trivial, fun _ _ => hok _, ⟨fun _ => hok _, fun _ _ => hok _⟩,
      ⟨fun _ => hok _, fun _ _ => hok _⟩, ?_⟩
    exact ⟨trivial, trivial, trivial, trivial, trivial⟩
  have hengages := hmeets Construction.engages fun _ => rfl
  have hsucceeds := hmeets Construction.succeeds fun _ => rfl
  have hreg := hregistered hsucceeds ⟨0, .request, 32⟩ (Option.isSome_iff_ne_none.mp hthere)
  exact ⟨t, hpath, hengaged.mpr hengages, hderef hengages, hreg, hcall.mpr (.inl hreg)⟩

/-- The `callbackThread` of a request cannot be read: `SetThread` throws and leaves an empty entry,
which a call made by the method over the same connection dereferences. -/
theorem setThread_leaves_empty_entry :
    ¬ AllOrNothing (started Nat) ⟨0, .request, 16⟩ .makeThreadThrows ∧
      ∃ s, (connThreads Nat).Reachable s ∧ ¬ Engaged s ∧
        enabled s (.customBuildField 0 16 (.completes 1) (.completes 2)) ∧
        (next s (.customBuildField 0 16 (.completes 1) (.completes 2))).derefEmpty = true := by
  constructor
  · rw [allOrNothing_iff]
    rintro (⟨client, hc, -⟩ | ⟨-, hs⟩)
    · cases hc
    · cases hs
  · obtain ⟨s, hs, hp⟩ := (connThreads Nat).exists_reachable_of_run (s := started Nat) rfl
      [.connect 16, .passField 0 16 false .makeThreadThrows]
      (fun s => decide (s.closing = none ∧ s.alive 16 = true) &&
        (s.threads ⟨0, .request, 16⟩).any Option.isNone &&
        (s.customBuildField 0 16 (.completes 1) (.completes 2)).derefEmpty) (by decide)
    simp only [Bool.and_eq_true, decide_eq_true_eq, Option.any_eq_true, Option.isNone_iff_eq_none]
      at hp
    obtain ⟨⟨⟨hclosing, halive⟩, entry, hentry, rfl⟩, hderef⟩ := hp
    exact ⟨s, hs, fun h => h hclosing _ halive hentry, ⟨hclosing, halive⟩, hderef⟩

end Multiprocess.Context.SetThread
