import Mathlib.Data.Multiset.AddSub
import Mathlib.Logic.Function.Basic
import Multiprocess.Lib.System

/-!
# The event loop, its references and its async thread

`EventLoop::post`, `EventLoop::loop`, `EventLoopRef` and the async thread of `startAsyncThread`
as one system (`src/mp/proxy.cpp`). One action is one critical section under `m_mutex`, one
one-byte `write` to the wake-up pipe, one one-byte read by `loop()`, or the run of one posted
function. `T` is the type of the application's threads: any number of them.

* A thread waiting on `m_cv` is asleep until a `notify_all` (or a spurious wake-up) makes it
  runnable; it then locks the mutex and looks at its predicate again.
* `m_post_fn` points to the argument of one call of `post`, so it is modelled by that call: the
  calling thread and how many calls it made before.
* `live` is the multiset of live `EventLoopRef` objects by who holds them. It is what
  `m_num_clients` is supposed to count, and no step reads it to decide what to do.
* `runs` counts the runs of each posted function, `badWrite` records a write to a closed
  descriptor. They are history and no step reads them.

What a posted function throws is logged by `loop()`, which goes on as if it had returned. A call of
`post` on the event loop thread itself runs its function at once and is none of the steps.
-/

namespace Multiprocess.Loop

/-- The threads other than the event loop thread: the application's, and `m_async_thread`. -/
inductive Thread (T : Type) where
  | client (t : T)
  | async
  deriving DecidableEq

/-- Who holds an `EventLoopRef`: a thread, the objects of the event loop thread, the local `ref`
of a call of `EventLoop::post`, or the local `ref` of the async thread around a function. -/
inductive Owner (T : Type) where
  | thread (p : Thread T)
  | loop
  | post (p : Thread T)
  | asyncFn
  deriving DecidableEq

/-- A call of `EventLoop::post`, standing for the address of its `fn` argument. -/
structure Call (T : Type) where
  thread : Thread T
  seq : Nat
  deriving DecidableEq

/-- Where a thread is in `EventLoop::post`, or in an `EventLoopRef::reset` that found `done()`. -/
inductive PostPc where
  -- in neither
  | idle
  -- in the first wait, for `m_post_fn == nullptr`
  | waitSlot (asleep : Bool)
  -- `m_post_fn` is set and the lock released; the byte is still to be written
  | notify
  -- in the second wait, for `m_post_fn != &fn`
  | waitDone (asleep : Bool)
  -- `reset` found `done()` and released the lock; its byte is still to be written
  | wake
  deriving DecidableEq

/-- `notify_all` makes a sleeping thread runnable. -/
def PostPc.notified : PostPc → PostPc
  | .waitSlot _ => .waitSlot false
  | .waitDone _ => .waitDone false
  | pc => pc

/-- Asleep in `m_cv.wait`. -/
def PostPc.asleep : PostPc → Bool
  | .waitSlot b => b
  | .waitDone b => b
  | _ => false

/-- Between the construction and the destruction of the local `ref` of `post`. -/
def PostPc.inPost : PostPc → Bool
  | .waitSlot _ | .notify | .waitDone _ => true
  | _ => false

/-- Past the assignment of `m_post_fn` in `post`. -/
def PostPc.installed : PostPc → Bool
  | .notify | .waitDone _ => true
  | _ => false

/-- Where the event loop thread is in `EventLoop::loop`. -/
inductive LoopPc (T : Type) where
  -- in `wait_stream->read(..).wait(..)`, which also runs the other events of the loop
  | reading
  -- one byte was read; the lock is still to be taken
  | checking
  -- running the function of a call with the lock released
  | running (c : Call T)
  -- past the `break`; `m_task_set` is still to be reset
  | breaking
  -- the two descriptors are still to be closed
  | closing
  -- the last critical section is still to come
  | closed
  -- `loop()` has returned
  | returned
  -- `~EventLoop` has run
  | destroyed
  deriving DecidableEq

/-- Where `m_async_thread` is. -/
inductive AsyncPc where
  -- not started: `m_async_thread` is not joinable
  | absent
  -- about to test `m_async_fns` with the lock held
  | ready
  -- in `m_cv.wait(lock.m_lock)`
  | asleep
  -- running the function with this number with the lock released
  | running (fn : Nat)
  -- `ref.reset(true)` found `done()`: its byte is still to be written, then the lock retaken
  | wake
  -- out of the `while` loop
  | gone
  deriving DecidableEq

/-- `notify_all` makes a sleeping async thread runnable. -/
def AsyncPc.notified : AsyncPc → AsyncPc
  | .asleep => .ready
  | pc => pc

/-- The event loop object, the threads' positions in its functions, and the pipe. -/
structure State (T : Type) where
  -- `m_post_fn`
  postFn : Option (Call T)
  -- `m_async_fns`, each function by the number of those added before it
  asyncFns : Option (List Nat)
  -- `m_wait_fd` and `m_post_fd`
  waitFd : Int
  postFd : Int
  -- `m_num_clients`
  numClients : Int
  -- whether the descriptors of the pipe are open, and its unread bytes
  fdsOpen : Bool
  pipe : Nat
  loop : LoopPc T
  -- a `reset` on the loop thread found `done()`; its byte is still to be written
  loopWake : Bool
  async : AsyncPc
  post : Thread T → PostPc
  -- the calls of `post` each thread has returned from
  calls : Thread T → Nat
  live : Multiset (Owner T)
  added : Nat
  runs : Call T → Nat
  badWrite : Bool

namespace State

variable {T : Type}

/-- `EventLoop::done`. -/
def done (s : State T) : Bool := s.numClients = 0 && s.asyncFns = some []

/-- The thread's call of `post` in progress. -/
def call (s : State T) (p : Thread T) : Call T := ⟨p, s.calls p⟩

/-- `m_cv.notify_all()`. -/
def notifyAll (s : State T) : State T :=
  { s with post := fun p => (s.post p).notified, async := s.async.notified }

/-- One byte written to `m_post_fd`. -/
def writeByte (s : State T) : State T :=
  { s with pipe := s.pipe + 1, badWrite := s.badWrite || !s.fdsOpen }

variable [DecidableEq T]

/-- A thread moves within `post` or `reset`. -/
def setPost (s : State T) (p : Thread T) (pc : PostPc) : State T :=
  { s with post := Function.update s.post p pc }

/-- The constructor of `EventLoopRef`. -/
def ref (s : State T) (o : Owner T) : State T :=
  { s with numClients := s.numClients + 1, live := o ::ₘ s.live }

/-- The first half of `EventLoopRef::reset`. -/
def unref (s : State T) (o : Owner T) : State T :=
  { s with numClients := s.numClients - 1, live := s.live.erase o }

/-- `EventLoopRef::reset` on a thread, up to the write of its byte if it finds `done()`. -/
def reset (s : State T) (o : Owner T) (p : Thread T) : State T :=
  if (s.unref o).done then ((s.unref o).setPost p .wake).notifyAll else (s.unref o).setPost p .idle

/-- `EventLoopRef::reset` on the event loop thread. -/
def loopReset (s : State T) (o : Owner T) : State T :=
  if (s.unref o).done then { (s.unref o).notifyAll with loopWake := true } else s.unref o

/-- The first wait of `post` with the lock held: install the function, or sleep. -/
def tryInstall (s : State T) (p : Thread T) : State T :=
  if s.postFn = none then { s.setPost p .notify with postFn := some (s.call p) }
  else s.setPost p (.waitSlot true)

/-- The second wait of `post` with the lock held: leave, dropping `ref`, or sleep. -/
def tryReturn (s : State T) (p : Thread T) : State T :=
  if s.postFn = some (s.call p) then s.setPost p (.waitDone true)
  else ({ s with calls := Function.update s.calls p (s.calls p + 1) }).reset (.post p) p

/-- `startAsyncThread`. -/
def startAsyncThread (s : State T) : State T :=
  if s.async = .absent then
    if s.asyncFns = some [] then s else { s with async := .ready }
  else s.notifyAll

/-- `addAsyncCleanup`. -/
def addAsyncCleanup (s : State T) : State T :=
  startAsyncThread { s with
    asyncFns := s.asyncFns.map (· ++ [s.added]), added := s.added + 1 }

/-- One look of `loop()` at its state after reading a byte. -/
def check (s : State T) : State T :=
  match s.postFn with
  | some c => { s with loop := .running c, runs := Function.update s.runs c (s.runs c + 1) }
  | none => { s with loop := if s.done then .breaking else .reading }

/-- The posted function has returned, or its exception was caught and logged. -/
def finish (s : State T) : State T :=
  { s with loop := .reading, postFn := none }.notifyAll

/-- One round of the async thread's `while` loop up to releasing the lock. -/
def asyncCheck (s : State T) : State T :=
  match s.asyncFns with
  | none => { s with async := .gone }
  | some [] => { s with async := .asleep }
  | some (fn :: fns) => { s.ref .asyncFn with asyncFns := some fns, async := .running fn }

/-- The function of the async thread has returned: `ref.reset(true)`. -/
def asyncFinish (s : State T) : State T :=
  if (s.unref .asyncFn).done then { (s.unref .asyncFn).notifyAll with async := .wake }
  else { s.unref .asyncFn with async := .ready }

/-- The last critical section of `loop()`. -/
def exit (s : State T) : State T :=
  { s with waitFd := -1, postFd := -1, asyncFns := none, loop := .returned }.notifyAll

/-- The loop thread is at a point where the library's and the application's code runs on it: in
an event, in a posted function, or in a destructor run by `m_task_set.reset()`. -/
def turn (s : State T) : Prop :=
  s.loopWake = false ∧ (s.loop = .reading ∨ (∃ c, s.loop = .running c) ∨ s.loop = .breaking)

/-- `m_async_thread` is running a function. -/
def inAsyncFn (s : State T) : Prop := ∃ fn, s.async = .running fn

/-- The thread is running code that may call into the event loop. -/
def acts (s : State T) (p : Thread T) : Prop :=
  s.post p = .idle ∧ (p = .async → s.inAsyncFn)

end State

/-- The actions: which thread does what. -/
inductive Action (T : Type) where
  -- call `post`: lock, construct `ref`, look at `m_post_fn`
  | post (p : Thread T)
  -- look at `m_post_fn` again in the first wait
  | tryInstall (p : Thread T)
  -- write the byte of `post`
  | write (p : Thread T)
  -- look at `m_post_fn` in the second wait; on success return from `post`
  | tryReturn (p : Thread T)
  -- a spurious wake-up
  | wakeUp (p : Thread T)
  -- construct an `EventLoopRef`
  | take (p : Thread T)
  -- destroy or reset one
  | drop (p : Thread T)
  -- move one from a holder to another
  | move (src dst : Owner T)
  -- write the byte of a `reset` that found `done()`
  | writeDone (p : Thread T)
  -- the same four on the event loop thread
  | loopTake
  | loopDrop
  | loopWriteDone
  | addAsyncCleanup
  -- the event loop thread in `loop()`
  | read
  | check
  | finish (threw : Bool)
  | resetTasks
  | close
  | exit
  | destroy
  -- `m_async_thread` in its `while` loop
  | asyncCheck
  | asyncWakeUp
  | asyncFinish
  | asyncWriteDone
  -- one more wake-up byte, from no modelled writer
  | strayByte
  deriving DecidableEq

variable {T : Type} [DecidableEq T]

/-- A reference held in an object that another can take over by a move. -/
def Owner.movable : Owner T → Bool
  | .thread _ | .loop => true
  | _ => false

/-- Where an action can happen. -/
def enabled (s : State T) : Action T → Prop
  | .post p | .take p => s.acts p
  | .tryInstall p => s.post p = .waitSlot false
  | .write p => s.post p = .notify
  | .tryReturn p => s.post p = .waitDone false
  | .wakeUp p => (s.post p).asleep = true
  | .drop p => s.acts p ∧ .thread p ∈ s.live
  | .move src dst => src.movable = true ∧ dst.movable = true ∧ src ∈ s.live
  | .writeDone p => s.post p = .wake
  | .loopTake => s.turn
  | .loopDrop => s.turn ∧ .loop ∈ s.live
  | .loopWriteDone => s.loopWake = true
  | .addAsyncCleanup => s.turn
  | .read => s.loop = .reading ∧ s.loopWake = false ∧ 0 < s.pipe
  | .check => s.loop = .checking
  | .finish _ => s.loopWake = false ∧ ∃ c, s.loop = .running c
  | .resetTasks => s.loop = .breaking ∧ s.loopWake = false
  | .close => s.loop = .closing
  | .exit => s.loop = .closed
  | .destroy => s.loop = .returned ∧ (s.async = .absent ∨ s.async = .gone)
  | .asyncCheck => s.async = .ready
  | .asyncWakeUp => s.async = .asleep
  | .asyncFinish => s.inAsyncFn ∧ s.post .async = .idle
  | .asyncWriteDone => s.async = .wake
  | .strayByte => True

instance (s : State T) : Decidable s.inAsyncFn :=
  decidable_of_iff ((match s.async with | .running _ => true | _ => false) = true) (by
    unfold State.inAsyncFn
    cases s.async <;> simp only [reduceCtorEq, exists_false, AsyncPc.running.injEq, exists_eq',
      Bool.false_eq_true])

instance (s : State T) (p : Thread T) : Decidable (s.acts p) :=
  inferInstanceAs (Decidable (_ ∧ _))

instance (s : State T) : Decidable (∃ c, s.loop = .running c) :=
  decidable_of_iff ((match s.loop with | .running _ => true | _ => false) = true) (by
    cases s.loop <;> simp only [reduceCtorEq, exists_false, LoopPc.running.injEq, exists_eq',
      Bool.false_eq_true])

instance (s : State T) : Decidable s.turn := inferInstanceAs (Decidable (_ ∧ _))

instance (s : State T) : ∀ a : Action T, Decidable (enabled s a)
  | .post p | .take p => inferInstanceAs (Decidable (s.acts p))
  | .tryInstall _ | .write _ | .tryReturn _ | .writeDone _ => inferInstanceAs (Decidable (_ = _))
  | .wakeUp _ | .loopWriteDone => inferInstanceAs (Decidable (_ = true))
  | .drop p => inferInstanceAs (Decidable (s.acts p ∧ _))
  | .move _ _ => inferInstanceAs (Decidable (_ ∧ _ ∧ _))
  | .loopTake | .addAsyncCleanup => inferInstanceAs (Decidable s.turn)
  | .loopDrop => inferInstanceAs (Decidable (s.turn ∧ _))
  | .read => inferInstanceAs (Decidable (_ ∧ _ ∧ _))
  | .check | .close | .exit | .asyncCheck | .asyncWakeUp | .asyncWriteDone =>
    inferInstanceAs (Decidable (_ = _))
  | .finish _ => inferInstanceAs (Decidable (_ ∧ ∃ c, s.loop = .running c))
  | .resetTasks => inferInstanceAs (Decidable (_ ∧ _))
  | .destroy => inferInstanceAs (Decidable (_ ∧ (_ ∨ _)))
  | .asyncFinish => inferInstanceAs (Decidable (s.inAsyncFn ∧ _))
  | .strayByte => isTrue trivial

/-- What an action does. -/
def next (s : State T) : Action T → State T
  | .post p => (s.ref (.post p)).tryInstall p
  | .tryInstall p => s.tryInstall p
  | .write p => s.writeByte.setPost p (.waitDone false)
  | .tryReturn p => s.tryReturn p
  | .wakeUp p => s.setPost p (s.post p).notified
  | .take p => s.ref (.thread p)
  | .drop p => s.reset (.thread p) p
  | .move src dst => { s with live := dst ::ₘ s.live.erase src }
  | .writeDone p => s.writeByte.setPost p .idle
  | .loopTake => s.ref .loop
  | .loopDrop => s.loopReset .loop
  | .loopWriteDone => { s.writeByte with loopWake := false }
  | .addAsyncCleanup => s.addAsyncCleanup
  | .read => { s with pipe := s.pipe - 1, loop := .checking }
  | .check => s.check
  | .finish _ => s.finish
  | .resetTasks => { s with loop := .closing }
  | .close => { s with loop := .closed, fdsOpen := false }
  | .exit => s.exit
  | .destroy => { s with loop := .destroyed }
  | .asyncCheck => s.asyncCheck
  | .asyncWakeUp => { s with async := .ready }
  | .asyncFinish => s.asyncFinish
  | .asyncWriteDone => { s.writeByte with async := .ready }
  | .strayByte => s.writeByte

/-- `loop()` has just created `m_async_fns`; the application's threads and the loop thread hold
the references there are, and nothing has been posted. -/
structure Starts (s : State T) : Prop where
  postFn : s.postFn = none
  asyncFns : s.asyncFns = some []
  numClients : s.numClients = s.live.card
  owners : ∀ o ∈ s.live, o = .loop ∨ ∃ t, o = .thread (.client t)
  fdsOpen : s.fdsOpen = true
  pipe : s.pipe = 0
  loop : s.loop = .reading
  loopWake : s.loopWake = false
  async : s.async = .absent
  post : ∀ p, s.post p = .idle
  calls : ∀ p, s.calls p = 0
  runs : ∀ c, s.runs c = 0
  badWrite : s.badWrite = false

/-- Any threads doing anything, with any number of extra wake-up bytes. -/
def anyThreads (T : Type) [DecidableEq T] : Transition.System (State T) (Action T) where
  init := Starts
  enabled := enabled
  next := next

instance (s : State T) (a : Action T) : Decidable ((anyThreads T).enabled s a) :=
  inferInstanceAs (Decidable (enabled s a))

end Multiprocess.Loop
