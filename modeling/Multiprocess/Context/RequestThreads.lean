import Multiprocess.Lib.System
import Mathlib.Logic.Function.Basic

/-!
# `request_threads` under nested executions

The `request_threads` map of one thread (`src/include/mp/proxy-io.h`), while requests with a
`Context` argument are executed on it (`src/include/mp/type-context.h`). Executions nest to any
depth, for any connections. The keys of the map are addresses of `Connection` objects: a connection
that is gone leaves its address to the next one, while an execution for it may still be on the
stack.

`SetThread` succeeds whenever it is called here (`Context/SetThread` has its failures), and the end
of the thread is left out (`Context/Entries` has it).
-/

namespace Multiprocess.Context

open Transition (System)

/-- `SetThread`: the entry that is there, or else a new one; and whether it was inserted. -/
def setThread {K W : Type} [DecidableEq K] (threads : K → Option W) (connection : K)
    (make_thread : W) : (K → Option W) × Bool :=
  match threads connection with
  | some _ => (threads, false)
  | none => (Function.update threads connection (some make_thread), true)

/-- `SetThread` leaves an entry that is there. -/
theorem setThread_some {K W : Type} [DecidableEq K] {threads : K → Option W} {connection : K}
    {entry make_thread : W} (h : threads connection = some entry) :
    setThread threads connection make_thread = (threads, false) := by
  unfold setThread
  rw [h]

/-- It makes one that is not. -/
theorem setThread_none {K W : Type} [DecidableEq K] {threads : K → Option W} {connection : K}
    {make_thread : W} (h : threads connection = none) :
    setThread threads connection make_thread =
      (Function.update threads connection (some make_thread), true) := by
  unfold setThread
  rw [h]

variable {T : Type}

structure Connection where
  address : Nat
  alive : Bool
  deriving DecidableEq

/-- A node of the map: the connection it was inserted for, and the `Thread::Client`. -/
structure Entry (T : Type) where
  connection : Nat
  client : T
  deriving DecidableEq

/-- Where an execution of the lambda is. -/
inductive Phase where
  /-- before its first `sync` -/
  | entering
  /-- in `fn.invoke` -/
  | running
  /-- before the `sync` of its deferred block -/
  | leaving
  deriving DecidableEq

/-- An execution of the `invoke` lambda. `found` is history: the entry of its connection when it
started. -/
structure Frame (T : Type) where
  connection : Nat
  /-- `getCallbackThread()` of the params -/
  callback : T
  /-- `cancel_monitor.m_canceled` -/
  canceled : Bool
  phase : Phase
  /-- the first `sync` came to `SetThread` -/
  registered : Bool
  /-- what `SetThread` returned with the entry -/
  inserted : Bool
  found : Option (Entry T)

/-- How `fn.invoke` ends; an `InterruptException` is caught, other exceptions are thrown on. -/
inductive Exit where
  | returned
  | interrupted
  | threw

/-- The thread, and the connections in the order they were made. The innermost execution is the
first of `frames`. -/
structure State (T : Type) where
  connections : Nat → Connection
  made : Nat
  threads : Nat → Option (Entry T)
  frames : List (Frame T)

/-- What the thread (`execute`, `call`, `finish`) and the event loops (the others) do. -/
inductive Action (T : Type) where
  | connect (address : Nat)
  | disconnect (c : Nat)
  | execute (c : Nat) (callback : T) (canceled : Bool)
  | cancel (i : Nat)
  | enter
  | call (c : Nat) (thread : T)
  | finish (exit : Exit)
  | leave

namespace State

def address (s : State T) (c : Nat) : Nat := (s.connections c).address

def alive (s : State T) (c : Nat) : Bool := (s.connections c).alive

/-- The entry for a connection. -/
def entry (s : State T) (c : Nat) : Option (Entry T) :=
  (s.threads (s.address c)).filter fun e => e.connection = c

def connect (s : State T) (address : Nat) : State T :=
  { s with
    connections := Function.update s.connections s.made ⟨address, true⟩
    made := s.made + 1 }

/-- `~Connection`: the requests are canceled, and the callback that `SetThread` registered erases
the node it was registered for. -/
def disconnect (s : State T) (c : Nat) : State T :=
  { s with
    connections := Function.update s.connections c ⟨s.address c, false⟩
    threads := if (s.entry c).isSome then Function.update s.threads (s.address c) none else s.threads
    frames := s.frames.map fun f => if f.connection = c then { f with canceled := true } else f }

/-- The thread starts the lambda. A request whose connection is gone has been canceled. -/
def execute (s : State T) (c : Nat) (callback : T) (canceled : Bool) : State T :=
  { s with frames :=
      { connection := c, callback, canceled, phase := .entering, registered := false
        inserted := false, found := s.entry c } :: s.frames }

def updateTop (s : State T) (f : Frame T → Frame T) : State T :=
  match s.frames with
  | g :: rest => { s with frames := f g :: rest }
  | [] => s

/-- The first `sync`. -/
def enter (s : State T) : State T :=
  match s.frames with
  | f :: rest =>
    if f.canceled then { s with frames := { f with phase := .leaving } :: rest }
    else
      let (threads, inserted) := setThread s.threads (s.address f.connection) ⟨f.connection, f.callback⟩
      { s with
        threads
        frames := { f with phase := .running, registered := true, inserted } :: rest }
  | [] => s

/-- `CustomBuildField` for a call of the thread's own, with what `makeThread` returns. -/
def call (s : State T) (c : Nat) (thread : T) : State T :=
  { s with threads := (setThread s.threads (s.address c) ⟨c, thread⟩).1 }

/-- The `sync` of the deferred block, which extracts what the map has under the connection. -/
def leave (s : State T) : State T :=
  match s.frames with
  | f :: rest =>
    { s with
      threads := if f.inserted then Function.update s.threads (s.address f.connection) none
        else s.threads
      frames := rest }
  | [] => s

/-- The thread runs code of its own, or of the innermost `fn.invoke`. -/
def runs (s : State T) : Prop := ∀ f ∈ s.frames.head?, f.phase = .running

end State

/-- Where a step can happen. An address is not in use twice at a time. -/
def enabled (s : State T) : Action T → Prop
  | .connect address => ∀ c < s.made, s.alive c = true → s.address c ≠ address
  | .disconnect c => c < s.made ∧ s.alive c = true
  | .execute c _ canceled => s.runs ∧ c < s.made ∧ (s.alive c = true ∨ canceled = true)
  | .cancel i => i < s.frames.length
  | .enter => s.frames.head?.map Frame.phase = some .entering
  | .call c _ => s.runs ∧ c < s.made ∧ s.alive c = true
  | .finish _ => s.frames.head?.map Frame.phase = some .running
  | .leave => s.frames.head?.map Frame.phase = some .leaving

def next (s : State T) : Action T → State T
  | .connect address => s.connect address
  | .disconnect c => s.disconnect c
  | .execute c callback canceled => s.execute c callback canceled
  | .cancel i => { s with frames := s.frames.modify i fun f => { f with canceled := true } }
  | .enter => s.enter
  | .call c thread => s.call c thread
  | .finish _ => s.updateTop fun f => { f with phase := .leaving }
  | .leave => s.leave

/-- A thread before its first execution and its first call. -/
def started (T : Type) : State T where
  connections _ := ⟨0, false⟩
  made := 0
  threads _ := none
  frames := []

/-- One thread with the connections it is used over. -/
def requestThreads (T : Type) : System (State T) (Action T) where
  init s := s = started T
  enabled := enabled
  next := next

instance (s : State T) : Decidable s.runs :=
  inferInstanceAs (Decidable (∀ f ∈ s.frames.head?, f.phase = .running))

instance (s : State T) : ∀ a : Action T, Decidable (enabled s a)
  | .connect _ => inferInstanceAs (Decidable (∀ c < s.made, _))
  | .disconnect _ => inferInstanceAs (Decidable (_ ∧ _))
  | .execute _ _ _ => inferInstanceAs (Decidable (_ ∧ _ ∧ (_ ∨ _)))
  | .call _ _ => inferInstanceAs (Decidable (_ ∧ _ ∧ _))
  | .cancel _ => inferInstanceAs (Decidable (_ < _))
  | .enter | .finish _ | .leave => inferInstanceAs (Decidable (_ = _))

instance (s : State T) (a : Action T) : Decidable ((requestThreads T).enabled s a) :=
  inferInstanceAs (Decidable (enabled s a))

variable {s : State T}

/-! ## The entry of a connection -/

theorem entry_eq_some {c : Nat} {e : Entry T} :
    s.entry c = some e ↔ s.threads (s.address c) = some e ∧ e.connection = c := by
  unfold State.entry
  rw [Option.filter_eq_some_iff]
  simp only [decide_eq_true_eq]

theorem entry_eq_none {c : Nat} (h : s.threads (s.address c) = none) : s.entry c = none := by
  unfold State.entry
  rw [h]
  rfl

/-- The entry depends on the node under the address of the connection. -/
theorem entry_congr {t : State T} {c : Nat} (address : t.address c = s.address c)
    (threads : t.threads (s.address c) = s.threads (s.address c)) : t.entry c = s.entry c := by
  unfold State.entry
  rw [address, threads]

/-- `SetThread` for a connection with no node under its address. -/
theorem entry_insert (s t : State T) {c : Nat} (hc : s.threads (s.address c) = none) (client : T)
    (address : t.address = s.address)
    (threads : t.threads = Function.update s.threads (s.address c) (some ⟨c, client⟩)) (d : Nat) :
    t.entry d = if d = c then some ⟨c, client⟩ else s.entry d := by
  split
  · next he =>
    subst he
    rw [entry_eq_some, address, threads, Function.update_self]
    exact ⟨rfl, rfl⟩
  · next hne =>
    by_cases ha : s.address d = s.address c
    · rw [entry_eq_none (s := s) (by rw [ha]; exact hc)]
      unfold State.entry
      rw [address, threads, ha, Function.update_self]
      simp only [Option.filter_some, Ne.symm hne, decide_false, Bool.false_eq_true, if_false]
    · apply entry_congr
      · rw [address]
      · rw [threads, Function.update_of_ne ha]

/-- The node under an address is extracted. -/
theorem entry_extract (s t : State T) {a : Nat} (address : t.address = s.address)
    (threads : t.threads = Function.update s.threads a none) (d : Nat) :
    t.entry d = if s.address d = a then none else s.entry d := by
  split
  · next he =>
    apply entry_eq_none
    rw [address, threads, he, Function.update_self]
  · next hne =>
    apply entry_congr
    · rw [address]
    · rw [threads, Function.update_of_ne hne]

/-! ## The entry restored -/

/-- Entries of other connections stay, and at its end the entry of its own connection is what it was
before, if the connection still exists. -/
def Restores (s : State T) : Action T → Prop
  | .enter => ∀ f ∈ s.frames.head?, ∀ d, d ≠ f.connection → s.enter.entry d = s.entry d
  | .leave => ∀ f ∈ s.frames.head?,
      (∀ d, d ≠ f.connection → s.leave.entry d = s.entry d) ∧
      s.leave.entry f.connection = if s.alive f.connection then f.found else none
  | _ => True

/-- The entry an execution works with: the one there was, or else the `callbackThread` of its own
request. -/
def Frame.kept (f : Frame T) : Entry T := f.found.getD ⟨f.connection, f.callback⟩

/-- An execution that was not canceled before it started has exactly one entry for its connection
while that exists, and always the same. -/
def Holds (s : State T) : Prop :=
  ∀ f ∈ s.frames, f.registered = true → s.alive f.connection = true →
    ∀ a e, s.threads a = some e ∧ e.connection = f.connection ↔
      a = s.address f.connection ∧ e = f.kept

/-- No execution ends that inserted an entry, while the node under the address of its connection is
that of another connection. -/
def Owns (s : State T) : Action T → Prop
  | .leave => ∀ f ∈ s.frames.head?, f.inserted = true →
      ∀ e ∈ s.threads (s.address f.connection), e.connection = f.connection
  | _ => True

instance (s : State T) : ∀ a : Action T, Decidable (Owns s a)
  | .leave => inferInstanceAs (Decidable (∀ f ∈ s.frames.head?, f.inserted = true →
      ∀ e ∈ s.threads (s.address f.connection), e.connection = f.connection))
  | .connect _ | .disconnect _ | .execute _ _ _ | .cancel _ | .enter | .call _ _ | .finish _ =>
    .isTrue trivial

/-! ## The invariant -/

/-- What holds of one execution. -/
structure Frame.Local (s : State T) (f : Frame T) : Prop where
  made : f.connection < s.made
  entering : f.phase = .entering → f.registered = false
  running : f.phase = .running → f.registered = true
  fresh : f.registered = false → f.inserted = false
  gone : s.alive f.connection = false → f.canceled = true
  found : f.registered = false → s.alive f.connection = true → s.entry f.connection = f.found
  inserted : f.registered = true → (f.inserted = true ↔ f.found = none)
  kept : f.registered = true → s.alive f.connection = true → s.entry f.connection = some f.kept

/-- An execution that will not come to `SetThread`. -/
def Frame.skips (f : Frame T) : Prop := f.registered = false ∧ f.canceled = true

/-- What holds of an execution `f` and one below it on the stack. -/
structure Frame.Above (s : State T) (f g : Frame T) : Prop where
  running : g.phase = .running
  nested : f.connection = g.connection → f.skips ∨ f.found.isSome = true
  apart : f.connection ≠ g.connection → s.alive g.connection = true →
    f.skips ∨ s.address f.connection ≠ s.address g.connection

structure Stacked (s : State T) : Prop where
  apart : ∀ c < s.made, ∀ d < s.made, s.alive c = true → s.alive d = true → c ≠ d →
    s.address c ≠ s.address d
  nodes : ∀ a e, s.threads a = some e →
    e.connection < s.made ∧ s.alive e.connection = true ∧ s.address e.connection = a
  frames : ∀ f ∈ s.frames, f.Local s
  pairs : s.frames.Pairwise (Frame.Above s)

/-- At the start no frame is on the stack. -/
theorem stacked_started : Stacked (started T) where
  apart c hc := absurd hc (Nat.not_lt_zero c)
  nodes := nofun
  frames := nofun
  pairs := .nil

/-- The innermost execution, and those it is above. -/
theorem Stacked.top (h : Stacked s) {f : Frame T} {rest : List (Frame T)}
    (hf : s.frames = f :: rest) : f.Local s ∧ ∀ g ∈ rest, f.Above s g := by
  have hpairs := h.pairs
  rw [hf] at hpairs
  exact ⟨h.frames f (by rw [hf]; exact List.mem_cons_self), (List.pairwise_cons.mp hpairs).1⟩

/-- The entry of a live connection is the node under its address. -/
theorem Stacked.threads_eq (h : Stacked s) {c : Nat} (hc : c < s.made) (ha : s.alive c = true) :
    s.threads (s.address c) = s.entry c := by
  cases he : s.threads (s.address c) with
  | none => exact (entry_eq_none he).symm
  | some e =>
    obtain ⟨hm, hl, haddr⟩ := h.nodes _ e he
    have hconn : e.connection = c := by
      by_contra hne
      exact h.apart _ hm c hc hl ha hne haddr
    exact (entry_eq_some.mpr ⟨he, hconn⟩).symm

/-- A connection that is gone has no entry. -/
theorem Stacked.entry_gone (h : Stacked s) {c : Nat} (ha : s.alive c = false) :
    s.entry c = none := by
  cases he : s.entry c with
  | none => rfl
  | some e =>
    obtain ⟨hnode, rfl⟩ := entry_eq_some.mp he
    cases ha.symm.trans (h.nodes _ e hnode).2.1

/-- In a stacked state the map holds what the frames say. -/
theorem Stacked.holds (h : Stacked s) : Holds s := by
  intro f hf hr ha a e
  have hl := h.frames f hf
  constructor
  · rintro ⟨he, hc⟩
    obtain ⟨-, -, haddr⟩ := h.nodes a e he
    rw [hc] at haddr
    refine ⟨haddr.symm, ?_⟩
    have hentry := entry_eq_some.mpr ⟨haddr ▸ he, hc⟩
    exact Option.some.inj (hentry.symm.trans (hl.kept hr ha))
  · rintro ⟨rfl, rfl⟩
    exact entry_eq_some.mp (hl.kept hr ha)

/-! ## Steps -/

/-- What an execution relies on. -/
theorem Frame.Local.congr {f : Frame T} (h : f.Local s) {t : State T} (made : s.made ≤ t.made)
    (alive : t.alive f.connection = s.alive f.connection)
    (entry : s.alive f.connection = true → t.entry f.connection = s.entry f.connection) :
    f.Local t where
  made := Nat.lt_of_lt_of_le h.made made
  entering := h.entering
  running := h.running
  fresh := h.fresh
  gone hg := h.gone (alive ▸ hg)
  found hr ha := by
    have ha : s.alive f.connection = true := alive ▸ ha
    rw [entry ha]
    exact h.found hr ha
  inserted := h.inserted
  kept hr ha := by
    have ha : s.alive f.connection = true := alive ▸ ha
    rw [entry ha]
    exact h.kept hr ha

theorem Frame.Above.congr {f g : Frame T} (h : f.Above s g) {t : State T}
    (alive : t.alive g.connection = true → s.alive g.connection = true)
    (address : ∀ c ∈ [f.connection, g.connection], t.address c = s.address c) : f.Above t g where
  running := h.running
  nested := h.nested
  apart hne ha := by
    rw [address _ (by simp), address _ (by simp)]
    exact h.apart hne (alive ha)

/-- An execution that is canceled. -/
theorem Frame.Local.cancel {f : Frame T} (h : f.Local s) :
    ({ f with canceled := true } : Frame T).Local s :=
  ⟨h.made, h.entering, h.running, h.fresh, fun _ => rfl, h.found, h.inserted, h.kept⟩

theorem Frame.Above.cancel {f g : Frame T} (h : f.Above s g) :
    ({ f with canceled := true } : Frame T).Above s g where
  running := h.running
  nested he := (h.nested he).imp_left fun hs => ⟨hs.1, rfl⟩
  apart hne ha := (h.apart hne ha).imp_left fun hs => ⟨hs.1, rfl⟩

theorem Frame.Above.cancel_below {f g : Frame T} (h : f.Above s g) :
    f.Above s { g with canceled := true } := ⟨h.running, h.nested, h.apart⟩

/-- What is in a list after one element was changed was in it, or is the changed one. -/
theorem mem_modify {f : Frame T → Frame T} {l : List (Frame T)} {i : Nat} {g : Frame T}
    (h : g ∈ l.modify i f) : ∃ g' ∈ l, g = g' ∨ g = f g' := by
  induction l generalizing i with
  | nil => cases i <;> cases h
  | cons a l ih =>
    cases i with
    | zero =>
      rcases List.mem_cons.mp h with rfl | h
      · exact ⟨a, List.mem_cons_self, .inr rfl⟩
      · exact ⟨g, List.mem_cons_of_mem _ h, .inl rfl⟩
    | succ i =>
      rcases List.mem_cons.mp h with rfl | h
      · exact ⟨g, List.mem_cons_self, .inl rfl⟩
      · obtain ⟨g', hg, he⟩ := ih h
        exact ⟨g', List.mem_cons_of_mem _ hg, he⟩

theorem pairwise_modify {R : Frame T → Frame T → Prop} {f : Frame T → Frame T}
    (left : ∀ a b, R a b → R (f a) b) (right : ∀ a b, R a b → R a (f b)) {l : List (Frame T)}
    (h : l.Pairwise R) (i : Nat) : (l.modify i f).Pairwise R := by
  induction l generalizing i with
  | nil => cases i <;> exact .nil
  | cons a l ih =>
    obtain ⟨ha, hl⟩ := List.pairwise_cons.mp h
    cases i with
    | zero => exact List.pairwise_cons.mpr ⟨fun b hb => left a b (ha b hb), hl⟩
    | succ i =>
      apply List.pairwise_cons.mpr
      refine ⟨fun b hb => ?_, ih hl i⟩
      obtain ⟨b', hb', rfl | rfl⟩ := mem_modify hb
      · exact ha b hb'
      · exact right a b' (ha b' hb')

/-- A cancellation changes no entry. -/
theorem stacked_cancel (h : Stacked s) (i : Nat) :
    Stacked { s with frames := s.frames.modify i fun f => { f with canceled := true } } where
  apart := h.apart
  nodes := h.nodes
  frames f hf := by
    obtain ⟨g, hg, rfl | rfl⟩ := mem_modify hf
    · exact (h.frames f hg).congr (Nat.le_refl _) rfl fun _ => rfl
    · exact (h.frames g hg).cancel.congr (Nat.le_refl _) rfl fun _ => rfl
  pairs := by
    apply pairwise_modify
    · exact fun _ _ => Frame.Above.cancel
    · exact fun _ _ => Frame.Above.cancel_below
    · exact h.pairs.imp fun ha => ha.congr id fun _ _ => rfl

/-- Where the thread runs code, all executions on its stack are running. -/
theorem Stacked.running (h : Stacked s) (hr : s.runs) : ∀ f ∈ s.frames, f.phase = .running := by
  have hpairs := h.pairs
  unfold State.runs at hr
  cases hf : s.frames with
  | nil => nofun
  | cons g rest =>
    rw [hf] at hr hpairs
    intro f hmem
    rcases List.mem_cons.mp hmem with rfl | hmem
    · exact hr f rfl
    · exact ((List.pairwise_cons.mp hpairs).1 f hmem).running

section Connections

variable {c : Nat}

theorem connect_connections {a : Nat} (hc : c < s.made) :
    (s.connect a).connections c = s.connections c := Function.update_of_ne (Nat.ne_of_lt hc) _ _

theorem connect_alive {a : Nat} (hc : c < s.made) : (s.connect a).alive c = s.alive c :=
  congrArg Connection.alive (connect_connections hc)

theorem connect_address {a : Nat} (hc : c < s.made) : (s.connect a).address c = s.address c :=
  congrArg Connection.address (connect_connections hc)

theorem connect_made (a : Nat) : (s.connect a).address s.made = a := by
  change (Function.update s.connections s.made ⟨a, true⟩ s.made).address = a
  rw [Function.update_self]

/-- A new connection has an address of its own. -/
theorem stacked_connect (h : Stacked s) {a : Nat}
    (ha : ∀ c < s.made, s.alive c = true → s.address c ≠ a) : Stacked (s.connect a) where
  apart c hc d hd hac had hne := by
    have hsplit : ∀ {k}, k < s.made + 1 → k < s.made ∨ k = s.made := fun hk => by omega
    rcases hsplit hc with hc | rfl
    · rw [connect_alive hc] at hac
      rw [connect_address hc]
      rcases hsplit hd with hd | rfl
      · rw [connect_alive hd] at had
        rw [connect_address hd]
        exact h.apart c hc d hd hac had hne
      · rw [connect_made]
        exact ha c hc hac
    · rcases hsplit hd with hd | rfl
      · rw [connect_alive hd] at had
        rw [connect_address hd, connect_made]
        exact (ha d hd had).symm
      · exact absurd rfl hne
  nodes k e he := by
    obtain ⟨hm, hl, haddr⟩ := h.nodes k e he
    refine ⟨Nat.lt_succ_of_lt hm, ?_, ?_⟩
    · rw [connect_alive hm]
      exact hl
    · rw [connect_address hm]
      exact haddr
  frames f hf := by
    have hm := (h.frames f hf).made
    apply (h.frames f hf).congr (Nat.le_succ _) (connect_alive hm)
    intro _
    exact entry_congr (connect_address hm) rfl
  pairs := by
    apply h.pairs.imp_of_mem
    intro f g hf hg hfg
    have hmf := (h.frames f hf).made
    have hmg := (h.frames g hg).made
    apply hfg.congr
    · rw [connect_alive hmg]
      exact id
    · intro k hk
      rcases List.mem_pair.mp hk with rfl | rfl
      · exact connect_address hmf
      · exact connect_address hmg

theorem disconnect_alive (d : Nat) :
    (s.disconnect c).alive d = if d = c then false else s.alive d := by
  unfold State.alive State.disconnect
  simp only [Function.update_apply, apply_ite Connection.alive]

theorem disconnect_address : (s.disconnect c).address = s.address := by
  funext d
  unfold State.address State.disconnect
  simp only [Function.update_apply, State.address, apply_ite Connection.address]
  split
  · next he => rw [he]
  · rfl

/-- The entries of the other connections stay. -/
theorem disconnect_entry {d : Nat} (hne : d ≠ c) : (s.disconnect c).entry d = s.entry d := by
  cases he : s.entry c with
  | none =>
    apply entry_congr
    · rw [disconnect_address]
    · unfold State.disconnect
      rw [he]
      rfl
  | some e =>
    obtain ⟨hnode, rfl⟩ := entry_eq_some.mp he
    rw [entry_extract s _ disconnect_address (by unfold State.disconnect; rw [he]; rfl)]
    split
    · next haddr =>
      cases hd : s.entry d with
      | none => rfl
      | some e' =>
        obtain ⟨hnode', rfl⟩ := entry_eq_some.mp hd
        rw [haddr, hnode] at hnode'
        cases hnode'
        exact absurd rfl hne
    · rfl

/-- A lost connection takes its entry with it. -/
theorem stacked_disconnect (h : Stacked s) : Stacked (s.disconnect c) := by
  have halive : ∀ {d}, (s.disconnect c).alive d = true → d ≠ c ∧ s.alive d = true := by
    intro d hd
    rw [disconnect_alive] at hd
    split at hd
    · cases hd
    · next hne => exact ⟨hne, hd⟩
  have hlocal : ∀ f ∈ s.frames,
      (if f.connection = c then { f with canceled := true } else f : Frame T).Local
        (s.disconnect c) := by
    intro f hf
    have hl := h.frames f hf
    split
    · next he =>
      refine ⟨hl.made, hl.entering, hl.running, hl.fresh, fun _ => rfl, fun _ ha => ?_,
        hl.inserted, fun _ ha => ?_⟩
      all_goals exact absurd he (halive ha).1
    · next hne =>
      apply hl.congr (t := s.disconnect c) (Nat.le_refl _)
      · rw [disconnect_alive, if_neg hne]
      · exact fun _ => disconnect_entry hne
  refine ⟨fun d hd e he had hae hne => ?_, fun a e he => ?_, fun f hf => ?_, ?_⟩
  · rw [disconnect_address]
    exact h.apart d hd e he (halive had).2 (halive hae).2 hne
  · rw [disconnect_address, disconnect_alive]
    change (if (s.entry c).isSome then Function.update s.threads (s.address c) none
      else s.threads) a = some e at he
    have hold : s.threads a = some e ∧ e.connection ≠ c := by
      split at he
      · next hsome =>
        rw [Function.update_apply] at he
        split at he
        · cases he
        · next hne =>
          refine ⟨he, fun hc => hne ?_⟩
          rw [← (h.nodes a e he).2.2, hc]
      · next hnone =>
        refine ⟨he, fun hc => hnone ?_⟩
        have haddr := (h.nodes a e he).2.2
        rw [hc] at haddr
        rw [entry_eq_some.mpr ⟨haddr ▸ he, hc⟩]
        rfl
    rw [if_neg hold.2]
    exact h.nodes a e hold.1
  · obtain ⟨g, hg, rfl⟩ := List.mem_map.mp hf
    exact hlocal g hg
  · apply List.pairwise_map.mpr
    apply h.pairs.imp_of_mem
    intro f g _ _ hfg
    have habove : f.Above (s.disconnect c) g :=
      hfg.congr (fun ha => (halive ha).2) fun k _ => congrFun disconnect_address k
    split
    · split
      · exact habove.cancel.cancel_below
      · exact habove.cancel
    · split
      · exact habove.cancel_below
      · exact habove

end Connections

/-- An execution leaves the stack. -/
theorem stacked_pop (h : Stacked s) {f : Frame T} {rest : List (Frame T)}
    (hf : s.frames = f :: rest) : Stacked { s with frames := rest } where
  apart := h.apart
  nodes := h.nodes
  frames g hg := by
    have hmem : g ∈ s.frames := by
      rw [hf]
      exact List.mem_cons_of_mem _ hg
    exact (h.frames g hmem).congr (Nat.le_refl _) rfl fun _ => rfl
  pairs := by
    have hpairs := h.pairs
    rw [hf] at hpairs
    exact (List.pairwise_cons.mp hpairs).2.imp fun hfg => hfg.congr id fun _ _ => rfl

/-- An execution comes onto the stack. -/
theorem stacked_push (h : Stacked s) {f : Frame T} (local' : f.Local s)
    (above : ∀ g ∈ s.frames, f.Above s g) : Stacked { s with frames := f :: s.frames } where
  apart := h.apart
  nodes := h.nodes
  frames g hg := by
    rcases List.mem_cons.mp hg with rfl | hg
    · exact local'.congr (Nat.le_refl _) rfl fun _ => rfl
    · exact (h.frames g hg).congr (Nat.le_refl _) rfl fun _ => rfl
  pairs := by
    apply List.pairwise_cons.mpr
    constructor
    · exact fun g hg => (above g hg).congr id fun _ _ => rfl
    · exact h.pairs.imp fun hfg => hfg.congr id fun _ _ => rfl

/-- A request that is executed is on top of the stack. -/
theorem stacked_execute (h : Stacked s) {c : Nat} {callback : T} {canceled : Bool} (hr : s.runs)
    (hc : c < s.made) (ha : s.alive c = true ∨ canceled = true) :
    Stacked (s.execute c callback canceled) := by
  apply stacked_push h
  · refine ⟨hc, fun _ => rfl, nofun, fun _ => rfl, fun hg => ?_, fun _ _ => rfl, nofun, nofun⟩
    exact ha.resolve_left (by rw [show s.alive c = false from hg]; nofun)
  · intro g hg
    have hl := h.frames g hg
    have hrun := h.running hr g hg
    refine ⟨hrun, fun he => ?_, fun hne hag => ?_⟩
    · change c = g.connection at he
      refine ha.symm.imp (fun hcanceled => ⟨rfl, hcanceled⟩) fun halive => ?_
      -- the execution below has kept its entry
      change (s.entry c).isSome = true
      rw [he, hl.kept (hl.running hrun) (he ▸ halive)]
      rfl
    · exact ha.symm.imp (fun hcanceled => ⟨rfl, hcanceled⟩)
        fun halive => h.apart c hc _ hl.made halive hag hne

/-- A change of the innermost execution that keeps what those below rely on. -/
theorem stacked_top (h : Stacked s) {f f' : Frame T} {rest : List (Frame T)}
    (hf : s.frames = f :: rest) (local' : f'.Local s)
    (above : ∀ g ∈ rest, f.Above s g → f'.Above s g) :
    Stacked { s with frames := f' :: rest } := by
  have hpairs := h.pairs
  rw [hf] at hpairs
  have htop := (List.pairwise_cons.mp hpairs).1
  apply stacked_push (stacked_pop h hf)
  · exact local'.congr (Nat.le_refl _) rfl fun _ => rfl
  · exact fun g hg => (above g hg (htop g hg)).congr id fun _ _ => rfl

theorem head_phase {phase : Phase} (h : s.frames.head?.map Frame.phase = some phase) :
    ∃ f rest, s.frames = f :: rest ∧ f.phase = phase := by
  obtain ⟨f, hf, hp⟩ := Option.map_eq_some_iff.mp h
  obtain ⟨rest, hrest⟩ := List.head?_eq_some_iff.mp hf
  exact ⟨f, rest, hrest, hp⟩

/-- The execution on top comes to its end. -/
theorem stacked_leaving (h : Stacked s) {f : Frame T} {rest : List (Frame T)}
    (hf : s.frames = f :: rest) :
    Stacked { s with frames := { f with phase := .leaving } :: rest } := by
  have hl := (h.top hf).1
  apply stacked_top h hf
  · exact ⟨hl.made, nofun, nofun, hl.fresh, hl.gone, hl.found, hl.inserted, hl.kept⟩
  · exact fun g _ ha => ⟨ha.running, ha.nested, ha.apart⟩

/-- The end of the method keeps the frames stacked. -/
theorem stacked_finish (h : Stacked s) (hp : s.frames.head?.map Frame.phase = some .running) :
    Stacked (s.updateTop fun f => { f with phase := .leaving }) := by
  obtain ⟨f, rest, hf, -⟩ := head_phase hp
  unfold State.updateTop
  rw [hf]
  exact stacked_leaving h hf

/-- A new node for a connection that has none, while no execution has one for it. -/
theorem stacked_insert (h : Stacked s) {c : Nat} (hc : c < s.made) (ha : s.alive c = true)
    (hnone : s.threads (s.address c) = none) (client : T)
    (hframes : ∀ f ∈ s.frames, f.connection ≠ c) :
    Stacked { s with threads := Function.update s.threads (s.address c) (some ⟨c, client⟩) } where
  apart := h.apart
  nodes a e he := by
    change Function.update s.threads (s.address c) (some ⟨c, client⟩) a = some e at he
    rw [Function.update_apply] at he
    split at he
    · next heq =>
      cases he
      exact ⟨hc, ha, heq.symm⟩
    · exact h.nodes a e he
  frames f hf := by
    refine (h.frames f hf).congr (Nat.le_refl _) rfl fun _ => ?_
    exact (entry_insert s _ hnone client (by rfl) (by rfl) _).trans (if_neg (hframes f hf))
  pairs := h.pairs.imp fun hfg => hfg.congr id fun _ _ => rfl

/-- A call makes an entry if there is none. -/
theorem stacked_call (h : Stacked s) {c : Nat} {thread : T} (hr : s.runs) (hc : c < s.made)
    (ha : s.alive c = true) : Stacked (s.call c thread) := by
  unfold State.call
  cases hnode : s.threads (s.address c) with
  | some e =>
    rw [setThread_some hnode]
    exact h
  | none =>
    rw [setThread_none hnode]
    apply stacked_insert h hc ha hnode
    rintro f hf rfl
    have hl := h.frames f hf
    have hkept := hl.kept (hl.running (h.running hr f hf)) ha
    rw [entry_eq_none hnode] at hkept
    cases hkept

/-- The three things the first `sync` can come to. -/
theorem enter_cases (h : Stacked s) {f : Frame T} {rest : List (Frame T)}
    (hf : s.frames = f :: rest) (hp : f.phase = .entering) :
    f.canceled = true ∧ s.enter = { s with frames := { f with phase := .leaving } :: rest } ∨
    f.canceled = false ∧ s.alive f.connection = true ∧
      (f.found.isSome = true ∧ s.enter = { s with frames :=
          { f with phase := .running, registered := true, inserted := false } :: rest } ∨
        f.found = none ∧ s.threads (s.address f.connection) = none ∧ s.enter = { s with
          threads := Function.update s.threads (s.address f.connection)
            (some ⟨f.connection, f.callback⟩)
          frames := { f with phase := .running, registered := true, inserted := true } :: rest }) := by
  have hl := (h.top hf).1
  cases hcanceled : f.canceled with
  | true =>
    left
    simp only [State.enter, hf, hcanceled, if_true, and_self]
  | false =>
    have halive : s.alive f.connection = true := by
      cases hal : s.alive f.connection with
      | true => rfl
      | false => cases hcanceled.symm.trans (hl.gone hal)
    have hfound := hl.found (hl.entering hp) halive
    rw [← h.threads_eq hl.made halive] at hfound
    refine .inr ⟨rfl, halive, ?_⟩
    cases hfo : f.found with
    | some e =>
      rw [hfo] at hfound
      left
      simp only [State.enter, hf, hcanceled, setThread_some hfound, Bool.false_eq_true, if_false,
        Option.isSome_some, hfo, and_self]
    | none =>
      rw [hfo] at hfound
      right
      simp only [State.enter, hf, hcanceled, setThread_none hfound, Bool.false_eq_true, if_false,
        hfound, hfo, and_self]

/-- A request that enters makes one, if there is none and it was not canceled. -/
theorem stacked_enter (h : Stacked s) (hp : s.frames.head?.map Frame.phase = some .entering) :
    Stacked s.enter := by
  obtain ⟨f, rest, hf, hphase⟩ := head_phase hp
  obtain ⟨hl, htop⟩ := h.top hf
  rcases enter_cases h hf hphase with ⟨-, he⟩ | ⟨hcanceled, halive, ⟨hsome, he⟩ | ⟨hnone, hnode, he⟩⟩
  · rw [he]
    exact stacked_leaving h hf
  all_goals
    have hskips : ∀ {p : Prop}, f.skips ∨ p → p := fun ho => ho.resolve_left fun hs => by
      cases hcanceled.symm.trans hs.2
    have hentry := hl.found (hl.entering hphase) halive
    rw [he]
  · apply stacked_top h hf
    · obtain ⟨e, hfo⟩ := Option.isSome_iff_exists.mp hsome
      refine ⟨hl.made, nofun, fun _ => rfl, nofun, hl.gone, nofun, fun _ => ?_, fun _ _ => ?_⟩
      · simp only [hfo, Bool.false_eq_true, reduceCtorEq]
      · rw [hentry]
        simp only [Frame.kept, hfo, Option.getD_some]
    · exact fun g _ ha => ⟨ha.running, fun hc => .inr (hskips (ha.nested hc)),
        fun hne hag => .inr (hskips (ha.apart hne hag))⟩
  · -- no execution below has the connection: it would have found its entry
    have hother : ∀ g ∈ rest, g.connection ≠ f.connection := by
      intro g hg hc
      have := hskips ((htop g hg).nested hc.symm)
      rw [hnone] at this
      cases this
    have hinsert := stacked_insert (stacked_pop h hf) hl.made halive hnode f.callback hother
    apply stacked_push hinsert
    · refine ⟨hl.made, nofun, fun _ => rfl, nofun, hl.gone, nofun, fun _ => ?_, fun _ _ => ?_⟩
      · simp only [hnone]
      · refine (entry_insert s _ hnode f.callback (by rfl) (by rfl) _).trans ((if_pos rfl).trans ?_)
        simp only [Frame.kept, hnone, Option.getD_none]
    · intro g hg
      have ha := htop g hg
      exact ⟨ha.running, fun hc => absurd hc.symm (hother g hg),
        fun hne hag => .inr (hskips (ha.apart hne hag))⟩

theorem leave_cons {f : Frame T} {rest : List (Frame T)} (hf : s.frames = f :: rest) :
    s.leave = { s with
      threads := if f.inserted then Function.update s.threads (s.address f.connection) none
        else s.threads
      frames := rest } := by
  unfold State.leave
  rw [hf]

/-- A request that leaves takes out the entry it made. -/
theorem stacked_leave (h : Stacked s) (hp : s.frames.head?.map Frame.phase = some .leaving) :
    Stacked s.leave := by
  obtain ⟨f, rest, hf, -⟩ := head_phase hp
  obtain ⟨hl, htop⟩ := h.top hf
  have hpop := stacked_pop h hf
  rw [leave_cons hf]
  cases hi : f.inserted with
  | false => exact hpop
  | true =>
    have hr : f.registered = true := by
      cases hr : f.registered with
      | true => rfl
      | false => cases hi.symm.trans (hl.fresh hr)
    have hskips : ¬ f.skips := fun hs => by cases hr.symm.trans hs.1
    refine ⟨h.apart, fun a e he => ?_, fun g hg => ?_, hpop.pairs.imp fun hfg => ?_⟩
    · change Function.update s.threads (s.address f.connection) none a = some e at he
      rw [Function.update_apply] at he
      split at he
      · cases he
      · exact h.nodes a e he
    · refine (hpop.frames g hg).congr (Nat.le_refl _) rfl fun ha => ?_
      -- the node an execution below relies on is under another address
      have haddr : s.address g.connection ≠ s.address f.connection := by
        by_cases hc : f.connection = g.connection
        · have hsome := ((htop g hg).nested hc).resolve_left hskips
          rw [(hl.inserted hr).mp hi] at hsome
          cases hsome
        · exact (((htop g hg).apart hc ha).resolve_left hskips).symm
      exact (entry_extract s _ (by rfl) (by rfl) _).trans (if_neg haddr)
    · exact hfg.congr id fun _ _ => rfl

/-- Every step keeps the stack. -/
theorem stacked_next (s : State T) (a : Action T) (h : Stacked s)
    (ha : (requestThreads T).enabled s a) : Stacked ((requestThreads T).next s a) := by
  cases a with
  | connect a => exact stacked_connect h ha
  | disconnect c => exact stacked_disconnect h
  | execute c callback canceled => exact stacked_execute h ha.1 ha.2.1 ha.2.2
  | cancel i => exact stacked_cancel h i
  | enter => exact stacked_enter h ha
  | call c thread => exact stacked_call h ha.1 ha.2.1 ha.2.2
  | finish exit => exact stacked_finish h ha
  | leave => exact stacked_leave h ha

/-! ## Which steps restore the map -/

/-- The first `sync` leaves the entries of other connections alone. -/
theorem restores_enter (h : Stacked s) (hp : s.frames.head?.map Frame.phase = some .entering) :
    Restores s .enter := by
  obtain ⟨f, rest, hf, hphase⟩ := head_phase hp
  intro f' hf' d hd
  obtain rfl : f = f' := by simpa only [hf, List.head?_cons, Option.mem_some_iff] using hf'
  rcases enter_cases h hf hphase with ⟨-, he⟩ | ⟨-, -, ⟨-, he⟩ | ⟨-, hnode, he⟩⟩
  · rw [he]
    exact entry_congr rfl rfl
  · rw [he]
    exact entry_congr rfl rfl
  · rw [he]
    exact (entry_insert s _ hnode f.callback (by rfl) (by rfl) d).trans (if_neg hd)

/-- At the end of an execution its own entry is as it was. -/
theorem leave_entry (h : Stacked s) {f : Frame T} {rest : List (Frame T)}
    (hf : s.frames = f :: rest) :
    s.leave.entry f.connection = if s.alive f.connection then f.found else none := by
  have hl := (h.top hf).1
  cases hi : f.inserted with
  | true =>
    have hr : f.registered = true := by
      cases hr : f.registered with
      | true => rfl
      | false => cases hi.symm.trans (hl.fresh hr)
    rw [leave_cons hf, (hl.inserted hr).mp hi, ite_self, hi]
    exact (entry_extract s _ (by rfl) (by rfl) _).trans (if_pos rfl)
  | false =>
    have hsame : s.leave.entry f.connection = s.entry f.connection := by
      rw [leave_cons hf, hi]
      rfl
    rw [hsame]
    cases ha : s.alive f.connection with
    | false => exact h.entry_gone ha
    | true =>
      cases hr : f.registered with
      | false => exact hl.found hr ha
      | true =>
        rw [hl.kept hr ha]
        cases hfo : f.found with
        | some e => simp only [Frame.kept, hfo, Option.getD_some, if_true]
        | none => cases hi.symm.trans ((hl.inserted hr).mpr hfo)

/-- The end of an execution leaves the entries of other connections alone exactly when the node it
extracts is its own. -/
theorem restores_leave_iff (h : Stacked s) (hp : s.frames.head?.map Frame.phase = some .leaving) :
    Restores s .leave ↔ Owns s .leave := by
  obtain ⟨f, rest, hf, -⟩ := head_phase hp
  have hhead : ∀ {p : Frame T → Prop}, (∀ g ∈ s.frames.head?, p g) ↔ p f := by
    intro p
    simp only [hf, List.head?_cons, Option.mem_some_iff, forall_eq']
  have hrestores : Restores s .leave ↔ (∀ d, d ≠ f.connection → s.leave.entry d = s.entry d) ∧
      s.leave.entry f.connection = if s.alive f.connection then f.found else none := hhead
  have howns : Owns s .leave ↔ (f.inserted = true →
      ∀ e ∈ s.threads (s.address f.connection), e.connection = f.connection) := hhead
  rw [hrestores, howns]
  cases hi : f.inserted with
  | false =>
    refine iff_of_true ⟨fun d _ => ?_, leave_entry h hf⟩ nofun
    rw [leave_cons hf, hi]
    rfl
  | true =>
    have hentry : ∀ d, s.leave.entry d =
        if s.address d = s.address f.connection then none else s.entry d := by
      intro d
      rw [leave_cons hf, hi]
      exact entry_extract s _ (by rfl) (by rfl) d
    constructor
    · rintro ⟨hothers, -⟩ - e he
      by_contra hne
      have haddr := (h.nodes _ e he).2.2
      have hkept := hothers e.connection hne
      rw [hentry, if_pos haddr] at hkept
      cases hkept.trans (entry_eq_some.mpr ⟨haddr ▸ he, rfl⟩)
    · intro hown
      refine ⟨fun d hd => ?_, leave_entry h hf⟩
      rw [hentry]
      split
      · next haddr =>
        symm
        cases he : s.entry d with
        | none => rfl
        | some e =>
          obtain ⟨hnode, rfl⟩ := entry_eq_some.mp he
          exact absurd (hown rfl e (haddr ▸ hnode)) hd
      · rfl

/-- One step restores the entry exactly if it takes out its own. -/
theorem restores_iff (s : State T) (a : Action T) (h : Stacked s)
    (ha : (requestThreads T).enabled s a) : Restores s a ↔ Owns s a := by
  cases a with
  | leave => exact restores_leave_iff h ha
  | enter => exact iff_of_true (restores_enter h ha) trivial
  | connect a | disconnect c | execute c callback canceled | cancel i | call c thread
  | finish exit => exact Iff.rfl

/-- In every run, every execution restores the map, and while it runs has the one entry it started
with, exactly if no execution that inserted an entry ends while another connection's entry is under
the address of its own, destroyed connection. -/
theorem restores_iff_owns (as : List (Action T)) (t : State T)
    (path : (requestThreads T).Path (started T) as t) :
    (requestThreads T).Meets Restores (started T) as ∧ Holds t ↔
      (requestThreads T).Meets Owns (started T) as := by
  rw [path.meets_congr stacked_next restores_iff stacked_started]
  exact and_iff_left (path.keeps stacked_next stacked_started).holds

/-- An execution whose method makes a call over another connection, and one nested in it for the
same connection, which is canceled while it runs. -/
theorem restores_nested_executions :
    ∃ t, (requestThreads Nat).Path (started Nat)
        [.connect 16, .connect 32, .execute 0 5 false, .enter, .call 1 7, .execute 0 5 false,
          .enter, .cancel 0, .finish .interrupted, .leave, .finish .returned, .leave] t ∧
      (requestThreads Nat).Meets Restores (started Nat)
        [.connect 16, .connect 32, .execute 0 5 false, .enter, .call 1 7, .execute 0 5 false,
          .enter, .cancel 0, .finish .interrupted, .leave, .finish .returned, .leave] ∧
      Holds t := by
  obtain ⟨t, hrun⟩ := Option.isSome_iff_exists.mp (show
    ((requestThreads Nat).run (started Nat)
        [.connect 16, .connect 32, .execute 0 5 false, .enter, .call 1 7, .execute 0 5 false,
          .enter, .cancel 0, .finish .interrupted, .leave, .finish .returned, .leave]).isSome = true
      by decide)
  have path := System.run_eq_some_iff.mp hrun
  exact ⟨t, path, (restores_iff_owns _ t path).mpr (by decide)⟩

/-- A connection is destroyed during an execution, the next connection gets its address, and the
method makes a call over it: the end of the execution removes the entry of that connection. -/
theorem extracts_entry_of_other_connection :
    ∃ s, (requestThreads Nat).Path (started Nat)
        [.connect 16, .execute 0 5 false, .enter, .disconnect 0, .connect 16, .call 1 7,
          .finish .returned] s ∧
      (requestThreads Nat).enabled s .leave ∧ s.entry 1 = some ⟨1, 7⟩ ∧ s.leave.entry 1 = none ∧
      ¬ Restores s .leave := by
  obtain ⟨s, hrun, hs⟩ := Option.map_eq_some_iff.mp (show
    ((requestThreads Nat).run (started Nat)
        [.connect 16, .execute 0 5 false, .enter, .disconnect 0, .connect 16, .call 1 7,
          .finish .returned]).map (fun s =>
      decide ((requestThreads Nat).enabled s .leave ∧ s.entry 1 = some ⟨1, 7⟩ ∧
        s.leave.entry 1 = none ∧ s.frames.head?.map Frame.connection = some 0)) = some true
      by decide)
  obtain ⟨ha, hbefore, hafter, hhead⟩ := of_decide_eq_true hs
  refine ⟨s, System.run_eq_some_iff.mp hrun, ha, hbefore, hafter, fun hrestores => ?_⟩
  obtain ⟨f, hf, hc⟩ := Option.map_eq_some_iff.mp hhead
  have hkept := (hrestores f hf).1 1 (by rw [hc]; decide)
  rw [hbefore, hafter] at hkept
  cases hkept

end Multiprocess.Context
