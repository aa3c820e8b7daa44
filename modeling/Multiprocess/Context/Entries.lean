import Multiprocess.Lib.System
import Mathlib.Logic.Function.Basic

/-!
# How the entries of `ConnThreads` end

The nodes of the `request_threads` and `callback_threads` maps of all threads, for the connections
of one event loop. Three things take a node out of its map on the event loop thread: the callback
that `SetThread` has registered, when `~Connection` runs it, the deferred block of `PassField`, and
`~ProxyServer<Thread>`. The fourth is the end of a thread, whose `ThreadContext` destroys its maps
on the thread itself (`src/src/mp/proxy.cpp`, `src/include/mp/proxy-io.h`,
`src/include/mp/type-context.h`).

`Waiter::m_mutex` is not modelled. The three hold it for what they do to a map, but they do not
overlap anyway, and the destructor of the map does not take it.
-/

namespace Multiprocess.Context.Entries

open Transition (System)

inductive Threads where
  | request
  | callback
  deriving DecidableEq

/-- A node with its `ProxyClient<Thread>`. `destroyed` and `released` count how often the one has
been destroyed and the other freed. -/
structure Node where
  thread : Nat
  threads : Threads
  connection : Nat
  /-- `m_disconnect_cb` is set -/
  disconnect_cb : Bool
  /-- the callback is in `m_sync_cleanup_fns` -/
  listed : Bool
  /-- the map has the node -/
  linked : Bool
  /-- the thread waits for its unregistration to run -/
  posted : Bool
  destroyed : Nat
  released : Nat

/-- The `ThreadContext` of a thread. Its maps are destroyed one after the other; `todo` are the nodes
a destructor has still to go through, of those the map had when it started, and `started` says that
it is at the first. -/
inductive Life where
  | running
  | destroying (threads : Threads) (todo : List Nat) (started : Bool)
  | ended
  deriving DecidableEq

/-- The node a destructor is at. -/
def Life.current : Life → Option Nat
  | destroying _ (n :: _) _ => some n
  | destroying _ [] _ | running | ended => none

def Life.started : Life → Bool
  | destroying _ _ started => started
  | running | ended => false

/-- The destructor of the map is at work. -/
def Life.destroys (life : Life) (threads : Threads) : Bool :=
  match life with
  | destroying threads' _ _ => threads' = threads
  | running | ended => false

/-- And it has done its work. -/
def Life.past (life : Life) (threads : Threads) : Bool :=
  match life with
  | running => false
  | destroying threads' _ _ => threads' = .callback && threads = .request
  | ended => true

/-- The event loop thread: it is in the loop, in `~Connection` between callbacks, or in the callback
of a node, before it erases that. -/
inductive Loop where
  | idle
  | draining (c : Nat)
  | erasing (n : Nat)
  deriving DecidableEq

/-- The node whose callback has started. -/
def Loop.erases : Loop → Option Nat
  | erasing n => some n
  | idle | draining _ => none

/-- `worker` are the threads that `makeThread` created, and `cleared` those whose
`ProxyServer<Thread>` is gone. `misused` says that a callback or an unregistration has accessed an
entry after it was destroyed. -/
structure State where
  nodes : Nat → Node
  made : Nat
  worker : Nat → Bool
  cleared : Nat → Bool
  life : Nat → Life
  connected : Nat → Bool
  loop : Loop
  misused : Bool

inductive Action where
  | insert (t : Nat) (threads : Threads) (c : Nat)
  | extract (n : Nat)
  | clear (t : Nat)
  | disconnect (c : Nat)
  | reset (n : Nat)
  | erase
  | drained
  | exit (t : Nat) (order : List Nat)
  | start (t : Nat)
  | unregister (n : Nat)
  | finish (t : Nat)
  | next (t : Nat) (order : List Nat)
  | done (t : Nat)

/-- The `ProxyClient<Thread>` is destroyed and the node freed. Both are counted each time a node of
the map is destroyed. A `std::optional` that disengages before it destroys its object, as libstdc++'s
does, has none left the second time: there the object is destroyed once, and the node freed twice. -/
def Node.end (node : Node) : Node :=
  { node with linked := false, destroyed := node.destroyed + 1, released := node.released + 1 }

/-- The same on the event loop thread, where the unregistration runs at once. -/
def Node.dispose (node : Node) : Node :=
  { node.end with listed := node.listed && !node.disconnect_cb }

/-- The callback resets `m_disconnect_cb`. -/
def Node.reset (node : Node) : Node :=
  { node with listed := false, disconnect_cb := false }

/-- `~ProxyClient<Thread>` tests `m_disconnect_cb`, and posts the unregistration. -/
def Node.post (node : Node) : Node :=
  { node with posted := node.disconnect_cb }

/-- The unregistration, which tests it again. -/
def Node.unregister (node : Node) : Node :=
  { node with posted := false, listed := node.listed && !node.disconnect_cb }

namespace State

def update (s : State) (n : Nat) (f : Node → Node) : State :=
  { s with nodes := Function.update s.nodes n (f (s.nodes n)) }

def inMap (s : State) (t : Nat) (threads : Threads) (n : Nat) : Bool :=
  (s.nodes n).linked && (s.nodes n).thread = t && (s.nodes n).threads = threads

/-- The nodes of a map. -/
def entries (s : State) (t : Nat) (threads : Threads) : List Nat :=
  (List.range s.made).filter (s.inMap t threads)

/-- An access to an entry. -/
def access (s : State) (n : Nat) : State :=
  { s with misused := s.misused || (s.nodes n).destroyed != 0 }

/-- `SetThread` for a connection with no entry. -/
def insert (s : State) (t : Nat) (threads : Threads) (c : Nat) : State :=
  { s with
    nodes := Function.update s.nodes s.made
      { thread := t, threads, connection := c, disconnect_cb := true, listed := true
        linked := true, posted := false, destroyed := 0, released := 0 }
    made := s.made + 1 }

/-- `~ProxyServer<Thread>`. -/
def clear (s : State) (t : Nat) : State :=
  { s with
    nodes := fun n =>
      if n < s.made ∧ (s.nodes n).linked = true ∧ (s.nodes n).thread = t then (s.nodes n).dispose
      else s.nodes n
    cleared := Function.update s.cleared t true }

/-- The callback of the node starts. -/
def reset (s : State) (n : Nat) : State :=
  { (s.access n).update n Node.reset with loop := .erasing n }

/-- And erases the node. -/
def erase (s : State) : State :=
  match s.loop with
  | .erasing n =>
    { (s.access n).update n Node.end with loop := .draining (s.nodes n).connection }
  | _ => s

/-- The thread starts to destroy the current entry. -/
def start (s : State) (t : Nat) : State :=
  match s.life t with
  | .destroying threads (n :: todo) _ =>
    { s.update n Node.post with
      life := Function.update s.life t (.destroying threads (n :: todo) true) }
  | _ => s

def unregister (s : State) (n : Nat) : State := (s.access n).update n Node.unregister

/-- The entry is destroyed, and the destructor of the map goes on. -/
def finish (s : State) (t : Nat) : State :=
  match s.life t with
  | .destroying threads (n :: todo) _ =>
    { s.update n Node.end with
      life := Function.update s.life t (.destroying threads todo false) }
  | _ => s

end State

/-- Where a step can happen. `SetThread` and the deferred block of `PassField` run while the thread
waits for them. -/
def enabled (s : State) : Action → Prop
  | .insert t threads c => s.loop = .idle ∧ s.life t = .running ∧ s.cleared t = false ∧
      s.connected c = true ∧ ∀ n ∈ s.entries t threads, (s.nodes n).connection ≠ c
  | .extract n => s.loop = .idle ∧ n ∈ s.entries (s.nodes n).thread .request ∧
      s.life (s.nodes n).thread = .running ∧ s.cleared (s.nodes n).thread = false
  | .clear t => s.loop.erases = none ∧ s.worker t = true ∧ s.life t = .running ∧
      s.cleared t = false
  | .disconnect c => s.loop = .idle ∧ s.connected c = true
  | .reset n => n < s.made ∧ (s.nodes n).listed = true ∧ s.loop = .draining (s.nodes n).connection
  | .erase => s.loop.erases.isSome = true
  | .drained => s.loop ≠ .idle ∧ s.loop.erases = none ∧
      ∀ n < s.made, (s.nodes n).listed = true → s.loop ≠ .draining (s.nodes n).connection
  | .exit t order => s.life t = .running ∧ (s.worker t = true → s.cleared t = true) ∧
      order.Perm (s.entries t .request)
  | .start t => (s.life t).current.isSome = true ∧ (s.life t).started = false
  | .unregister n => s.loop = .idle ∧ n < s.made ∧ (s.nodes n).posted = true
  | .finish t => (s.life t).current.isSome = true ∧ (s.life t).started = true ∧
      ∀ n ∈ (s.life t).current, (s.nodes n).posted = false
  | .next t order => s.life t = .destroying .request [] false ∧ order.Perm (s.entries t .callback)
  | .done t => s.life t = .destroying .callback [] false

def next (s : State) : Action → State
  | .insert t threads c => s.insert t threads c
  | .extract n => s.update n Node.dispose
  | .clear t => s.clear t
  | .disconnect c =>
    { s with connected := Function.update s.connected c false, loop := .draining c }
  | .reset n => s.reset n
  | .erase => s.erase
  | .drained => { s with loop := .idle }
  | .exit t order => { s with life := Function.update s.life t (.destroying .request order false) }
  | .start t => s.start t
  | .unregister n => s.unregister n
  | .finish t => s.finish t
  | .next t order => { s with life := Function.update s.life t (.destroying .callback order false) }
  | .done t => { s with life := Function.update s.life t .ended }

/-- Threads, some of them workers, before their first entries. -/
def started (worker : Nat → Bool) : State where
  nodes _ := ⟨0, .request, 0, false, false, false, false, 0, 0⟩
  made := 0
  worker := worker
  cleared _ := false
  life _ := .running
  connected _ := true
  loop := .idle
  misused := false

/-- All threads of a process, with the connections of its event loop. -/
def connThreads : System State Action where
  init s := ∃ worker, s = started worker
  enabled := enabled
  next := next

instance (s : State) : ∀ a : Action, Decidable (enabled s a)
  | .insert _ _ _ => inferInstanceAs (Decidable (_ ∧ _ ∧ _ ∧ _ ∧ ∀ n ∈ _, _ ≠ _))
  | .extract _ | .clear _ => inferInstanceAs (Decidable (_ ∧ _ ∧ _ ∧ _))
  | .disconnect _ => inferInstanceAs (Decidable (_ ∧ _))
  | .reset _ | .unregister _ => inferInstanceAs (Decidable (_ ∧ _ ∧ _))
  | .erase | .done _ => inferInstanceAs (Decidable (_ = _))
  | .exit _ _ => inferInstanceAs (Decidable (_ ∧ (_ → _) ∧ List.Perm _ _))
  | .next _ _ => inferInstanceAs (Decidable (_ ∧ List.Perm _ _))
  | .drained | .finish _ => inferInstanceAs (Decidable (_ ∧ _ ∧ ∀ _, _))
  | .start _ => inferInstanceAs (Decidable (_ ∧ _))

instance (s : State) (a : Action) : Decidable (connThreads.enabled s a) :=
  inferInstanceAs (Decidable (enabled s a))

/-! ## Entries ended once -/

/-- Every entry that has left its map was destroyed and freed once, and those in a map were not; a
thread that has ended has left none; and no entry was accessed after it was destroyed. -/
structure Once (s : State) : Prop where
  linked : ∀ n < s.made, (s.nodes n).linked = true →
    (s.nodes n).destroyed = 0 ∧ (s.nodes n).released = 0
  unlinked : ∀ n < s.made, (s.nodes n).linked = false →
    (s.nodes n).destroyed = 1 ∧ (s.nodes n).released = 1
  ended : ∀ n < s.made, s.life (s.nodes n).thread = .ended → (s.nodes n).linked = false
  used : s.misused = false

/-- The map of the node is being destroyed. -/
def State.dying (s : State) (n : Nat) : Bool :=
  (s.life (s.nodes n).thread).destroys (s.nodes n).threads

/-- No callback of a node runs while the destructor of its map does. -/
def Apart (s : State) : Action → Prop
  | .reset n => s.dying n = false
  | .exit t _ => ∀ n ∈ s.loop.erases, s.inMap t .request n = false
  | .next t _ => ∀ n ∈ s.loop.erases, s.inMap t .callback n = false
  | _ => True

instance (s : State) : ∀ a : Action, Decidable (Apart s a)
  | .reset _ => inferInstanceAs (Decidable (_ = _))
  | .exit t _ => inferInstanceAs (Decidable (∀ n ∈ s.loop.erases, s.inMap t .request n = false))
  | .next t _ => inferInstanceAs (Decidable (∀ n ∈ s.loop.erases, s.inMap t .callback n = false))
  | .insert _ _ _ | .extract _ | .clear _ | .disconnect _ | .erase | .drained | .start _
  | .unregister _ | .finish _ | .done _ => .isTrue trivial

/-- Nothing is under way. -/
structure Rests (s : State) : Prop where
  loop : s.loop = .idle
  life : ∀ t threads todo started, s.life t ≠ .destroying threads todo started

/-! ## Runs with the two apart -/

/-- What holds of a node with the thread's life and the loop. -/
structure Node.Ok (n : Nat) (node : Node) (life : Life) (loop : Loop) : Prop where
  linked : node.linked = true → node.destroyed = 0 ∧ node.released = 0
  unlinked : node.linked = false → node.destroyed = 1 ∧ node.released = 1
  listed : node.listed = true → node.linked = true ∧ node.disconnect_cb = true
  unlisted : node.linked = true → node.listed = false →
    loop.erases = some n ∨ life.current = some n ∧ life.started = true
  erasing : loop.erases = some n →
    node.linked = true ∧ node.listed = false ∧ life.destroys node.threads = false
  posted : node.posted = true →
    life.current = some n ∧ life.started = true ∧ node.disconnect_cb = true
  current : life.current = some n → life.started = true → node.listed = node.posted
  past : node.linked = true → life.past node.threads = false

structure Inv (s : State) : Prop where
  nodes : ∀ n < s.made, (s.nodes n).Ok n (s.life (s.nodes n).thread) s.loop
  todo : ∀ t threads todo started, s.life t = .destroying threads todo started →
    todo.Nodup ∧ ∀ n, n ∈ todo ↔ n < s.made ∧ s.inMap t threads n = true
  erasing : ∀ n, s.loop.erases = some n → n < s.made
  used : s.misused = false

theorem inv_started (worker : Nat → Bool) : Inv (started worker) where
  nodes n hn := absurd hn (Nat.not_lt_zero n)
  todo := nofun
  erasing := nofun
  used := rfl

/-- Under the invariant no node is freed or destroyed twice. -/
theorem Inv.once {s : State} (h : Inv s) : Once s where
  linked n hn := (h.nodes n hn).linked
  unlinked n hn := (h.nodes n hn).unlinked
  ended n hn he := by
    cases hl : (s.nodes n).linked with
    | false => rfl
    | true =>
      have hpast := (h.nodes n hn).past hl
      rw [he] at hpast
      cases hpast
  used := h.used

variable {s : State} {n m t : Nat} {node : Node} {life : Life} {loop : Loop}

theorem inMap_iff {threads : Threads} : s.inMap t threads n = true ↔
    (s.nodes n).linked = true ∧ (s.nodes n).thread = t ∧ (s.nodes n).threads = threads := by
  unfold State.inMap
  simp only [Bool.and_eq_true, decide_eq_true_eq, and_assoc]

theorem mem_entries {threads : Threads} :
    n ∈ s.entries t threads ↔ n < s.made ∧ s.inMap t threads n = true := by
  unfold State.entries
  rw [List.mem_filter, List.mem_range]

/-- The nodes a destructor of a map is to destroy are those in the map. -/
theorem todo_of_perm {threads : Threads} {order : List Nat}
    (h : order.Perm (s.entries t threads)) :
    order.Nodup ∧ ∀ n, n ∈ order ↔ n < s.made ∧ s.inMap t threads n = true := by
  constructor
  · exact h.nodup_iff.mpr (List.nodup_range.filter _)
  · exact fun n => h.mem_iff.trans mem_entries

theorem update_other (f : Node → Node) (h : m ≠ n) : (s.update n f).nodes m = s.nodes m :=
  Function.update_of_ne h _ _

theorem update_self (f : Node → Node) : (s.update n f).nodes n = f (s.nodes n) :=
  Function.update_self _ _ _

/-- A step at one node leaves where the nodes are. -/
theorem update_place {f : Node → Node}
    (place : (f (s.nodes n)).thread = (s.nodes n).thread ∧
      (f (s.nodes n)).threads = (s.nodes n).threads) :
    ∀ m, ((s.update n f).nodes m).thread = (s.nodes m).thread ∧
      ((s.update n f).nodes m).threads = (s.nodes m).threads :=
  (Function.forall_update_iff s.nodes fun m node =>
    node.thread = (s.nodes m).thread ∧ node.threads = (s.nodes m).threads).mpr
      ⟨place, fun _ _ => ⟨rfl, rfl⟩⟩

/-- What holds of every node and the life of its thread, after a step in the life of one. -/
theorem nodes_live {P : Nat → Node → Life → Prop}
    (h : ∀ n < s.made, P n (s.nodes n) (s.life (s.nodes n).thread))
    (node : ∀ n < s.made, (s.nodes n).thread = t → P n (s.nodes n) (s.life t) →
      P n (s.nodes n) life) :
    ∀ n < s.made, P n (s.nodes n) (Function.update s.life t life (s.nodes n).thread) := by
  intro n hn
  have hok := h n hn
  by_cases ht : (s.nodes n).thread = t
  · rw [ht, Function.update_self]
    rw [ht] at hok
    exact node n hn ht hok
  · rw [Function.update_of_ne ht]
    exact hok

/-- After one that is a step at the node `n` of the thread too. -/
theorem nodes_destructor {P : Nat → Node → Life → Prop} {f : Node → Node}
    (h : ∀ m < s.made, P m (s.nodes m) (s.life (s.nodes m).thread))
    (place : (f (s.nodes n)).thread = (s.nodes n).thread ∧
      (f (s.nodes n)).threads = (s.nodes n).threads)
    (ht : (s.nodes n).thread = t) (node : P n (s.nodes n) (s.life t) → P n (f (s.nodes n)) life)
    (others : ∀ m, m ≠ n → P m (s.nodes m) (s.life t) → P m (s.nodes m) life) :
    ∀ m < s.made, P m ((s.update n f).nodes m)
      (Function.update s.life t life ((s.update n f).nodes m).thread) := by
  intro m hm
  rw [(update_place place m).1]
  have hok := h m hm
  by_cases htm : (s.nodes m).thread = t
  · rw [htm, Function.update_self]
    rw [htm] at hok
    by_cases heq : m = n
    · subst heq
      rw [update_self]
      exact node hok
    · rw [update_other f heq]
      exact others m heq hok
  · have heq : m ≠ n := fun hc => htm (hc ▸ ht)
    rw [Function.update_of_ne htm, update_other f heq]
    exact hok

/-- What holds of the lists of all destructors, after a step in the life of one thread. -/
theorem todo_live {Q : Nat → Threads → List Nat → Prop}
    (new : ∀ threads todo started, life = .destroying threads todo started → Q t threads todo)
    (old : ∀ u threads todo started, u ≠ t → s.life u = .destroying threads todo started →
      Q u threads todo) :
    ∀ u threads todo started,
      Function.update s.life t life u = .destroying threads todo started → Q u threads todo := by
  intro u threads todo started hl
  by_cases hu : u = t
  · subst hu
    exact new threads todo started ((Function.update_self _ _ _).symm.trans hl)
  · exact old u threads todo started hu ((Function.update_of_ne hu _ _).symm.trans hl)

theorem inMap_end {threads : Threads} :
    (s.update n Node.end).inMap t threads m = true ↔ m ≠ n ∧ s.inMap t threads m = true := by
  rw [inMap_iff, inMap_iff]
  by_cases hm : m = n
  · subst hm
    rw [update_self]
    exact iff_of_false (fun hc => nomatch hc.1) fun hc => hc.1 rfl
  · rw [update_other _ hm]
    exact (and_iff_right hm).symm

/-- A node that is destroyed and freed, after its callback was taken off the list. -/
theorem Node.Ok.ended (h : node.Ok n life loop) (hl : node.linked = true) {node' : Node}
    (linked : node'.linked = false) (destroyed : node'.destroyed = node.destroyed + 1)
    (released : node'.released = node.released + 1) (listed : node'.listed = false)
    (posted : node'.posted = false) {life' : Life} {loop' : Loop} (hloop : loop'.erases ≠ some n) :
    node'.Ok n life' loop' := by
  obtain ⟨hd, hr⟩ := h.linked hl
  constructor
  · exact fun hl' => nomatch hl'.symm.trans linked
  · intro _
    rw [destroyed, released, hd, hr]
    exact ⟨rfl, rfl⟩
  · exact fun hl' => nomatch hl'.symm.trans listed
  · exact fun hl' => nomatch hl'.symm.trans linked
  · exact fun he => absurd he hloop
  · exact fun hp => nomatch hp.symm.trans posted
  · exact fun _ _ => listed.trans posted.symm
  · exact fun hl' => nomatch hl'.symm.trans linked

/-- A node whose thread goes on to a life where the node is not the current one, nor its map
destroyed unless it was. -/
theorem Node.Ok.life_congr (h : node.Ok n life loop) {life' : Life}
    (current : life.current ≠ some n ∨ life.started = false)
    (current' : life'.current ≠ some n ∨ life'.started = false)
    (destroys : loop.erases = some n → life'.destroys node.threads = false)
    (past : node.linked = true → life'.past node.threads = false) : node.Ok n life' loop := by
  constructor
  · exact h.linked
  · exact h.unlinked
  · exact h.listed
  · intro hl hlisted
    rcases h.unlisted hl hlisted with he | ⟨hc, hs⟩
    · exact .inl he
    · rcases current with hne | hne
      · exact absurd hc hne
      · cases hs.symm.trans hne
  · exact fun he => ⟨(h.erasing he).1, (h.erasing he).2.1, destroys he⟩
  · intro hp
    obtain ⟨hc, hs, -⟩ := h.posted hp
    rcases current with hne | hne
    · exact absurd hc hne
    · cases hs.symm.trans hne
  · intro hc hs
    rcases current' with hne | hne
    · exact absurd hc hne
    · cases hs.symm.trans hne
  · exact past

theorem Node.Ok.loop_congr (h : node.Ok n life loop) {loop' : Loop}
    (erases : loop'.erases = some n ↔ loop.erases = some n) : node.Ok n life loop' where
  linked := h.linked
  unlinked := h.unlinked
  listed := h.listed
  unlisted := by
    rw [erases]
    exact h.unlisted
  erasing := by
    rw [erases]
    exact h.erasing
  posted := h.posted
  current := h.current
  past := h.past

/-- What a destructor is at. -/
theorem life_of_current (hc : (s.life t).current = some n) :
    ∃ threads todo, s.life t = .destroying threads (n :: todo) (s.life t).started := by
  unfold Life.current at hc
  split at hc
  · next threads m todo started hl =>
    obtain rfl : m = n := Option.some.inj hc
    rw [hl]
    exact ⟨threads, todo, rfl⟩
  · cases hc
  · cases hc
  · cases hc

/-- The current node of a destructor is one of its map. -/
theorem Inv.current (h : Inv s) (hc : (s.life t).current = some n) :
    ∃ threads todo, s.life t = .destroying threads (n :: todo) (s.life t).started ∧
      n < s.made ∧ s.inMap t threads n = true := by
  obtain ⟨threads, todo, hlife⟩ := life_of_current hc
  exact ⟨threads, todo, hlife, ((h.todo t threads _ _ hlife).2 n).mp List.mem_cons_self⟩

theorem destroys_of_current {threads : Threads} {todo : List Nat} {started : Bool}
    (hl : s.life t = .destroying threads todo started) (hm : s.inMap t threads n = true) :
    s.dying n = true := by
  obtain ⟨-, ht, hthreads⟩ := inMap_iff.mp hm
  unfold State.dying
  rw [ht, hl, hthreads]
  exact decide_eq_true rfl

/-- The node of a running callback is on no destructor's list. -/
theorem Inv.not_todo (h : Inv s) (he : s.loop.erases = some n) {threads : Threads}
    {todo : List Nat} {started : Bool} (hl : s.life t = .destroying threads todo started) :
    n ∉ todo := by
  intro hmem
  have hm := ((h.todo t threads todo started hl).2 n).mp hmem
  have hdying := destroys_of_current hl hm.2
  cases hdying.symm.trans ((h.nodes n hm.1).erasing he).2.2

/-- A step at one node that leaves its place and the lives of threads. -/
theorem todo_update (h : Inv s) (f : Node → Node)
    (place : (f (s.nodes n)).thread = (s.nodes n).thread ∧
      (f (s.nodes n)).threads = (s.nodes n).threads)
    (linked : (f (s.nodes n)).linked = (s.nodes n).linked ∨ (f (s.nodes n)).linked = false ∧
      ∀ t threads todo started, s.life t = .destroying threads todo started → n ∉ todo) :
    ∀ t threads todo started, s.life t = .destroying threads todo started →
      todo.Nodup ∧ ∀ m, m ∈ todo ↔ m < s.made ∧ (s.update n f).inMap t threads m = true := by
  intro t threads todo started hl
  obtain ⟨hnodup, hmem⟩ := h.todo t threads todo started hl
  refine ⟨hnodup, fun m => ?_⟩
  by_cases hm : m = n
  · subst hm
    rcases linked with hsame | ⟨hgone, hnot⟩
    · rw [hmem, inMap_iff, inMap_iff, update_self, place.1, place.2, hsame]
    · rw [inMap_iff, update_self, hgone]
      exact iff_of_false (hnot t threads todo started hl) fun hc => nomatch hc.2.1
  · rw [hmem, inMap_iff, inMap_iff, update_other f hm]

/-- A step at one node and in the loop. -/
theorem Inv.update (h : Inv s) (f : Node → Node) {connected : Nat → Bool} {misused : Bool}
    (place : (f (s.nodes n)).thread = (s.nodes n).thread ∧
      (f (s.nodes n)).threads = (s.nodes n).threads)
    (linked : (f (s.nodes n)).linked = (s.nodes n).linked ∨ (f (s.nodes n)).linked = false ∧
      ∀ t threads todo started, s.life t = .destroying threads todo started → n ∉ todo)
    (node : n < s.made → (f (s.nodes n)).Ok n (s.life (s.nodes n).thread) loop)
    (others : ∀ m, m ≠ n → (loop.erases = some m ↔ s.loop.erases = some m))
    (erasing : loop.erases = some n → n < s.made) (used : misused = false) :
    Inv { s.update n f with connected, misused, loop } := by
  constructor
  · intro m hm
    change Node.Ok m ((s.update n f).nodes m) (s.life ((s.update n f).nodes m).thread) loop
    by_cases heq : m = n
    · subst heq
      rw [update_self, place.1]
      exact node hm
    · rw [update_other f heq]
      exact (h.nodes m hm).loop_congr (others m heq)
  · exact todo_update h f place linked
  · intro m hm
    by_cases heq : m = n
    · subst heq
      exact erasing hm
    · exact h.erasing m ((others m heq).mp hm)
  · exact used

/-- A step in the life of one thread. -/
theorem Inv.live (h : Inv s)
    (node : ∀ n < s.made, (s.nodes n).thread = t → (s.nodes n).Ok n (s.life t) s.loop →
      (s.nodes n).Ok n life s.loop)
    (todo : ∀ threads todo started, life = .destroying threads todo started →
      todo.Nodup ∧ ∀ n, n ∈ todo ↔ n < s.made ∧ s.inMap t threads n = true) :
    Inv { s with life := Function.update s.life t life } where
  nodes := nodes_live (P := fun n node life => node.Ok n life s.loop) h.nodes node
  todo := todo_live todo fun u threads todo started _ => h.todo u threads todo started
  erasing := h.erasing
  used := h.used

/-- An access to a node that is still in its map. -/
theorem Inv.access (h : Inv s) (hn : n < s.made) (hl : (s.nodes n).linked = true) :
    (s.access n).misused = false := by
  unfold State.access
  rw [h.used, ((h.nodes n hn).linked hl).1]
  rfl

theorem insert_new (s : State) (t : Nat) (threads : Threads) (c : Nat) :
    (s.insert t threads c).nodes s.made =
      { thread := t, threads, connection := c, disconnect_cb := true, listed := true
        linked := true, posted := false, destroyed := 0, released := 0 } :=
  Function.update_self _ _ _

/-- The nodes made before are as they were. -/
theorem insert_old {threads : Threads} {c : Nat} (hn : n ≠ s.made) :
    (s.insert t threads c).nodes n = s.nodes n :=
  Function.update_of_ne hn _ _

/-- An entry made by `SetThread` keeps the invariant. -/
theorem inv_insert (h : Inv s) {threads : Threads} {c : Nat}
    (ha : enabled s (.insert t threads c)) : Inv (s.insert t threads c) := by
  obtain ⟨hidle, hrunning, -, -, -⟩ := ha
  constructor
  · intro n hn
    rcases Nat.lt_succ_iff_lt_or_eq.mp hn with hn | rfl
    · rw [insert_old (Nat.ne_of_lt hn)]
      exact h.nodes n hn
    · rw [insert_new]
      change Node.Ok s.made _ (s.life t) s.loop
      rw [hidle, hrunning]
      exact ⟨fun _ => ⟨rfl, rfl⟩, nofun, fun _ => ⟨rfl, rfl⟩, nofun, nofun, nofun, nofun,
        fun _ => rfl⟩
  · intro u threads' todo started hl
    obtain ⟨hnodup, hmem⟩ := h.todo u threads' todo started hl
    refine ⟨hnodup, fun n => ?_⟩
    rw [hmem]
    by_cases hn : n = s.made
    · subst hn
      apply iff_of_false
      · exact fun hc => Nat.lt_irrefl _ hc.1
      · rintro ⟨-, hm⟩
        rw [inMap_iff, insert_new] at hm
        obtain ⟨-, rfl, -⟩ := hm
        cases hrunning.symm.trans hl
    · rw [inMap_iff, inMap_iff, insert_old hn]
      change _ ↔ n < s.made + 1 ∧ _
      constructor
      · exact fun hc => ⟨Nat.lt_succ_of_lt hc.1, hc.2⟩
      · exact fun hc => ⟨Nat.lt_of_le_of_ne (Nat.le_of_lt_succ hc.1) hn, hc.2⟩
  · intro n hn
    exact Nat.lt_succ_of_lt (h.erasing n hn)
  · exact h.used

/-- A listed callback has `m_disconnect_cb` set, and so comes off the list. -/
theorem Node.unlists (h : node.listed = true → node.linked = true ∧ node.disconnect_cb = true) :
    (node.listed && !node.disconnect_cb) = false := by
  cases hlisted : node.listed with
  | false => rfl
  | true => rw [(h hlisted).2, Bool.not_true, Bool.and_false]

/-- A node that the event loop thread takes out of the map of a running thread. -/
theorem Node.Ok.disposed (h : node.Ok n life loop) (hl : node.linked = true)
    (hrunning : life = .running) (hloop : loop.erases = none) : node.dispose.Ok n life loop := by
  apply h.ended hl rfl rfl rfl
  · exact node.unlists h.listed
  · cases hp : node.posted with
    | false => exact hp
    | true =>
      have hc := (h.posted hp).1
      rw [hrunning] at hc
      cases hc
  · rw [hloop]
    exact nofun

/-- An entry taken out by `PassField` keeps the invariant. -/
theorem inv_extract (h : Inv s) (ha : enabled s (.extract n)) : Inv (s.update n Node.dispose) := by
  obtain ⟨hidle, hmem, hrunning, -⟩ := ha
  obtain ⟨hn, hm⟩ := mem_entries.mp hmem
  refine h.update Node.dispose ⟨rfl, rfl⟩ (.inr ⟨rfl, ?_⟩) ?_ (fun _ _ => Iff.rfl) (h.erasing n)
    h.used
  · intro t threads todo started hlife hmem
    obtain ⟨-, hm⟩ := ((h.todo t threads todo started hlife).2 n).mp hmem
    obtain ⟨-, rfl, -⟩ := inMap_iff.mp hm
    cases hrunning.symm.trans hlife
  · intro _
    exact (h.nodes n hn).disposed (inMap_iff.mp hm).1 hrunning (by rw [hidle]; rfl)

/-- The maps cleared by `~ProxyServer<Thread>` keep the invariant. -/
theorem inv_clear (h : Inv s) (ha : enabled s (.clear t)) : Inv (s.clear t) := by
  obtain ⟨hloop, -, hrunning, -⟩ := ha
  have hnode : ∀ n < s.made, (s.clear t).nodes n = s.nodes n ∨
      (s.nodes n).linked = true ∧ (s.nodes n).thread = t ∧
        (s.clear t).nodes n = (s.nodes n).dispose := by
    intro n hn
    unfold State.clear
    simp only
    split
    · next hc => exact .inr ⟨hc.2.1, hc.2.2, rfl⟩
    · exact .inl rfl
  constructor
  · intro n hn
    change Node.Ok n _ (s.life _) s.loop
    rcases hnode n hn with heq | ⟨hl, ht, heq⟩
    · rw [heq]
      exact h.nodes n hn
    · rw [heq]
      exact (h.nodes n hn).disposed hl (by rw [ht]; exact hrunning) hloop
  · intro u threads todo started hlife
    obtain ⟨hnodup, hmem⟩ := h.todo u threads todo started hlife
    refine ⟨hnodup, fun n => ?_⟩
    rw [hmem]
    apply and_congr_right
    intro hn
    rcases hnode n hn with heq | ⟨-, ht, heq⟩
    · rw [inMap_iff, inMap_iff, heq]
    · rw [inMap_iff, inMap_iff, heq]
      have hne : t ≠ u := by
        rintro rfl
        cases hrunning.symm.trans hlife
      apply iff_of_false
      · exact fun hc => hne (ht.symm.trans hc.2.1)
      · exact fun hc => nomatch hc.1
  · exact h.erasing
  · exact h.used

/-- The loop goes on with no callback of a node, before or after. -/
theorem inv_loop (h : Inv s) (hloop : s.loop.erases = none) {loop : Loop}
    (hloop' : loop.erases = none) (connected : Nat → Bool) :
    Inv { s with connected, loop } where
  nodes n hn := (h.nodes n hn).loop_congr (by rw [hloop, hloop'])
  todo := h.todo
  erasing n hn := nomatch hloop'.symm.trans hn
  used := h.used

/-- A disconnect callback that resets itself keeps the invariant. -/
theorem inv_reset (h : Inv s) (ha : enabled s (.reset n)) (hdying : s.dying n = false) :
    Inv (s.reset n) := by
  obtain ⟨hn, hlisted, hloop⟩ := ha
  have hok := h.nodes n hn
  have hnone : s.loop.erases = none := by
    rw [hloop]
    rfl
  obtain ⟨hl, -⟩ := hok.listed hlisted
  have hcurrent : (s.life (s.nodes n).thread).current ≠ some n := by
    intro hc
    obtain ⟨threads, todo, hlife, -, hm⟩ := h.current hc
    cases hdying.symm.trans (destroys_of_current hlife hm)
  have hposted : (s.nodes n).posted = false := by
    cases hp : (s.nodes n).posted with
    | false => rfl
    | true => exact absurd (hok.posted hp).1 hcurrent
  refine h.update Node.reset ⟨rfl, rfl⟩ (.inl rfl) (fun _ => ?_) (fun m hm => ?_) (fun _ => hn)
    (h.access hn hl)
  · constructor
    · exact hok.linked
    · exact hok.unlinked
    · exact nofun
    · exact fun _ _ => .inl rfl
    · exact fun _ => ⟨hl, rfl, hdying⟩
    · exact fun hp => nomatch hposted.symm.trans hp
    · exact fun hc => absurd hc hcurrent
    · exact hok.past
  · rw [hnone]
    exact iff_of_false (fun hc => hm (Option.some.inj hc).symm) nofun

theorem erase_eq (he : s.loop.erases = some n) :
    s.erase = { (s.access n).update n Node.end with loop := .draining (s.nodes n).connection } := by
  unfold Loop.erases at he
  split at he
  · next m hloop =>
    obtain rfl : m = n := Option.some.inj he
    unfold State.erase
    rw [hloop]
  · cases he
  · cases he

/-- The erase of a disconnect callback keeps the invariant. -/
theorem inv_erase (h : Inv s) (ha : enabled s .erase) : Inv s.erase := by
  obtain ⟨n, he⟩ := Option.isSome_iff_exists.mp ha
  have hn := h.erasing n he
  have hok := h.nodes n hn
  obtain ⟨hl, hlisted, hdying⟩ := hok.erasing he
  have hposted : (s.nodes n).posted = false := by
    cases hp : (s.nodes n).posted with
    | false => rfl
    | true =>
      obtain ⟨threads, todo, hlife, -, -⟩ := h.current (hok.posted hp).1
      exact absurd List.mem_cons_self (h.not_todo he hlife)
  rw [erase_eq he]
  refine h.update Node.end ⟨rfl, rfl⟩ (.inr ⟨rfl, ?_⟩) (fun _ => ?_) (fun m hm => ?_) nofun
    (h.access hn hl)
  · exact fun t threads todo started hlife => h.not_todo he hlife
  · apply hok.ended hl rfl rfl rfl
    · exact hlisted
    · exact hposted
    · exact nofun
  · rw [he]
    exact iff_of_false nofun fun hc => hm (Option.some.inj hc).symm

/-- A destructor starts on a map of the thread, no callback of whose nodes is running. -/
theorem inv_destroy (h : Inv s) {threads : Threads} {order : List Nat}
    (current : (s.life t).current = none) (order_perm : order.Perm (s.entries t threads))
    (apart : ∀ n ∈ s.loop.erases, s.inMap t threads n = false)
    (past : ∀ n < s.made, s.inMap t (s.nodes n).threads n = true →
      (Life.destroying threads order false).past (s.nodes n).threads = false) :
    Inv { s with life := Function.update s.life t (.destroying threads order false) } := by
  apply h.live
  · intro n hn ht hok
    apply hok.life_congr
    · rw [current]
      exact .inl nofun
    · exact .inr rfl
    · intro he
      have hne := apart n he
      cases hd : (Life.destroying threads order false).destroys (s.nodes n).threads with
      | false => rfl
      | true =>
        have hthreads : threads = (s.nodes n).threads := of_decide_eq_true hd
        cases hne.symm.trans (inMap_iff.mpr ⟨(hok.erasing he).1, ht, hthreads.symm⟩)
    · exact fun hl => past n hn (inMap_iff.mpr ⟨hl, ht, rfl⟩)
  · intro threads' todo started hl
    obtain ⟨rfl, rfl, rfl⟩ := Life.destroying.inj hl
    exact todo_of_perm order_perm

/-- A thread that begins to exit keeps the invariant, if no callback is in the middle. -/
theorem inv_exit (h : Inv s) {order : List Nat} (ha : enabled s (.exit t order))
    (hapart : Apart s (.exit t order)) : Inv (next s (.exit t order)) := by
  obtain ⟨hrunning, -, hperm⟩ := ha
  apply inv_destroy h _ hperm hapart
  · exact fun _ _ _ => rfl
  · rw [hrunning]
    rfl

/-- So does its second map. -/
theorem inv_nextMap (h : Inv s) {order : List Nat} (ha : enabled s (.next t order))
    (hapart : Apart s (.next t order)) : Inv (next s (.next t order)) := by
  obtain ⟨hlife, hperm⟩ := ha
  apply inv_destroy h _ hperm hapart
  · -- the nodes of the first map are gone
    intro n hn hm
    cases hthreads : (s.nodes n).threads with
    | callback => rfl
    | request =>
      rw [hthreads] at hm
      exact absurd (((h.todo t _ _ _ hlife).2 n).mpr ⟨hn, hm⟩) List.not_mem_nil
  · rw [hlife]
    rfl

/-- A thread that has exited has no entries. -/
theorem inv_done (h : Inv s) (ha : enabled s (.done t)) : Inv (next s (.done t)) := by
  have hlife : s.life t = .destroying .callback [] false := ha
  apply h.live
  · intro n hn ht hok
    have hgone : (s.nodes n).linked ≠ true := by
      intro hl
      have hpast := hok.past hl
      rw [hlife] at hpast
      cases hthreads : (s.nodes n).threads with
      | request =>
        rw [hthreads] at hpast
        cases hpast
      | callback =>
        have hm : s.inMap t .callback n = true := inMap_iff.mpr ⟨hl, ht, hthreads⟩
        exact absurd (((h.todo t _ _ _ hlife).2 n).mpr ⟨hn, hm⟩) List.not_mem_nil
    apply hok.life_congr
    · rw [hlife]
      exact .inl nofun
    · exact .inl nofun
    · exact fun _ => rfl
    · exact fun hl => absurd hl hgone
  · exact nofun

/-- The other nodes of a thread whose destructor is at `n`. -/
theorem Node.Ok.beside {threads : Threads} {todo todo' : List Nat} {started started' : Bool}
    (h : node.Ok m (.destroying threads (n :: todo) started) loop) (hne : m ≠ n)
    (current' : (Life.destroying threads todo' started').current ≠ some m ∨ started' = false) :
    node.Ok m (.destroying threads todo' started') loop := by
  apply h.life_congr
  · exact .inl fun hc => hne (Option.some.inj hc).symm
  · exact current'
  · exact fun he => (h.erasing he).2.2
  · exact h.past

/-- A step of the destructor at `n`. -/
theorem Inv.destructor (h : Inv s) {threads : Threads} {todo todo' : List Nat}
    {started started' : Bool} (hlife : s.life t = .destroying threads (n :: todo) started)
    (f : Node → Node)
    (place : (f (s.nodes n)).thread = (s.nodes n).thread ∧
      (f (s.nodes n)).threads = (s.nodes n).threads)
    (node : (s.nodes n).Ok n (.destroying threads (n :: todo) started) s.loop →
      (f (s.nodes n)).Ok n (.destroying threads todo' started') s.loop)
    (current' : ∀ m, m ≠ n →
      (Life.destroying threads todo' started').current ≠ some m ∨ started' = false)
    (rest : todo'.Nodup ∧ ∀ m, m ∈ todo' ↔ m < s.made ∧ (s.update n f).inMap t threads m = true)
    (elsewhere : ∀ u threads' todo₁ started₁, u ≠ t → s.life u = .destroying threads' todo₁ started₁ →
      todo₁.Nodup ∧ ∀ m, m ∈ todo₁ ↔ m < s.made ∧ (s.update n f).inMap u threads' m = true) :
    Inv { s.update n f with
      life := Function.update s.life t (.destroying threads todo' started') } := by
  obtain ⟨-, ht, -⟩ :=
    inMap_iff.mp (((h.todo t threads _ _ hlife).2 n).mp List.mem_cons_self).2
  constructor
  · apply nodes_destructor (P := fun n node life => node.Ok n life s.loop) h.nodes place ht
    · rw [hlife]
      exact node
    · rw [hlife]
      exact fun m hne hok => hok.beside hne (current' m hne)
  · apply todo_live _ elsewhere
    intro threads' todo₁ started₁ hl
    obtain ⟨rfl, rfl, -⟩ := Life.destroying.inj hl
    exact rest
  · exact h.erasing
  · exact h.used

theorem start_eq {threads : Threads} {todo : List Nat} {started : Bool}
    (hl : s.life t = .destroying threads (n :: todo) started) :
    s.start t = { s.update n Node.post with
      life := Function.update s.life t (.destroying threads (n :: todo) true) } := by
  unfold State.start
  rw [hl]

theorem finish_eq {threads : Threads} {todo : List Nat} {started : Bool}
    (hl : s.life t = .destroying threads (n :: todo) started) :
    s.finish t = { s.update n Node.end with
      life := Function.update s.life t (.destroying threads todo false) } := by
  unfold State.finish
  rw [hl]

/-- A client whose destructor begins keeps the invariant. -/
theorem inv_start (h : Inv s) (ha : enabled s (.start t)) : Inv (s.start t) := by
  obtain ⟨hcurrent, hstarted⟩ := ha
  obtain ⟨n, hc⟩ := Option.isSome_iff_exists.mp hcurrent
  obtain ⟨threads, todo, hlife, hn, hm⟩ := h.current hc
  rw [hstarted] at hlife
  obtain ⟨hl, ht, hthreads⟩ := inMap_iff.mp hm
  have hdying := destroys_of_current hlife hm
  have hok := h.nodes n hn
  rw [ht, hlife] at hok
  have herases : s.loop.erases ≠ some n := by
    intro he
    exact h.not_todo he hlife List.mem_cons_self
  have hlisted : (s.nodes n).listed = true := by
    cases hlisted : (s.nodes n).listed with
    | true => rfl
    | false =>
      rcases hok.unlisted hl hlisted with he | ⟨-, hs⟩
      · exact absurd he herases
      · cases hs
  have hcb := (hok.listed hlisted).2
  have htodo := todo_update (n := n) h Node.post ⟨rfl, rfl⟩ (.inl rfl)
  rw [start_eq hlife]
  refine h.destructor hlife Node.post ⟨rfl, rfl⟩ (fun _ => ?_) (fun m hne => ?_)
    (htodo t threads _ _ hlife) fun u threads' todo' started' _ => htodo u threads' todo' started'
  · constructor
    · exact hok.linked
    · exact hok.unlinked
    · exact hok.listed
    · exact fun _ hno => nomatch hlisted.symm.trans hno
    · exact fun he => absurd he herases
    · exact fun _ => ⟨rfl, rfl, hcb⟩
    · exact fun _ _ => hlisted.trans hcb.symm
    · exact hok.past
  · exact .inl fun hc => hne (Option.some.inj hc).symm

/-- The callback taken out by the destructor keeps the invariant. -/
theorem inv_unregister (h : Inv s) (ha : enabled s (.unregister n)) : Inv (s.unregister n) := by
  obtain ⟨hidle, hn, hposted⟩ := ha
  have hok := h.nodes n hn
  obtain ⟨hc, hs, -⟩ := hok.posted hposted
  obtain ⟨threads, todo, hlife, -, hm⟩ := h.current hc
  have hl := (inMap_iff.mp hm).1
  have hunlisted := (s.nodes n).unlists hok.listed
  refine h.update Node.unregister ⟨rfl, rfl⟩ (.inl rfl) (fun _ => ?_) (fun _ _ => Iff.rfl)
    (h.erasing n) (h.access hn hl)
  constructor
  · exact hok.linked
  · exact hok.unlinked
  · exact fun hlisted => nomatch hunlisted.symm.trans hlisted
  · exact fun _ _ => .inr ⟨hc, hs⟩
  · show s.loop.erases = some n → _
    rw [hidle]
    exact nofun
  · exact nofun
  · exact fun _ _ => hunlisted
  · exact hok.past

/-- A client whose destructor ends keeps the invariant. -/
theorem inv_finish (h : Inv s) (ha : enabled s (.finish t)) : Inv (s.finish t) := by
  obtain ⟨hcurrent, hstarted, hposted⟩ := ha
  obtain ⟨n, hc⟩ := Option.isSome_iff_exists.mp hcurrent
  obtain ⟨threads, todo, hlife, hn, hm⟩ := h.current hc
  have hposted : (s.nodes n).posted = false := hposted n hc
  obtain ⟨hl, ht, -⟩ := inMap_iff.mp hm
  have hlisted : (s.nodes n).listed = false := by
    rw [(h.nodes n hn).current (by rw [ht]; exact hc) (by rw [ht]; exact hstarted)]
    exact hposted
  obtain ⟨hnodup, hmem⟩ := h.todo t threads (n :: todo) _ hlife
  obtain ⟨hnot, hnodup⟩ := List.nodup_cons.mp hnodup
  rw [finish_eq hlife]
  refine h.destructor hlife Node.end ⟨rfl, rfl⟩ (fun hok => ?_) (fun _ _ => .inr rfl)
    ⟨hnodup, fun m => ?_⟩ fun u threads' todo' started' hu hlu => ?_
  · apply hok.ended hl rfl rfl rfl
    · exact hlisted
    · exact hposted
    · exact fun he => h.not_todo he hlife List.mem_cons_self
  · rw [inMap_end, and_left_comm, ← hmem, List.mem_cons]
    constructor
    · intro hin
      refine ⟨?_, .inr hin⟩
      rintro rfl
      exact hnot hin
    · exact fun hin => hin.2.resolve_left hin.1
  · obtain ⟨hnodup', hmem'⟩ := h.todo u threads' todo' started' hlu
    refine ⟨hnodup', fun m => ?_⟩
    rw [inMap_end, and_left_comm, ← hmem']
    apply (and_iff_right_of_imp _).symm
    rintro hin rfl
    exact hu ((inMap_iff.mp ((hmem' m).mp hin).2).2.1.symm.trans ht)

/-- Every step that keeps callbacks and exits apart keeps the invariant. -/
theorem inv_next (s : State) (a : Action) (h : Inv s) (ha : Apart s a ∧ enabled s a) :
    Inv (next s a) := by
  obtain ⟨hapart, ha⟩ := ha
  cases a with
  | insert t threads c => exact inv_insert h ha
  | extract n => exact inv_extract h ha
  | clear t => exact inv_clear h ha
  | disconnect c =>
    apply inv_loop h
    · rw [ha.1]
      rfl
    · rfl
  | reset n => exact inv_reset h ha hapart
  | erase => exact inv_erase h ha
  | drained => exact inv_loop h ha.2.1 rfl s.connected
  | exit t order => exact inv_exit h ha hapart
  | start t => exact inv_start h ha
  | unregister n => exact inv_unregister h ha
  | finish t => exact inv_finish h ha
  | next t order => exact inv_nextMap h ha hapart
  | done t => exact inv_done h ha

/-! ## Runs with an overlap -/

/-- The nodes a destructor has still to go through. -/
def Life.left : Life → List Nat
  | destroying _ todo _ => todo
  | running | ended => []

/-- How often the entry has been destroyed, or will be by what is under way. -/
def State.ends (s : State) (n : Nat) : Nat :=
  (s.nodes n).destroyed + (if s.loop.erases = some n then 1 else 0) +
    (s.life (s.nodes n).thread).left.count n

/-- What holds of a node in every run: while its callback is listed, it is in its map, and a
destructor of the map has still to come to it. -/
structure Node.Loose (n : Nat) (node : Node) (life : Life) (loop : Loop) : Prop where
  listed : node.listed = true → node.linked = true ∧ node.disconnect_cb = true
  past : node.linked = true → life.past node.threads = false
  doomed : node.linked = true → life.destroys node.threads = true → n ∈ life.left
  erasing : loop.erases = some n → node.listed = false ∧
    (life.past node.threads = false → life.destroys node.threads = false → node.linked = true)
  waits : life.current = some n → life.started = true → node.posted = false → node.listed = false

structure Loose (s : State) : Prop where
  nodes : ∀ n < s.made, (s.nodes n).Loose n (s.life (s.nodes n).thread) s.loop
  todo : ∀ t threads todo started, s.life t = .destroying threads todo started →
    ∀ n ∈ todo, n < s.made ∧ (s.nodes n).thread = t ∧ (s.nodes n).threads = threads
  erasing : ∀ n, s.loop.erases = some n → n < s.made

theorem loose_started (worker : Nat → Bool) : Loose (started worker) where
  nodes n hn := absurd hn (Nat.not_lt_zero n)
  todo := nofun
  erasing := nofun

/-- A node that leaves its map, its callback off the list. -/
theorem Node.Loose.ended (linked : node.linked = false) (listed : node.listed = false)
    (hloop : loop.erases ≠ some n ∨ life.destroys node.threads = true) :
    node.Loose n life loop where
  listed hl := nomatch hl.symm.trans listed
  past hl := nomatch hl.symm.trans linked
  doomed hl := nomatch hl.symm.trans linked
  erasing he := by
    refine ⟨listed, fun _ hd => ?_⟩
    rcases hloop with hne | hdestroys
    · exact absurd he hne
    · cases hd.symm.trans hdestroys
  waits _ _ _ := listed

theorem Node.Loose.loop_congr (h : node.Loose n life loop) {loop' : Loop}
    (erases : loop'.erases = some n → loop.erases = some n) : node.Loose n life loop' where
  listed := h.listed
  past := h.past
  doomed := h.doomed
  erasing he := h.erasing (erases he)
  waits := h.waits

theorem Node.Loose.disposed (h : node.Loose n life loop) (hloop : loop.erases = none) :
    node.dispose.Loose n life loop := by
  apply Node.Loose.ended rfl
  · exact node.unlists h.listed
  · rw [hloop]
    exact .inl nofun

/-- A step at one node. -/
theorem Loose.update (h : Loose s) (f : Node → Node) {connected : Nat → Bool} {misused : Bool}
    (place : (f (s.nodes n)).thread = (s.nodes n).thread ∧
      (f (s.nodes n)).threads = (s.nodes n).threads)
    (node : n < s.made → (f (s.nodes n)).Loose n (s.life (s.nodes n).thread) loop)
    (others : ∀ m, m ≠ n → loop.erases = some m → s.loop.erases = some m)
    (erasing : loop.erases = some n → n < s.made) :
    Loose { s.update n f with connected, misused, loop } := by
  constructor
  · intro m hm
    change Node.Loose m ((s.update n f).nodes m) (s.life ((s.update n f).nodes m).thread) loop
    by_cases heq : m = n
    · subst heq
      rw [update_self, place.1]
      exact node hm
    · rw [update_other f heq]
      exact (h.nodes m hm).loop_congr (others m heq)
  · intro t threads todo started hl m hm
    obtain ⟨hlt, ht, hthreads⟩ := h.todo t threads todo started hl m hm
    obtain ⟨hthread', hthreads'⟩ := update_place place m
    exact ⟨hlt, hthread'.trans ht, hthreads'.trans hthreads⟩
  · intro m hm
    by_cases heq : m = n
    · subst heq
      exact erasing hm
    · exact h.erasing m (others m heq hm)

/-- A step in the life of one thread. -/
theorem Loose.live (h : Loose s)
    (node : ∀ n < s.made, (s.nodes n).thread = t → (s.nodes n).Loose n (s.life t) s.loop →
      (s.nodes n).Loose n life s.loop)
    (todo : ∀ threads todo started, life = .destroying threads todo started →
      ∀ n ∈ todo, n < s.made ∧ (s.nodes n).thread = t ∧ (s.nodes n).threads = threads) :
    Loose { s with life := Function.update s.life t life } where
  nodes := nodes_live (P := fun n node life => node.Loose n life s.loop) h.nodes node
  todo := todo_live todo fun u threads todo started _ => h.todo u threads todo started
  erasing := h.erasing

/-- A step of the destructor at `n`. -/
theorem Loose.destructor (h : Loose s) {threads : Threads} {todo todo' : List Nat}
    {started started' : Bool} (hlife : s.life t = .destroying threads (n :: todo) started)
    (f : Node → Node)
    (place : (f (s.nodes n)).thread = (s.nodes n).thread ∧
      (f (s.nodes n)).threads = (s.nodes n).threads)
    (sub : todo' ⊆ n :: todo)
    (node : (s.nodes n).Loose n (.destroying threads (n :: todo) started) s.loop →
      (f (s.nodes n)).Loose n (.destroying threads todo' started') s.loop)
    (others : ∀ m (node : Node), m ≠ n →
      node.Loose m (.destroying threads (n :: todo) started) s.loop →
      node.Loose m (.destroying threads todo' started') s.loop) :
    Loose { s.update n f with
      life := Function.update s.life t (.destroying threads todo' started') } := by
  obtain ⟨-, ht, -⟩ := h.todo t threads _ _ hlife n List.mem_cons_self
  have hplace : ∀ u threads' (todo₁ : List Nat), (∀ m ∈ todo₁, m < s.made ∧ (s.nodes m).thread = u ∧
      (s.nodes m).threads = threads') → ∀ m ∈ todo₁, m < s.made ∧
      ((s.update n f).nodes m).thread = u ∧ ((s.update n f).nodes m).threads = threads' := by
    intro u threads' todo₁ hold m hmem
    obtain ⟨hthread', hthreads'⟩ := update_place place m
    obtain ⟨hlt, hthread, hthreads⟩ := hold m hmem
    exact ⟨hlt, hthread'.trans hthread, hthreads'.trans hthreads⟩
  constructor
  · apply nodes_destructor (P := fun n node life => node.Loose n life s.loop) h.nodes place ht
    · rw [hlife]
      exact node
    · rw [hlife]
      exact fun m hne => others m _ hne
  · apply todo_live
    · intro threads' todo₁ started₁ hl
      obtain ⟨rfl, rfl, -⟩ := Life.destroying.inj hl
      exact hplace t threads todo' fun m hm => h.todo t threads _ _ hlife m (sub hm)
    · exact fun u threads' todo₁ started₁ _ hl => hplace u threads' todo₁ (h.todo u _ _ _ hl)
  · exact h.erasing

/-- A destructor starts on a map of the thread. -/
theorem loose_destroy (h : Loose s) {threads : Threads} {order : List Nat}
    (order_perm : order.Perm (s.entries t threads))
    (past : ∀ n < s.made, s.inMap t (s.nodes n).threads n = true →
      (Life.destroying threads order false).past (s.nodes n).threads = false)
    (fresh : ∀ threads', (s.life t).past threads' = true ∨ (s.life t).destroys threads' = true →
      (Life.destroying threads order false).past threads' = true) :
    Loose { s with life := Function.update s.life t (.destroying threads order false) } := by
  apply h.live
  · intro n hn ht hok
    constructor
    · exact hok.listed
    · exact fun hl => past n hn (inMap_iff.mpr ⟨hl, ht, rfl⟩)
    · intro hl hd
      have hthreads : threads = (s.nodes n).threads := of_decide_eq_true hd
      exact ((todo_of_perm order_perm).2 n).mpr ⟨hn, inMap_iff.mpr ⟨hl, ht, hthreads.symm⟩⟩
    · intro he
      refine ⟨(hok.erasing he).1, fun hp _ => ?_⟩
      apply (hok.erasing he).2
      · cases hpast : (s.life t).past (s.nodes n).threads with
        | false => rfl
        | true => cases hp.symm.trans (fresh _ (.inl hpast))
      · cases hd : (s.life t).destroys (s.nodes n).threads with
        | false => rfl
        | true => cases hp.symm.trans (fresh _ (.inr hd))
    · exact fun _ hs => nomatch hs
  · intro threads' todo started hl n hmem
    obtain ⟨rfl, rfl, -⟩ := Life.destroying.inj hl
    obtain ⟨hn, hm⟩ := ((todo_of_perm order_perm).2 n).mp hmem
    exact ⟨hn, (inMap_iff.mp hm).2⟩

theorem loose_insert (h : Loose s) {threads : Threads} {c : Nat}
    (ha : enabled s (.insert t threads c)) : Loose (s.insert t threads c) := by
  obtain ⟨hidle, hrunning, -, -, -⟩ := ha
  constructor
  · intro n hn
    rcases Nat.lt_succ_iff_lt_or_eq.mp hn with hn | rfl
    · rw [insert_old (Nat.ne_of_lt hn)]
      exact h.nodes n hn
    · rw [insert_new]
      change Node.Loose s.made _ (s.life t) s.loop
      rw [hidle, hrunning]
      exact ⟨fun _ => ⟨rfl, rfl⟩, fun _ => rfl, nofun, nofun, nofun⟩
  · intro u threads' todo started hl n hmem
    obtain ⟨hn, hplace⟩ := h.todo u threads' todo started hl n hmem
    rw [insert_old (Nat.ne_of_lt hn)]
    exact ⟨Nat.lt_succ_of_lt hn, hplace⟩
  · exact fun n hn => Nat.lt_succ_of_lt (h.erasing n hn)

theorem loose_clear (h : Loose s) (ha : enabled s (.clear t)) : Loose (s.clear t) := by
  have hnode : ∀ n, (s.clear t).nodes n = s.nodes n ∨
      (s.clear t).nodes n = (s.nodes n).dispose := by
    intro n
    unfold State.clear
    simp only
    split
    · exact .inr rfl
    · exact .inl rfl
  constructor
  · intro n hn
    change Node.Loose n _ (s.life _) s.loop
    rcases hnode n with heq | heq
    · rw [heq]
      exact h.nodes n hn
    · rw [heq]
      exact (h.nodes n hn).disposed ha.1
  · intro u threads todo started hl n hmem
    have hplace := h.todo u threads todo started hl n hmem
    rcases hnode n with heq | heq
    · rw [heq]
      exact hplace
    · rw [heq]
      exact hplace
  · exact h.erasing

theorem loose_start (h : Loose s) (ha : enabled s (.start t)) : Loose (s.start t) := by
  obtain ⟨hcurrent, -⟩ := ha
  obtain ⟨n, hc⟩ := Option.isSome_iff_exists.mp hcurrent
  obtain ⟨threads, todo, hlife⟩ := life_of_current hc
  rw [start_eq hlife]
  refine h.destructor hlife Node.post ⟨rfl, rfl⟩ (List.Subset.refl _) (fun hok => ?_)
    fun m node hne hok => ?_
  · refine ⟨hok.listed, hok.past, hok.doomed, hok.erasing, fun _ _ hp => ?_⟩
    cases hlisted : (s.nodes n).listed with
    | false => exact hlisted
    | true => cases hp.symm.trans (hok.listed hlisted).2
  · refine ⟨hok.listed, hok.past, hok.doomed, hok.erasing, fun hm => ?_⟩
    exact absurd (Option.some.inj hm).symm hne

theorem loose_finish (h : Loose s) (ha : enabled s (.finish t)) : Loose (s.finish t) := by
  obtain ⟨hcurrent, hstarted, hposted⟩ := ha
  obtain ⟨n, hc⟩ := Option.isSome_iff_exists.mp hcurrent
  obtain ⟨threads, todo, hlife⟩ := life_of_current hc
  obtain ⟨-, -, hthreads⟩ := h.todo t threads _ _ hlife n List.mem_cons_self
  rw [finish_eq hlife]
  refine h.destructor hlife Node.end ⟨rfl, rfl⟩ (List.subset_cons_self _ _) (fun hok => ?_)
    fun m node hne hok => ?_
  · apply Node.Loose.ended rfl
    · exact hok.waits rfl hstarted (hposted n hc)
    · exact .inr (decide_eq_true hthreads.symm)
  · refine ⟨hok.listed, hok.past, fun hl hd => ?_, hok.erasing, fun _ hs => nomatch hs⟩
    exact (List.mem_cons.mp (hok.doomed hl hd)).resolve_left hne

theorem loose_done (h : Loose s) (ha : enabled s (.done t)) : Loose (next s (.done t)) := by
  have hlife : s.life t = .destroying .callback [] false := ha
  apply h.live
  · intro n _ _ hok
    rw [hlife] at hok
    have hgone : (s.nodes n).linked ≠ true := by
      intro hl
      cases hthreads : (s.nodes n).threads with
      | request =>
        have hpast := hok.past hl
        rw [hthreads] at hpast
        cases hpast
      | callback =>
        have hleft := hok.doomed hl (by rw [hthreads]; rfl)
        exact absurd hleft List.not_mem_nil
    refine ⟨hok.listed, fun hl => absurd hl hgone, fun hl => absurd hl hgone, fun he => ?_, nofun⟩
    exact ⟨(hok.erasing he).1, nofun⟩
  · exact nofun

/-- Every step keeps the loose invariant, also one that does not keep them apart. -/
theorem loose_next (s : State) (a : Action) (h : Loose s) (ha : enabled s a) :
    Loose (next s a) := by
  cases a with
  | insert t threads c => exact loose_insert h ha
  | extract n =>
    obtain ⟨hidle, -, -, -⟩ := ha
    have hnone : s.loop.erases = none := by
      rw [hidle]
      rfl
    exact h.update Node.dispose ⟨rfl, rfl⟩ (fun hn => (h.nodes n hn).disposed hnone)
      (fun _ _ he => he) fun he => nomatch hnone.symm.trans he
  | clear t => exact loose_clear h ha
  | disconnect c =>
    exact ⟨fun n hn => (h.nodes n hn).loop_congr nofun, h.todo, nofun⟩
  | reset n =>
    obtain ⟨hn, hlisted, -⟩ := ha
    have hok := h.nodes n hn
    refine h.update Node.reset ⟨rfl, rfl⟩ (fun _ => ?_)
      (fun m hm he => absurd (Option.some.inj he).symm hm) fun _ => hn
    exact ⟨nofun, hok.past, hok.doomed, fun _ => ⟨rfl, fun _ _ => (hok.listed hlisted).1⟩,
      fun _ _ _ => rfl⟩
  | erase =>
    obtain ⟨n, he⟩ := Option.isSome_iff_exists.mp ha
    change Loose s.erase
    rw [erase_eq he]
    refine h.update Node.end ⟨rfl, rfl⟩ (fun hn => ?_) nofun nofun
    exact Node.Loose.ended rfl ((h.nodes n hn).erasing he).1 (.inl nofun)
  | drained =>
    exact ⟨fun n hn => (h.nodes n hn).loop_congr nofun, h.todo, nofun⟩
  | exit t order =>
    obtain ⟨hrunning, -, hperm⟩ := ha
    apply loose_destroy h hperm
    · exact fun _ _ _ => rfl
    · rw [hrunning]
      exact fun _ hor => hor.elim nofun nofun
  | start t => exact loose_start h ha
  | unregister n =>
    obtain ⟨-, hn, -⟩ := ha
    have hok := h.nodes n hn
    have hunlisted := (s.nodes n).unlists hok.listed
    refine h.update Node.unregister ⟨rfl, rfl⟩ (fun _ => ?_) (fun _ _ he => he) fun he =>
      h.erasing n he
    constructor
    · exact fun hl => nomatch hunlisted.symm.trans hl
    · exact hok.past
    · exact hok.doomed
    · exact fun he => ⟨hunlisted, (hok.erasing he).2⟩
    · exact fun _ _ _ => hunlisted
  | finish t => exact loose_finish h ha
  | next t order =>
    obtain ⟨hlife, hperm⟩ := ha
    apply loose_destroy h hperm
    · intro n hn hm
      obtain ⟨hl, ht, -⟩ := inMap_iff.mp hm
      cases hthreads : (s.nodes n).threads with
      | callback => rfl
      | request =>
        have hleft := (h.nodes n hn).doomed hl (by rw [ht, hlife, hthreads]; rfl)
        rw [ht, hlife] at hleft
        exact absurd hleft List.not_mem_nil
    · rw [hlife]
      intro threads hor
      cases threads with
      | request => rfl
      | callback => exact hor.elim nofun nofun
  | done t => exact loose_done h ha

theorem ends_mono {s' : State} (thread : (s'.nodes n).thread = (s.nodes n).thread)
    (destroyed : (s.nodes n).destroyed ≤ (s'.nodes n).destroyed)
    (erases : s.loop.erases = some n → s'.loop.erases = some n)
    (left : (s.life (s.nodes n).thread).left.count n ≤ (s'.life (s.nodes n).thread).left.count n) :
    s.ends n ≤ s'.ends n := by
  have he : (if s.loop.erases = some n then 1 else 0) ≤ if s'.loop.erases = some n then 1 else 0 := by
    split
    · next h =>
      exact Nat.le_of_eq (if_pos (erases h)).symm
    · exact Nat.zero_le _
  unfold State.ends
  rw [thread]
  omega

/-- A step at one node and in the loop. -/
theorem ends_update {f : Node → Node} {connected : Nat → Bool} {misused : Bool}
    (thread : (f (s.nodes m)).thread = (s.nodes m).thread)
    (destroyed : (s.nodes m).destroyed ≤ (f (s.nodes m)).destroyed)
    (erases : s.loop.erases = some n → loop.erases = some n) :
    s.ends n ≤ State.ends { s.update m f with connected, misused, loop } n := by
  have hnode : ((s.update m f).nodes n).thread = (s.nodes n).thread ∧
      (s.nodes n).destroyed ≤ ((s.update m f).nodes n).destroyed := by
    by_cases heq : n = m
    · subst heq
      rw [update_self]
      exact ⟨thread, destroyed⟩
    · rw [update_other f heq]
      exact ⟨rfl, Nat.le_refl _⟩
  exact ends_mono hnode.1 hnode.2 erases (Nat.le_refl _)

theorem ends_life {life : Life} (h : (s.life t).left.count n ≤ life.left.count n) :
    s.ends n ≤ State.ends { s with life := Function.update s.life t life } n := by
  apply ends_mono
  · rfl
  · exact Nat.le_refl _
  · exact id
  · change _ ≤ (Function.update s.life t life (s.nodes n).thread).left.count n
    by_cases ht : (s.nodes n).thread = t
    · rw [ht, Function.update_self]
      exact h
    · simp only [Function.update_of_ne ht, Nat.le_refl]

/-- An erase ends a node no less often than it was to. -/
theorem ends_erase (he : s.loop.erases = some m) : s.ends n ≤ s.erase.ends n := by
  rw [erase_eq he]
  by_cases heq : n = m
  · subst heq
    have hnode : ((s.update n Node.end).nodes n).destroyed = (s.nodes n).destroyed + 1 ∧
        ((s.update n Node.end).nodes n).thread = (s.nodes n).thread := by
      rw [update_self]
      exact ⟨rfl, rfl⟩
    have hends : State.ends
        { (s.access n).update n Node.end with loop := .draining (s.nodes n).connection } n =
        (s.nodes n).destroyed + 1 + 0 + (s.life (s.nodes n).thread).left.count n := by
      unfold State.ends
      rw [if_neg nofun]
      change ((s.update n Node.end).nodes n).destroyed + 0 +
        (s.life ((s.update n Node.end).nodes n).thread).left.count n = _
      rw [hnode.1, hnode.2]
    rw [hends]
    unfold State.ends
    simp only [if_pos he, Nat.add_zero, Nat.le_refl]
  · apply ends_update
    · rfl
    · exact Nat.le_succ _
    · intro hn
      exact absurd (Option.some.inj (hn.symm.trans he)) heq

/-- Nor does the destruction of an entry. -/
theorem ends_finish (h : Loose s) (ha : enabled s (.finish t)) : s.ends n ≤ (s.finish t).ends n := by
  obtain ⟨hcurrent, -, -⟩ := ha
  obtain ⟨m, hc⟩ := Option.isSome_iff_exists.mp hcurrent
  obtain ⟨threads, todo, hlife⟩ := life_of_current hc
  obtain ⟨-, ht, -⟩ := h.todo t threads _ _ hlife m List.mem_cons_self
  rw [finish_eq hlife]
  by_cases heq : n = m
  · subst heq
    have hends : State.ends { s.update n Node.end with
        life := Function.update s.life t (.destroying threads todo false) } n =
        (s.nodes n).destroyed + 1 + (if s.loop.erases = some n then 1 else 0) + todo.count n := by
      unfold State.ends
      change ((s.update n Node.end).nodes n).destroyed + (if s.loop.erases = some n then 1 else 0) +
        (Function.update s.life t (.destroying threads todo false)
          ((s.update n Node.end).nodes n).thread).left.count n = _
      rw [update_self]
      change (s.nodes n).destroyed + 1 + _ +
        (Function.update s.life t _ (s.nodes n).thread).left.count n = _
      rw [ht, Function.update_self]
      rfl
    rw [hends]
    unfold State.ends
    rw [ht, hlife]
    simp only [Life.left, List.count_cons_self]
    omega
  · apply ends_mono
    · exact congrArg Node.thread (update_other Node.end heq)
    · exact Nat.le_of_eq (congrArg Node.destroyed (update_other Node.end heq)).symm
    · exact id
    · change _ ≤ (Function.update s.life t _ (s.nodes n).thread).left.count n
      by_cases htn : (s.nodes n).thread = t
      · rw [htn, Function.update_self, hlife]
        simp only [Life.left, List.count_cons_of_ne (Ne.symm heq), Nat.le_refl]
      · simp only [Function.update_of_ne htn, Nat.le_refl]

/-- What has been destroyed, or will be, stays so. -/
theorem ends_le (h : Loose s) {a : Action} (ha : enabled s a) (hn : n < s.made) :
    s.ends n ≤ (next s a).ends n := by
  cases a with
  | insert t threads c =>
    have hnode : (s.insert t threads c).nodes n = s.nodes n :=
      Function.update_of_ne (Nat.ne_of_lt hn) _ _
    exact ends_mono (congrArg Node.thread hnode) (Nat.le_of_eq (congrArg Node.destroyed hnode).symm)
      id (Nat.le_refl _)
  | extract m => exact ends_update rfl (Nat.le_succ _) id
  | clear t =>
    have hnode : ((s.clear t).nodes n).thread = (s.nodes n).thread ∧
        (s.nodes n).destroyed ≤ ((s.clear t).nodes n).destroyed := by
      unfold State.clear
      simp only
      split
      · exact ⟨rfl, Nat.le_succ _⟩
      · exact ⟨rfl, Nat.le_refl _⟩
    exact ends_mono hnode.1 hnode.2 id (Nat.le_refl _)
  | disconnect c =>
    apply ends_mono
    · rfl
    · exact Nat.le_refl _
    · rw [ha.1]
      exact nofun
    · exact Nat.le_refl _
  | reset m =>
    apply ends_update
    · rfl
    · exact Nat.le_refl _
    · rw [ha.2.2]
      exact nofun
  | erase =>
    obtain ⟨m, he⟩ := Option.isSome_iff_exists.mp ha
    exact ends_erase he
  | drained =>
    apply ends_mono
    · rfl
    · exact Nat.le_refl _
    · rw [ha.2.1]
      exact nofun
    · exact Nat.le_refl _
  | exit t order =>
    apply ends_life
    rw [ha.1]
    exact Nat.zero_le _
  | start t =>
    obtain ⟨m, hc⟩ := Option.isSome_iff_exists.mp ha.1
    obtain ⟨threads, todo, hlife⟩ := life_of_current hc
    change s.ends n ≤ (s.start t).ends n
    rw [start_eq hlife]
    have hpost : s.ends n ≤ (s.update m Node.post).ends n := ends_update rfl (Nat.le_refl _) id
    have hstart : (s.update m Node.post).ends n ≤ State.ends { s.update m Node.post with
        life := Function.update s.life t (.destroying threads (m :: todo) true) } n := by
      apply ends_life
      change (s.life t).left.count n ≤ _
      rw [hlife]
      exact Nat.le_refl _
    exact Nat.le_trans hpost hstart
  | unregister m => exact ends_update rfl (Nat.le_refl _) id
  | finish t => exact ends_finish h ha
  | next t order =>
    apply ends_life
    rw [ha.1]
    exact Nat.zero_le _
  | done t =>
    apply ends_life
    have hlife : s.life t = .destroying .callback [] false := ha
    rw [hlife]
    exact Nat.zero_le _

/-- No step makes nodes fewer. -/
theorem made_le (s : State) (a : Action) : s.made ≤ (next s a).made := by
  cases a with
  | insert t threads c => exact Nat.le_succ _
  | erase =>
    simp only [next, State.erase]
    split
    · exact Nat.le_refl _
    · exact Nat.le_refl _
  | start t =>
    simp only [next, State.start]
    split
    · exact Nat.le_refl _
    · exact Nat.le_refl _
  | finish t =>
    simp only [next, State.finish]
    split
    · exact Nat.le_refl _
    · exact Nat.le_refl _
  | extract _ | clear _ | disconnect _ | reset _ | drained | exit _ _ | unregister _ | next _ _
  | done _ => exact Nat.le_refl _

/-- A destructor that starts on the map of a node whose callback is running. -/
theorem ends_destroy {threads : Threads} {order : List Nat} (hn : n < s.made)
    (he : s.loop.erases = some n) (hm : s.inMap t threads n = true)
    (order_perm : order.Perm (s.entries t threads)) :
    2 ≤ State.ends { s with life := Function.update s.life t (.destroying threads order false) } n := by
  have hcount : 0 < order.count n :=
    List.count_pos_iff.mpr (((todo_of_perm order_perm).2 n).mpr ⟨hn, hm⟩)
  have hlife : Function.update s.life t (.destroying threads order false) (s.nodes n).thread =
      .destroying threads order false := by
    rw [(inMap_iff.mp hm).2.1]
    exact Function.update_self _ _ _
  unfold State.ends
  simp only [hlife, he, if_true, Life.left]
  omega

/-- A step that breaks the condition leaves an entry that two sides destroy. -/
theorem ends_of_overlap (h : Loose s) {a : Action} (ha : enabled s a) (hno : ¬ Apart s a) :
    ∃ n < s.made, 2 ≤ (next s a).ends n := by
  cases a with
  | reset n =>
    obtain ⟨hn, hlisted, -⟩ := ha
    have hok := h.nodes n hn
    have hdying : s.dying n = true := Bool.not_eq_false _ ▸ hno
    have hcount : 0 < (s.life (s.nodes n).thread).left.count n :=
      List.count_pos_iff.mpr (hok.doomed (hok.listed hlisted).1 hdying)
    refine ⟨n, hn, ?_⟩
    have hends : (s.reset n).ends n =
        (s.nodes n).destroyed + 1 + (s.life (s.nodes n).thread).left.count n := by
      have he : (s.reset n).loop.erases = some n := rfl
      unfold State.ends
      rw [if_pos he]
      change ((s.update n Node.reset).nodes n).destroyed + 1 +
        (s.life ((s.update n Node.reset).nodes n).thread).left.count n = _
      rw [update_self]
      rfl
    change 2 ≤ (s.reset n).ends n
    omega
  | exit t order =>
    simp only [Apart, not_forall, Bool.not_eq_false] at hno
    obtain ⟨n, he, hm⟩ := hno
    have hn := h.erasing n he
    exact ⟨n, hn, ends_destroy hn he hm ha.2.2⟩
  | next t order =>
    simp only [Apart, not_forall, Bool.not_eq_false] at hno
    obtain ⟨n, he, hm⟩ := hno
    have hn := h.erasing n he
    exact ⟨n, hn, ends_destroy hn he hm ha.2⟩
  | insert _ _ _ | extract _ | clear _ | disconnect _ | erase | drained | start _ | unregister _
  | finish _ | done _ => exact absurd trivial hno

/-- At rest the count of a node is what has been destroyed. -/
theorem Rests.ends_eq (h : Rests s) (n : Nat) : s.ends n = (s.nodes n).destroyed := by
  have hleft : (s.life (s.nodes n).thread).left = [] := by
    cases hl : s.life (s.nodes n).thread with
    | running | ended => rfl
    | destroying threads todo started => exact absurd hl (h.life _ _ _ _)
  unfold State.ends
  rw [h.loop, hleft]
  rfl

/-- A node that ends twice is freed twice. -/
theorem not_once_of_ends (h : Rests s) (hn : n < s.made) (hends : 2 ≤ s.ends n) : ¬ Once s := by
  intro hs
  rw [h.ends_eq] at hends
  cases hl : (s.nodes n).linked with
  | true =>
    have hzero := (hs.linked n hn hl).1
    omega
  | false =>
    have hone := (hs.unlinked n hn hl).1
    omega

/-! ## The result -/

/-- A run that comes to rest with every entry destroyed once has kept the two apart. -/
theorem meets_of_once {s t : State} {as : List Action} (h : connThreads.Path s as t)
    (hs : Loose s) (hrests : Rests t) (honce : Once t) : connThreads.Meets Apart s as := by
  induction h with
  | nil => trivial
  | @cons s t a as ha hrest ih =>
    have hnext := loose_next s a hs ha
    refine ⟨?_, ih hnext hrests honce⟩
    by_contra hno
    obtain ⟨n, hn, hends⟩ := ends_of_overlap hs ha hno
    have hkept : Loose t ∧ n < t.made ∧ 2 ≤ t.ends n := by
      apply hrest.keeps (I := fun u => Loose u ∧ n < u.made ∧ 2 ≤ u.ends n)
      · rintro u b ⟨hu, hnu, hendsu⟩ hb
        exact ⟨loose_next u b hu hb, Nat.lt_of_lt_of_le hnu (made_le u b),
          Nat.le_trans hendsu (ends_le hu hb hnu)⟩
      · exact ⟨hnext, Nat.lt_of_lt_of_le hn (made_le s a), hends⟩
    exact not_once_of_ends hrests hkept.2.1 hkept.2.2 honce

/-- In every state of a run in which no callback of `SetThread` runs while the thread is destroying
the map of its entry, every entry is destroyed and freed once and accessed only before; and a run
that comes to rest without that has left some entry otherwise. -/
theorem destroyed_once_iff_apart {s t : State} {as : List Action} (start : connThreads.init s)
    (h : connThreads.Path s as t) :
    (connThreads.Meets Apart s as → Once t) ∧
      (Rests t → (Once t ↔ connThreads.Meets Apart s as)) := by
  obtain ⟨worker, rfl⟩ := start
  have honce : connThreads.Meets Apart (started worker) as → Once t := by
    intro hmeets
    have hpath : (connThreads.guardedBy Apart).Path (started worker) as t :=
      System.guardedBy_path_iff.mpr ⟨h, hmeets⟩
    exact (hpath.keeps inv_next (inv_started worker)).once
  refine ⟨honce, fun hrests => ⟨fun ht => ?_, honce⟩⟩
  exact meets_of_once h (loose_started worker) hrests ht

/-- A thread with an entry in each map ends, and the second connection goes away while the map of
the first entry is being destroyed. -/
theorem destroyed_once_at_exit : ∃ s, connThreads.Reachable s ∧ s.made = 2 ∧
    s.life 0 = .ended ∧ Once s := by
  have hrun : ((connThreads.run (started fun _ => false)
      [.insert 0 .request 0, .insert 0 .callback 1, .exit 0 [0], .start 0, .disconnect 1, .reset 1,
        .erase, .drained, .unregister 0, .finish 0, .next 0 [], .done 0]).map fun s =>
      decide (s.made = 2 ∧ s.life 0 = .ended)) = some true := by decide
  obtain ⟨s, hs, hp⟩ := Option.map_eq_some_iff.mp hrun
  obtain ⟨hmade, hlife⟩ := of_decide_eq_true hp
  have hpath := System.run_eq_some_iff.mp hs
  have hstart : connThreads.init (started fun _ => false) := ⟨_, rfl⟩
  exact ⟨s, ⟨_, _, hstart, hpath⟩, hmade, hlife,
    (destroyed_once_iff_apart hstart hpath).1 (by decide)⟩

/-- The connection goes away while its entry waits for its unregistration: the callback destroys and
frees the entry, the unregistration accesses it, and the thread destroys and frees it again. With
libstdc++'s `std::optional` the second destruction finds no object (`Node.end`); the node is accessed
after it was freed, and freed twice, all the same. -/
theorem destroyed_twice_at_exit : ¬ ∀ s, connThreads.Reachable s → Once s := by
  intro hall
  obtain ⟨s, hs, hp⟩ := connThreads.exists_reachable_of_run (s := started fun _ => false) ⟨_, rfl⟩
    [.insert 0 .request 0, .exit 0 [0], .start 0, .disconnect 0, .reset 0, .erase, .drained,
      .unregister 0, .finish 0]
    (fun s => decide (0 < s.made ∧ (s.nodes 0).linked = false ∧ (s.nodes 0).destroyed = 2 ∧
      (s.nodes 0).released = 2 ∧ s.misused = true)) (by decide)
  obtain ⟨hmade, hlinked, hdestroyed, -, -⟩ := of_decide_eq_true hp
  have hone := ((hall s hs).unlinked 0 hmade hlinked).1
  cases hdestroyed.symm.trans hone

end Multiprocess.Context.Entries
