import Multiprocess.Loop.Shutdown

/-!
# Incoming connections

`ListenConnections`, `ServeStream` and the handlers of `Connection::onDisconnect`
(`include/mp/proxy-io.h`) on the event loop of `Loop/Model.lean`. Each accepted stream is a
`Connection` in `m_incoming_connections`, which holds an `EventLoopRef`. When the stream ends, the
connection's handler puts a function in `m_task_set`; in a later turn the function erases the
connection.

The listener holds no reference, and a connection may be accepted when there is none: while the byte
of a `reset` that found `done()` is on its way. The loop then goes on for the connection's sake. But
the discipline of `Loop/Shutdown.lean` is broken, and with it the promise that whoever is to write a
byte finds the descriptor open (`accept_late`).

How a connection is used in between, and what its requests do, is left out.
-/

namespace Multiprocess.Loop

open Transition (System)

variable {T : Type}

/-- The event loop with its incoming connections, numbered in the order in which they came. -/
structure Incoming (T : Type) where
  loop : State T
  -- the `accept()` of `_Listen` is in `m_task_set`
  listening : Bool
  -- `m_incoming_connections`
  connections : List Nat
  accepted : Nat
  -- the stream of a connection has ended
  disconnected : Nat → Bool
  -- the functions `onDisconnect` has put in `m_task_set`
  handlers : List Nat
  erased : Nat → Nat

inductive IncomingAction (T : Type) where
  | loop (a : Action T)
  -- `ListenConnections`
  | listen
  | accept
  -- `accept()` fails: the task of `_Listen` is over
  | acceptFails
  | serveStream
  | disconnect (i : Nat)
  -- the first function of `onDisconnect`
  | handle
  deriving DecidableEq

variable [DecidableEq T]

namespace Incoming

variable (s : Incoming T)

/-- `_Serve`. -/
def serve : Incoming T :=
  { s with
    loop := Loop.next s.loop .loopTake
    connections := s.accepted :: s.connections
    accepted := s.accepted + 1 }

/-- `m_network.onDisconnect()` is fulfilled. -/
def disconnect (i : Nat) : Incoming T :=
  { s with
    disconnected := Function.update s.disconnected i true
    handlers := s.handlers ++ [i] }

/-- `m_incoming_connections.erase(it)`. -/
def handle : Incoming T :=
  match s.handlers with
  | [] => s
  | i :: handlers => { s with
      loop := Loop.next s.loop .loopDrop
      connections := s.connections.erase i
      handlers := handlers
      erased := Function.update s.erased i (s.erased i + 1) }

/-- The references of the connections are theirs: nothing else drops or moves them. -/
def Spares : Action T → Prop
  | .loopDrop => s.connections.length < s.loop.live.count .loop
  | .move src _ => src = .loop → s.connections.length < s.loop.live.count .loop
  | _ => True

/-- In an event of the loop. -/
def inEvent : Prop := s.loop.turn ∧ s.loop.loop = .reading

def enabled : IncomingAction T → Prop
  | .loop a => Loop.enabled s.loop a ∧ s.Spares a
  | .listen | .serveStream => s.loop.turn ∧ s.loop.loop ≠ .breaking
  | .accept | .acceptFails => s.inEvent ∧ s.listening = true
  | .disconnect i => s.inEvent ∧ i ∈ s.connections ∧ s.disconnected i = false
  | .handle => s.inEvent ∧ s.handlers ≠ []

/-- `m_task_set.reset()` drops what is in it. -/
def next : IncomingAction T → Incoming T
  | .loop .resetTasks => { s with
      loop := Loop.next s.loop .resetTasks, listening := false, handlers := [] }
  | .loop a => { s with loop := Loop.next s.loop a }
  | .listen => { s with listening := true }
  | .acceptFails => { s with listening := false }
  | .accept | .serveStream => s.serve
  | .disconnect i => s.disconnect i
  | .handle => s.handle

end Incoming

/-- The event loop has just started, and there are no connections. -/
structure Listens (s : Incoming T) : Prop where
  loop : Starts s.loop
  listening : s.listening = false
  connections : s.connections = []
  accepted : s.accepted = 0
  disconnected : ∀ i, s.disconnected i = false
  handlers : s.handlers = []
  erased : ∀ i, s.erased i = 0

/-- The event loop, any threads, and any peers that connect and disconnect. -/
def serving (T : Type) [DecidableEq T] : System (Incoming T) (IncomingAction T) where
  init := Listens
  enabled := Incoming.enabled
  next := Incoming.next

instance (s : Incoming T) : ∀ a : Action T, Decidable (s.Spares a)
  | .loopDrop => inferInstanceAs (Decidable (_ < _))
  | .move _ _ => inferInstanceAs (Decidable (_ → _))
  | .post _ | .tryInstall _ | .write _ | .tryReturn _ | .wakeUp _ | .take _ | .drop _
  | .writeDone _ | .loopTake | .loopWriteDone | .addAsyncCleanup | .read | .check | .finish _
  | .resetTasks | .close | .exit | .destroy | .asyncCheck | .asyncWakeUp | .asyncFinish
  | .asyncWriteDone | .strayByte => .isTrue trivial

instance (s : Incoming T) : Decidable s.inEvent := inferInstanceAs (Decidable (_ ∧ _))

instance (s : Incoming T) : ∀ a : IncomingAction T, Decidable (s.enabled a)
  | .loop a => inferInstanceAs (Decidable (Loop.enabled s.loop a ∧ s.Spares a))
  | .listen | .serveStream => inferInstanceAs (Decidable (s.loop.turn ∧ _ ≠ _))
  | .accept | .acceptFails => inferInstanceAs (Decidable (s.inEvent ∧ _ = _))
  | .disconnect _ => inferInstanceAs (Decidable (s.inEvent ∧ _ ∧ _ = _))
  | .handle => inferInstanceAs (Decidable (s.inEvent ∧ _ ≠ _))

instance (s : Incoming T) (a : IncomingAction T) : Decidable ((serving T).enabled s a) :=
  inferInstanceAs (Decidable (s.enabled a))

/-! ## What the loop does to the references on its thread -/

theorem reset_live (s : State T) (o : Owner T) (p : Thread T) :
    (s.reset o p).live = s.live.erase o := by
  unfold State.reset
  split <;> rfl

theorem loopReset_live (s : State T) (o : Owner T) : (s.loopReset o).live = s.live.erase o := by
  unfold State.loopReset
  split <;> rfl

theorem tryInstall_live (s : State T) (p : Thread T) : (s.tryInstall p).live = s.live := by
  unfold State.tryInstall
  split <;> rfl

omit [DecidableEq T] in
theorem addAsyncCleanup_live (s : State T) : s.addAsyncCleanup.live = s.live := by
  unfold State.addAsyncCleanup State.startAsyncThread
  split_ifs <;> rfl

/-- Dropping another reference leaves those of the loop thread. -/
theorem count_erase_other (live : Multiset (Owner T)) {o : Owner T} (h : o ≠ .loop) :
    (live.erase o).count .loop = live.count .loop :=
  Multiset.count_erase_of_ne h.symm live

/-- Only a drop or a move takes a reference of the loop thread away. -/
theorem loop_refs_next (s : State T) (a : Action T) (drop : a ≠ .loopDrop)
    (move : ∀ dst, a ≠ .move .loop dst) :
    s.live.count .loop ≤ (next s a).live.count .loop := by
  have hcons : ∀ o : Owner T, s.live.count .loop ≤ (o ::ₘ s.live).count .loop := fun o =>
    Multiset.count_le_of_le _ (Multiset.le_cons_self _ _)
  have herase : ∀ {t : State T} {o : Owner T}, o ≠ .loop → t.live = s.live.erase o →
      s.live.count .loop ≤ t.live.count .loop := by
    intro t o ho ht
    rw [ht, count_erase_other _ ho]
  cases a with
  | post p =>
    have hlive : (next s (.post p)).live = .post p ::ₘ s.live := tryInstall_live _ p
    rw [hlive]
    exact hcons _
  | tryInstall p => exact (congrArg (Multiset.count .loop) (tryInstall_live s p)).ge
  | tryReturn p =>
    change _ ≤ (s.tryReturn p).live.count .loop
    unfold State.tryReturn
    split
    · exact Nat.le_refl _
    · exact herase (by nofun) (reset_live _ _ _)
  | take p => exact hcons _
  | loopTake => exact hcons _
  | drop p => exact herase (by nofun) (reset_live _ _ _)
  | loopDrop => exact absurd rfl drop
  | move src dst =>
    have hsrc : src ≠ .loop := by
      rintro rfl
      exact move dst rfl
    calc s.live.count .loop = (s.live.erase src).count .loop := (count_erase_other _ hsrc).symm
      _ ≤ (dst ::ₘ s.live.erase src).count .loop :=
        Multiset.count_le_of_le _ (Multiset.le_cons_self _ _)
  | addAsyncCleanup => exact (congrArg (Multiset.count .loop) (addAsyncCleanup_live s)).ge
  | check =>
    change _ ≤ s.check.live.count .loop
    unfold State.check
    split <;> exact Nat.le_refl _
  | asyncCheck =>
    change _ ≤ s.asyncCheck.live.count .loop
    unfold State.asyncCheck
    split
    · exact Nat.le_refl _
    · exact Nat.le_refl _
    · exact hcons _
  | asyncFinish =>
    change _ ≤ s.asyncFinish.live.count .loop
    unfold State.asyncFinish
    split
    · exact herase (by nofun) rfl
    · exact herase (by nofun) rfl
  | _ => exact Nat.le_refl _

/-- The loop is left by a look that finds `done()`. -/
theorem left_next {s : State T} (inside : s.loop.inside = true) (a : Action T) (ha : enabled s a)
    (outside : (next s a).loop.inside = false) : s.done = true := by
  have hsame : (next s a).loop = s.loop → s.done = true := by
    intro hloop
    rw [hloop, inside] at outside
    cases outside
  have hpc : ∀ {pc : LoopPc T}, s.loop = pc → pc.inside = false → s.done = true := by
    intro pc hs hout
    rw [hs, hout] at inside
    cases inside
  cases a with
  | check =>
    have hloop : (next s .check).loop = s.check.loop := rfl
    rw [hloop] at outside
    unfold State.check at outside
    split at outside
    · cases outside
    · by_contra hd
      rw [if_neg hd] at outside
      cases outside
  | read => cases outside
  | finish threw => cases outside
  | resetTasks => exact hpc ha.1 rfl
  | close => exact hpc ha rfl
  | exit => exact hpc ha rfl
  | destroy => exact hpc ha.1 rfl
  | post p => exact hsame (tryInstall_loop _ p)
  | tryInstall p => exact hsame (tryInstall_loop s p)
  | tryReturn p =>
    refine hsame ?_
    change (s.tryReturn p).loop = s.loop
    unfold State.tryReturn State.reset
    split_ifs <;> rfl
  | drop p =>
    refine hsame ?_
    change (s.reset (.thread p) p).loop = s.loop
    unfold State.reset
    split <;> rfl
  | loopDrop =>
    refine hsame ?_
    change (s.loopReset .loop).loop = s.loop
    unfold State.loopReset
    split <;> rfl
  | addAsyncCleanup =>
    refine hsame ?_
    change s.addAsyncCleanup.loop = s.loop
    unfold State.addAsyncCleanup State.startAsyncThread
    split_ifs <;> rfl
  | asyncCheck =>
    refine hsame ?_
    change s.asyncCheck.loop = s.loop
    unfold State.asyncCheck
    split <;> rfl
  | asyncFinish =>
    refine hsame ?_
    change s.asyncFinish.loop = s.loop
    unfold State.asyncFinish
    split <;> rfl
  | _ => exact hsame rfl

/-! ## The invariant -/

/-- A connection in the list holds a reference; those that are disconnected are the ones queued to
be erased, each once; one that is no longer there was erased once; and the loop is not left before
all are gone. -/
structure Registered (s : Incoming T) : Prop where
  accounts : Accounts s.loop
  refs : s.connections.length ≤ s.loop.live.count .loop
  nodup : s.connections.Nodup
  accepted : ∀ i ∈ s.connections, i < s.accepted
  queued : s.handlers.Nodup
  handlers : ∀ i, i ∈ s.handlers ↔ i ∈ s.connections ∧ s.disconnected i = true
  fresh : ∀ i, s.disconnected i = true → i < s.accepted
  gone : ∀ i < s.accepted, i ∉ s.connections → s.disconnected i = true
  erased : ∀ i, s.erased i = if i < s.accepted ∧ i ∉ s.connections then 1 else 0
  left : s.loop.loop.inside = false → s.connections = []

/-- At the start no connection was accepted. -/
theorem registered_of_listens {s : Incoming T} (h : Listens s) : Registered s where
  accounts := accounts_of_starts h.loop
  refs := by
    rw [h.connections]
    exact Nat.zero_le _
  nodup := by
    rw [h.connections]
    exact List.nodup_nil
  accepted := by
    rw [h.connections]
    nofun
  queued := by
    rw [h.handlers]
    exact List.nodup_nil
  handlers i := by
    rw [h.handlers, h.connections]
    exact iff_of_false (List.not_mem_nil) fun hi => List.not_mem_nil hi.1
  fresh i hi := by
    rw [h.disconnected] at hi
    cases hi
  gone i hi := by
    rw [h.accepted] at hi
    exact absurd hi (Nat.not_lt_zero i)
  erased i := by
    rw [h.erased, h.accepted, if_neg fun hi => Nat.not_lt_zero i hi.1]
  left _ := h.connections

variable {s : Incoming T}

/-- With a connection there, a reference is live and `done()` is false. -/
theorem Registered.working (h : Registered s) (some : s.connections ≠ []) :
    s.loop.done = false := by
  by_contra hd
  have hlive := live_eq_zero_of_done h.accounts (Bool.not_eq_false _ ▸ hd)
  have hpos := List.length_pos_of_ne_nil some
  have hrefs := h.refs
  rw [hlive, Multiset.count_zero] at hrefs
  omega

theorem Registered.refs_next (h : Registered s) {a : Action T} (ha : Loop.enabled s.loop a)
    (spares : s.Spares a) : s.connections.length ≤ (Loop.next s.loop a).live.count .loop := by
  have herase : s.connections.length < s.loop.live.count .loop →
      s.connections.length ≤ (s.loop.live.erase .loop).count .loop := by
    intro hlt
    rw [Multiset.count_erase_self]
    omega
  by_cases hdrop : a = .loopDrop
  · subst hdrop
    exact (herase spares).trans (congrArg (Multiset.count .loop) (loopReset_live s.loop .loop)).ge
  · by_cases hmove : ∃ dst, a = .move .loop dst
    · obtain ⟨dst, rfl⟩ := hmove
      exact (herase (spares rfl)).trans
        (Multiset.count_le_of_le _ (Multiset.le_cons_self (s.loop.live.erase .loop) dst))
    · exact h.refs.trans (loop_refs_next s.loop a hdrop fun dst he => hmove ⟨dst, he⟩)

theorem Registered.left_next (h : Registered s) {a : Action T} (ha : Loop.enabled s.loop a)
    (outside : (Loop.next s.loop a).loop.inside = false) : s.connections = [] := by
  by_contra hsome
  have hinside : s.loop.loop.inside = true := by
    by_contra hno
    exact hsome (h.left (Bool.not_eq_true _ ▸ hno))
  have hdone := Loop.left_next hinside a ha outside
  rw [h.working hsome] at hdone
  cases hdone

/-- A step of the loop that leaves the connections alone. -/
theorem registered_loop (h : Registered s) {a : Action T} (ha : Loop.enabled s.loop a)
    (spares : s.Spares a) : Registered { s with loop := Loop.next s.loop a } :=
  { h with
    accounts := accounts_next h.accounts a ha
    refs := h.refs_next ha spares
    left := h.left_next ha }

/-- `m_task_set.reset()` finds no function to drop. -/
theorem registered_resetTasks (h : Registered s) (ha : Loop.enabled s.loop .resetTasks) :
    Registered { s with
      loop := Loop.next s.loop .resetTasks, listening := false, handlers := [] } := by
  have hnone : s.connections = [] := h.left (by rw [ha.1]; rfl)
  have hloop := registered_loop h ha trivial
  refine { hloop with queued := List.nodup_nil, handlers := fun i => ?_ }
  change i ∈ [] ↔ i ∈ s.connections ∧ _
  rw [hnone]
  exact iff_of_false List.not_mem_nil fun hi => List.not_mem_nil hi.1

/-- An accepted connection is registered with a reference. -/
theorem registered_serve (h : Registered s) (turn : s.loop.turn)
    (inside : s.loop.loop ≠ .breaking) : Registered s.serve where
  accounts := accounts_next h.accounts .loopTake turn
  refs := by
    change s.connections.length + 1 ≤ (Owner.loop ::ₘ s.loop.live).count .loop
    rw [Multiset.count_cons_self]
    exact Nat.succ_le_succ h.refs
  nodup := List.nodup_cons.mpr ⟨fun hi => Nat.lt_irrefl _ (h.accepted _ hi), h.nodup⟩
  accepted i hi := by
    rcases List.mem_cons.mp hi with rfl | hi
    · exact Nat.lt_succ_self _
    · exact Nat.lt_succ_of_lt (h.accepted i hi)
  queued := h.queued
  handlers i := by
    refine (h.handlers i).trans (and_congr_left fun hd => ?_)
    exact ⟨fun hi => List.mem_cons_of_mem _ hi, fun hi => (List.mem_cons.mp hi).resolve_left
      fun he => Nat.lt_irrefl _ (he ▸ h.fresh i hd)⟩
  fresh i hd := Nat.lt_succ_of_lt (h.fresh i hd)
  gone i hi hout := by
    have hne : i ≠ s.accepted := fun he => hout (he ▸ List.mem_cons_self)
    have hlt : i < s.accepted + 1 := hi
    exact h.gone i (by omega) fun hmem => hout (List.mem_cons_of_mem _ hmem)
  erased i := by
    refine (h.erased i).trans (if_congr ?_ rfl rfl)
    change i < s.accepted ∧ i ∉ s.connections ↔ i < s.accepted + 1 ∧ i ∉ s.accepted :: s.connections
    rw [List.mem_cons, not_or]
    constructor
    · exact fun ⟨hlt, hout⟩ => ⟨Nat.lt_succ_of_lt hlt, Nat.ne_of_lt hlt, hout⟩
    · exact fun ⟨hlt, hne, hout⟩ => ⟨by omega, hout⟩
  left hout := by
    have hbusy : s.loop.loop.inside = true := by
      rcases turn.2 with hr | ⟨c, hc⟩ | hb
      · rw [hr]
        rfl
      · rw [hc]
        rfl
      · exact absurd hb inside
    have hloop : s.serve.loop.loop = s.loop.loop := rfl
    rw [hloop, hbusy] at hout
    cases hout

/-- A peer that goes queues the handler of its connection. -/
theorem registered_disconnect (h : Registered s) {i : Nat} (mem : i ∈ s.connections)
    (up : s.disconnected i = false) : Registered (s.disconnect i) :=
  { h with
    queued := by
      refine List.nodup_append.mpr ⟨h.queued, List.nodup_singleton i, ?_⟩
      rintro j hj k hk rfl
      rw [List.mem_singleton.mp hk] at hj
      have hd := ((h.handlers i).mp hj).2
      rw [up] at hd
      cases hd
    handlers := fun j => by
      change j ∈ s.handlers ++ [i] ↔
        j ∈ s.connections ∧ Function.update s.disconnected i true j = true
      rw [List.mem_append, List.mem_singleton, h.handlers, Function.update_apply]
      split
      · next he =>
        subst he
        exact iff_of_true (.inr rfl) ⟨mem, rfl⟩
      · next he => exact or_iff_left he
    fresh := fun j hj => by
      change Function.update s.disconnected i true j = true at hj
      rw [Function.update_apply] at hj
      split at hj
      · next he => exact he ▸ h.accepted i mem
      · exact h.fresh j hj
    gone := fun j hj hout => by
      change Function.update s.disconnected i true j = true
      rw [Function.update_apply]
      split
      · rfl
      · exact h.gone j hj hout }

theorem handle_cons {i : Nat} {rest : List Nat} (handlers : s.handlers = i :: rest) :
    s.handle = { s with
      loop := Loop.next s.loop .loopDrop
      connections := s.connections.erase i
      handlers := rest
      erased := Function.update s.erased i (s.erased i + 1) } := by
  unfold Incoming.handle
  rw [handlers]

/-- The handler erases it and gives the reference up. -/
theorem registered_handle (h : Registered s) (event : s.inEvent) {i : Nat} {rest : List Nat}
    (handlers : s.handlers = i :: rest) : Registered s.handle := by
  obtain ⟨hmem, hdown⟩ := (h.handlers i).mp (by rw [handlers]; exact List.mem_cons_self)
  obtain ⟨hnot, hrest⟩ := List.nodup_cons.mp (handlers ▸ h.queued)
  have hpos := List.length_pos_of_mem hmem
  have hlen : (s.connections.erase i).length + 1 = s.connections.length := by
    rw [List.length_erase_of_mem hmem]
    omega
  have hrefs := h.refs
  have hlive : Owner.loop ∈ s.loop.live := Multiset.count_pos.mp (by omega)
  have ha : Loop.enabled s.loop .loopDrop := ⟨event.1, hlive⟩
  rw [handle_cons handlers]
  refine
    { h with
      accounts := accounts_next h.accounts .loopDrop ha
      refs := ?_
      nodup := h.nodup.erase i
      accepted := fun j hj => h.accepted j (List.mem_of_mem_erase hj)
      queued := hrest
      handlers := fun j => ?_
      gone := fun j hj hout => ?_
      erased := fun j => ?_
      left := fun hout => ?_ }
  · change (s.connections.erase i).length ≤ (s.loop.loopReset .loop).live.count .loop
    rw [loopReset_live, Multiset.count_erase_self]
    omega
  · change j ∈ rest ↔ j ∈ s.connections.erase i ∧ _
    rw [h.nodup.mem_erase_iff, and_assoc, ← h.handlers j, handlers, List.mem_cons]
    constructor
    · exact fun hj => ⟨fun he => hnot (he ▸ hj), .inr hj⟩
    · exact fun hj => hj.2.resolve_left hj.1
  · by_cases he : j = i
    · rw [he]
      exact hdown
    · exact h.gone j hj fun hj => hout ((List.mem_erase_of_ne he).mpr hj)
  · change Function.update s.erased i (s.erased i + 1) j =
      if j < s.accepted ∧ j ∉ s.connections.erase i then 1 else 0
    rw [Function.update_apply]
    split
    · next he =>
      subst he
      rw [h.erased, if_neg fun hout => hout.2 hmem,
        if_pos ⟨h.accepted j hmem, h.nodup.not_mem_erase⟩]
    · next he =>
      rw [h.erased]
      refine if_congr (and_congr_right fun _ => not_congr ?_) rfl rfl
      exact (List.mem_erase_of_ne he).symm
  · rw [h.left_next ha hout] at hmem
    cases hmem

/-- Every step keeps the connections registered. -/
theorem registered_next (h : Registered s) (a : IncomingAction T) (ha : s.enabled a) :
    Registered (s.next a) := by
  cases a with
  | loop a =>
    cases a with
    | resetTasks => exact registered_resetTasks h ha.1
    | _ => exact registered_loop h ha.1 ha.2
  | listen | acceptFails => exact { h with }
  | accept => exact registered_serve h ha.1.1 (by rw [ha.1.2]; nofun)
  | serveStream => exact registered_serve h ha.1 ha.2
  | disconnect i => exact registered_disconnect h ha.2.1 ha.2.2
  | handle =>
    obtain ⟨i, rest, hhandlers⟩ := List.exists_cons_of_ne_nil ha.2
    exact registered_handle h ha.1 hhandlers

/-- So they are in every reachable state. -/
theorem registered_reachable (h : (serving T).Reachable s) : Registered s :=
  h.invariant (I := Registered) (fun _ => registered_of_listens) fun _ a hs ha =>
    registered_next hs a ha

/-! ## Every disconnected connection is erased -/

/-- The steps by which the loop thread runs the functions of `onDisconnect`. -/
def IncomingAction.handles : IncomingAction T → Prop
  | .handle | .loop .loopWriteDone => True
  | _ => False

/-- One function runs, and the byte of its `reset` is written. -/
theorem handled (event : s.inEvent) (some : s.handlers ≠ []) :
    ∃ as t, as.length ≤ 2 ∧ (∀ a ∈ as, a.handles) ∧ (serving T).Path s as t ∧ t.inEvent ∧
      t.handlers.length + 1 = s.handlers.length ∧ t.accepted = s.accepted ∧
      t.disconnected = s.disconnected := by
  obtain ⟨i, rest, hhandlers⟩ := List.exists_cons_of_ne_nil some
  have ha : s.enabled .handle := ⟨event, some⟩
  have hnext : s.next .handle = _ := handle_cons hhandlers
  have hreading : (Loop.next s.loop .loopDrop).loop = .reading := by
    change (s.loop.loopReset .loop).loop = .reading
    unfold State.loopReset
    split <;> exact event.2
  cases hwake : (Loop.next s.loop .loopDrop).loopWake with
  | false =>
    refine ⟨[.handle], s.next .handle, Nat.le_succ 1, List.forall_mem_singleton.mpr trivial,
      .single ha, ?_⟩
    rw [hnext, hhandlers]
    exact ⟨⟨⟨hwake, .inl hreading⟩, hreading⟩, rfl, rfl, rfl⟩
  | true =>
    have hb : (s.next .handle).enabled (.loop .loopWriteDone) := by
      rw [hnext]
      exact ⟨hwake, trivial⟩
    refine ⟨[.handle, .loop .loopWriteDone], (s.next .handle).next (.loop .loopWriteDone),
      Nat.le_refl 2, ?_, .cons ha (.single hb), ?_⟩
    · rintro a hm
      rcases List.mem_cons.mp hm with rfl | hm
      · trivial
      · rw [List.mem_singleton.mp hm]
        trivial
    · rw [hnext, hhandlers]
      exact ⟨⟨⟨rfl, .inl hreading⟩, hreading⟩, rfl, rfl, rfl⟩

/-- All of them. -/
theorem all_handled (h : Registered s) (event : s.inEvent) :
    ∃ as t, as.length ≤ 2 * s.handlers.length ∧ (∀ a ∈ as, a.handles) ∧
      (serving T).Path s as t ∧ Registered t ∧ t.handlers = [] ∧ t.accepted = s.accepted ∧
      t.disconnected = s.disconnected := by
  induction hn : s.handlers.length generalizing s with
  | zero =>
    exact ⟨[], s, Nat.zero_le _, nofun, .nil s, h, List.length_eq_zero_iff.mp hn, rfl, rfl⟩
  | succ n ih =>
    have hsome : s.handlers ≠ [] := List.ne_nil_of_length_eq_add_one hn
    obtain ⟨as, t, hlen, has, hst, hevent, hless, hacc, hdis⟩ := handled event hsome
    have ht : Registered t :=
      hst.keeps (I := Registered) (fun _ a hs ha => registered_next hs a ha) h
    obtain ⟨bs, u, hlen', hbs, htu, hu, hempty, hacc', hdis'⟩ := ih ht hevent (by omega)
    refine ⟨as ++ bs, u, ?_, fun a ha => ?_, hst.append htu, hu, hempty, hacc'.trans hacc,
      hdis'.trans hdis⟩
    · rw [List.length_append]
      omega
    · exact (List.mem_append.mp ha).elim (has a) (hbs a)

/-! ## With and without a reference -/

/-- The discipline of `Loop/Shutdown.lean`, kept by whoever accepts a connection too. -/
def Incoming.Holds (s : Incoming T) : IncomingAction T → Prop
  | .loop a => HoldsRef s.loop a
  | .accept | .serveStream => HoldsRef s.loop .loopTake
  | .listen | .acceptFails | .disconnect _ | .handle => True

instance (s : Incoming T) : ∀ a : IncomingAction T, Decidable (s.Holds a)
  | .loop a => inferInstanceAs (Decidable (HoldsRef s.loop a))
  | .accept | .serveStream => inferInstanceAs (Decidable (HoldsRef s.loop .loopTake))
  | .listen | .acceptFails | .disconnect _ | .handle => .isTrue trivial

/-- Under the discipline, a step is a disciplined step of the event loop or leaves it alone. -/
theorem disciplined_next (h : Registered s) (hd : (disciplined T).Reachable s.loop)
    (a : IncomingAction T) (ha : s.enabled a) (holds : s.Holds a) :
    (disciplined T).Reachable (s.next a).loop := by
  have hstep : ∀ b : Action T, Loop.enabled s.loop b → HoldsRef s.loop b →
      (disciplined T).Reachable (Loop.next s.loop b) := fun b hb hr =>
    hd.path (.single ⟨hr, hb⟩)
  cases a with
  | loop b =>
    have hloop : (s.next (.loop b)).loop = Loop.next s.loop b := by cases b <;> rfl
    rw [hloop]
    exact hstep b ha.1 holds
  | listen | acceptFails | disconnect i => exact hd
  | accept => exact hstep .loopTake ha.1.1 holds
  | serveStream => exact hstep .loopTake ha.1 holds
  | handle =>
    obtain ⟨i, rest, hhandlers⟩ := List.exists_cons_of_ne_nil ha.2
    have hmem := ((h.handlers i).mp (by rw [hhandlers]; exact List.mem_cons_self)).1
    have hrefs := h.refs
    have hpos := List.length_pos_of_mem hmem
    rw [show (s.next .handle).loop = _ from congrArg Incoming.loop (handle_cons hhandlers)]
    exact hstep .loopDrop ⟨ha.1.1, Multiset.count_pos.mp (by omega)⟩ trivial

/-- **Incoming connections.** Whatever connects and disconnects, and whether or not anything else
holds a reference: a connection that was accepted is in the list, or its peer has gone and it has
been erased once; the loop is not left before the second is true of all; and those whose peers have
gone are erased by a bounded run of the loop thread. If connections are accepted only while a
reference is held, every byte is written to an open descriptor. -/
theorem connections_erased_once {start : Incoming T} {as : List (IncomingAction T)}
    (listens : Listens start) (path : (serving T).Path start as s) :
    (∀ i < s.accepted, i ∈ s.connections ∧ s.erased i = 0 ∨
      i ∉ s.connections ∧ s.disconnected i = true ∧ s.erased i = 1) ∧
    (s.loop.loop.inside = false → ∀ i < s.accepted, s.erased i = 1) ∧
    (s.inEvent → ∃ bs t, bs.length ≤ 2 * s.handlers.length ∧ (∀ b ∈ bs, b.handles) ∧
      (serving T).Path s bs t ∧ ∀ i, s.disconnected i = true → t.erased i = 1) ∧
    (start.loop.live ≠ 0 → (serving T).Meets Incoming.Holds start as →
      s.loop.badWrite = false) := by
  have h : Registered s := registered_reachable ⟨start, as, listens, path⟩
  have hgone : ∀ {t : Incoming T}, Registered t → ∀ i < t.accepted, i ∉ t.connections →
      t.erased i = 1 := fun ht i hi hout => by rw [ht.erased, if_pos ⟨hi, hout⟩]
  refine ⟨fun i hi => ?_, fun hout i hi => ?_, fun hevent => ?_, fun hlive hholds => ?_⟩
  · by_cases hmem : i ∈ s.connections
    · exact .inl ⟨hmem, by rw [h.erased, if_neg fun hout => hout.2 hmem]⟩
    · exact .inr ⟨hmem, h.gone i hi hmem, hgone h i hi hmem⟩
  · refine hgone h i hi ?_
    rw [h.left hout]
    exact List.not_mem_nil
  · obtain ⟨bs, t, hlen, hbs, hst, ht, hempty, hacc, hdis⟩ := all_handled h hevent
    refine ⟨bs, t, hlen, hbs, hst, fun i hi => hgone ht i (hacc ▸ h.fresh i hi) fun hmem => ?_⟩
    have hqueued := (ht.handlers i).mpr ⟨hmem, hdis ▸ hi⟩
    rw [hempty] at hqueued
    exact List.not_mem_nil hqueued
  · have hboth : Registered s ∧ (disciplined T).Reachable s.loop :=
      path.keeps_of_meets (I := fun t => Registered t ∧ (disciplined T).Reachable t.loop)
        (fun t a ht ha hok => ⟨registered_next ht.1 a ha, disciplined_next ht.1 ht.2 a ha hok⟩)
        hholds ⟨registered_of_listens listens, .start ⟨listens.loop, hlive⟩⟩
    cases (disciplined_reachable hboth.2).handshake with
    | looping _ safe => exact safe.noBadWrite
    | leaving hl => exact hl.noBadWrite

def twoListening : Incoming Bool where
  loop := twoThreads
  listening := false
  connections := []
  accepted := 0
  disconnected _ := false
  handlers := []
  erased _ := 0

theorem twoListening_listens : Listens twoListening :=
  ⟨twoThreads_starts, rfl, rfl, rfl, fun _ => rfl, rfl, fun _ => rfl⟩

/-- Two peers connect and one of them disconnects. -/
def twoPeers : List (IncomingAction Bool) := [.listen, .accept, .accept, .disconnect 0]

/-- The first connection is erased by the loop thread's next steps. -/
theorem connections_erased_once_two :
    ∃ s, (serving Bool).Path twoListening twoPeers s ∧
      s.connections = [1, 0] ∧ s.loop.badWrite = false ∧
      ∃ bs t, bs.length ≤ 2 * s.handlers.length ∧ (∀ b ∈ bs, b.handles) ∧
        (serving Bool).Path s bs t ∧ ∀ i, s.disconnected i = true → t.erased i = 1 := by
  have hrun : ((serving Bool).run twoListening twoPeers).map
      (fun s => decide (s.connections = [1, 0]) && decide s.inEvent) = some true := by decide
  obtain ⟨s, hs, hp⟩ := Option.map_eq_some_iff.mp hrun
  obtain ⟨hconnections, hevent⟩ := Bool.and_eq_true_iff.mp hp
  have hpath := System.run_eq_some_iff.mp hs
  obtain ⟨-, -, hdrain, hsafe⟩ := connections_erased_once twoListening_listens hpath
  exact ⟨s, hpath, of_decide_eq_true hconnections, hsafe (by decide) (by decide),
    hdrain (of_decide_eq_true hevent)⟩

/-- The last reference goes, and before the byte of its `reset` is written a peer connects and
disconnects: the loop ends by that connection's byte, and the first finds the descriptor closed. -/
theorem accept_late : ∃ s, (serving Bool).Reachable s ∧ s.loop.badWrite = true := by
  refine System.exists_reachable_of_run (serving Bool) twoListening_listens
    [.listen, .loop (.move .loop (.thread (.client false))), .loop (.drop (.client false)), .accept,
      .disconnect 0, .handle, .loop .loopWriteDone, .loop .read, .loop .check, .loop .resetTasks,
      .loop .close, .loop (.writeDone (.client false))]
    (fun s => s.loop.badWrite) (by decide)

end Multiprocess.Loop
