import Multiprocess.Thread.Cancel

/-!
# Several Thread objects of one thread

A thread is reached through any number of `ProxyServer<Thread>` objects: the one `makeThread`
returned, which owns the thread, and one for each connection over which the thread has made a call
with a `Context` argument (`src/include/mp/type-context.h`). Each object has an `m_thread_ready` of
its own, while `Waiter::m_fn` and the worker are shared, so that the calls of all objects are one
`State` here and only the chains are told apart.

Only the two assertions and the end of the `Waiter` are looked at. What a call comes to is said in
`Serves` and `Order`, for one object.
-/

namespace Multiprocess.Thread

open Transition (System)

variable {E V : Type}

/-- A thread and its Thread objects. Object 0 is that of `makeThread` (nobody holds it when `made`
is false, for a thread of the program's own), the others were made by `CustomBuildField`. -/
structure Shared (E V : Type) where
  /-- the calls of all objects in the order they were made, with the slot and the frames -/
  thread : State E V
  made : Bool
  /-- the object a call was made on -/
  object : Nat → Nat
  /-- the call whose `ready.promise` the call waits for; `none` is `READY_NOW` -/
  after : Nat → Option Nat
  /-- `m_thread_ready` of each object -/
  last : Nat → Option Nat
  /-- a peer has the capability -/
  held : Nat → Bool
  objects : Nat
  /-- `callback_threads`, by connection -/
  callback : Nat → Option Nat
  /-- the thread is in its outermost `Waiter::wait` -/
  waiting : Bool
  /-- `thread_context.waiter` is set -/
  waiter : Bool
  /-- `assert(!waiter->m_fn)` has failed -/
  busy : Bool
  /-- a function was posted after `thread_context.waiter` was moved away -/
  orphaned : Bool

namespace Shared

/-- `m_thread_ready` as it was when the call was made. -/
def threadReady (s : Shared E V) (i : Nat) : Ready :=
  match s.after i with
  | none => .fulfilled
  | some p => (s.thread.requests p).ready

/-- `ProxyServer<Thread>::post` of object `h`. -/
def post (s : Shared E V) (h : Nat) : Shared E V :=
  { s with
    thread := s.thread.post
    object := Function.update s.object s.thread.posted h
    after := Function.update s.after s.thread.posted (s.last h)
    last := Function.update s.last h (some s.thread.posted) }

/-- The continuation of `m_thread_ready`, which goes through `m_thread_context.waiter`. -/
def proceed (s : Shared E V) (i : Nat) : Shared E V :=
  if s.waiter then { s with thread := s.thread.proceed i } else { s with orphaned := true }

/-- `SetThread` for the `callbackThread` argument: the entry of the connection, or a new object. The
message hands it to the peer. -/
def handOut (s : Shared E V) (c : Nat) : Shared E V :=
  match s.callback c with
  | some h => { s with held := Function.update s.held h true }
  | none =>
    { s with
      callback := Function.update s.callback c (some s.objects)
      held := Function.update s.held s.objects true
      objects := s.objects + 1 }

/-- The thread enters `Waiter::wait` for an IPC call it makes. -/
def await (s : Shared E V) : Shared E V :=
  match s.thread.frames with
  | [] => { s with waiting := true }
  | _ :: _ => { s with thread := s.thread.updateTop ({ · with stage := .calling }) }

/-- An IPC call, with the connection of its `Context` argument if it has one. -/
def call (s : Shared E V) : Option Nat → Shared E V
  | some c => (s.handOut c).await
  | none => s.await

/-- The IPC call is answered and `Waiter::wait` returns. -/
def answer (s : Shared E V) : Shared E V :=
  match s.thread.frames with
  | [] => { s with waiting := false }
  | _ :: _ => { s with thread := s.thread.updateTop ({ · with stage := .running }) }

/-- `~ProxyServer<Thread>` of the object of `makeThread`. -/
def destroy (s : Shared E V) : Shared E V :=
  { s with waiter := false, busy := s.thread.slot.isSome, callback := fun _ => none }

/-- The event loop is not in `m_thread.join()`, which returns when the worker's stack is empty. -/
def loopRuns (s : Shared E V) : Prop := s.waiter = true ∨ s.thread.frames = []

/-- The thread is in a `Waiter::wait`. -/
def waits (s : Shared E V) : Prop :=
  s.thread.frames = [] ∧ s.waiting = true ∨ s.thread.top = some .calling

/-- Neither assertion has failed, and no function was posted to a `Waiter` that is gone. -/
structure Guarded (s : Shared E V) : Prop where
  posted : s.thread.asserted = false
  idle : s.busy = false
  attached : s.orphaned = false

end Shared

/-- The steps of the peers and the event loop (`request`, `drop`, `proceed`, `reject`, `cancel`,
`destroy` and the functions of `signal`, `call`, `answer` and `resolve`) and of the worker. -/
inductive Shared.Action (E V : Type) where
  | request (h : Nat)
  | drop (h : Nat)
  | proceed (i : Nat)
  | reject (i : Nat)
  | cancel (i : Nat)
  | take
  | signal
  | call (c : Option Nat)
  | answer
  | ret (result : Except E V)
  | resolve
  | destroy

namespace Shared

/-- Where a step can happen; a failed assertion ends the process. A closure holds a reference to
its object (`self`) until it has run or is destroyed. -/
def enabled (s : Shared E V) (a : Action E V) : Prop :=
  s.Guarded ∧
  match a with
  | .request h => s.loopRuns ∧ s.held h = true
  | .drop h => s.loopRuns ∧ s.held h = true
  | .proceed i => s.loopRuns ∧ i < s.thread.posted ∧ (s.thread.requests i).stage = .chained ∧
      s.threadReady i = .fulfilled
  | .reject i => s.loopRuns ∧ i < s.thread.posted ∧ (s.thread.requests i).stage = .chained ∧
      (s.thread.requests i).promise = .pending ∧ s.threadReady i = .rejected
  | .cancel i => s.loopRuns ∧ i < s.thread.posted ∧
      ((s.thread.requests i).promise = .pending ∨ (s.thread.requests i).stage = .chained)
  | .take => s.waits ∧ s.thread.slot.isSome = true
  | .signal => s.loopRuns ∧ s.thread.top = some .signaling
  | .call _ => s.loopRuns ∧
      (s.thread.frames = [] ∧ s.waiting = false ∨ s.thread.top = some .running)
  | .answer => s.loopRuns ∧ s.thread.slot = none ∧
      (s.thread.frames = [] ∧ s.waiting = true ∧ s.made = false ∨ s.thread.top = some .calling)
  | .ret _ => s.thread.top = some .running
  | .resolve => s.loopRuns ∧ ∃ result, s.thread.top = some (.resolving result)
  | .destroy => s.made = true ∧ s.waiter = true ∧ s.held 0 = false ∧
      ∀ i < s.thread.posted, s.object i = 0 →
        (s.thread.requests i).stage = .finished ∨ (s.thread.requests i).stage = .dropped

/-- What a step does. -/
def next (s : Shared E V) : Action E V → Shared E V
  | .request h => s.post h
  | .drop h => { s with held := Function.update s.held h false }
  | .proceed i => s.proceed i
  | .reject i => { s with thread := s.thread.reject i }
  | .cancel i => { s with thread := s.thread.update i Request.destroy }
  | .take => { s with thread := s.thread.take }
  | .signal => { s with thread := s.thread.updateTop Request.signal }
  | .call c => s.call c
  | .answer => s.answer
  | .ret result => { s with thread := s.thread.updateTop (Request.ret result) }
  | .resolve => { s with thread := s.thread.resolve }
  | .destroy => s.destroy

/-- A thread of `makeThread`, whose one object the peer has, or a thread of the program's own, which
has made no call yet. -/
def created (E V : Type) (made : Bool) : Shared E V where
  thread := Thread.created
  made := made
  object _ := 0
  after _ := none
  last _ := none
  held h := made && h == 0
  objects := 1
  callback _ := none
  waiting := made
  waiter := true
  busy := false
  orphaned := false

end Shared

/-- The interleavings of the peers, the event loops and the worker. -/
def shared (E V : Type) (made : Bool) : System (Shared E V) (Shared.Action E V) where
  init s := s = Shared.created E V made
  enabled := Shared.enabled
  next := Shared.next

namespace Shared

instance (s : Shared E V) : Decidable s.Guarded :=
  decidable_of_iff (s.thread.asserted = false ∧ s.busy = false ∧ s.orphaned = false)
    ⟨fun ⟨posted, idle, attached⟩ => ⟨posted, idle, attached⟩,
      fun h => ⟨h.posted, h.idle, h.attached⟩⟩

instance (s : Shared E V) : Decidable s.loopRuns := inferInstanceAs (Decidable (_ ∨ _))

instance [DecidableEq E] [DecidableEq V] (s : Shared E V) : Decidable s.waits :=
  inferInstanceAs (Decidable (_ ∨ _))

instance [DecidableEq E] [DecidableEq V] (s : Shared E V) (a : Action E V) :
    Decidable (s.enabled a) :=
  match a with
  | .request _ | .drop _ | .proceed _ | .reject _ | .cancel _ | .take | .signal | .call _
  | .answer => inferInstanceAs (Decidable (_ ∧ _ ∧ _))
  | .ret _ => inferInstanceAs (Decidable (_ ∧ _ = _))
  | .resolve => inferInstanceAs (Decidable (_ ∧ _ ∧ ∃ _, _))
  | .destroy => inferInstanceAs (Decidable (_ ∧ _ ∧ _ ∧ _ ∧ ∀ i < _, _))

instance [DecidableEq E] [DecidableEq V] (made : Bool) (s : Shared E V) (a : Action E V) :
    Decidable ((shared E V made).enabled s a) := inferInstanceAs (Decidable (s.enabled a))

variable {s : Shared E V}

/-! ## The chain of one object -/

/-- The latest call on object `h` among the first `n`. -/
def IsLatest (object : Nat → Nat) (h n : Nat) : Option Nat → Prop
  | none => ∀ k < n, object k ≠ h
  | some p => p < n ∧ object p = h ∧ ∀ k, p < k → k < n → object k ≠ h

/-- The chains lead from each call to the one before it on the same object. -/
structure Linked (s : Shared E V) : Prop where
  after : ∀ i < s.thread.posted, IsLatest s.object (s.object i) i (s.after i)
  last : ∀ h, IsLatest s.object h s.thread.posted (s.last h)

/-- A call whose continuation has run comes after calls on its object that have been signaled. -/
structure Signaled (object : Nat → Nat) (t : State E V) : Prop where
  ready : ∀ i < t.posted,
    (t.requests i).ready = .fulfilled ↔ (t.requests i).stage.isSignaled = true
  chain : ∀ i < t.posted, (t.requests i).stage ≠ .chained → (t.requests i).stage ≠ .dropped →
    ∀ j < i, object j = object i → (t.requests j).ready = .fulfilled

/-- What every step keeps while no assertion fails. -/
structure Ordered (s : Shared E V) : Prop where
  placed : Placed s.thread
  linked : Linked s
  signaled : Signaled s.object s.thread

/-- A later call changes nothing for the calls before it. -/
theorem isLatest_congr {object object' : Nat → Nat} {h n : Nat} {p : Option Nat}
    (same : ∀ k < n, object' k = object k) (hp : IsLatest object h n p) :
    IsLatest object' h n p := by
  cases p with
  | none =>
    intro k hk
    rw [same k hk]
    exact hp k hk
  | some p =>
    obtain ⟨hlt, he, hlast⟩ := hp
    refine ⟨hlt, by rw [same p hlt]; exact he, fun k hpk hk => ?_⟩
    rw [same k hk]
    exact hlast k hpk hk

/-- A call on another object comes last. -/
theorem isLatest_succ {object : Nat → Nat} {h n : Nat} {p : Option Nat}
    (other : object n ≠ h) (hp : IsLatest object h n p) : IsLatest object h (n + 1) p := by
  have hsplit : ∀ k < n + 1, k < n ∨ k = n := fun k hk => by omega
  cases p with
  | none =>
    intro k hk
    rcases hsplit k hk with hk | rfl
    · exact hp k hk
    · exact other
  | some p =>
    obtain ⟨hlt, he, hlast⟩ := hp
    refine ⟨by omega, he, fun k hpk hk => ?_⟩
    rcases hsplit k hk with hk | rfl
    · exact hlast k hpk hk
    · exact other

theorem linked_post (hl : Linked s) (h : Nat) : Linked (s.post h) := by
  have hsame : ∀ k < s.thread.posted,
      Function.update s.object s.thread.posted h k = s.object k :=
    fun k hk => Function.update_of_ne (Nat.ne_of_lt hk) _ _
  refine ⟨fun i hi => ?_, fun g => ?_⟩
  · change i < s.thread.posted + 1 at hi
    change IsLatest (Function.update s.object s.thread.posted h)
      (Function.update s.object s.thread.posted h i) i
      (Function.update s.after s.thread.posted (s.last h) i)
    rcases Nat.lt_succ_iff_lt_or_eq.mp hi with hlt | rfl
    · rw [Function.update_of_ne (Nat.ne_of_lt hlt), Function.update_of_ne (Nat.ne_of_lt hlt)]
      exact isLatest_congr (fun k hk => hsame k (by omega)) (hl.after i hlt)
    · rw [Function.update_self, Function.update_self]
      exact isLatest_congr hsame (hl.last h)
  · change IsLatest (Function.update s.object s.thread.posted h) g (s.thread.posted + 1)
      (Function.update s.last h (some s.thread.posted) g)
    by_cases he : g = h
    · subst he
      rw [Function.update_self]
      exact ⟨Nat.lt_succ_self _, Function.update_self .., fun k hk hk' => by omega⟩
    · rw [Function.update_of_ne he]
      refine isLatest_succ ?_ (isLatest_congr hsame (hl.last g))
      rw [Function.update_self]
      exact fun hg => he hg.symm

/-- A change of a call that keeps its fields together, and passes its continuation only when the
chain has come to it. -/
theorem signaled_update {object : Nat → Nat} {t : State E V} (h : Signaled object t) {i : Nat}
    {f : Request E V → Request E V}
    (ready : (f (t.requests i)).ready = .fulfilled ↔ (f (t.requests i)).stage.isSignaled = true)
    (kept : (t.requests i).ready = .fulfilled → (f (t.requests i)).ready = .fulfilled)
    (chain : (f (t.requests i)).stage ≠ .chained → (f (t.requests i)).stage ≠ .dropped →
      (t.requests i).stage ≠ .chained ∧ (t.requests i).stage ≠ .dropped ∨
        ∀ j < i, object j = object i → (t.requests j).ready = .fulfilled) :
    Signaled object (t.update i f) where
  ready j hj := by
    rw [update_requests]
    split
    · exact ready
    · exact h.ready j hj
  chain j hj hc hd k hk he := by
    have hold : (t.requests k).ready = .fulfilled := by
      rw [update_requests] at hc hd
      split at hc
      · next hji =>
        subst hji
        rw [if_pos rfl] at hd
        rcases chain hc hd with ⟨hc, hd⟩ | hall
        · exact h.chain j hj hc hd k hk he
        · exact hall k hk he
      · next hji =>
        rw [if_neg hji] at hd
        exact h.chain j hj hc hd k hk he
    rw [update_requests]
    split
    · next hki =>
      subst hki
      exact kept hold
    · exact hold

/-- A change that leaves the closure and `ready.promise` as they are. -/
theorem signaled_kept {object : Nat → Nat} {t : State E V} (h : Signaled object t) {i : Nat}
    (hi : i < t.posted) {f : Request E V → Request E V}
    (stage : (f (t.requests i)).stage = (t.requests i).stage)
    (ready : (f (t.requests i)).ready = (t.requests i).ready) :
    Signaled object (t.update i f) := by
  apply signaled_update h
  · rw [ready, stage]
    exact h.ready i hi
  · rw [ready]
    exact id
  · rw [stage]
    exact fun hc hd => .inl ⟨hc, hd⟩

/-- A step of a closure that has left `m_thread_ready`, other than the one that signals. -/
theorem signaled_move {object : Nat → Nat} {t : State E V} (h : Signaled object t) {i : Nat}
    (hi : i < t.posted) {f : Request E V → Request E V}
    (live : (t.requests i).stage ≠ .chained ∧ (t.requests i).stage ≠ .dropped)
    (stage : (f (t.requests i)).stage.isSignaled = (t.requests i).stage.isSignaled)
    (ready : (f (t.requests i)).ready = (t.requests i).ready) :
    Signaled object (t.update i f) := by
  apply signaled_update h
  · rw [ready, stage]
    exact h.ready i hi
  · rw [ready]
    exact id
  · exact fun _ _ => .inl live

theorem signaled_updateTop {object : Nat → Nat} {t : State E V} (h : Signaled object t)
    (hp : Placed t) {stage : Stage E V} (ht : t.top = some stage)
    (f : Request E V → Request E V)
    (signaled : ∀ q : Request E V, q.stage = stage →
      (f q).stage.isSignaled = stage.isSignaled ∧ (f q).ready = q.ready) :
    Signaled object (t.updateTop f) := by
  obtain ⟨i, rest, hf, hs⟩ := top_eq_some ht
  obtain ⟨hi, htaken⟩ := (hp.frames i).mp (by rw [hf]; exact List.mem_cons_self)
  obtain ⟨hstage, hready⟩ := signaled _ hs
  rw [updateTop_cons hf]
  apply signaled_move h hi
  · constructor
    all_goals
      intro hc
      rw [hc] at htaken
      cases htaken
  · rw [hstage, hs]
  · exact hready

theorem signaled_signal {object : Nat → Nat} {t : State E V} (h : Signaled object t)
    (ht : t.top = some .signaling) : Signaled object (t.updateTop Request.signal) := by
  obtain ⟨i, rest, hf, hs⟩ := top_eq_some ht
  rw [updateTop_cons hf]
  apply signaled_update h
  · exact ⟨fun _ => rfl, fun _ => rfl⟩
  · exact fun _ => rfl
  · intro _ _
    rw [hs]
    exact .inl ⟨nofun, nofun⟩

theorem signaled_cancel {object : Nat → Nat} {t : State E V} (h : Signaled object t) {i : Nat}
    (hi : i < t.posted) : Signaled object (t.update i Request.destroy) := by
  by_cases hc : (t.requests i).stage = .chained
  · have hready := h.ready i hi
    rw [hc] at hready
    apply signaled_update h
    · rw [destroy_chained hc]
      exact ⟨nofun, nofun⟩
    · exact fun hr => nomatch hready.mp hr
    · rw [destroy_chained hc]
      exact fun _ hd => absurd rfl hd
  · apply signaled_kept h hi
    · rw [destroy_posted hc]
    · rw [destroy_posted hc]

theorem signaled_post {t : State E V} {object : Nat → Nat} (h : Signaled object t) (g : Nat) :
    Signaled (Function.update object t.posted g) t.post where
  ready j hj := by
    have hj : j < t.posted + 1 := hj
    rw [post_requests]
    split
    · exact ⟨nofun, nofun⟩
    · exact h.ready j (by omega)
  chain j hj hc hd k hk he := by
    have hj : j < t.posted + 1 := hj
    rw [post_requests] at hc hd ⊢
    split at hc
    · exact absurd rfl hc
    · next hne =>
      rw [if_neg hne] at hd
      rw [if_neg (by omega)]
      rw [Function.update_of_ne hne, Function.update_of_ne (by omega)] at he
      exact h.chain j (by omega) hc hd k hk he

/-- The chain has come to a call whose `m_thread_ready` is fulfilled. -/
theorem fulfilled_before (h : Ordered s) {i : Nat} (hi : i < s.thread.posted)
    (hr : s.threadReady i = .fulfilled) :
    ∀ j < i, s.object j = s.object i → (s.thread.requests j).ready = .fulfilled := by
  intro j hj he
  have hlatest := h.linked.after i hi
  unfold threadReady at hr
  cases ha : s.after i with
  | none =>
    rw [ha] at hlatest
    exact absurd he (hlatest j hj)
  | some p =>
    rw [ha] at hlatest hr
    obtain ⟨hp, hobject, hlast⟩ := hlatest
    rcases Nat.lt_trichotomy j p with hlt | rfl | hgt
    · -- the call before it has been signaled, and so have those before that one
      have hsignaled := (h.signaled.ready p (by omega)).mp hr
      apply h.signaled.chain p (by omega) _ _ j hlt (he.trans hobject.symm)
      all_goals
        intro hs
        rw [hs] at hsignaled
        cases hsignaled
    · exact hr
    · exact absurd he (hlast j hgt hj)

/-- What is in the slot when the turn of a call comes was posted through another object. -/
theorem slot_other (h : Ordered s) {i j : Nat} (hi : i < s.thread.posted)
    (hc : (s.thread.requests i).stage = .chained) (hr : s.threadReady i = .fulfilled)
    (hslot : s.thread.slot = some j) : s.object j ≠ s.object i := by
  obtain ⟨hj, hs⟩ := (h.placed.slot j).mp hslot
  have hjready := h.signaled.ready j hj
  have hiready := h.signaled.ready i hi
  rw [hs] at hjready
  rw [hc] at hiready
  intro he
  rcases Nat.lt_trichotomy j i with hlt | rfl | hgt
  · cases hjready.mp (fulfilled_before h hi hr j hlt he)
  · cases hs.symm.trans hc
  · cases hiready.mp (h.signaled.chain j hj (by rw [hs]; nofun) (by rw [hs]; nofun) i hgt he.symm)

/-! ## The steps that fail -/

/-- The turn of a call comes while the object of `makeThread` exists and no function posted through
another object is in the slot; and that object is destroyed only while none is. -/
def Undisturbed (s : Shared E V) : Action E V → Prop
  | .proceed i => s.waiter = true ∧ ∀ j ∈ s.thread.slot, s.object j = s.object i
  | .destroy => ∀ j ∈ s.thread.slot, s.object j = 0
  | _ => True

instance (s : Shared E V) (a : Action E V) : Decidable (Undisturbed s a) :=
  match a with
  | .proceed _ => inferInstanceAs (Decidable (_ ∧ _))
  | .destroy => inferInstanceAs (Decidable (∀ j ∈ s.thread.slot, s.object j = 0))
  | .request _ | .drop _ | .reject _ | .cancel _ | .take | .signal | .call _ | .answer | .ret _
  | .resolve => inferInstanceAs (Decidable True)

theorem updateTop_asserted {t : State E V} (f : Request E V → Request E V) :
    (t.updateTop f).asserted = t.asserted := by
  unfold State.updateTop
  split <;> rfl

theorem take_asserted {t : State E V} : t.take.asserted = t.asserted := by
  unfold State.take
  split <;> rfl

theorem resolve_asserted {t : State E V} : t.resolve.asserted = t.asserted := by
  unfold State.resolve
  split <;> rfl

/-- A step of the thread that leaves the assertions alone. -/
theorem guarded_of_asserted (h : s.Guarded) {t : State E V}
    (same : t.asserted = s.thread.asserted) : ({ s with thread := t } : Shared E V).Guarded where
  posted := same.trans h.posted
  idle := h.idle
  attached := h.attached

theorem guarded_await (h : s.Guarded) : s.await.Guarded := by
  unfold await
  split
  · exact ⟨h.posted, h.idle, h.attached⟩
  · exact guarded_of_asserted h (updateTop_asserted _)

theorem guarded_handOut (h : s.Guarded) (c : Nat) : (s.handOut c).Guarded := by
  unfold handOut
  split <;> exact ⟨h.posted, h.idle, h.attached⟩

/-- `Waiter::post` finds the slot empty, and a `Waiter`, exactly under the condition. -/
theorem guarded_proceed_iff (h : Ordered s) (hg : s.Guarded) {i : Nat}
    (hi : i < s.thread.posted) (hc : (s.thread.requests i).stage = .chained)
    (hr : s.threadReady i = .fulfilled) :
    (s.proceed i).Guarded ↔ s.waiter = true ∧ ∀ j ∈ s.thread.slot, s.object j = s.object i := by
  unfold proceed
  split
  · next hw =>
    cases hslot : s.thread.slot with
    | none =>
      refine ⟨fun _ => ⟨hw, nofun⟩, fun _ => guarded_of_asserted hg ?_⟩
      rw [proceed_none hslot]
      rfl
    | some j =>
      constructor
      · intro hn
        have := hn.posted
        unfold State.proceed at this
        rw [hslot] at this
        cases this
      · rintro ⟨-, hall⟩
        exact absurd (hall j rfl) (slot_other h hi hc hr hslot)
  · next hw =>
    constructor
    · intro hn
      cases hn.attached
    · intro hn
      exact absurd hn.1 hw

/-- `~ProxyServer<Thread>` finds the slot empty exactly under the condition. -/
theorem guarded_destroy_iff (h : Ordered s) (hg : s.Guarded)
    (hdone : ∀ i < s.thread.posted, s.object i = 0 →
      (s.thread.requests i).stage = .finished ∨ (s.thread.requests i).stage = .dropped) :
    s.destroy.Guarded ↔ ∀ j ∈ s.thread.slot, s.object j = 0 := by
  cases hslot : s.thread.slot with
  | none =>
    refine ⟨fun _ => nofun, fun _ => ⟨hg.posted, ?_, hg.attached⟩⟩
    change s.thread.slot.isSome = false
    rw [hslot]
    rfl
  | some j =>
    obtain ⟨hj, hs⟩ := (h.placed.slot j).mp hslot
    constructor
    · intro hn
      have hidle : s.thread.slot.isSome = false := hn.idle
      rw [hslot] at hidle
      cases hidle
    · intro hall
      rcases hdone j hj (hall j rfl) with hd | hd
      all_goals cases hs.symm.trans hd

/-- A step fails exactly when it does not meet the condition. -/
theorem guarded_next_iff (made : Bool) (s : Shared E V) (a : Action E V) (h : Ordered s)
    (ha : (shared E V made).enabled s a) :
    ((shared E V made).next s a).Guarded ↔ Undisturbed s a := by
  obtain ⟨hg, ha⟩ := ha
  cases a with
  | proceed i => exact guarded_proceed_iff h hg ha.2.1 ha.2.2.1 ha.2.2.2
  | destroy => exact guarded_destroy_iff h hg ha.2.2.2
  | request g => exact iff_of_true ⟨hg.posted, hg.idle, hg.attached⟩ trivial
  | drop g => exact iff_of_true ⟨hg.posted, hg.idle, hg.attached⟩ trivial
  | reject i => exact iff_of_true (guarded_of_asserted hg rfl) trivial
  | cancel i => exact iff_of_true (guarded_of_asserted hg rfl) trivial
  | take => exact iff_of_true (guarded_of_asserted hg take_asserted) trivial
  | signal => exact iff_of_true (guarded_of_asserted hg (updateTop_asserted _)) trivial
  | ret result => exact iff_of_true (guarded_of_asserted hg (updateTop_asserted _)) trivial
  | resolve => exact iff_of_true (guarded_of_asserted hg resolve_asserted) trivial
  | call c =>
    apply iff_of_true _ trivial
    cases c with
    | none => exact guarded_await hg
    | some c => exact guarded_await (guarded_handOut hg c)
  | answer =>
    apply iff_of_true _ trivial
    change s.answer.Guarded
    unfold answer
    split
    · exact ⟨hg.posted, hg.idle, hg.attached⟩
    · exact guarded_of_asserted hg (updateTop_asserted _)

/-! ## Runs -/

theorem guarded_of_enabled (made : Bool) (s : Shared E V) (a : Action E V)
    (ha : (shared E V made).enabled s a) : s.Guarded := ha.1

theorem ordered_created (made : Bool) : Ordered (created E V made) where
  placed := placed_created
  linked := by
    constructor
    · intro i hi
      exact absurd hi (Nat.not_lt_zero i)
    · intro g k hk
      exact absurd hk (Nat.not_lt_zero k)
  signaled := by
    constructor
    · intro i hi
      exact absurd hi (Nat.not_lt_zero i)
    · intro i hi
      exact absurd hi (Nat.not_lt_zero i)

/-- A step of the shared `State` that adds no call. -/
theorem Ordered.step (h : Ordered s) {t : State E V} (posted : t.posted = s.thread.posted)
    (placed : Placed t) (signaled : Signaled s.object t) :
    Ordered ({ s with thread := t } : Shared E V) where
  placed := placed
  linked := by
    constructor
    · intro i hi
      exact h.linked.after i (posted ▸ hi)
    · intro g
      change IsLatest s.object g t.posted (s.last g)
      rw [posted]
      exact h.linked.last g
  signaled := signaled

theorem ordered_updateTop (h : Ordered s) {stage : Stage E V} (ht : s.thread.top = some stage)
    (f : Request E V → Request E V)
    (moved : ∀ q : Request E V, q.stage = stage → (f q).stage.isTaken = true ∧
      (f q).stage.isSignaled = stage.isSignaled ∧ (f q).ready = q.ready) :
    Ordered ({ s with thread := s.thread.updateTop f } : Shared E V) := by
  apply h.step
  · unfold State.updateTop
    split <;> rfl
  · exact placed_updateTop h.placed ht f fun q hq => (moved q hq).1
  · exact signaled_updateTop h.signaled h.placed ht f fun q hq => (moved q hq).2

theorem ordered_proceed (h : Ordered s) {i : Nat} (hi : i < s.thread.posted)
    (hc : (s.thread.requests i).stage = .chained) (hr : s.threadReady i = .fulfilled)
    (hn : (s.proceed i).Guarded) : Ordered (s.proceed i) := by
  unfold proceed at hn ⊢
  split at hn
  · next hw =>
    cases hslot : s.thread.slot with
    | none =>
      rw [if_pos hw]
      apply h.step
      · rw [proceed_none hslot]
        rfl
      · exact placed_proceed h.placed hi hc
      · have hiready := h.signaled.ready i hi
        rw [hc] at hiready
        rw [proceed_none hslot]
        have hu := signaled_update h.signaled (i := i) (f := ({ · with stage := .slotted })) hiready
          id fun _ _ => .inr (fulfilled_before h hi hr)
        exact ⟨hu.ready, hu.chain⟩
    | some j =>
      have := hn.posted
      unfold State.proceed at this
      rw [hslot] at this
      cases this
  · cases hn.attached

theorem ordered_take (h : Ordered s) (hw : s.thread.waits) (hslot : s.thread.slot.isSome = true) :
    Ordered ({ s with thread := s.thread.take } : Shared E V) := by
  obtain ⟨i, hslot⟩ := Option.isSome_iff_exists.mp hslot
  obtain ⟨hi, hs⟩ := (h.placed.slot i).mp hslot
  apply h.step
  · rw [take_some hslot]
    rfl
  · exact placed_take h.placed hw hslot
  · rw [take_some hslot]
    have hu := signaled_move h.signaled hi (f := ({ · with stage := .signaling }))
      (by rw [hs]; exact ⟨nofun, nofun⟩) (by rw [hs]; rfl) rfl
    exact ⟨hu.ready, hu.chain⟩

theorem ordered_resolve (h : Ordered s) {result : Except E V}
    (ht : s.thread.top = some (.resolving result)) :
    Ordered ({ s with thread := s.thread.resolve } : Shared E V) := by
  obtain ⟨i, rest, hf, hs⟩ := top_eq_some ht
  have hi := ((h.placed.frames i).mp (by rw [hf]; exact List.mem_cons_self)).1
  apply h.step
  · rw [resolve_cons hf]
    rfl
  · exact placed_resolve h.placed ht
  · rw [resolve_cons hf]
    have hu := signaled_move h.signaled hi (f := Request.resolve)
      (by rw [hs]; exact ⟨nofun, nofun⟩) (by rw [resolve_resolving hs, hs]; rfl)
      (by rw [resolve_resolving hs])
    exact ⟨hu.ready, hu.chain⟩

theorem ordered_handOut (h : Ordered s) (c : Nat) : Ordered (s.handOut c) := by
  unfold handOut
  split <;> exact ⟨h.placed, ⟨h.linked.after, h.linked.last⟩, h.signaled⟩

theorem handOut_thread (c : Nat) : (s.handOut c).thread = s.thread := by
  unfold handOut
  split <;> rfl

theorem ordered_await (h : Ordered s)
    (ha : s.thread.frames = [] ∨ s.thread.top = some .running) : Ordered s.await := by
  unfold await
  split
  · exact ⟨h.placed, ⟨h.linked.after, h.linked.last⟩, h.signaled⟩
  · next hf =>
    have ht := ha.resolve_left (by rw [hf]; nofun)
    exact ordered_updateTop h ht _ fun q _ => ⟨rfl, rfl, rfl⟩

/-- A step that does not fail keeps the order. -/
theorem ordered_next (made : Bool) (s : Shared E V) (a : Action E V) (h : Ordered s)
    (ha : (shared E V made).enabled s a) (hn : ((shared E V made).next s a).Guarded) :
    Ordered ((shared E V made).next s a) := by
  obtain ⟨hg, ha⟩ := ha
  cases a with
  | request g => exact ⟨placed_post h.placed, linked_post h.linked g, signaled_post h.signaled g⟩
  | drop g => exact ⟨h.placed, ⟨h.linked.after, h.linked.last⟩, h.signaled⟩
  | proceed i => exact ordered_proceed h ha.2.1 ha.2.2.1 ha.2.2.2 hn
  | reject i =>
    exact h.step rfl (placed_update h.placed i _ Iff.rfl rfl (h.placed.outer i))
      (signaled_kept h.signaled ha.2.1 rfl rfl)
  | cancel i => exact h.step rfl (placed_destroy h.placed i) (signaled_cancel h.signaled ha.2.1)
  | take =>
    apply ordered_take h _ ha.2
    rcases ha.1 with ⟨hf, -⟩ | ht
    · exact .inl (by rw [State.top, hf]; rfl)
    · exact .inr ht
  | signal =>
    apply h.step
    · unfold State.updateTop
      split <;> rfl
    · exact placed_updateTop h.placed ha.2 _ fun _ _ => rfl
    · exact signaled_signal h.signaled ha.2
  | call c =>
    have hstart := ha.2.imp_left And.left
    cases c with
    | none => exact ordered_await h hstart
    | some c =>
      apply ordered_await (ordered_handOut h c)
      rw [handOut_thread]
      exact hstart
  | answer =>
    change Ordered s.answer
    unfold answer
    split
    · exact ⟨h.placed, ⟨h.linked.after, h.linked.last⟩, h.signaled⟩
    · next hf =>
      rcases ha.2.2 with ⟨hnil, -⟩ | ht
      · cases hf.symm.trans hnil
      · exact ordered_updateTop h ht _ fun q _ => ⟨rfl, rfl, rfl⟩
  | ret result => exact ordered_updateTop h ha _ fun q _ => ⟨rfl, rfl, rfl⟩
  | resolve =>
    obtain ⟨-, result, ht⟩ := ha
    exact ordered_resolve h ht
  | destroy => exact ⟨h.placed, ⟨h.linked.after, h.linked.last⟩, h.signaled⟩

end Shared

/-- Whatever Thread objects the peers use, and in whatever order they drop them, the assertions of
`post` and `~ProxyServer<Thread>` hold exactly in the runs in which no call's turn comes, and the
object of `makeThread` is not destroyed, while a function posted through another object of the
thread is in the slot. -/
theorem guarded_iff_meets (made : Bool) (as : List (Shared.Action E V)) (t : Shared E V)
    (path : (shared E V made).Path (.created E V made) as t) :
    t.Guarded ↔ (shared E V made).Meets Shared.Undisturbed (.created E V made) as :=
  path.good_iff_meets (Shared.guarded_of_enabled made) (Shared.guarded_next_iff made)
    (Shared.ordered_next made) (Shared.ordered_created made) ⟨rfl, rfl, rfl⟩

/-- A call through the object of `makeThread`, and a nested one through the object its function
handed out. -/
theorem guarded_nested_call :
    ∃ t, (shared Unit Nat true).Path (.created Unit Nat true)
        [.request 0, .proceed 0, .take, .signal, .call (some 0), .request 1, .proceed 1, .take,
          .signal, .ret (.ok 7), .resolve, .answer, .ret (.ok 3), .resolve, .drop 0, .destroy] t ∧
      t.Guarded := by
  obtain ⟨t, hrun⟩ := Option.isSome_iff_exists.mp (show
    ((shared Unit Nat true).run (.created Unit Nat true)
        [.request 0, .proceed 0, .take, .signal, .call (some 0), .request 1, .proceed 1, .take,
          .signal, .ret (.ok 7), .resolve, .answer, .ret (.ok 3), .resolve, .drop 0,
          .destroy]).isSome = true by decide)
  have path := System.run_eq_some_iff.mp hrun
  exact ⟨t, path, (guarded_iff_meets true _ t path).mpr (by decide)⟩

/-- While the function of a first call waits for an IPC call, a second call through the object of
`makeThread` is put into the slot, and the turn of a call through the object handed out comes: its
`Waiter::post` fails. Where the object of `makeThread` is dropped instead, after a function posted
through the other object is in the slot, its destructor does not find the `Waiter` idle. -/
theorem guards_fail_with_two_objects :
    (∃ t, (shared Unit Nat true).Path (.created Unit Nat true)
        [.request 0, .proceed 0, .take, .signal, .call (some 0), .request 0, .request 1,
          .proceed 1, .proceed 2] t ∧ t.thread.asserted = true) ∧
    ∃ t, (shared Unit Nat true).Path (.created Unit Nat true)
        [.request 0, .proceed 0, .take, .signal, .call (some 0), .answer, .ret (.ok 3), .resolve,
          .request 1, .proceed 1, .drop 0, .destroy] t ∧ t.busy = true := by
  have hrun : ∀ (p : Shared Unit Nat → Bool) as,
      ((shared Unit Nat true).run (.created Unit Nat true) as).map p = some true →
        ∃ t, (shared Unit Nat true).Path (.created Unit Nat true) as t ∧ p t = true := by
    intro p as h
    obtain ⟨t, ht, hp⟩ := Option.map_eq_some_iff.mp h
    exact ⟨t, System.run_eq_some_iff.mp ht, hp⟩
  exact ⟨hrun (·.thread.asserted) _ (by decide), hrun Shared.busy _ (by decide)⟩

end Multiprocess.Thread
