import Mathlib.Logic.Function.Basic
import Multiprocess.Lib.System

/-!
# How a server object is released

One `ProxyServerBase` object (`include/mp/proxy-io.h`) from its construction to the end of its
cleanup functions: requests that call its destroy method, on the event loop or on a worker thread
(`PassField` for `mp.Context`, `include/mp/type-context.h`), each possibly canceled, the references
Cap'n Proto and the requests hold to the object, its destructor, and the function the destructor
gives to `addAsyncCleanup`. `F` is the type of the functions in `m_context.cleanup_fns`; whether one
throws is decided by the action that runs it.

A request on a worker holds the object by `self` until its last `sync`, one on the event loop by
the call, which nothing can cancel while it runs. `events`, `due` and `invoked` are history and no
step reads them but `method`, by which the object's other methods are left out after a destroy.
-/

namespace Multiprocess.Server.Release

open Transition (System)

inductive Thread where
  | loop
  | worker (w : Nat)
  | async
  deriving DecidableEq

/-- Who holds a reference to the object: the connection's table of exports, another holder, the call
of a request, or the `self` of its lambda. -/
inductive Holder where
  | client
  | other (k : Nat)
  | call (n : Nat)
  | self (n : Nat)
  deriving DecidableEq

/-- A reference that is not a request's. -/
def Holder.outside : Holder → Bool
  | .client | .other _ => true
  | .call _ | .self _ => false

/-- Where a destroy request is. -/
inductive Phase where
  | absent
  -- called; neither started on the event loop nor posted to its worker
  | queued
  -- posted to its worker, before its first `sync`
  | posted
  -- found not canceled by its first `sync`
  | entered
  -- in `invokeDestroy`, before `m_impl.reset()` and after it
  | resetting
  | cleaning
  -- before its last `sync`
  | leaving
  | returned
  deriving DecidableEq

/-- The function given to `addAsyncCleanup`, with the cleanup functions it owns. -/
inductive Async (F : Type) where
  | idle
  | queued (fns : List F)
  | cleaning (fns : List F)
  | done
  -- an exception has left the function: `std::terminate`
  | terminated

inductive Event (F : Type) where
  | release
  | cleanup (fn : F)
  deriving DecidableEq

structure State (F : Type) where
  -- `m_impl` is not null
  impl : Bool
  -- `m_context.cleanup_fns`
  fns : List F
  live : List Holder
  phase : Nat → Phase
  thread : Nat → Thread
  canceled : Nat → Bool
  -- the request that is in `invokeDestroy`
  executing : Option Nat
  connected : Bool
  -- the destructor has run
  destroyed : Bool
  async : Async F
  -- an assertion of the destructor has failed
  assertFailed : Bool
  -- which thread released `m_impl` or ran a function, the functions there were at the release, and
  -- whether a destroy has executed
  events : List (Thread × Event F)
  due : List F
  invoked : Bool

variable {F : Type}

namespace State

variable (s : State F)

def setPhase (n : Nat) (phase : Phase) : State F :=
  { s with phase := Function.update s.phase n phase }

def drop (h : Holder) : State F := { s with live := s.live.erase h }

/-- A request comes in. On a worker, `PassField` makes its lambda with `self`. -/
def arrive (n : Nat) (t : Thread) : State F :=
  { s with
    phase := Function.update s.phase n .queued
    thread := Function.update s.thread n t
    live := if t = .loop then .call n :: s.live else .call n :: .self n :: s.live }

/-- The promise of a request is destroyed, and with it a lambda that has not been posted. -/
def cancel (n : Nat) : State F :=
  if s.phase n = .queued then ((s.setPhase n .returned).drop (.call n)).drop (.self n)
  else { s.drop (.call n) with canceled := Function.update s.canceled n true }

/-- The connection breaks: every request is canceled and the exports are released. -/
def disconnect : State F :=
  { s with
    connected := false
    canceled := fun _ => true
    phase := fun n => if s.phase n = .queued then .returned else s.phase n
    live := s.live.filter fun
      | .client | .call _ => false
      | .self n => s.phase n ≠ .queued
      | .other _ => true }

/-- The first `sync` of a request. -/
def enter (n : Nat) : State F := s.setPhase n (if s.canceled n then .leaving else .entered)

def invoke (n : Nat) : State F := { s.setPhase n .resetting with executing := some n, invoked := true }

/-- `m_impl.reset()` in `invokeDestroy`. -/
def reset (n : Nat) : State F :=
  if s.impl then
    { s.setPhase n .cleaning with
      impl := false, due := s.fns, events := s.events ++ [(s.thread n, .release)] }
  else s.setPhase n .cleaning

/-- `invokeDestroy` returns or throws. -/
def finish (n : Nat) : State F :=
  { s.setPhase n (if s.thread n = .loop then .returned else .leaving) with executing := none }

/-- One round of `CleanupRun` in `invokeDestroy`. -/
def cleanup (n : Nat) (threw : Bool) : State F :=
  match s.fns with
  | [] => s.finish n
  | fn :: fns =>
    let s := { s with fns := fns, events := s.events ++ [(s.thread n, .cleanup fn)] }
    if threw then s.finish n else s

/-- `~ProxyServerBase`. -/
def destruct : State F :=
  let s := if s.impl then
    { s with impl := false, fns := [], due := s.fns, async := .queued s.fns } else s
  { s with destroyed := true, assertFailed := !s.fns.isEmpty }

/-- `impl.reset()` on the async thread. -/
def asyncRelease : State F :=
  match s.async with
  | .queued fns =>
    { s with async := .cleaning fns, events := s.events ++ [(.async, .release)] }
  | _ => s

/-- One round of `CleanupRun` on the async thread. -/
def asyncCleanup (threw : Bool) : State F :=
  match s.async with
  | .cleaning [] => { s with async := .done }
  | .cleaning (fn :: fns) =>
    { s with
      async := if threw then .terminated else .cleaning fns
      events := s.events ++ [(.async, .cleanup fn)] }
  | _ => s

/-- The event loop thread is not in `invokeDestroy`. -/
def loopFree : Prop := ∀ n ∈ s.executing, s.thread n ≠ .loop

end State

inductive Action (F : Type) where
  | arrive (n : Nat) (t : Thread)
  | cancel (n : Nat)
  | disconnect
  | take (k : Nat)
  | drop (h : Holder)
  -- another method of the object leaves these cleanup functions
  | method (fns : List F)
  | post (n : Nat)
  | enter (n : Nat)
  | invoke (n : Nat)
  | reset (n : Nat)
  | cleanup (n : Nat) (threw : Bool)
  | leave (n : Nat)
  -- the response is sent
  | respond (n : Nat)
  | destruct
  | asyncRelease
  | asyncCleanup (threw : Bool)

def Async.isQueued : Async F → Bool
  | .queued _ => true
  | _ => false

def Async.isCleaning : Async F → Bool
  | .cleaning _ => true
  | _ => false

def Async.isTerminated : Async F → Bool
  | .terminated => true
  | _ => false

/-- Where an action can happen, in a process that has not been terminated. Destroys execute one at a
time, and no other method runs after one. -/
def enabledIn (s : State F) : Action F → Prop
  | .arrive n t => s.loopFree ∧ s.connected = true ∧ s.live ≠ [] ∧ s.phase n = .absent ∧ t ≠ .async
  | .cancel n => s.loopFree ∧ .call n ∈ s.live
  | .disconnect => s.loopFree ∧ s.connected = true
  | .take _ => s.live ≠ []
  | .drop h => s.loopFree ∧ h.outside = true ∧ h ∈ s.live
  | .method _ => s.live ≠ [] ∧ s.invoked = false
  | .post n => s.loopFree ∧ s.phase n = .queued ∧ s.thread n ≠ .loop
  | .enter n => s.loopFree ∧ s.phase n = .posted
  | .invoke n => s.executing = none ∧
      (s.phase n = .entered ∨ s.phase n = .queued ∧ s.thread n = .loop)
  | .reset n => s.phase n = .resetting
  | .cleanup n _ => s.phase n = .cleaning
  | .leave n => s.loopFree ∧ s.phase n = .leaving
  | .respond n => s.loopFree ∧ s.phase n = .returned ∧ .call n ∈ s.live
  | .destruct => s.loopFree ∧ s.live = [] ∧ s.destroyed = false
  | .asyncRelease => s.async.isQueued = true
  | .asyncCleanup _ => s.async.isCleaning = true

def enabled (s : State F) (a : Action F) : Prop := s.async.isTerminated = false ∧ enabledIn s a

def next (s : State F) : Action F → State F
  | .arrive n t => s.arrive n t
  | .cancel n => s.cancel n
  | .disconnect => s.disconnect
  | .take k => { s with live := .other k :: s.live }
  | .drop h => s.drop h
  | .method fns => { s with fns := fns }
  | .post n => s.setPhase n .posted
  | .enter n => s.enter n
  | .invoke n => s.invoke n
  | .reset n => s.reset n
  | .cleanup n threw => s.cleanup n threw
  | .leave n => (s.setPhase n .returned).drop (.self n)
  | .respond n => s.drop (.call n)
  | .destruct => s.destruct
  | .asyncRelease => s.asyncRelease
  | .asyncCleanup threw => s.asyncCleanup threw

/-- The object has just been exported, with some cleanup functions. -/
def created (fns : List F) : State F where
  impl := true
  fns := fns
  live := [.client]
  phase := fun _ => .absent
  thread := fun _ => .loop
  canceled := fun _ => false
  executing := none
  connected := true
  destroyed := false
  async := .idle
  assertFailed := false
  events := []
  due := []
  invoked := false

def serverObject (F : Type) : System (State F) (Action F) where
  init s := ∃ fns, s = created fns
  enabled := enabled
  next := next

instance (s : State F) : Decidable s.loopFree :=
  inferInstanceAs (Decidable (∀ n ∈ s.executing, s.thread n ≠ .loop))

instance (s : State F) : ∀ a : Action F, Decidable (enabledIn s a)
  | .arrive _ _ => inferInstanceAs (Decidable (_ ∧ _ ∧ _ ∧ _ ∧ _))
  | .take _ => inferInstanceAs (Decidable (_ ≠ _))
  | .cancel _ | .disconnect | .method _ | .enter _ | .leave _ => inferInstanceAs (Decidable (_ ∧ _))
  | .drop _ | .post _ | .respond _ | .destruct => inferInstanceAs (Decidable (_ ∧ _ ∧ _))
  | .invoke _ => inferInstanceAs (Decidable (_ ∧ (_ ∨ _ ∧ _)))
  | .reset _ | .cleanup _ _ | .asyncRelease | .asyncCleanup _ =>
    inferInstanceAs (Decidable (_ = _))

instance (s : State F) (a : Action F) : Decidable ((serverObject F).enabled s a) :=
  inferInstanceAs (Decidable (_ ∧ enabledIn s a))

/-! ## Who keeps the object -/

/-- What keeps the object for a request that has not returned. -/
def State.keeper (s : State F) (n : Nat) : Option Holder :=
  match s.phase n with
  | .absent | .returned => none
  | _ => some (if s.thread n = .loop then .call n else .self n)

/-- The requests hold their references, and the one that executes is known. -/
structure Kept (s : State F) : Prop where
  held : ∀ n h, s.keeper n = some h → h ∈ s.live
  executing : ∀ n, s.executing = some n ↔ s.phase n = .resetting ∨ s.phase n = .cleaning
  onLoop : ∀ n, s.thread n = .loop →
    s.phase n ≠ .posted ∧ s.phase n ≠ .entered ∧ s.phase n ≠ .leaving
  notAsync : ∀ n, s.phase n ≠ .absent → s.thread n ≠ .async
  gone : s.destroyed = true → s.live = []

variable {s t : State F}

/-- A request under way is kept by the call on the loop thread, and by `self` on a worker. -/
theorem keeper_eq {n : Nat} {k : Holder} (hk : s.keeper n = some k) :
    s.phase n ≠ .absent ∧ s.phase n ≠ .returned ∧
      k = if s.thread n = .loop then .call n else .self n := by
  unfold State.keeper at hk
  split at hk
  · cases hk
  · cases hk
  · next habsent hreturned =>
    cases hk
    exact ⟨habsent, hreturned, rfl⟩

theorem keeper_mem {n : Nat} {h : Holder} (hk : s.keeper n = some h) :
    h = .call n ∨ h = .self n := by
  rw [(keeper_eq hk).2.2]
  split
  · exact .inl rfl
  · exact .inr rfl

/-- Every request under way is kept by one of the two. -/
theorem keeper_of_active {n : Nat} (active : s.phase n ≠ .absent ∧ s.phase n ≠ .returned) :
    s.keeper n = some (if s.thread n = .loop then .call n else .self n) := by
  unfold State.keeper
  split
  · next hp => exact absurd hp active.1
  · next hp => exact absurd hp active.2
  · rfl

/-- By which depends on its phase and thread. -/
theorem keeper_congr {n : Nat} (phase : t.phase n = s.phase n) (thread : t.thread n = s.thread n) :
    t.keeper n = s.keeper n := by
  unfold State.keeper
  rw [phase, thread]

/-- A step that moves no request. -/
theorem kept_still (h : Kept s) (phase : t.phase = s.phase) (thread : t.thread = s.thread)
    (executing : t.executing = s.executing)
    (live : ∀ n h, s.keeper n = some h → h ∈ s.live → h ∈ t.live)
    (gone : t.destroyed = true → t.live = []) : Kept t where
  held n k hk := by
    rw [keeper_congr (congrFun phase n) (congrFun thread n)] at hk
    exact live n k hk (h.held n k hk)
  executing n := by
    rw [executing, phase]
    exact h.executing n
  onLoop n := by
    rw [thread, phase]
    exact h.onLoop n
  notAsync n := by
    rw [thread, phase]
    exact h.notAsync n
  gone := gone

/-- A step that moves one request. -/
theorem kept_move (h : Kept s) {n : Nat} {p : Phase} (there : s.phase n ≠ .absent)
    (phase : t.phase = Function.update s.phase n p) (thread : t.thread = s.thread)
    (executing : ∀ m, t.executing = some m ↔
      if m = n then p = .resetting ∨ p = .cleaning else s.executing = some m)
    (onLoop : s.thread n = .loop → p ≠ .posted ∧ p ≠ .entered ∧ p ≠ .leaving)
    (own : ∀ k, t.keeper n = some k → k ∈ t.live)
    (live : ∀ m, m ≠ n → ∀ k, k = .call m ∨ k = .self m → k ∈ s.live → k ∈ t.live)
    (gone : t.destroyed = true → t.live = []) : Kept t := by
  have hsame : t.phase n = p := by rw [phase, Function.update_self]
  have hother : ∀ m, m ≠ n → t.phase m = s.phase m := fun m hm => by
    rw [phase, Function.update_of_ne hm]
  refine ⟨fun m k hk => ?_, fun m => ?_, fun m hm => ?_, fun m hm => ?_, gone⟩
  · by_cases hmn : m = n
    · subst hmn
      exact own k hk
    · rw [keeper_congr (hother m hmn) (congrFun thread m)] at hk
      exact live m hmn k (keeper_mem hk) (h.held m k hk)
  · rw [executing]
    by_cases hmn : m = n
    · subst hmn
      rw [if_pos rfl, hsame]
    · rw [if_neg hmn, hother m hmn]
      exact h.executing m
  · rw [thread] at hm
    by_cases hmn : m = n
    · subst hmn
      rw [hsame]
      exact onLoop hm
    · rw [hother m hmn]
      exact h.onLoop m hm
  · rw [thread]
    by_cases hmn : m = n
    · subst hmn
      exact h.notAsync m there
    · rw [hother m hmn] at hm
      exact h.notAsync m hm

/-- Where the keeper of a request stays the same, its reference is still there. -/
theorem own_of_live {n : Nat} (h : Kept s) (thread : t.thread = s.thread)
    (active : s.phase n ≠ .absent ∧ s.phase n ≠ .returned) (live : t.live = s.live) :
    ∀ k, t.keeper n = some k → k ∈ t.live := by
  intro k hk
  have hkeep := h.held n _ (keeper_of_active active)
  rw [(keeper_eq hk).2.2, thread, live]
  exact hkeep

/-- A new object is held by its capability. -/
theorem kept_created (fns : List F) : Kept (created fns) where
  held n k hk := by cases hk
  executing n := ⟨nofun, nofun⟩
  onLoop n _ := ⟨nofun, nofun, nofun⟩
  notAsync n hn := absurd rfl hn
  gone := nofun

/-- An object that is held is there. -/
theorem Kept.alive (h : Kept s) {k : Holder} (hk : k ∈ s.live) : s.destroyed = false := by
  cases hd : s.destroyed with
  | false => rfl
  | true =>
    rw [h.gone hd] at hk
    cases hk

/-- A request that executes `destroy` is in its release. -/
theorem Kept.notExecuting (h : Kept s) {n : Nat}
    (other : s.phase n ≠ .resetting ∧ s.phase n ≠ .cleaning) : s.executing ≠ some n := by
  intro he
  rcases (h.executing n).mp he with hp | hp
  · exact other.1 hp
  · exact other.2 hp

/-- And is under way. -/
theorem Kept.active (h : Kept s) {n : Nat} (executing : s.executing = some n) :
    s.phase n ≠ .absent ∧ s.phase n ≠ .returned := by
  rcases (h.executing n).mp executing with hp | hp <;> rw [hp] <;> exact ⟨nofun, nofun⟩

/-- A request that is not over keeps the object. -/
theorem Kept.notDestroyed (h : Kept s) {n : Nat}
    (active : s.phase n ≠ .absent ∧ s.phase n ≠ .returned) : s.destroyed = false :=
  h.alive (h.held n _ (keeper_of_active active))

/-- A request on the event loop does not execute while the event loop does something else. -/
theorem Kept.free (h : Kept s) (free : s.loopFree) {n : Nat}
    (hp : s.phase n = .resetting ∨ s.phase n = .cleaning) : s.thread n ≠ .loop :=
  free n ((h.executing n).mpr hp)

/-- A request takes a reference when it arrives. -/
theorem kept_arrive (h : Kept s) {n : Nat} {th : Thread} (absent : s.phase n = .absent)
    (there : s.live ≠ []) (ht : th ≠ .async) : Kept (s.arrive n th) := by
  have hlive : ∀ k, k ∈ s.live → k ∈ (s.arrive n th).live := by
    intro k hk
    unfold State.arrive
    dsimp only
    split
    · exact List.mem_cons_of_mem _ hk
    · exact List.mem_cons_of_mem _ (List.mem_cons_of_mem _ hk)
  have hphase : (s.arrive n th).phase n = .queued := Function.update_self _ _ _
  have hthread : (s.arrive n th).thread n = th := Function.update_self _ _ _
  have hother : ∀ m, m ≠ n →
      (s.arrive n th).phase m = s.phase m ∧ (s.arrive n th).thread m = s.thread m :=
    fun m hm => ⟨Function.update_of_ne hm _ _, Function.update_of_ne hm _ _⟩
  refine ⟨fun m k hk => ?_, fun m => ?_, fun m hm => ?_, fun m hm => ?_, fun hd => ?_⟩
  · by_cases hmn : m = n
    · subst hmn
      unfold State.keeper at hk
      rw [hphase, hthread] at hk
      cases hk
      unfold State.arrive
      dsimp only
      split
      · exact List.mem_cons_self
      · exact List.mem_cons_of_mem _ List.mem_cons_self
    · obtain ⟨hp, ht⟩ := hother m hmn
      rw [keeper_congr hp ht] at hk
      exact hlive k (h.held m k hk)
  · change s.executing = some m ↔ _
    by_cases hmn : m = n
    · subst hmn
      rw [hphase, h.executing, absent]
      exact ⟨nofun, nofun⟩
    · rw [(hother m hmn).1]
      exact h.executing m
  · by_cases hmn : m = n
    · subst hmn
      rw [hphase]
      exact ⟨nofun, nofun, nofun⟩
    · obtain ⟨hp, ht⟩ := hother m hmn
      rw [hp]
      exact h.onLoop m (ht ▸ hm)
  · by_cases hmn : m = n
    · subst hmn
      rw [hthread]
      exact ht
    · obtain ⟨hp, ht⟩ := hother m hmn
      rw [ht]
      exact h.notAsync m (hp ▸ hm)
  · exact absurd (h.gone hd) there

/-- A request gives up no other's reference. -/
theorem mem_erase_of_other {m n : Nat} {k : Holder} (hm : m ≠ n) (hk : k = .call m ∨ k = .self m)
    (h : k ∈ s.live) : k ∈ (s.drop (.call n)).live ∧ k ∈ (s.drop (.self n)).live := by
  refine ⟨(List.mem_erase_of_ne ?_).mpr h, (List.mem_erase_of_ne ?_).mpr h⟩
  · rintro rfl
    rcases hk with hk | hk
    · exact hm (Holder.call.inj hk).symm
    · cases hk
  · rintro rfl
    rcases hk with hk | hk
    · cases hk
    · exact hm (Holder.self.inj hk).symm

/-- While the event loop is free, a request on it that has started has returned: what keeps the
object for one that has started is its `self`. -/
theorem Kept.keeper_self (h : Kept s) (free : s.loopFree) {n : Nat} {k : Holder}
    (hk : s.keeper n = some k) (started : s.phase n ≠ .queued) : k = .self n := by
  obtain ⟨habsent, hreturned, rfl⟩ := keeper_eq hk
  refine if_neg fun hloop => ?_
  obtain ⟨hposted, hentered, hleaving⟩ := h.onLoop n hloop
  cases hp : s.phase n with
  | absent => exact habsent hp
  | queued => exact started hp
  | posted => exact hposted hp
  | entered => exact hentered hp
  | resetting => exact h.free free (.inl hp) hloop
  | cleaning => exact h.free free (.inr hp) hloop
  | leaving => exact hleaving hp
  | returned => exact hreturned hp

/-- A request that does not execute is over. -/
theorem kept_over (h : Kept s) {n : Nat} (there : s.phase n ≠ .absent)
    (other : s.phase n ≠ .resetting ∧ s.phase n ≠ .cleaning)
    (phase : t.phase = Function.update s.phase n .returned) (thread : t.thread = s.thread)
    (executing : t.executing = s.executing)
    (live : ∀ m, m ≠ n → ∀ k, k = .call m ∨ k = .self m → k ∈ s.live → k ∈ t.live)
    (gone : t.destroyed = true → t.live = []) : Kept t := by
  refine kept_move h there phase thread (fun m => ?_) (fun _ => ⟨nofun, nofun, nofun⟩)
    (fun k hk => ?_) live gone
  · rw [executing]
    split
    · next hmn =>
      subst hmn
      exact iff_of_false (h.notExecuting other) (by simp)
    · exact Iff.rfl
  · have hr := (keeper_eq hk).2.1
    rw [phase, Function.update_self] at hr
    exact absurd rfl hr

/-- A destroyed object has no references to give up. -/
theorem drop_gone (h : Kept s) (k : Holder) (hd : s.destroyed = true) : (s.drop k).live = [] := by
  change s.live.erase k = []
  rw [h.gone hd]
  rfl

/-- A canceled request loses its call's reference and keeps `self`. -/
theorem kept_cancel (h : Kept s) {n : Nat} (free : s.loopFree) (called : .call n ∈ s.live) :
    Kept (s.cancel n) := by
  have halive := h.alive called
  unfold State.cancel
  split
  · next hq =>
    refine kept_over h (n := n) (by rw [hq]; nofun) (by rw [hq]; exact ⟨nofun, nofun⟩) rfl rfl rfl
      (fun m hm k hk hmem => ?_) (fun hd => absurd (halive.symm.trans hd) nofun)
    have hfirst := (mem_erase_of_other hm hk hmem).1
    exact (mem_erase_of_other (s := (s.setPhase n .returned).drop (.call n)) hm hk hfirst).2
  · next hq =>
    refine kept_still h rfl rfl rfl (fun m k hk hmem => ?_)
      (fun hd => absurd (halive.symm.trans hd) nofun)
    refine (List.mem_erase_of_ne ?_).mpr hmem
    rintro rfl
    -- only a request on the event loop is kept by its call
    have hm : m = n := by
      rcases keeper_mem hk with hc | hc
      · exact (Holder.call.inj hc).symm
      · cases hc
    subst hm
    cases h.keeper_self free hk hq

/-- A lost connection drops the capability. -/
theorem kept_disconnect (h : Kept s) (free : s.loopFree) : Kept s.disconnect := by
  have hphase : ∀ n, s.phase n ≠ .queued → s.disconnect.phase n = s.phase n := fun n hn => if_neg hn
  have hqueued : ∀ n, s.phase n = .queued → s.disconnect.phase n = .returned := fun n hn => if_pos hn
  refine ⟨fun n k hk => ?_, fun n => ?_, fun n hn => ?_, fun n hn => ?_, fun hd => ?_⟩
  · by_cases hq : s.phase n = .queued
    · exact absurd (hqueued n hq) (keeper_eq hk).2.1
    · rw [keeper_congr (hphase n hq) rfl] at hk
      refine List.mem_filter.mpr ⟨h.held n k hk, ?_⟩
      rw [h.keeper_self free hk hq]
      exact decide_eq_true hq
  · change s.executing = some n ↔ _
    rw [h.executing]
    by_cases hq : s.phase n = .queued
    · rw [hqueued n hq, hq]
      exact iff_of_false (by simp) (by simp)
    · rw [hphase n hq]
  · by_cases hq : s.phase n = .queued
    · rw [hqueued n hq]
      exact ⟨nofun, nofun, nofun⟩
    · rw [hphase n hq]
      exact h.onLoop n hn
  · refine h.notAsync n fun ha => hn ?_
    rw [hphase n (by rw [ha]; nofun), ha]
  · change s.live.filter _ = []
    rw [h.gone hd]
    rfl

/-- Whoever else holds the object may let go of it. -/
theorem kept_drop (h : Kept s) {k : Holder} (outside : k.outside = true) : Kept (s.drop k) := by
  refine kept_still h rfl rfl rfl (fun n k' hk hmem => ?_) (drop_gone h k)
  refine (List.mem_erase_of_ne ?_).mpr hmem
  rintro rfl
  rcases keeper_mem hk with rfl | rfl <;> cases outside

/-- A request that is kept by the same reference moves on. -/
theorem kept_setPhase (h : Kept s) {n : Nat} {p : Phase}
    (active : s.phase n ≠ .absent ∧ s.phase n ≠ .returned)
    (executing : ∀ m, t.executing = some m ↔
      if m = n then p = .resetting ∨ p = .cleaning else s.executing = some m)
    (onLoop : s.thread n = .loop → p ≠ .posted ∧ p ≠ .entered ∧ p ≠ .leaving)
    (phase : t.phase = Function.update s.phase n p) (thread : t.thread = s.thread)
    (live : t.live = s.live) (destroyed : t.destroyed = s.destroyed) : Kept t := by
  refine kept_move h active.1 phase thread executing onLoop (own_of_live h thread active live)
    (fun m _ k _ hmem => ?_) fun hd => ?_
  · rw [live]
    exact hmem
  · rw [live]
    exact h.gone (destroyed ▸ hd)

/-- The same, where it does not come to execute or stop executing. -/
theorem kept_step (h : Kept s) {n : Nat} {p : Phase}
    (active : s.phase n ≠ .absent ∧ s.phase n ≠ .returned)
    (same : p = .resetting ∨ p = .cleaning ↔ s.phase n = .resetting ∨ s.phase n = .cleaning)
    (onLoop : s.thread n = .loop → p ≠ .posted ∧ p ≠ .entered ∧ p ≠ .leaving) :
    Kept (s.setPhase n p) := by
  refine kept_setPhase h active (fun m => ?_) onLoop rfl rfl rfl rfl
  change s.executing = some m ↔ _
  split
  · next hmn =>
    subst hmn
    rw [same]
    exact h.executing m
  · exact Iff.rfl

/-- `destroy` begins with nothing else executing it. -/
theorem kept_invoke (h : Kept s) {n : Nat} (none : s.executing = none)
    (start : s.phase n = .entered ∨ s.phase n = .queued) : Kept (s.invoke n) := by
  have hactive : s.phase n ≠ .absent ∧ s.phase n ≠ .returned := by
    rcases start with hp | hp <;> rw [hp] <;> exact ⟨nofun, nofun⟩
  refine kept_setPhase h (p := .resetting) hactive (fun m => ?_) (fun _ => ⟨nofun, nofun, nofun⟩)
    rfl rfl rfl rfl
  change some n = some m ↔ _
  split
  · next hmn => exact iff_of_true (by rw [hmn]) (.inl rfl)
  · next hmn =>
    rw [none]
    exact iff_of_false (fun he => hmn (Option.some.inj he).symm) nofun

/-- The implementation is reset under a reference. -/
theorem kept_reset (h : Kept s) {n : Nat} (start : s.phase n = .resetting) : Kept (s.reset n) := by
  have hmove : Kept (s.setPhase n .cleaning) := by
    refine kept_step h (by rw [start]; exact ⟨nofun, nofun⟩) ?_ fun _ => ⟨nofun, nofun, nofun⟩
    rw [start]
    exact iff_of_true (.inr rfl) (.inl rfl)
  unfold State.reset
  split
  · exact kept_still hmove rfl rfl rfl (fun _ _ _ hmem => hmem) hmove.gone
  · exact hmove

/-- The cleanup functions have run under it. -/
theorem kept_finish (h : Kept s) {n : Nat} (start : s.phase n = .cleaning) : Kept (s.finish n) := by
  have hexec := (h.executing n).mpr (.inr start)
  have hnext : ∀ q : Phase, q = (if s.thread n = .loop then .returned else .leaving) →
      ¬ (q = .resetting ∨ q = .cleaning) ∧
        (s.thread n = .loop → q ≠ .posted ∧ q ≠ .entered ∧ q ≠ .leaving) := by
    rintro q rfl
    split
    · exact ⟨by simp, fun _ => ⟨nofun, nofun, nofun⟩⟩
    · next hno => exact ⟨by simp, fun hl => absurd hl hno⟩
  obtain ⟨hstop, honLoop⟩ := hnext _ rfl
  refine kept_setPhase h (by rw [start]; exact ⟨nofun, nofun⟩) (fun m => ?_) honLoop rfl rfl rfl rfl
  change none = some m ↔ _
  split
  · exact iff_of_false nofun hstop
  · next hmn =>
    rw [hexec]
    exact iff_of_false nofun fun he => hmn (Option.some.inj he).symm

/-- So does each of them. -/
theorem kept_cleanup (h : Kept s) {n : Nat} (threw : Bool) (start : s.phase n = .cleaning) :
    Kept (s.cleanup n threw) := by
  unfold State.cleanup
  split
  · exact kept_finish h start
  · next fn fns _ =>
    have hrun : Kept { s with fns := fns, events := s.events ++ [(s.thread n, .cleanup fn)] } :=
      kept_still h rfl rfl rfl (fun _ _ _ hmem => hmem) h.gone
    dsimp only
    split
    · exact kept_finish hrun start
    · exact hrun

/-- A request on a worker gives up `self` at its end, -/
theorem kept_leave (h : Kept s) {n : Nat} (start : s.phase n = .leaving) :
    Kept ((s.setPhase n .returned).drop (.self n)) := by
  refine kept_over h (n := n) (by rw [start]; nofun) (by rw [start]; exact ⟨nofun, nofun⟩) rfl rfl
    rfl (fun m hm k hk hmem => ?_) (drop_gone h (.self n))
  exact (mem_erase_of_other (s := s.setPhase n .returned) hm hk hmem).2

/-- and its call's reference with the response. -/
theorem kept_respond (h : Kept s) {n : Nat} (start : s.phase n = .returned) :
    Kept (s.drop (.call n)) := by
  refine kept_still h rfl rfl rfl (fun m k hk hmem => ?_) (drop_gone h (.call n))
  have hmn : m ≠ n := by
    rintro rfl
    exact (keeper_eq hk).2.1 start
  exact (mem_erase_of_other hmn (keeper_mem hk) hmem).1

/-- The destructor changes no request. -/
theorem destruct_frame (s : State F) : s.destruct.phase = s.phase ∧
    s.destruct.thread = s.thread ∧ s.destruct.executing = s.executing ∧ s.destruct.live = s.live := by
  unfold State.destruct
  dsimp only
  split <;> exact ⟨rfl, rfl, rfl, rfl⟩

/-- Nor does the async thread. -/
theorem async_frame (s : State F) (threw : Bool) :
    (s.asyncRelease.phase = s.phase ∧ s.asyncRelease.thread = s.thread ∧
      s.asyncRelease.executing = s.executing ∧ s.asyncRelease.live = s.live ∧
      s.asyncRelease.destroyed = s.destroyed) ∧
    ((s.asyncCleanup threw).phase = s.phase ∧ (s.asyncCleanup threw).thread = s.thread ∧
      (s.asyncCleanup threw).executing = s.executing ∧ (s.asyncCleanup threw).live = s.live ∧
      (s.asyncCleanup threw).destroyed = s.destroyed) := by
  constructor
  · unfold State.asyncRelease
    split <;> exact ⟨rfl, rfl, rfl, rfl, rfl⟩
  · unfold State.asyncCleanup
    split <;> exact ⟨rfl, rfl, rfl, rfl, rfl⟩

/-- Every step keeps the references accounted for. -/
theorem kept_next (h : Kept s) (a : Action F) (en : enabledIn s a) : Kept (next s a) := by
  cases a with
  | arrive n th => exact kept_arrive h en.2.2.2.1 en.2.2.1 en.2.2.2.2
  | cancel n => exact kept_cancel h en.1 en.2
  | disconnect => exact kept_disconnect h en.1
  | take k =>
    refine kept_still h rfl rfl rfl (fun _ _ _ hmem => List.mem_cons_of_mem _ hmem) fun hd => ?_
    exact absurd (h.gone hd) en
  | drop k => exact kept_drop h en.2.1
  | method fns => exact kept_still h rfl rfl rfl (fun _ _ _ hmem => hmem) h.gone
  | post n =>
    obtain ⟨-, hq, ht⟩ := en
    refine kept_step h (by rw [hq]; exact ⟨nofun, nofun⟩) ?_ fun hl => absurd hl ht
    rw [hq]
    exact iff_of_false (by simp) (by simp)
  | enter n =>
    have hp : s.phase n = .posted := en.2
    have hactive : s.phase n ≠ .absent ∧ s.phase n ≠ .returned := by
      rw [hp]
      exact ⟨nofun, nofun⟩
    change Kept (s.setPhase n _)
    refine kept_step h hactive ?_ fun hl => absurd hp (h.onLoop n hl).1
    rw [hp]
    split <;> exact iff_of_false (by simp) (by simp)
  | invoke n => exact kept_invoke h en.1 (en.2.imp_right And.left)
  | reset n => exact kept_reset h en
  | cleanup n threw => exact kept_cleanup h threw en
  | leave n => exact kept_leave h en.2
  | respond n => exact kept_respond h en.2.1
  | destruct =>
    obtain ⟨hp, ht, he, hl⟩ := destruct_frame s
    refine kept_still h hp ht he (fun _ _ _ hmem => hl.symm ▸ hmem) fun _ => ?_
    exact hl.trans en.2.1
  | asyncRelease =>
    obtain ⟨⟨hp, ht, he, hl, hd⟩, -⟩ := async_frame s false
    refine kept_still h hp ht he (fun _ _ _ hmem => hl.symm ▸ hmem) fun hdest => ?_
    exact hl.trans (h.gone (hd ▸ hdest))
  | asyncCleanup threw =>
    obtain ⟨-, hp, ht, he, hl, hd⟩ := async_frame s threw
    refine kept_still h hp ht he (fun _ _ _ hmem => hl.symm ▸ hmem) fun hdest => ?_
    exact hl.trans (h.gone (hd ▸ hdest))

/-- The destructor does not run while a destroy executes. -/
theorem not_executing_of_unreferenced (h : Kept s) (live : s.live = []) : s.executing = none := by
  cases he : s.executing with
  | none => rfl
  | some n =>
    have hmem := h.held n _ (keeper_of_active (h.active he))
    rw [live] at hmem
    cases hmem

/-! ## What has been released and run -/

/-- A thread releases the object's implementation and then runs functions. -/
def account (th : Thread) (fns : List F) : List (Thread × Event F) :=
  (th, .release) :: fns.map fun fn => (th, .cleanup fn)

/-- One function more in the account. -/
theorem account_append (th : Thread) (fns : List F) (fn : F) :
    account th (fns ++ [fn]) = account th fns ++ [(th, .cleanup fn)] := by
  simp only [account, List.map_append, List.map_cons, List.map_nil, List.cons_append]

/-- The account of some of the functions comes first. -/
theorem account_prefix (th : Thread) (fns rest : List F) :
    account th fns <+: account th (fns ++ rest) := by
  refine ⟨rest.map fun fn => (th, .cleanup fn), ?_⟩
  simp only [account, List.map_append, List.cons_append]

/-- How far the release has come. -/
inductive Stage (s : State F) : Prop
  | intact (impl : s.impl = true) (events : s.events = []) (async : s.async = .idle)
      (destroyed : s.destroyed = false) (invoked : s.invoked = true ↔ s.executing ≠ none)
      (resetting : ∀ n, s.executing = some n → s.phase n = .resetting)
  -- a destroy is running the functions
  | running (n : Nat) (done : List F) (impl : s.impl = false) (executing : s.executing = some n)
      (cleaning : s.phase n = .cleaning) (events : s.events = account (s.thread n) done)
      (due : s.due = done ++ s.fns) (async : s.async = .idle) (invoked : s.invoked = true)
  -- a destroy has run them
  | emptied (th : Thread) (impl : s.impl = false) (fns : s.fns = [])
      (events : s.events = account th s.due) (async : s.async = .idle) (invoked : s.invoked = true)
  -- the destructor has given them to the async thread
  | queued (impl : s.impl = false) (fns : s.fns = []) (events : s.events = [])
      (async : s.async = .queued s.due) (destroyed : s.destroyed = true)
      (invoked : s.invoked = false)
  | cleaning (done rest : List F) (impl : s.impl = false) (fns : s.fns = [])
      (events : s.events = account .async done) (due : s.due = done ++ rest)
      (async : s.async = .cleaning rest) (destroyed : s.destroyed = true)
      (invoked : s.invoked = false)
  | cleaned (impl : s.impl = false) (fns : s.fns = []) (events : s.events = account .async s.due)
      (async : s.async = .done ∨ s.async = .terminated) (destroyed : s.destroyed = true)
      (invoked : s.invoked = false)

/-- An object that has not been destroyed is in one of the first three. -/
@[elab_as_elim]
theorem Stage.casesAlive {motive : Stage s → Prop} (alive : s.destroyed = false)
    (intact : ∀ impl events async destroyed invoked resetting,
      motive (.intact impl events async destroyed invoked resetting))
    (running : ∀ n done impl executing cleaning events due async invoked,
      motive (.running n done impl executing cleaning events due async invoked))
    (emptied : ∀ th impl fns events async invoked,
      motive (.emptied th impl fns events async invoked)) (h : Stage s) : motive h := by
  cases h with
  | intact impl events async destroyed invoked resetting =>
    exact intact impl events async destroyed invoked resetting
  | running n done impl executing cleaning events due async invoked =>
    exact running n done impl executing cleaning events due async invoked
  | emptied th impl fns events async invoked => exact emptied th impl fns events async invoked
  | queued _ _ _ _ destroyed _ => cases alive.symm.trans destroyed
  | cleaning _ _ _ _ _ _ _ destroyed _ => cases alive.symm.trans destroyed
  | cleaned _ _ _ _ destroyed _ => cases alive.symm.trans destroyed

/-- The async thread has to do with an object in one of two. -/
@[elab_as_elim]
theorem Stage.casesAsync {motive : Stage s → Prop}
    (busy : s.async.isQueued = true ∨ s.async.isCleaning = true)
    (queued : ∀ impl fns events async destroyed invoked,
      motive (.queued impl fns events async destroyed invoked))
    (cleaning : ∀ done rest impl fns events due async destroyed invoked,
      motive (.cleaning done rest impl fns events due async destroyed invoked)) (h : Stage s) :
    motive h := by
  have hno : ∀ {a : Async F}, s.async = a → a.isQueued = true ∨ a.isCleaning = true :=
    fun ha => ha ▸ busy
  cases h with
  | queued impl fns events async destroyed invoked =>
    exact queued impl fns events async destroyed invoked
  | cleaning done rest impl fns events due async destroyed invoked =>
    exact cleaning done rest impl fns events due async destroyed invoked
  | intact _ _ async => rcases hno async with h | h <;> cases h
  | running _ _ _ _ _ _ _ async => rcases hno async with h | h <;> cases h
  | emptied _ _ _ _ async => rcases hno async with h | h <;> cases h
  | cleaned _ _ _ async =>
    rcases async with async | async <;> rcases hno async with h | h <;> cases h

/-- A step that has nothing to do with the release. -/
structure SameRelease (s t : State F) : Prop where
  impl : t.impl = s.impl
  fns : t.fns = s.fns
  events : t.events = s.events
  due : t.due = s.due
  async : t.async = s.async
  destroyed : t.destroyed = s.destroyed
  invoked : t.invoked = s.invoked
  executing : t.executing = s.executing
  request : ∀ n, s.executing = some n → t.phase n = s.phase n ∧ t.thread n = s.thread n

/-- The stage of the release depends on its own fields. -/
theorem stage_same (h : Stage s) (same : SameRelease s t) : Stage t := by
  obtain ⟨himpl, hfns, hevents, hdue, hasync, hdestroyed, hinvoked, hexecuting, hrequest⟩ := same
  cases h with
  | intact impl events async destroyed invoked resetting =>
    refine .intact (himpl.trans impl) (hevents.trans events) (hasync.trans async)
      (hdestroyed.trans destroyed) ?_ fun n hn => ?_
    · rw [hinvoked, hexecuting]
      exact invoked
    · rw [hexecuting] at hn
      rw [(hrequest n hn).1]
      exact resetting n hn
  | running n done impl executing cleaning events due async invoked =>
    obtain ⟨hp, ht⟩ := hrequest n executing
    exact .running n done (himpl.trans impl) (hexecuting.trans executing) (hp.trans cleaning)
      (by rw [hevents, ht, events]) (by rw [hdue, hfns, due]) (hasync.trans async)
      (hinvoked.trans invoked)
  | emptied th impl fns events async invoked =>
    exact .emptied th (himpl.trans impl) (hfns.trans fns) (by rw [hevents, hdue, events])
      (hasync.trans async) (hinvoked.trans invoked)
  | queued impl fns events async destroyed invoked =>
    exact .queued (himpl.trans impl) (hfns.trans fns) (hevents.trans events)
      (by rw [hasync, hdue, async]) (hdestroyed.trans destroyed) (hinvoked.trans invoked)
  | cleaning done rest impl fns events due async destroyed invoked =>
    exact .cleaning done rest (himpl.trans impl) (hfns.trans fns) (hevents.trans events)
      (hdue.trans due) (hasync.trans async) (hdestroyed.trans destroyed) (hinvoked.trans invoked)
  | cleaned impl fns events async destroyed invoked =>
    exact .cleaned (himpl.trans impl) (hfns.trans fns) (by rw [hevents, hdue, events])
      (by rw [hasync]; exact async) (hdestroyed.trans destroyed) (hinvoked.trans invoked)

/-- A request that is not in the release does not change it. -/
theorem sameRelease_setPhase (h : Kept s) {n : Nat} (p : Phase)
    (other : s.phase n ≠ .resetting ∧ s.phase n ≠ .cleaning) : SameRelease s (s.setPhase n p) := by
  refine ⟨rfl, rfl, rfl, rfl, rfl, rfl, rfl, rfl, fun m hm => ⟨Function.update_of_ne ?_ _ _, rfl⟩⟩
  rintro rfl
  exact h.notExecuting other hm

/-- Nor does giving up a reference, -/
theorem sameRelease_drop (k : Holder) : SameRelease s (s.drop k) :=
  ⟨rfl, rfl, rfl, rfl, rfl, rfl, rfl, rfl, fun _ _ => ⟨rfl, rfl⟩⟩

theorem SameRelease.trans {u : State F} (h : SameRelease s t) (k : SameRelease t u) :
    SameRelease s u where
  impl := k.impl.trans h.impl
  fns := k.fns.trans h.fns
  events := k.events.trans h.events
  due := k.due.trans h.due
  async := k.async.trans h.async
  destroyed := k.destroyed.trans h.destroyed
  invoked := k.invoked.trans h.invoked
  executing := k.executing.trans h.executing
  request n hn := by
    obtain ⟨hp, ht⟩ := h.request n hn
    obtain ⟨hp', ht'⟩ := k.request n (h.executing.trans hn)
    exact ⟨hp'.trans hp, ht'.trans ht⟩

/-- a request's arrival, -/
theorem sameRelease_arrive (h : Kept s) {n : Nat} (th : Thread) (absent : s.phase n = .absent) :
    SameRelease s (s.arrive n th) := by
  refine ⟨rfl, rfl, rfl, rfl, rfl, rfl, rfl, rfl, fun m hm => ?_⟩
  have hmn : m ≠ n := by
    rintro rfl
    exact h.notExecuting (by rw [absent]; exact ⟨nofun, nofun⟩) hm
  exact ⟨Function.update_of_ne hmn _ _, Function.update_of_ne hmn _ _⟩

/-- its cancellation, -/
theorem sameRelease_cancel (h : Kept s) (n : Nat) : SameRelease s (s.cancel n) := by
  unfold State.cancel
  split
  · next hq =>
    refine ((sameRelease_setPhase h (n := n) .returned ?_).trans (sameRelease_drop _)).trans
      (sameRelease_drop _)
    rw [hq]
    exact ⟨nofun, nofun⟩
  · exact ⟨rfl, rfl, rfl, rfl, rfl, rfl, rfl, rfl, fun _ _ => ⟨rfl, rfl⟩⟩

/-- or the loss of the connection. -/
theorem sameRelease_disconnect (h : Kept s) : SameRelease s s.disconnect := by
  refine ⟨rfl, rfl, rfl, rfl, rfl, rfl, rfl, rfl, fun m hm => ⟨if_neg fun hq => ?_, rfl⟩⟩
  exact h.notExecuting (by rw [hq]; exact ⟨nofun, nofun⟩) hm

/-! ## The steps of the release -/

/-- The functions that are still to be run. -/
def State.left (s : State F) : List F :=
  match s.async with
  | .queued fns | .cleaning fns => fns
  | _ => s.fns

/-- A cleanup function throws only where it is the last one. -/
def LastThrows (s : State F) : Action F → Prop
  | .cleanup _ threw | .asyncCleanup threw => threw = true → s.left.length ≤ 1
  | _ => True

/-- A method may add cleanup functions before the release. -/
theorem stage_method (h : Stage s) (hk : Kept s) (fns : List F) (live : s.live ≠ [])
    (invoked : s.invoked = false) : Stage { s with fns := fns } := by
  have halive : s.destroyed = false := Bool.eq_false_iff.mpr fun hd => live (hk.gone hd)
  cases h using Stage.casesAlive halive with
  | intact impl events async destroyed invoked resetting =>
    exact .intact impl events async destroyed invoked resetting
  | running n done _ _ _ _ _ _ hinvoked => cases invoked.symm.trans hinvoked
  | emptied th _ _ _ _ hinvoked => cases invoked.symm.trans hinvoked

/-- `destroy` takes the functions out and is to reset the implementation. -/
theorem stage_invoke (h : Stage s) (hk : Kept s) {n : Nat} (none : s.executing = none)
    (start : s.phase n = .entered ∨ s.phase n = .queued) : Stage (s.invoke n) := by
  have hactive : s.phase n ≠ .absent ∧ s.phase n ≠ .returned := by
    rcases start with hp | hp <;> rw [hp] <;> exact ⟨nofun, nofun⟩
  have hdestroyed := hk.notDestroyed hactive
  cases h using Stage.casesAlive hdestroyed with
  | intact impl events async destroyed _ _ =>
    refine .intact impl events async destroyed (iff_of_true rfl nofun) fun m hm => ?_
    cases hm
    exact Function.update_self _ _ _
  | running m done _ executing => cases none.symm.trans executing
  | emptied th impl fns events async _ => exact .emptied th impl fns events async rfl

/-- After the reset the functions are to run. -/
theorem stage_reset (h : Stage s) (hk : Kept s) {n : Nat} (start : s.phase n = .resetting) :
    Stage (s.reset n) := by
  have hexec := (hk.executing n).mpr (.inl start)
  have hdestroyed := hk.notDestroyed (hk.active hexec)
  cases h using Stage.casesAlive hdestroyed with
  | intact impl events async destroyed invoked _ =>
    have hinvoked : s.invoked = true := invoked.mpr (by rw [hexec]; nofun)
    have hr : s.reset n = { s.setPhase n .cleaning with
        impl := false, due := s.fns, events := s.events ++ [(s.thread n, .release)] } := if_pos impl
    rw [hr, events]
    exact .running n [] rfl hexec (Function.update_self _ _ _) rfl rfl async hinvoked
  | running m done _ executing cleaning =>
    cases hexec.symm.trans executing
    cases start.symm.trans cleaning
  | emptied th impl fns events async invoked =>
    have hr : s.reset n = s.setPhase n .cleaning := if_neg (by rw [impl]; nofun)
    rw [hr]
    exact .emptied th impl fns events async invoked

/-- Each runs, in its order; only the last may throw. -/
theorem stage_cleanup (h : Stage s) (hk : Kept s) {n : Nat} {threw : Bool}
    (start : s.phase n = .cleaning) (last : threw = true → s.left.length ≤ 1) :
    Stage (s.cleanup n threw) := by
  have hexec := (hk.executing n).mpr (.inr start)
  have hdestroyed := hk.notDestroyed (hk.active hexec)
  cases h using Stage.casesAlive hdestroyed with
  | intact _ _ _ _ _ resetting => cases start.symm.trans (resetting n hexec)
  | running m done impl executing _ events due async invoked =>
    cases Option.some.inj (hexec.symm.trans executing)
    unfold State.cleanup
    cases hfns : s.fns with
    | nil =>
      rw [hfns, List.append_nil] at due
      rw [← due] at events
      exact .emptied (s.thread n) impl hfns events async invoked
    | cons fn fns =>
      rw [hfns] at due
      have hevents : s.events ++ [(s.thread n, .cleanup fn)] =
          account (s.thread n) (done ++ [fn]) := by rw [events, account_append]
      have hdue : s.due = done ++ [fn] ++ fns := by rw [due, List.append_cons]
      cases threw with
      | false => exact .running n (done ++ [fn]) impl hexec start hevents hdue async invoked
      | true =>
        have hlast := last rfl
        rw [State.left, async] at hlast
        simp only [hfns, List.length_cons] at hlast
        obtain rfl : fns = [] := List.eq_nil_of_length_eq_zero (by omega)
        rw [List.append_nil] at hdue
        rw [← hdue] at hevents
        exact .emptied (s.thread n) impl rfl hevents async invoked
  | emptied th impl fns events async invoked =>
    unfold State.cleanup
    rw [fns]
    exact .emptied th impl fns events async invoked

/-- The destructor finds `destroy` done, or hands everything to the async thread. -/
theorem stage_destruct (h : Stage s) (hk : Kept s) (live : s.live = [])
    (alive : s.destroyed = false) : Stage s.destruct ∧ s.destruct.assertFailed = false := by
  have hnone := not_executing_of_unreferenced hk live
  cases h using Stage.casesAlive alive with
  | intact impl events async destroyed invoked _ =>
    have hinvoked : s.invoked = false := by
      cases hi : s.invoked with
      | false => rfl
      | true => exact absurd hnone (invoked.mp hi)
    have hd : s.destruct = { s with
        impl := false, fns := [], due := s.fns, async := .queued s.fns, destroyed := true,
        assertFailed := false } := by
      unfold State.destruct
      simp only [impl, if_true, List.isEmpty_nil, Bool.not_true]
    rw [hd]
    exact ⟨.queued rfl rfl events rfl rfl hinvoked, rfl⟩
  | running n done _ executing => cases hnone.symm.trans executing
  | emptied th impl fns events async invoked =>
    have hd : s.destruct = { s with destroyed := true, assertFailed := false } := by
      unfold State.destruct
      simp only [impl, Bool.false_eq_true, if_false, fns, List.isEmpty_nil, Bool.not_true]
    rw [hd]
    exact ⟨.emptied th impl fns events async invoked, rfl⟩

/-- There the implementation is reset first, -/
theorem stage_asyncRelease (h : Stage s) (start : s.async.isQueued = true) :
    Stage s.asyncRelease := by
  cases h using Stage.casesAsync (.inl start) with
  | queued impl fns events async destroyed invoked =>
    have hr : s.asyncRelease = { s with
        async := .cleaning s.due, events := s.events ++ [(.async, .release)] } := by
      unfold State.asyncRelease
      rw [async]
    rw [hr, events]
    exact .cleaning [] s.due impl fns rfl rfl rfl destroyed invoked
  | cleaning _ _ _ _ _ _ async =>
    rw [async] at start
    cases start

/-- and the functions run after it. -/
theorem stage_asyncCleanup (h : Stage s) {threw : Bool} (start : s.async.isCleaning = true)
    (last : threw = true → s.left.length ≤ 1) : Stage (s.asyncCleanup threw) := by
  cases h using Stage.casesAsync (.inr start) with
  | queued _ _ _ async =>
    rw [async] at start
    cases start
  | cleaning done rest impl fns events due async destroyed invoked =>
    unfold State.asyncCleanup
    rw [async]
    cases rest with
    | nil =>
      rw [List.append_nil] at due
      rw [← due] at events
      exact .cleaned impl fns events (.inl rfl) destroyed invoked
    | cons fn rest =>
      have hevents : s.events ++ [(.async, .cleanup fn)] = account .async (done ++ [fn]) := by
        rw [events, account_append]
      have hdue : s.due = done ++ [fn] ++ rest := by rw [due, List.append_cons]
      cases threw with
      | false => exact .cleaning (done ++ [fn]) rest impl fns hevents hdue rfl destroyed invoked
      | true =>
        have hlast := last rfl
        rw [State.left, async] at hlast
        simp only [List.length_cons] at hlast
        obtain rfl : rest = [] := List.eq_nil_of_length_eq_zero (by omega)
        rw [List.append_nil] at hdue
        rw [← hdue] at hevents
        exact .cleaned impl fns hevents (.inr rfl) destroyed invoked

/-! ## The result -/

/-- The invariant. -/
structure Inv (s : State F) : Prop where
  kept : Kept s
  stage : Stage s
  assertFailed : s.assertFailed = false

/-- Every step takes the release to its next stage, or leaves it. -/
theorem stage_next (h : Stage s) (hk : Kept s) (a : Action F) (en : enabledIn s a)
    (ok : LastThrows s a) : Stage (next s a) := by
  cases a with
  | arrive n th => exact stage_same h (sameRelease_arrive hk th en.2.2.2.1)
  | cancel n => exact stage_same h (sameRelease_cancel hk n)
  | disconnect => exact stage_same h (sameRelease_disconnect hk)
  | take k => exact stage_same h ⟨rfl, rfl, rfl, rfl, rfl, rfl, rfl, rfl, fun _ _ => ⟨rfl, rfl⟩⟩
  | drop k => exact stage_same h (sameRelease_drop k)
  | method fns => exact stage_method h hk fns en.1 en.2
  | post n =>
    refine stage_same h (sameRelease_setPhase hk .posted ?_)
    rw [en.2.1]
    exact ⟨nofun, nofun⟩
  | enter n =>
    refine stage_same h (sameRelease_setPhase hk _ ?_)
    rw [en.2]
    exact ⟨nofun, nofun⟩
  | invoke n => exact stage_invoke h hk en.1 (en.2.imp_right And.left)
  | reset n => exact stage_reset h hk en
  | cleanup n threw => exact stage_cleanup h hk en ok
  | leave n =>
    refine stage_same h ((sameRelease_setPhase hk .returned ?_).trans (sameRelease_drop _))
    rw [en.2]
    exact ⟨nofun, nofun⟩
  | respond n => exact stage_same h (sameRelease_drop _)
  | destruct => exact (stage_destruct h hk en.2.1 en.2.2).1
  | asyncRelease => exact stage_asyncRelease h en
  | asyncCleanup threw => exact stage_asyncCleanup h en ok

/-- Only the destructor asserts. -/
theorem assertFailed_next (a : Action F) (other : a ≠ .destruct) :
    (next s a).assertFailed = s.assertFailed := by
  cases a with
  | cancel n =>
    simp only [next, State.cancel]
    split <;> rfl
  | reset n =>
    simp only [next, State.reset]
    split <;> rfl
  | cleanup n threw =>
    simp only [next, State.cleanup]
    split
    · rfl
    · split <;> rfl
  | asyncRelease =>
    simp only [next, State.asyncRelease]
    split <;> rfl
  | asyncCleanup threw =>
    simp only [next, State.asyncCleanup]
    split <;> rfl
  | destruct => exact absurd rfl other
  | _ => rfl

/-- Every step keeps the invariant, if only a last function throws. -/
theorem inv_next (h : Inv s) (a : Action F) (en : enabledIn s a) (ok : LastThrows s a) :
    Inv (next s a) := by
  refine ⟨kept_next h.kept a en, stage_next h.stage h.kept a en ok, ?_⟩
  by_cases ha : a = .destruct
  · subst ha
    exact (stage_destruct h.stage h.kept en.2.1 en.2.2).2
  · exact (assertFailed_next a ha).trans h.assertFailed

/-- It holds of a new object. -/
theorem inv_created (fns : List F) : Inv (created fns) :=
  ⟨kept_created fns, .intact rfl rfl rfl rfl (iff_of_false nofun (absurd rfl)) nofun, rfl⟩

/-- The object has been destroyed, and so has the function it gave to `addAsyncCleanup`, if any. -/
def State.complete (s : State F) : Prop :=
  s.destroyed = true ∧ s.async.isQueued = false ∧ s.async.isCleaning = false

/-- One thread releases the implementation and then runs the cleanup functions, each once and in
order; without a destroy it is the async thread. -/
def Released (s : State F) : Prop :=
  ∃ th, s.events = account th s.due ∧ (s.invoked = false → th = .async)

/-- Where no step is left, everything was released once and in order. -/
theorem released_of_complete (h : Inv s) (complete : s.complete) : Released s := by
  obtain ⟨hdestroyed, hqueued, hcleaning⟩ := complete
  cases h.stage with
  | intact _ _ _ destroyed => cases hdestroyed.symm.trans destroyed
  | running n done _ _ cleaning =>
    have halive := h.kept.notDestroyed (n := n) (by rw [cleaning]; exact ⟨nofun, nofun⟩)
    cases hdestroyed.symm.trans halive
  | emptied th _ _ events _ invoked =>
    exact ⟨th, events, fun hi => absurd (hi.symm.trans invoked) nofun⟩
  | queued _ _ _ async =>
    rw [async] at hqueued
    cases hqueued
  | cleaning done rest _ _ _ _ async =>
    rw [async] at hcleaning
    cases hcleaning
  | cleaned _ _ events => exact ⟨.async, events, fun _ => rfl⟩

/-- At any time, what has been done is the first part of it. -/
theorem prefix_of_inv (h : Inv s) :
    ∃ th, s.events <+: account th s.due ∧ (s.invoked = false → th = .async) := by
  cases h.stage with
  | intact _ events =>
    rw [events]
    exact ⟨.async, List.nil_prefix, fun _ => rfl⟩
  | running n done _ _ _ events due _ invoked =>
    rw [events, due]
    exact ⟨s.thread n, account_prefix _ _ _, fun hi => absurd (hi.symm.trans invoked) nofun⟩
  | emptied th _ _ events _ invoked =>
    rw [events]
    exact ⟨th, List.prefix_rfl, fun hi => absurd (hi.symm.trans invoked) nofun⟩
  | queued _ _ events =>
    rw [events]
    exact ⟨.async, List.nil_prefix, fun _ => rfl⟩
  | cleaning done rest _ _ events due =>
    rw [events, due]
    exact ⟨.async, account_prefix _ _ _, fun _ => rfl⟩
  | cleaned _ _ events =>
    rw [events]
    exact ⟨.async, List.prefix_rfl, fun _ => rfl⟩

/-- In every run in which a cleanup function throws only where it is the last one: when the object
and its async function are gone, one thread has released the implementation and then run every
cleanup function, once and in order, and it was the async thread if no destroy executed; before,
it has done the first part of that; the destructor does not run while a destroy executes, and its
assertion holds. -/
theorem released_once {s t : State F} {as : List (Action F)} (start : (serverObject F).init s)
    (path : (serverObject F).Path s as t) (ok : (serverObject F).Meets LastThrows s as) :
    (t.complete → Released t) ∧
    (∃ th, t.events <+: account th t.due ∧ (t.invoked = false → th = .async)) ∧
    ((serverObject F).enabled t .destruct → t.executing = none) ∧
    t.assertFailed = false := by
  have keep : ∀ u a, Inv u → (serverObject F).enabled u a → LastThrows u a → Inv (next u a) :=
    fun u a hu en hok => inv_next hu a en.2 hok
  have hinv : Inv t := by
    obtain ⟨fns, rfl⟩ := start
    exact path.keeps_of_meets keep ok (inv_created fns)
  exact ⟨released_of_complete hinv, prefix_of_inv hinv,
    fun en => not_executing_of_unreferenced hinv.kept en.2.2.1, hinv.assertFailed⟩

/-- Two destroys; one is canceled before it is posted, and the connection breaks while the other one
executes, whose last cleanup function throws. -/
def brokenDestroy : List (Action Nat) :=
  [.arrive 0 (.worker 0), .arrive 1 (.worker 1), .cancel 1, .post 0, .enter 0, .invoke 0, .reset 0,
    .disconnect, .cleanup 0 false, .cleanup 0 true, .leave 0, .destruct]

theorem released_once_broken : ∃ t, (serverObject Nat).Path (created [7, 8]) brokenDestroy t ∧
    t.complete ∧ Released t ∧ t.assertFailed = false := by
  have hrun : ((serverObject Nat).run (created [7, 8]) brokenDestroy).map
      (fun t => t.destroyed && !t.async.isQueued && !t.async.isCleaning) = some true := by decide
  obtain ⟨t, ht, hp⟩ := Option.map_eq_some_iff.mp hrun
  simp only [Bool.and_eq_true, Bool.not_eq_true'] at hp
  have hpath := System.run_eq_some_iff.mp ht
  have hok : (serverObject Nat).Meets LastThrows (created [7, 8]) brokenDestroy :=
    ⟨trivial, trivial, trivial, trivial, trivial, trivial, trivial, trivial, nofun,
      fun _ => by decide, trivial, trivial, trivial⟩
  obtain ⟨hreleased, -, -, hassert⟩ := released_once ⟨[7, 8], rfl⟩ hpath hok
  have hcomplete : t.complete := ⟨hp.1.1, hp.1.2, hp.2⟩
  exact ⟨t, hpath, hcomplete, hreleased hcomplete, hassert⟩

/-- The first of two cleanup functions throws in a destroy: the other one is never run, and the
assertion of the destructor fails. -/
theorem throw_leaves_functions :
    ¬ ∀ s, (serverObject Nat).Reachable s →
      (s.complete → Released s) ∧ s.assertFailed = false := by
  intro hall
  obtain ⟨s, hs, hp⟩ := (serverObject Nat).exists_reachable_of_run (s := created [7, 8])
    ⟨[7, 8], rfl⟩
    [.arrive 0 (.worker 0), .post 0, .enter 0, .invoke 0, .reset 0, .cleanup 0 true, .leave 0,
      .respond 0, .drop .client, .destruct]
    (fun s => s.assertFailed) (by decide)
  exact absurd ((hall s hs).2.symm.trans hp) nofun

end Multiprocess.Server.Release
