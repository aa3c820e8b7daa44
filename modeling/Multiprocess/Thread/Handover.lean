import Multiprocess.Lib.Refinement
import Multiprocess.Thread.Lifetime
import Multiprocess.Thread.Order
import Multiprocess.Thread.Stack

/-!
# The calls of a thread object over its `Waiter`

`Thread/Model.lean` takes the handing over of a posted function to the worker, and the return from
`Waiter::wait`, for one step each. `handover` has them as `Waiter` does them, with the mutex, the
condition variable and the stack of waits of `Thread/Waiter.lean` (`include/mp/proxy-io.h`), and the
worker's code from there: the two `sync`s of a posted function, and the IPC calls `fn` makes, each
of which waits for any condition on what the mutex guards (`include/mp/proxy-types.h`).

The event loop thread is the one that posts and sets what the waits are for. What it does with the
promises of the calls is as in `Thread/Model.lean`.

`waiter_hands_over` says that every run of this is one of `thread`, and that a step `thread` allows
the worker is a few steps away here.
-/

namespace Multiprocess.Thread

open Transition (System)

/-! ## The calls and the worker -/

variable {E V S : Type}

/-- The calls of a thread object, and the `Waiter` of its worker, in which a function is the number
of its call. The event loop thread is the other one that locks its mutex. -/
structure Handover (E V S : Type) where
  requests : Nat → Request E V
  posted : Nat
  asserted : Bool
  waiter : Waiter.State Unit Nat S

namespace Handover

variable (s : Handover E V S)

/-- The thread object as `Thread/Model.lean` has it. -/
def calls : State E V where
  requests := s.requests
  posted := s.posted
  slot := s.waiter.slot
  frames := s.waiter.fns
  asserted := s.asserted

def update (i : Nat) (f : Request E V → Request E V) : Handover E V S :=
  { s with requests := Function.update s.requests i (f (s.requests i)) }

/-- The call whose function the innermost wait runs. -/
def current : Option Nat := s.waiter.frames.head?.bind Waiter.Frame.fn

def updateCurrent (f : Request E V → Request E V) : Handover E V S :=
  match s.current with
  | some i => s.update i f
  | none => s

/-- Where the worker's code is in that function. -/
def stage : Option (Stage E V) :=
  if s.waiter.pc = .running then s.current.map fun i => (s.requests i).stage else none

/-- The event loop thread is not between the lock and the unlock of the mutex. -/
def loopFree : Prop := s.waiter.mutex ≠ some (.other ())

/-- `ProxyServer<Thread>::post`. -/
def post : Handover E V S :=
  { s with requests := Function.update s.requests s.posted .fresh, posted := s.posted + 1 }

/-- The continuation of `m_thread_ready`: `Waiter::post`, and the assertion that it did not
fail. -/
def proceed (i : Nat) : Handover E V S :=
  let waiter := Waiter.next s.waiter (.post () i)
  match s.waiter.slot with
  | none => { s.update i ({ · with stage := .slotted }) with waiter := waiter }
  | some _ => { s.update i (fun q => { q.drop with promise := q.promise.breakOff }) with
      waiter := waiter, asserted := true }

/-- The worker looks at the slot. -/
def look : Handover E V S :=
  let waiter := Waiter.next s.waiter .look
  match s.waiter.slot with
  | some i => { s.update i ({ · with stage := .signaling }) with waiter := waiter }
  | none => { s with waiter := waiter }

/-- `fn` makes an IPC call and waits for it. -/
def call (pred : S → Bool) : Handover E V S :=
  { s.updateCurrent ({ · with stage := .calling }) with
    waiter := Waiter.next s.waiter (.wait pred) }

/-- That wait has returned. -/
def leave : Handover E V S :=
  { s with waiter := Waiter.next s.waiter .leave }.updateCurrent ({ · with stage := .running })

/-- The second `sync`, and the end of the posted function. -/
def resolve : Handover E V S :=
  { s.updateCurrent Request.resolve with waiter := Waiter.next s.waiter (.finish false) }

end Handover

inductive HandoverAction (E V S : Type) where
  -- the event loop thread
  | post
  | proceed (i : Nat)
  | reject (i : Nat)
  | destroy (i : Nat)
  | set (f : S → S)
  | lock
  | unlock
  -- the worker
  | look
  | spurious
  | wake
  | signal
  | call (pred : S → Bool)
  | leave
  | ret (result : Except E V)
  | resolve
  | relock

namespace Handover

/-- Where a step can happen. No posted function throws: it catches what `fn` throws. -/
def enabled (s : Handover E V S) : HandoverAction E V S → Prop
  | .post => s.loopFree
  | .proceed i => s.waiter.mutex = none ∧ Thread.enabled s.calls (.proceed i)
  | .reject i => s.loopFree ∧ Thread.enabled s.calls (.reject i)
  | .destroy i => s.loopFree ∧ Thread.enabled s.calls (.destroy i)
  | .set f => Waiter.enabled s.waiter (.set () f)
  | .lock => Waiter.enabled s.waiter (.lock ())
  | .unlock => Waiter.enabled s.waiter (.unlock ())
  | .look => Waiter.enabled s.waiter .look
  | .spurious => Waiter.enabled s.waiter .spurious
  | .wake => Waiter.enabled s.waiter .wake
  | .signal => s.loopFree ∧ s.stage = some .signaling
  | .call pred => s.stage = some .running ∧ Waiter.enabled s.waiter (.wait pred)
  | .leave => Waiter.enabled s.waiter .leave
  | .ret _ => s.stage = some .running
  | .resolve => s.loopFree ∧ ∃ result, s.stage = some (.resolving result)
  | .relock => Waiter.enabled s.waiter (.relock false)

def next (s : Handover E V S) : HandoverAction E V S → Handover E V S
  | .post => s.post
  | .proceed i => s.proceed i
  | .reject i => s.update i fun q => { q with promise := q.promise.breakOff }
  | .destroy i => s.update i Request.destroy
  | .set f => { s with waiter := Waiter.next s.waiter (.set () f) }
  | .lock => { s with waiter := Waiter.next s.waiter (.lock ()) }
  | .unlock => { s with waiter := Waiter.next s.waiter (.unlock ()) }
  | .look => s.look
  | .spurious => { s with waiter := Waiter.next s.waiter .spurious }
  | .wake => { s with waiter := Waiter.next s.waiter .wake }
  | .signal => s.updateCurrent Request.signal
  | .call pred => s.call pred
  | .leave => s.leave
  | .ret result => s.updateCurrent (Request.ret result)
  | .resolve => s.resolve
  | .relock => { s with waiter := Waiter.next s.waiter (.relock false) }

/-- A new thread object. Its worker has locked the mutex and called `wait`, which is to return when
the object is destroyed. -/
def created (guarded : S) : Handover E V S where
  requests _ := .fresh
  posted := 0
  asserted := false
  waiter :=
    { mutex := some .waiter, slot := none, guarded := guarded, pc := .looping
      frames := [⟨fun _ => false, none⟩] }

end Handover

instance [DecidableEq E] [DecidableEq V] (s : State E V) : Decidable s.waits :=
  inferInstanceAs (Decidable (_ ∨ _))

instance (s : Handover E V S) : Decidable s.loopFree := inferInstanceAs (Decidable (_ ≠ _))

instance [DecidableEq E] [DecidableEq V] (s : Handover E V S) :
    ∀ a : HandoverAction E V S, Decidable (s.enabled a)
  | .post => inferInstanceAs (Decidable s.loopFree)
  | .proceed i => inferInstanceAs (Decidable (_ ∧ Thread.enabled s.calls (.proceed i)))
  | .reject i => inferInstanceAs (Decidable (_ ∧ Thread.enabled s.calls (.reject i)))
  | .destroy i => inferInstanceAs (Decidable (_ ∧ Thread.enabled s.calls (.destroy i)))
  | .set f => inferInstanceAs (Decidable (Waiter.enabled s.waiter (.set () f)))
  | .lock => inferInstanceAs (Decidable (Waiter.enabled s.waiter (.lock ())))
  | .unlock => inferInstanceAs (Decidable (Waiter.enabled s.waiter (.unlock ())))
  | .look => inferInstanceAs (Decidable (Waiter.enabled s.waiter .look))
  | .spurious => inferInstanceAs (Decidable (Waiter.enabled s.waiter .spurious))
  | .wake => inferInstanceAs (Decidable (Waiter.enabled s.waiter .wake))
  | .call pred =>
    inferInstanceAs (Decidable (_ ∧ Waiter.enabled s.waiter (.wait pred)))
  | .leave => inferInstanceAs (Decidable (Waiter.enabled s.waiter .leave))
  | .relock => inferInstanceAs (Decidable (Waiter.enabled s.waiter (.relock false)))
  | .signal => inferInstanceAs (Decidable (_ ∧ _))
  | .ret _ => inferInstanceAs (Decidable (_ = _))
  | .resolve => inferInstanceAs (Decidable (_ ∧ ∃ _, _))

/-- The interleavings of the event loop and the worker over the worker's `Waiter`. -/
def handover (E V S : Type) : System (Handover E V S) (HandoverAction E V S) where
  init s := ∃ guarded, s = .created guarded
  enabled := Handover.enabled
  next := Handover.next

instance [DecidableEq E] [DecidableEq V] (s : Handover E V S) (a : HandoverAction E V S) :
    Decidable ((handover E V S).enabled s a) := inferInstanceAs (Decidable (s.enabled a))

/-! ## What a step does to the `Waiter`, and to the calls -/

namespace Handover

variable {s : Handover E V S}

theorem updateCurrent_waiter (s : Handover E V S) (f : Request E V → Request E V) :
    (s.updateCurrent f).waiter = s.waiter := by
  unfold updateCurrent
  split <;> rfl

/-- What the step does to the `Waiter`. -/
def waiterActs : HandoverAction E V S → List (Waiter.Action Unit Nat S)
  | .proceed i => [.post () i]
  | .set f => [.set () f]
  | .lock => [.lock ()]
  | .unlock => [.unlock ()]
  | .look => [.look]
  | .spurious => [.spurious]
  | .wake => [.wake]
  | .call pred => [.wait pred]
  | .leave => [.leave]
  | .resolve => [.finish false]
  | .relock => [.relock false]
  | .post | .reject _ | .destroy _ | .signal | .ret _ => []

theorem proceed_waiter (s : Handover E V S) (i : Nat) :
    (s.proceed i).waiter = Waiter.next s.waiter (.post () i) := by
  unfold proceed
  dsimp only
  split <;> rfl

theorem look_waiter (s : Handover E V S) : s.look.waiter = Waiter.next s.waiter .look := by
  unfold look
  dsimp only
  split <;> rfl

/-- The worker is in a function. -/
theorem stage_some {stage : Stage E V} (h : s.stage = some stage) :
    s.waiter.pc = .running ∧ ∃ i, s.current = some i ∧ (s.requests i).stage = stage := by
  unfold Handover.stage at h
  split at h
  · next hrun =>
    obtain ⟨i, hi, hs⟩ := Option.map_eq_some_iff.mp h
    exact ⟨hrun, i, hi, hs⟩
  · cases h

theorem inFn_of_current {i : Nat} (h : s.current = some i) : s.waiter.inFn := by
  obtain ⟨frame, hframe, hfn⟩ := Option.bind_eq_some_iff.mp h
  exact ⟨frame, hframe, by rw [hfn]; rfl⟩

/-- A step takes the `Waiter` along one of its own paths. -/
theorem waiter_path (a : HandoverAction E V S) (ha : enabled s a) :
    (Waiter.waiter Unit Nat S).Path s.waiter (waiterActs a) (next s a).waiter := by
  cases a with
  | post | reject i | destroy i => exact .nil _
  | proceed i =>
    rw [show (next s (.proceed i)).waiter = _ from proceed_waiter s i]
    exact .single ha.1
  | look =>
    rw [show (next s .look).waiter = _ from look_waiter s]
    exact .single ha
  | set f | lock | unlock | spurious | wake | relock =>
    exact .single ha
  | signal =>
    rw [show (next s .signal).waiter = s.waiter from updateCurrent_waiter s _]
    exact .nil _
  | ret result =>
    rw [show (next s (.ret result)).waiter = s.waiter from updateCurrent_waiter s _]
    exact .nil _
  | call pred => exact .single ha.2
  | leave =>
    rw [show (next s .leave).waiter = Waiter.next s.waiter .leave from updateCurrent_waiter _ _]
    exact .single ha
  | resolve =>
    obtain ⟨-, result, hstage⟩ := ha
    obtain ⟨hrun, i, hi, -⟩ := stage_some hstage
    exact .single ⟨hrun, inFn_of_current hi⟩

theorem calls_eq {t : Handover E V S} {u : State E V} (requests : t.requests = u.requests)
    (posted : t.posted = u.posted) (slot : t.waiter.slot = u.slot)
    (frames : t.waiter.fns = u.frames) (asserted : t.asserted = u.asserted) : t.calls = u := by
  cases u
  cases requests
  cases posted
  cases slot
  cases frames
  cases asserted
  rfl

/-- A step of the `Waiter` that leaves the slot and the functions alone. -/
theorem calls_waiter (s : Handover E V S) {waiter : Waiter.State Unit Nat S}
    (slot : waiter.slot = s.waiter.slot) (fns : waiter.fns = s.waiter.fns) :
    { s with waiter := waiter }.calls = s.calls :=
  calls_eq rfl rfl slot fns rfl

theorem calls_proceed (s : Handover E V S) (i : Nat) : (s.proceed i).calls = s.calls.proceed i := by
  have hfns : (Waiter.next s.waiter (.post () i)).fns = s.waiter.fns :=
    Waiter.fns_notified (Waiter.stack_post s.waiter i).1 (Waiter.stack_post s.waiter i).2
  have hslot : (Waiter.next s.waiter (.post () i)).slot = (s.waiter.post i).slot := rfl
  unfold proceed State.proceed
  rw [show s.calls.slot = s.waiter.slot from rfl]
  cases h : s.waiter.slot with
  | none => exact calls_eq rfl rfl (by rw [hslot, Waiter.post_none h]; rfl) hfns rfl
  | some j => exact calls_eq rfl rfl (by rw [hslot, Waiter.post_some h]; rfl) hfns rfl

theorem calls_look (s : Handover E V S) (h : Waiter.Entered s.waiter)
    (looping : s.waiter.pc = .looping) :
    s.look.calls = if s.waiter.slot.isSome then s.calls.take else s.calls := by
  have hfns : (Waiter.next s.waiter .look).fns = s.waiter.slot.toList ++ s.waiter.fns :=
    Waiter.fns_look h looping
  have hslot : (Waiter.next s.waiter .look).slot = none := Waiter.look_slot s.waiter
  unfold look
  cases hs : s.waiter.slot with
  | none =>
    rw [hs] at hfns
    exact calls_waiter s (hslot.trans hs.symm) hfns
  | some i =>
    rw [hs] at hfns
    rw [Option.isSome_some, if_pos rfl, take_some (s := s.calls) hs]
    exact calls_eq rfl rfl hslot hfns rfl

/-- The function the innermost wait runs is the innermost frame. -/
theorem calls_updateCurrent (h : Waiter.Guarded s.waiter) (running : s.waiter.pc = .running)
    (f : Request E V → Request E V) : (s.updateCurrent f).calls = s.calls.updateTop f := by
  have hhead : s.calls.frames.head? = s.current := Waiter.head_fns h running
  unfold updateCurrent State.updateTop
  cases hframes : s.calls.frames with
  | nil =>
    rw [hframes] at hhead
    rw [← hhead]
    rfl
  | cons i rest =>
    rw [hframes] at hhead
    rw [← hhead]
    rfl

theorem top_calls (h : Waiter.Guarded s.waiter) (running : s.waiter.pc = .running) :
    s.calls.top = s.stage := by
  have hhead : s.calls.frames.head? = s.current := Waiter.head_fns h running
  unfold State.top Handover.stage
  rw [hhead, if_pos running]
  rfl

/-! ## What the event loop leaves alone -/

section Loop

variable {t : State E V}

theorem top_post (h : Placed t) : t.post.top = t.top := by
  refine top_congr rfl fun j hj => ?_
  rw [post_requests, if_neg (Nat.ne_of_lt ((h.frames j).mp hj).1)]

theorem top_update (i : Nat) (f : Request E V → Request E V)
    (same : i ∈ t.frames → (f (t.requests i)).stage = (t.requests i).stage) :
    (t.update i f).top = t.top := by
  refine top_congr rfl fun j hj => ?_
  rw [update_requests]
  split
  · next he =>
    subst he
    exact same hj
  · rfl

theorem not_mem_frames (h : Placed t) {i : Nat} (chained : (t.requests i).stage = .chained) :
    i ∉ t.frames := by
  intro hi
  have htaken := ((h.frames i).mp hi).2
  rw [chained] at htaken
  cases htaken

theorem top_proceed (h : Placed t) {i : Nat} (chained : (t.requests i).stage = .chained) :
    (t.proceed i).top = t.top := by
  have hout := not_mem_frames h chained
  unfold State.proceed
  cases t.slot with
  | none => exact top_update i ({ · with stage := .slotted }) fun hi => absurd hi hout
  | some j =>
    exact top_update i (fun q => { q.drop with promise := q.promise.breakOff })
      fun hi => absurd hi hout

theorem top_destroy (h : Placed t) (i : Nat) : (t.update i Request.destroy).top = t.top := by
  refine top_update i Request.destroy fun hi => ?_
  rw [destroy_posted fun hc => not_mem_frames h hc hi]

theorem top_take {i : Nat} (h : t.slot = some i) : t.take.top = some .signaling := by
  rw [take_some h]
  change some ((t.update i ({ · with stage := .signaling })).requests i).stage = _
  rw [update_same]

theorem top_resolve (h : Placed t) {stage : Stage E V} (ht : t.top = some stage) :
    t.resolve.waits := by
  obtain ⟨i, rest, hframes, -⟩ := top_eq_some ht
  have hnot : i ∉ rest := (List.nodup_cons.mp (hframes ▸ h.nodup)).1
  rw [resolve_cons hframes]
  cases rest with
  | nil => exact .inl rfl
  | cons j rest =>
    refine .inr (congrArg some ?_)
    have hj : j ≠ i := fun he => hnot (he ▸ List.mem_cons_self)
    change ((t.update i Request.resolve).requests j).stage = .calling
    rw [update_other hj]
    exact h.outer j (by rw [hframes]; exact List.mem_cons_self)

end Loop

/-! ## The invariant -/

/-- The calls are in order, and the worker is in the code of a wait exactly where
`Thread/Model.lean` has it in one. -/
structure Handing (s : Handover E V S) : Prop where
  waiter : Waiter.Serving s.waiter
  placed : Placed s.calls
  waits : s.calls.waits ↔ s.waiter.pc ≠ .running

theorem handing_created (guarded : S) : Handing (created guarded : Handover E V S) where
  waiter :=
    { guarded := ⟨iff_of_true rfl rfl, nofun, nofun, nofun, nofun⟩
      entered := ⟨fun _ => ⟨_, _, rfl, rfl⟩, nofun⟩
      calm := ⟨nofun, nofun, [], rfl⟩ }
  placed := placed_created
  waits := iff_of_true (.inl rfl) nofun

variable (h : Handing s)

include h

/-- A wait that has returned is one of the function of the innermost frame. -/
theorem Handing.top_of_returned (returned : s.waiter.pc = .returned) :
    s.calls.top = some .calling := by
  have hwaits := h.waits.mpr (by rw [returned]; nofun)
  refine hwaits.resolve_left fun hnone => ?_
  have hhead : s.calls.frames.head? = none := Option.map_eq_none_iff.mp hnone
  exact h.waiter.fns_of_returned returned (List.head?_eq_none_iff.mp hhead)

theorem Handing.waiter_next (a : HandoverAction E V S) (ha : enabled s a) :
    Waiter.Serving (next s a).waiter := by
  have hquiet : ∀ b ∈ waiterActs a, ∀ _ : Waiter.State Unit Nat S, b ≠ .finish true := by
    intro b hb _
    cases a with
    | post | reject i | destroy i | signal | ret result => cases hb
    | _ =>
      cases List.mem_singleton.mp hb
      nofun
  exact (waiter_path a ha).keeps_of_meets (I := Waiter.Serving)
    (fun _ b hw hb hq => hw.next b hb hq) (System.meets_of_forall hquiet _) h.waiter

/-! ## The simulation -/

/-- The steps of `Thread/Model.lean` a step stands for. -/
def acts (s : Handover E V S) : HandoverAction E V S → List (Action E V)
  | .post => [.post]
  | .proceed i => [.proceed i]
  | .reject i => [.reject i]
  | .destroy i => [.destroy i]
  | .look => if s.waiter.slot.isSome then [.take] else []
  | .signal => [.signal]
  | .call _ => [.call]
  | .leave => [.answer]
  | .ret result => [.ret result]
  | .resolve => [.resolve]
  | .set _ | .lock | .unlock | .spurious | .wake | .relock => []

theorem Handing.top_eq {stage : Stage E V} (hs : s.stage = some stage) :
    s.calls.top = some stage := by
  rw [top_calls h.waiter.guarded (stage_some hs).1, hs]

theorem Handing.calls_leave (ha : enabled s .leave) :
    s.leave.calls = s.calls.updateTop ({ · with stage := .running }) := by
  have hg := Waiter.guarded_next h.waiter.guarded .leave ha
  have hleft : { s with waiter := Waiter.next s.waiter .leave }.calls = s.calls :=
    calls_waiter s rfl (Waiter.fns_leave h.waiter.entered ha)
  rw [leave, calls_updateCurrent hg rfl, hleft]

theorem Handing.calls_call (pred : S → Bool) (hs : s.stage = some .running) :
    (s.call pred).calls = s.calls.updateTop ({ · with stage := .calling }) := by
  have hrun := (stage_some hs).1
  rw [← calls_updateCurrent h.waiter.guarded hrun]
  have hwaiter := updateCurrent_waiter s ({ · with stage := .calling })
  refine calls_waiter (s.updateCurrent ({ · with stage := .calling })) ?_ ?_
  · rw [hwaiter]
    rfl
  · rw [hwaiter]
    exact Waiter.fns_wait pred hrun

omit h in
theorem calls_resolve {result : Except E V} (hs : s.stage = some (.resolving result)) :
    s.resolve.calls = s.calls.resolve := by
  obtain ⟨hrun, i, hi, -⟩ := stage_some hs
  obtain ⟨frame, hframe, hfn⟩ := Option.bind_eq_some_iff.mp hi
  obtain ⟨frames, hframes⟩ := List.head?_eq_some_iff.mp hframe
  have hfns : s.calls.frames = i :: frames.filterMap Waiter.Frame.fn := by
    change s.waiter.fns = _
    rw [Waiter.fns_of_pc (by rw [hrun]; nofun), hframes, List.filterMap_cons_some hfn]
  have hcurrent : s.updateCurrent Request.resolve = s.update i Request.resolve := by
    unfold updateCurrent
    rw [hi]
  rw [resolve_cons hfns, Handover.resolve, hcurrent]
  exact calls_eq rfl rfl rfl (Waiter.fns_finish false hframes) rfl

/-- A step that stands for none leaves the calls alone. -/
theorem Handing.calls_stutter (a : HandoverAction E V S) (ha : enabled s a) (hs : acts s a = []) :
    (next s a).calls = s.calls := by
  cases a with
  | set f => exact calls_waiter s rfl (Waiter.fns_notified rfl (.inr rfl))
  | lock | unlock => exact calls_waiter s rfl (Waiter.fns_notified rfl (.inl rfl))
  | spurious =>
    have hpc : s.waiter.pc = .blocked false := ha
    exact calls_waiter s rfl (Waiter.fns_notified rfl (.inr (by rw [hpc]; rfl)))
  | wake =>
    refine calls_waiter s rfl ?_
    rw [Waiter.fns_of_pc (s := s.waiter) (by rw [ha.2]; nofun)]
    rfl
  | relock =>
    exact calls_waiter s (Waiter.setFn_slot s.waiter none) (Waiter.fns_relock h.waiter.entered ha.2)
  | look =>
    rw [show (next s .look).calls = _ from calls_look s h.waiter.entered ha]
    split
    · next hslot =>
      rw [acts, if_pos hslot] at hs
      cases hs
    · rfl
  | post | proceed i | reject i | destroy i | signal | call pred | leave | ret result | resolve =>
    cases hs

/-- A look at a full slot takes the function out of it. -/
theorem Handing.calls_take (ha : enabled s .look) (hslot : s.waiter.slot.isSome = true) :
    s.look.calls = s.calls.take := by
  rw [calls_look s h.waiter.entered ha, if_pos hslot]

theorem Handing.take_enabled (ha : enabled s .look) (hslot : s.waiter.slot.isSome = true) :
    Thread.enabled s.calls (.take : Action E V) := by
  refine ⟨h.waits.mpr ?_, hslot⟩
  rw [show s.waiter.pc = .looping from ha]
  nofun

/-- What a step is to the calls. -/
theorem Handing.calls_path (a : HandoverAction E V S) (ha : enabled s a) :
    (thread E V).Path s.calls (acts s a) (next s a).calls := by
  have hstutter : acts s a = [] → (thread E V).Path s.calls (acts s a) (next s a).calls := by
    intro hs
    rw [hs, h.calls_stutter a ha hs]
    exact .nil _
  cases a with
  | set f | lock | unlock | spurious | wake | relock => exact hstutter rfl
  | post => exact .single trivial
  | reject i | destroy i => exact .single ha.2
  | proceed i =>
    rw [show (next s (.proceed i)).calls = _ from calls_proceed s i]
    exact .single ha.2
  | look =>
    cases hslot : s.waiter.slot.isSome with
    | true =>
      rw [show (next s .look).calls = _ from h.calls_take ha hslot, acts, if_pos hslot]
      exact .single (h.take_enabled ha hslot)
    | false =>
      refine hstutter ?_
      rw [acts, hslot]
      rfl
  | signal =>
    rw [show (next s .signal).calls = _ from
      calls_updateCurrent h.waiter.guarded (stage_some ha.2).1 Request.signal]
    exact .single (h.top_eq ha.2)
  | call pred =>
    rw [show (next s (.call pred)).calls = _ from h.calls_call pred ha.1]
    exact .single (h.top_eq ha.1)
  | leave =>
    have hreturned := Or.resolve_right ha h.waiter.calm.thrown
    obtain ⟨hslot, -⟩ := h.waiter.guarded.returned hreturned
    rw [show (next s .leave).calls = _ from h.calls_leave ha]
    exact .single ⟨h.top_of_returned hreturned, hslot⟩
  | ret result =>
    rw [show (next s (.ret result)).calls = _ from
      calls_updateCurrent h.waiter.guarded (stage_some ha).1 (Request.ret result)]
    exact .single (h.top_eq ha)
  | resolve =>
    obtain ⟨-, result, hs⟩ := ha
    rw [show (next s .resolve).calls = _ from calls_resolve hs]
    exact .single ⟨result, h.top_eq hs⟩

/-- The event loop thread does not move the worker from or to the code of a function. -/
theorem Handing.waits_loop {t : Handover E V S} (top : t.calls.top = s.calls.top)
    (pc : t.waiter.pc = s.waiter.pc ∨ t.waiter.pc = s.waiter.pc.notified) :
    t.calls.waits ↔ t.waiter.pc ≠ .running := by
  unfold State.waits
  rw [top]
  refine h.waits.trans (not_congr ?_)
  rcases pc with hpc | hpc
  · rw [hpc]
  · rw [hpc]
    refine ⟨fun hrun => ?_, fun hrun => Waiter.Pc.eq_of_notified hrun nofun⟩
    rw [hrun]
    rfl

/-- The worker is in the code of a wait before and after. -/
theorem Handing.waits_waiting {t : Handover E V S} (calls : t.calls = s.calls)
    (before : s.waiter.pc ≠ .running) (after : t.waiter.pc ≠ .running) :
    t.calls.waits ↔ t.waiter.pc ≠ .running := by
  rw [calls]
  exact iff_of_true (h.waits.mpr before) after

omit h in
/-- A step of the innermost frame. -/
theorem waits_updateTop {stage : Stage E V} (f : Request E V → Request E V) {t : Handover E V S}
    (top : s.calls.top = some stage) (calls : t.calls = s.calls.updateTop f)
    (moved : ∀ q : Request E V, (f q).stage = .calling ↔ t.waiter.pc ≠ .running) :
    t.calls.waits ↔ t.waiter.pc ≠ .running := by
  obtain ⟨q, -, hq, -⟩ := top_updateTop top f
  rw [calls, waits_of_top hq]
  exact moved q

/-- After every step the worker is in the code of a wait where `Thread/Model.lean` has it in one. -/
theorem Handing.waits_next (a : HandoverAction E V S) (ha : enabled s a) :
    (next s a).calls.waits ↔ (next s a).waiter.pc ≠ .running := by
  cases a with
  | post => exact h.waits_loop (top_post h.placed) (.inl rfl)
  | reject i =>
    have hcalls : (next s (.reject i)).calls.top = s.calls.top :=
      top_update (t := s.calls) i (fun q => { q with promise := q.promise.breakOff }) fun _ => rfl
    exact h.waits_loop hcalls (.inl rfl)
  | destroy i => exact h.waits_loop (top_destroy h.placed i) (.inl rfl)
  | proceed i =>
    refine h.waits_loop ?_ ?_
    · rw [show (next s (.proceed i)).calls = _ from calls_proceed s i]
      exact top_proceed h.placed ha.2.2.1
    · rw [show (next s (.proceed i)).waiter = _ from proceed_waiter s i]
      exact (Waiter.stack_post s.waiter i).2
  | set f => exact h.waits_loop (congrArg State.top (h.calls_stutter (.set f) ha rfl)) (.inr rfl)
  | lock => exact h.waits_loop (congrArg State.top (h.calls_stutter .lock ha rfl)) (.inl rfl)
  | unlock => exact h.waits_loop (congrArg State.top (h.calls_stutter .unlock ha rfl)) (.inl rfl)
  | spurious =>
    have hpc : s.waiter.pc = .blocked false := ha
    exact h.waits_waiting (h.calls_stutter .spurious ha rfl) (by rw [hpc]; nofun) nofun
  | wake => exact h.waits_waiting (h.calls_stutter .wake ha rfl) (by rw [ha.2]; nofun) nofun
  | relock => exact h.waits_waiting (h.calls_stutter .relock ha rfl) (by rw [ha.2]; nofun) nofun
  | look =>
    have hpc : s.waiter.pc = .looping := ha
    have hwaiter : (next s .look).waiter = s.waiter.look := look_waiter s
    cases hslot : s.waiter.slot with
    | none =>
      have hcalls := h.calls_stutter .look ha (by rw [acts, hslot]; rfl)
      refine h.waits_waiting hcalls (by rw [hpc]; nofun) ?_
      rw [hwaiter]
      rcases (Waiter.stack_look hslot).2 with hl | hl <;> rw [hl] <;> nofun
    | some i =>
      rw [show (next s .look).calls = _ from h.calls_take ha (by rw [hslot]; rfl), hwaiter,
        Waiter.look_some hslot, waits_of_top (top_take (t := s.calls) hslot)]
      exact iff_of_false nofun (absurd rfl)
  | signal =>
    refine waits_updateTop Request.signal (h.top_eq ha.2)
      (calls_updateCurrent h.waiter.guarded (stage_some ha.2).1 _) fun q => ?_
    rw [show (next s .signal).waiter = s.waiter from updateCurrent_waiter s _, (stage_some ha.2).1]
    exact iff_of_false nofun (absurd rfl)
  | ret result =>
    refine waits_updateTop (Request.ret result) (h.top_eq ha)
      (calls_updateCurrent h.waiter.guarded (stage_some ha).1 _) fun q => ?_
    rw [show (next s (.ret result)).waiter = s.waiter from updateCurrent_waiter s _,
      (stage_some ha).1]
    exact iff_of_false nofun (absurd rfl)
  | call pred =>
    exact waits_updateTop _ (h.top_eq ha.1) (h.calls_call pred ha.1) fun q => iff_of_true rfl nofun
  | leave =>
    have htop := h.top_of_returned (Or.resolve_right ha h.waiter.calm.thrown)
    refine waits_updateTop _ htop (h.calls_leave ha) fun q => ?_
    rw [show (next s .leave).waiter = Waiter.next s.waiter .leave from updateCurrent_waiter _ _]
    exact iff_of_false nofun (absurd rfl)
  | resolve =>
    obtain ⟨-, result, hs⟩ := ha
    rw [show (next s .resolve).calls = _ from calls_resolve hs]
    exact iff_of_true (top_resolve h.placed (h.top_eq hs)) nofun

theorem Handing.next (a : HandoverAction E V S) (ha : enabled s a) : Handing (next s a) where
  waiter := h.waiter_next a ha
  placed := (h.calls_path a ha).keeps placed_next h.placed
  waits := h.waits_next a ha

omit h

/-- The call whose function the step starts. -/
def begins (s : Handover E V S) : HandoverAction E V S → List Nat
  | .signal => s.current.toList
  | _ => []

/-- The steps here simulate those of `Thread/Model.lean`. -/
def simulation : (handover E V S).Simulation (thread E V) begins
    fun s a => (starting s a).toList where
  inv := Handing
  keeps _ a h ha := h.next a ha
  abs := calls
  acts := acts
  path _ a h ha := h.calls_path a ha
  shows s a h ha := by
    cases a with
    | signal =>
      have hhead : s.calls.frames.head? = s.current :=
        Waiter.head_fns h.waiter.guarded (stage_some ha.2).1
      exact (List.append_nil _).trans (congrArg Option.toList hhead)
    | look =>
      unfold acts
      cases s.waiter.slot <;> rfl
    | _ => rfl

/-! ## What the worker comes to by itself -/

/-- At most `n` steps, each the worker's in the code of a wait, or the unlock by the event loop
thread that it may have to wait for. -/
def Shortly (n : Nat) (s t : Handover E V S) : Prop :=
  ∃ as : List (HandoverAction E V S), as.length ≤ n ∧
    (∀ a ∈ as, a = .unlock ∨ a = .wake ∨ a = .relock ∨ a = .look ∨ a = .leave) ∧
      (handover E V S).Path s as t

theorem Shortly.here (s : Handover E V S) : Shortly 0 s s := ⟨[], Nat.le_refl 0, nofun, .nil s⟩

theorem Shortly.single {a : HandoverAction E V S}
    (own : a = .unlock ∨ a = .wake ∨ a = .relock ∨ a = .look ∨ a = .leave) (ha : enabled s a) :
    Shortly 1 s (next s a) :=
  ⟨[a], Nat.le_refl 1, List.forall_mem_singleton.mpr own, .single ha⟩

theorem Shortly.trans {m n : Nat} {t u : Handover E V S} (h : Shortly m s t) (k : Shortly n t u) :
    Shortly (m + n) s u := by
  obtain ⟨as, hm, has, hs⟩ := h
  obtain ⟨bs, hn, hbs, ht⟩ := k
  refine ⟨as ++ bs, ?_, fun a ha => ?_, hs.append ht⟩
  · rw [List.length_append]
    omega
  · exact (List.mem_append.mp ha).elim (has a) (hbs a)

theorem Shortly.mono {m n : Nat} {t : Handover E V S} (h : Shortly m s t) (le : m ≤ n) :
    Shortly n s t := by
  obtain ⟨as, hm, hrest⟩ := h
  exact ⟨as, hm.trans le, hrest⟩

/-- What a wait looks at is the same. -/
structure SameWait (s t : Handover E V S) : Prop where
  calls : t.calls = s.calls
  pred : t.waiter.pred = s.waiter.pred

theorem SameWait.slot {t : Handover E V S} (h : SameWait s t) : t.waiter.slot = s.waiter.slot :=
  congrArg State.slot h.calls

theorem SameWait.trans {t u : Handover E V S} (h : SameWait s t) (k : SameWait t u) :
    SameWait s u := ⟨k.calls.trans h.calls, k.pred.trans h.pred⟩

include h

/-- The event loop thread unlocks the mutex. -/
theorem Handing.freed : ∃ t, Shortly 1 s t ∧ Handing t ∧ SameWait s t ∧ t.loopFree ∧
    t.waiter.pc = s.waiter.pc := by
  by_cases hfree : s.loopFree
  · exact ⟨s, (Shortly.here s).mono (Nat.zero_le 1), h, ⟨rfl, rfl⟩, hfree, rfl⟩
  · have ha : enabled s .unlock := not_not.mp hfree
    exact ⟨Handover.next s .unlock, .single (.inl rfl) ha, h.next .unlock ha,
      ⟨h.calls_stutter .unlock ha rfl, rfl⟩, nofun, rfl⟩

/-- A worker in the code of a wait that has something to look at, looks at it. -/
theorem Handing.looks (waits : s.waiter.pc ≠ .running) (returned : s.waiter.pc ≠ .returned)
    (wanted : s.waiter.slot ≠ none ∨ s.waiter.pred = true) :
    ∃ t, Shortly 2 s t ∧ Handing t ∧ SameWait s t ∧ t.waiter.pc = .looping := by
  obtain ⟨t, hst, ht, hsame, hfree, hpc⟩ := h.freed
  have hunlocked : t.waiter.pc.locked = false → t.waiter.mutex = none := by
    intro hl
    cases hm : t.waiter.mutex with
    | none => rfl
    | some who =>
      cases who with
      | other p => exact absurd hm hfree
      | waiter =>
        have hlocked := ht.waiter.guarded.mutex.mp hm
        rw [hl] at hlocked
        cases hlocked
  have hstep : ∀ a : HandoverAction E V S, a = .wake ∨ a = .relock → acts t a = [] →
      enabled t a → (Handover.next t a).waiter.pred = t.waiter.pred →
      (Handover.next t a).waiter.pc = .looping →
      ∃ u, Shortly 2 s u ∧ Handing u ∧ SameWait s u ∧ u.waiter.pc = .looping := by
    intro a hown hacts ha hpred h.waits_looping
    have hone : Shortly 1 t (Handover.next t a) :=
      .single (.inr (hown.elim .inl fun he => .inr (.inl he))) ha
    exact ⟨_, hst.trans hone, ht.next a ha, hsame.trans ⟨ht.calls_stutter a ha hacts, hpred⟩,
      h.waits_looping⟩
  cases hp : t.waiter.pc with
  | running => exact absurd (hpc.symm.trans hp) waits
  | returned => exact absurd (hpc.symm.trans hp) returned
  | thrown => exact absurd hp ht.waiter.calm.thrown
  | looping => exact ⟨t, hst.mono (Nat.le_succ 1), ht, hsame, hp⟩
  | blocked notified =>
    cases notified with
    | false =>
      obtain ⟨hslot, hpred⟩ := ht.waiter.guarded.blocked hp
      rw [← hsame.slot, ← hsame.pred, hslot, hpred] at wanted
      exact absurd rfl (wanted.resolve_right nofun)
    | true => exact hstep .wake (.inl rfl) rfl ⟨hunlocked (by rw [hp]; rfl), hp⟩ rfl rfl
  | relocking threw =>
    cases threw with
    | true => exact absurd hp ht.waiter.calm.ended
    | false =>
      exact hstep .relock (.inr rfl) rfl ⟨hunlocked (by rw [hp]; rfl), hp⟩
        (Waiter.setFn_pred t.waiter none) rfl

/-- A worker that may take a function does. -/
theorem Handing.takes (waits : s.calls.waits) (full : s.waiter.slot ≠ none) :
    ∃ t, Shortly 3 s t ∧ t.calls = s.calls.take := by
  have hnot : s.waiter.pc ≠ .returned := fun hr => full (h.waiter.guarded.returned hr).1
  obtain ⟨t, hst, ht, hsame, hpc⟩ := h.looks (h.waits.mp waits) hnot (.inl full)
  have hslot : t.waiter.slot.isSome = true := by
    rw [hsame.slot]
    exact Option.isSome_iff_ne_none.mpr full
  refine ⟨t.look, hst.trans (.single (a := .look) ?_ hpc), ?_⟩
  · exact .inr (.inr (.inr (.inl rfl)))
  · rw [ht.calls_take hpc hslot, hsame.calls]

/-- A wait that has what it waits for returns. -/
theorem Handing.answers (waits : s.calls.waits) (empty : s.waiter.slot = none)
    (met : s.waiter.pred = true) :
    ∃ t, Shortly 4 s t ∧ t.calls = Thread.next s.calls (.answer : Action E V) := by
  have hleave : ∀ {n : Nat} {t : Handover E V S}, Shortly n s t → Handing t → SameWait s t →
      t.waiter.pc = .returned →
      ∃ u, Shortly (n + 1) s u ∧ u.calls = Thread.next s.calls (.answer : Action E V) := by
    intro n t hst ht hsame hpc
    have ha : enabled t .leave := .inl hpc
    refine ⟨t.leave, hst.trans (.single (a := .leave) (.inr (.inr (.inr (.inr rfl)))) ha), ?_⟩
    rw [ht.calls_leave ha, hsame.calls]
    rfl
  by_cases hreturned : s.waiter.pc = .returned
  · obtain ⟨u, hu, hcalls⟩ := hleave (.here s) h ⟨rfl, rfl⟩ hreturned
    exact ⟨u, hu.mono (by omega), hcalls⟩
  · obtain ⟨t, hst, ht, hsame, hpc⟩ := h.looks (h.waits.mp waits) hreturned (.inr met)
    have hempty : t.waiter.slot = none := hsame.slot.trans empty
    have hwaiter : t.look.waiter = t.waiter.look := look_waiter t
    have hstutter : t.look.calls = t.calls :=
      ht.calls_stutter .look hpc (by rw [acts, hempty]; rfl)
    have hpc' : t.look.waiter.pc = .returned := by
      rw [hwaiter]
      exact Waiter.look_returned hempty (hsame.pred.trans met)
    have htl : Shortly 1 t t.look := .single (a := .look) (.inr (.inr (.inr (.inl rfl)))) hpc
    have hpred := ((ht.next .look hpc).waiter.guarded.returned hpc').2
    exact hleave (hst.trans htl) (ht.next .look hpc)
      ⟨hstutter.trans hsame.calls, hpred.trans met.symm⟩ hpc'

end Handover

/-- The calls whose functions start, as `Thread/Order.lean` lists them. -/
theorem starts_eq_trace (s : State E V) (as : List (Action E V)) :
    starts s as = (thread E V).trace (fun s a => (starting s a).toList) s as := by
  induction as generalizing s with
  | nil => rfl
  | cons a as ih => exact congrArg ((starting s a).toList ++ ·) (ih (next s a))

/-- The step destroys a promise. -/
def HandoverAction.Cancels : HandoverAction E V S → Prop
  | .destroy _ => True
  | _ => False

instance : ∀ a : HandoverAction E V S, Decidable a.Cancels
  | .destroy _ => .isTrue trivial
  | .post | .proceed _ | .reject _ | .set _ | .lock | .unlock | .look | .spurious | .wake
  | .signal | .call _ | .leave | .ret _ | .resolve | .relock => .isFalse id

theorem Handover.not_cancels (s : Handover E V S) {a : HandoverAction E V S} (h : ¬ a.Cancels)
    {b : Action E V} (hb : b ∈ s.acts a) : ¬ b.Cancels := by
  cases a with
  | destroy i => exact absurd trivial h
  | look =>
    have hb : b ∈ if s.waiter.slot.isSome then [Action.take] else [] := hb
    split at hb
    · cases List.mem_singleton.mp hb
      exact id
    · cases hb
  | set f | lock | unlock | spurious | wake | relock => cases hb
  | post | proceed i | reject i | signal | call pred | leave | ret result | resolve =>
    cases List.mem_singleton.mp hb
    exact id

/-- **The worker takes what is posted.** Over the mutex, the condition variable and the nested
waits, every run is one of the calls in which handing over and returning from a wait are single
steps, and starts the same functions; in order and once each, if no promise is destroyed. Where the
worker may take a function it does so within three steps of its own, and where a wait has what it
waits for and no function is posted the wait returns within four. -/
theorem waiter_hands_over {guarded : S} {as : List (HandoverAction E V S)} {t : Handover E V S}
    (path : (handover E V S).Path (.created guarded) as t) :
    (∃ bs, (thread E V).Path created bs t.calls ∧
      starts created bs = (handover E V S).trace Handover.begins (.created guarded) as) ∧
    ((∀ a ∈ as, ¬ a.Cancels) → ∃ k ≤ t.posted,
      (handover E V S).trace Handover.begins (.created guarded) as = List.range k) ∧
    (t.calls.waits → t.waiter.slot ≠ none → ∃ u, t.Shortly 3 u ∧ u.calls = t.calls.take) ∧
    (t.calls.waits → t.waiter.slot = none → t.waiter.pred = true →
      ∃ u, t.Shortly 4 u ∧ u.calls = next t.calls (.answer : Action E V)) := by
  have hcreated := Handover.handing_created (E := E) (V := V) guarded
  have ht : Handover.Handing t := path.keeps (fun s a h ha => h.next a ha) hcreated
  obtain ⟨hpath, htrace⟩ := Handover.simulation.run path hcreated
  have hstarts : starts created (Handover.simulation.actions (.created guarded) as) =
      (handover E V S).trace Handover.begins (.created guarded) as :=
    (starts_eq_trace _ _).trans htrace
  refine ⟨⟨_, hpath, hstarts⟩, fun hc => ?_, ht.takes, ht.answers⟩
  have hcancels : ∀ b ∈ Handover.simulation.actions (.created guarded) as, ¬ b.Cancels := by
    intro b hb
    obtain ⟨s, a, ha, hb⟩ := Handover.simulation.mem_actions hb
    exact s.not_cancels (hc a ha) hb
  obtain ⟨k, hk, hstarted, -⟩ := orderly_path hpath hcancels started_created sound_created
    placed_created fun i hi => absurd hi (Nat.not_lt_zero i)
  refine ⟨k, hstarted.le, hstarts.symm.trans ?_⟩
  rw [← hk]
  rfl

/-- Two calls, of which the second is posted to the worker while the first waits for an IPC call. -/
def twoCalls : List (HandoverAction Unit Nat Bool) :=
  [.look, .post, .post, .proceed 0, .unlock, .wake, .look, .signal, .call id, .look, .proceed 1,
    .unlock, .wake, .look, .signal, .ret (.ok 7), .set fun _ => true, .unlock, .resolve]

/-- Both have been started, and the first is about to return from its wait. -/
theorem waiter_hands_over_two : ∃ t, (handover Unit Nat Bool).Path (.created false) twoCalls t ∧
    (∃ k ≤ t.posted, (handover Unit Nat Bool).trace Handover.begins (.created false) twoCalls =
      List.range k) ∧
    ∃ u, t.Shortly 4 u ∧ u.calls = next t.calls (.answer : Action Unit Nat) := by
  have hrun : ((handover Unit Nat Bool).run (.created false) twoCalls).map
      (fun t => decide (t.waiter.slot = none) && t.waiter.pred && decide t.calls.waits)
      = some true := by decide
  obtain ⟨t, ht, hp⟩ := Option.map_eq_some_iff.mp hrun
  have hpath := System.run_eq_some_iff.mp ht
  obtain ⟨hp, hwaits⟩ := Bool.and_eq_true_iff.mp hp
  obtain ⟨hslot, hpred⟩ := Bool.and_eq_true_iff.mp hp
  obtain ⟨-, horder, -, hanswers⟩ := waiter_hands_over hpath
  exact ⟨t, hpath, horder (by decide),
    hanswers (of_decide_eq_true hwaits) (of_decide_eq_true hslot) hpred⟩

end Multiprocess.Thread
