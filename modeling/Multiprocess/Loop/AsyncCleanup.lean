import Mathlib.Data.List.Nodup
import Multiprocess.Loop.Shutdown

/-!
# The async thread runs every cleanup once, in order

A function of `addAsyncCleanup` is known by the number of those added before it. `adds`, `begins`
and `ends` are what an action adds to `m_async_fns`, takes out of it to run, and is done running.
Over a disciplined run the queue is conserved, and so is the one place of the async thread; the
loop leaves its `for(;;)` only when both are empty. `Worker` relates the place of the thread to
the list: it sleeps only over an empty one, and it ends only when there is none.

A cleanup that throws ends the process, which is not modelled.
-/

namespace Multiprocess.Loop

variable {T : Type}

namespace State

/-- The functions in `m_async_fns`. -/
def queued (s : State T) : List Nat := s.asyncFns.getD []

/-- The function `m_async_thread` is running, if any. -/
def current (s : State T) : List Nat :=
  match s.async with
  | .running fn => [fn]
  | _ => []

end State

/-- What an action adds to `m_async_fns`. -/
def adds (s : State T) : Action T → List Nat
  | .addAsyncCleanup => [s.added]
  | _ => []

/-- What an action takes out of `m_async_fns` and starts to run. -/
def begins (s : State T) : Action T → List Nat
  | .asyncCheck => s.queued.head?.toList
  | _ => []

/-- What has run when an action is taken. -/
def ends (s : State T) : Action T → List Nat
  | .asyncFinish => s.current
  | _ => []

/-- The place of the async thread and the list it works on. -/
structure Worker (s : State T) : Prop where
  -- no wake-up is lost
  asleep : s.async = .asleep → s.asyncFns = some []
  -- it is started when the list is no longer empty
  absent : s.async = .absent → s.queued = []
  -- it leaves its `while` loop only on `!m_async_fns`
  gone : s.async = .gone → s.asyncFns = none

/-- At the start no cleanup was queued. -/
theorem worker_of_starts {s : State T} (h : Starts s) : Worker s := by
  refine ⟨fun _ => h.asyncFns, fun _ => ?_, fun hg => ?_⟩
  · rw [State.queued, h.asyncFns]
    rfl
  · rw [h.async] at hg
    cases hg

/-! ## Actions that leave the cleanups alone -/

/-- The list and the count are left alone, and the async thread is at most notified. -/
structure SameCleanups (s t : State T) : Prop where
  asyncFns : t.asyncFns = s.asyncFns
  added : t.added = s.added
  async : t.async = s.async ∨ t.async = s.async.notified

/-- The actions that touch the list, or are a step of the async thread in its `while` loop. -/
def Action.ofCleanups : Action T → Bool
  | .addAsyncCleanup | .exit => true
  | .asyncCheck | .asyncWakeUp | .asyncFinish | .asyncWriteDone => true
  | _ => false

variable [DecidableEq T]

theorem sameCleanups_tryInstall (s : State T) (p : Thread T) :
    SameCleanups s (s.tryInstall p) := by
  unfold State.tryInstall
  split <;> exact ⟨rfl, rfl, .inl rfl⟩

theorem sameCleanups_reset (s : State T) (o : Owner T) (p : Thread T) :
    SameCleanups s (s.reset o p) := by
  unfold State.reset
  split
  · exact ⟨rfl, rfl, .inr rfl⟩
  · exact ⟨rfl, rfl, .inl rfl⟩

theorem sameCleanups_loopReset (s : State T) (o : Owner T) : SameCleanups s (s.loopReset o) := by
  unfold State.loopReset
  split
  · exact ⟨rfl, rfl, .inr rfl⟩
  · exact ⟨rfl, rfl, .inl rfl⟩

theorem sameCleanups_tryReturn (s : State T) (p : Thread T) :
    SameCleanups s (s.tryReturn p) := by
  unfold State.tryReturn
  split
  · exact ⟨rfl, rfl, .inl rfl⟩
  · have h := sameCleanups_reset
      { s with calls := Function.update s.calls p (s.calls p + 1) } (.post p) p
    exact ⟨h.asyncFns, h.added, h.async⟩

theorem sameCleanups_check (s : State T) : SameCleanups s s.check := by
  cases hslot : s.postFn with
  | some c =>
    rw [check_of_slot hslot]
    exact ⟨rfl, rfl, .inl rfl⟩
  | none =>
    rw [check_of_free hslot]
    exact ⟨rfl, rfl, .inl rfl⟩

/-- All other steps leave the cleanups as they are. -/
theorem sameCleanups_next (s : State T) (a : Action T) (other : a.ofCleanups = false) :
    SameCleanups s (next s a) := by
  cases a with
  | post p =>
    have h := sameCleanups_tryInstall (s.ref (.post p)) p
    exact ⟨h.asyncFns, h.added, h.async⟩
  | tryInstall p => exact sameCleanups_tryInstall s p
  | tryReturn p => exact sameCleanups_tryReturn s p
  | drop p => exact sameCleanups_reset s _ p
  | loopDrop => exact sameCleanups_loopReset s _
  | check => exact sameCleanups_check s
  | finish threw => exact ⟨rfl, rfl, .inr rfl⟩
  | addAsyncCleanup => cases other
  | exit => cases other
  | asyncCheck => cases other
  | asyncWakeUp => cases other
  | asyncFinish => cases other
  | asyncWriteDone => cases other
  | _ => exact ⟨rfl, rfl, .inl rfl⟩

omit [DecidableEq T] in
/-- Then the queue is the same, -/
theorem queued_of_same {s t : State T} (h : SameCleanups s t) : t.queued = s.queued := by
  rw [State.queued, State.queued, h.asyncFns]

omit [DecidableEq T] in
theorem current_notified {s t : State T} (h : t.async = s.async.notified) :
    t.current = s.current := by
  unfold State.current
  rw [h]
  cases s.async <;> rfl

omit [DecidableEq T] in
/-- and so is the cleanup that runs. -/
theorem current_of_same {s t : State T} (h : SameCleanups s t) : t.current = s.current := by
  rcases h.async with ha | ha
  · rw [State.current, State.current, ha]
  · exact current_notified ha

omit [DecidableEq T] in
/-- The order and the count depend on these alone. -/
theorem worker_of_same {s t : State T} (hw : Worker s) (h : SameCleanups s t) : Worker t := by
  have hlist := h.asyncFns
  have hq := queued_of_same h
  rcases h.async with ha | ha
  · refine ⟨?_, ?_, ?_⟩
    · rw [ha, hlist]
      exact hw.asleep
    · rw [ha, hq]
      exact hw.absent
    · rw [ha, hlist]
      exact hw.gone
  · have hback : ∀ {pc}, t.async = pc → pc ≠ .ready → s.async = pc := by
      intro pc hpc hne
      rw [ha] at hpc
      cases hs : s.async with
      | asleep =>
        rw [hs] at hpc
        exact absurd hpc.symm hne
      | _ =>
        rw [hs] at hpc
        exact hpc
    refine ⟨fun ht => ?_, fun ht => ?_, fun ht => ?_⟩
    · rw [hlist]
      exact hw.asleep (hback ht nofun)
    · rw [hq]
      exact hw.absent (hback ht nofun)
    · rw [hlist]
      exact hw.gone (hback ht nofun)

/-! ## Actions on the cleanups -/

/-- Who queues a cleanup holds a reference, so the list exists. -/
theorem asyncFns_of_add {s : State T} (hd : Disciplined s)
    (en : (disciplined T).enabled s .addAsyncCleanup) : s.asyncFns ≠ none := by
  cases hd.handshake with
  | looping _ safe => exact safe.cleanups
  | leaving hl =>
    have hkind := unreferenced_of_live hd.rendezvous hd.accounts hl.live .addAsyncCleanup en.2 en.1
    cases hkind

omit [DecidableEq T] in
/-- A cleanup is queued at the end of the list. -/
theorem addAsyncCleanup_fields (s : State T) :
    s.addAsyncCleanup.asyncFns = s.asyncFns.map (· ++ [s.added]) ∧
      s.addAsyncCleanup.added = s.added + 1 := by
  unfold State.addAsyncCleanup State.startAsyncThread
  split
  · split <;> exact ⟨rfl, rfl⟩
  · exact ⟨rfl, rfl⟩

omit [DecidableEq T] in
/-- The thread is started when there is none, and notified when there is one. -/
theorem addAsyncCleanup_async {s : State T} (list : s.asyncFns ≠ none) :
    s.addAsyncCleanup.async = if s.async = .absent then .ready else s.async.notified := by
  obtain ⟨fns, hfns⟩ := Option.ne_none_iff_exists'.mp list
  have hfull : s.asyncFns.map (· ++ [s.added]) ≠ some [] := by
    simp only [hfns, Option.map_some, ne_eq, Option.some.injEq, List.append_eq_nil_iff,
      List.cons_ne_self, and_false, not_false_eq_true]
  unfold State.addAsyncCleanup State.startAsyncThread
  by_cases habsent : s.async = .absent
  · simp only [habsent, hfull, ↓reduceIte]
  · simp only [habsent, ↓reduceIte]
    rfl

omit [DecidableEq T] in
/-- It is the last in the queue. -/
theorem queued_addAsyncCleanup {s : State T} (list : s.asyncFns ≠ none) :
    s.addAsyncCleanup.queued = s.queued ++ [s.added] := by
  obtain ⟨fns, hfns⟩ := Option.ne_none_iff_exists'.mp list
  rw [State.queued, State.queued, (addAsyncCleanup_fields s).1, hfns]
  rfl

omit [DecidableEq T] in
/-- The one that runs goes on. -/
theorem current_addAsyncCleanup {s : State T} (list : s.asyncFns ≠ none) :
    s.addAsyncCleanup.current = s.current := by
  have ha := addAsyncCleanup_async list
  split at ha
  · next habsent => simp only [State.current, ha, habsent]
  · exact current_notified ha

omit [DecidableEq T] in
/-- So the cleanups stay in their order. -/
theorem worker_addAsyncCleanup {s : State T} (hw : Worker s) (list : s.asyncFns ≠ none) :
    Worker s.addAsyncCleanup := by
  have ha := addAsyncCleanup_async list
  have hno : ∀ {pc}, s.addAsyncCleanup.async = pc → pc = .asleep ∨ pc = .absent → False := by
    intro pc hpc hcase
    rw [hpc] at ha
    split at ha
    · rcases hcase with rfl | rfl <;> cases ha
    · next hthere =>
      cases hs : s.async <;> rw [hs] at ha <;> rcases hcase with rfl | rfl <;>
        first | exact hthere hs | cases ha
  refine ⟨fun hs => (hno hs (.inl rfl)).elim, fun hs => (hno hs (.inr rfl)).elim, fun hg => ?_⟩
  rw [hg] at ha
  split at ha
  · cases ha
  · cases hs : s.async with
    | gone => exact absurd (hw.gone hs) list
    | _ =>
      rw [hs] at ha
      cases ha

omit [DecidableEq T] in
/-- The first of the list is taken and run. -/
theorem asyncCheck_of_cons {s : State T} {fn : Nat} {fns : List Nat}
    (h : s.asyncFns = some (fn :: fns)) :
    s.asyncCheck = { s.ref .asyncFn with asyncFns := some fns, async := .running fn } := by
  unfold State.asyncCheck
  split
  · next hfns => cases h.symm.trans hfns
  · next hfns => cases h.symm.trans hfns
  · next hfns =>
    cases h.symm.trans hfns
    rfl

omit [DecidableEq T] in
/-- One round of the `while` loop: the head of the list moves to the place of the thread. -/
theorem asyncCheck_moves {s : State T} (ready : s.async = .ready) :
    s.queued.head?.toList ++ s.asyncCheck.queued = s.queued ∧
      s.asyncCheck.current = s.queued.head?.toList ∧ s.current = [] := by
  refine ⟨?_, ?_, by rw [State.current, ready]⟩
  all_goals
    cases hfns : s.asyncFns with
    | none =>
      rw [asyncCheck_of_none hfns]
      simp only [State.queued, State.current, hfns, Option.getD_none, List.head?_nil,
        Option.toList_none, List.append_nil]
    | some fns =>
      cases fns with
      | nil =>
        rw [asyncCheck_of_nil hfns]
        simp only [State.queued, State.current, hfns, Option.getD_some, List.head?_nil,
          Option.toList_none, List.append_nil]
      | cons fn fns =>
        rw [asyncCheck_of_cons hfns]
        simp only [State.queued, State.current, hfns, Option.getD_some, List.head?_cons,
          Option.toList_some, List.cons_append, List.nil_append]

omit [DecidableEq T] in
theorem asyncCheck_added (s : State T) : s.asyncCheck.added = s.added := by
  unfold State.asyncCheck
  split <;> rfl

omit [DecidableEq T] in
/-- That keeps their order too. -/
theorem worker_asyncCheck {s : State T} : Worker s.asyncCheck := by
  cases hfns : s.asyncFns with
  | none =>
    rw [asyncCheck_of_none hfns]
    exact ⟨nofun, nofun, fun _ => hfns⟩
  | some fns =>
    cases fns with
    | nil =>
      rw [asyncCheck_of_nil hfns]
      exact ⟨fun _ => hfns, nofun, nofun⟩
    | cons fn fns =>
      rw [asyncCheck_of_cons hfns]
      exact ⟨nofun, nofun, nofun⟩

/-- The function has run: nothing is left at the place of the thread, nor is the list touched. -/
theorem asyncFinish_fields (s : State T) :
    s.asyncFinish.asyncFns = s.asyncFns ∧ s.asyncFinish.added = s.added ∧
      (s.asyncFinish.async = .ready ∨ s.asyncFinish.async = .wake) := by
  unfold State.asyncFinish
  split
  · exact ⟨rfl, rfl, .inr rfl⟩
  · exact ⟨rfl, rfl, .inl rfl⟩

omit [DecidableEq T] in
/-- Where the thread is between functions and neither asleep nor out of its loop. -/
theorem worker_between {s : State T} (h : s.async = .ready ∨ s.async = .wake) :
    Worker s ∧ s.current = [] := by
  rcases h with h | h
  all_goals
    refine ⟨⟨fun hs => ?_, fun hs => ?_, fun hs => ?_⟩, by rw [State.current, h]⟩
    all_goals cases h.symm.trans hs

/-- When `m_async_fns` is reset, it is empty. -/
theorem asyncFns_of_exit {s : State T} (hd : Disciplined s) (en : s.loop = .closed) :
    s.asyncFns = some [] :=
  (hd.leaving (by rw [en]; rfl)).broken (.inr (.inr en))

/-! ## The step lemmas -/

/-- The list and the place of the async thread, over one action: what is taken out of the list and
left in it is what was in it and what is added, and the same for the place. -/
structure Conserves (s : State T) (a : Action T) : Prop where
  worker : Worker (next s a)
  list : begins s a ++ (next s a).queued = s.queued ++ adds s a
  place : ends s a ++ (next s a).current = s.current ++ begins s a
  count : List.range (next s a).added = List.range s.added ++ adds s a

/-- A step that is not about cleanups neither starts nor ends one. -/
theorem conserves_of_same {s : State T} {a : Action T} (hw : Worker s)
    (other : a.ofCleanups = false) : Conserves s a := by
  have h := sameCleanups_next s a other
  have hadds : adds s a = [] := by
    cases a with
    | addAsyncCleanup => cases other
    | _ => rfl
  have hbegins : begins s a = [] := by
    cases a with
    | asyncCheck => cases other
    | _ => rfl
  have hends : ends s a = [] := by
    cases a with
    | asyncFinish => cases other
    | _ => rfl
  refine ⟨worker_of_same hw h, ?_, ?_, ?_⟩
  · rw [hbegins, hadds, queued_of_same h, List.nil_append, List.append_nil]
  · rw [hbegins, hends, current_of_same h, List.nil_append, List.append_nil]
  · rw [hadds, h.added, List.append_nil]

/-- No step loses or repeats one. -/
theorem conserves_next {s : State T} (hd : Disciplined s) (hw : Worker s) (a : Action T)
    (en : (disciplined T).enabled s a) : Conserves s a := by
  cases a with
  | addAsyncCleanup =>
    have list := asyncFns_of_add hd en
    refine ⟨worker_addAsyncCleanup hw list, queued_addAsyncCleanup list, ?_, ?_⟩
    · exact (current_addAsyncCleanup list).trans (List.append_nil _).symm
    · show List.range s.addAsyncCleanup.added = _
      rw [(addAsyncCleanup_fields s).2, List.range_succ]
      rfl
  | exit =>
    -- nothing is thrown away by `m_async_fns.reset()`
    have hempty := asyncFns_of_exit hd en.2
    have hwoken : (next s .exit).async = s.async.notified := rfl
    refine ⟨⟨fun hs => ?_, fun _ => rfl, fun _ => rfl⟩, ?_, ?_, (List.append_nil _).symm⟩
    · rw [hwoken] at hs
      cases ha : s.async <;> rw [ha] at hs <;> cases hs
    · show [] = s.queued ++ []
      rw [State.queued, hempty]
      rfl
    · exact (current_notified hwoken).trans (List.append_nil _).symm
  | asyncCheck =>
    obtain ⟨hlist, hplace, hfree⟩ := asyncCheck_moves (s := s) en.2
    refine ⟨worker_asyncCheck, hlist.trans (List.append_nil _).symm, ?_, ?_⟩
    · rw [hfree]
      exact hplace
    · rw [show (next s .asyncCheck).added = s.added from asyncCheck_added s]
      exact (List.append_nil _).symm
  | asyncWakeUp =>
    obtain ⟨hworker, hfree⟩ := worker_between (s := next s .asyncWakeUp) (.inl rfl)
    have hold : s.current = [] := by rw [State.current, show s.async = .asleep from en.2]
    refine ⟨hworker, (List.append_nil _).symm, ?_, (List.append_nil _).symm⟩
    rw [hfree, hold]
    rfl
  | asyncFinish =>
    obtain ⟨hlist, hadded, hasync⟩ := asyncFinish_fields s
    obtain ⟨hworker, hfree⟩ := worker_between hasync
    refine ⟨hworker, ?_, ?_, ?_⟩
    · show s.asyncFinish.queued = s.queued ++ []
      rw [State.queued, hlist, List.append_nil]
      rfl
    · show s.current ++ s.asyncFinish.current = s.current ++ []
      rw [hfree]
    · show List.range s.asyncFinish.added = List.range s.added ++ []
      rw [hadded, List.append_nil]
  | asyncWriteDone =>
    obtain ⟨hworker, hfree⟩ := worker_between (s := next s .asyncWriteDone) (.inl rfl)
    have hold : s.current = [] := by rw [State.current, show s.async = .wake from en.2]
    refine ⟨hworker, (List.append_nil _).symm, ?_, (List.append_nil _).symm⟩
    rw [hfree, hold]
    rfl
  | _ => exact conserves_of_same hw rfl

/-! ## Whole runs -/

/-- What the step lemmas need of a state. -/
def Attended (s : State T) : Prop := Disciplined s ∧ Worker s

/-- At the start nobody is left waiting. -/
theorem attended_of_starts {s : State T} (start : (disciplined T).init s) : Attended s :=
  ⟨disciplined_reachable (.start start), worker_of_starts start.1⟩

/-- No step leaves anybody waiting. -/
theorem attended_next {s : State T} (a : Action T) (h : Attended s)
    (en : (disciplined T).enabled s a) : Attended (next s a) := by
  obtain ⟨⟨hr, ha, hh⟩, hw⟩ := h
  exact ⟨⟨rendezvous_next hr a en.2, accounts_next ha a en.2, handshake_next hr ha hh a en.2 en.1⟩,
    (conserves_next ⟨hr, ha, hh⟩ hw a en).worker⟩

/-- Past the `break`, no function is queued or running. -/
theorem idle_of_outside {s : State T} (hd : Disciplined s) (outside : s.loop.inside = false) :
    s.queued = [] ∧ ¬ s.inAsyncFn := by
  have hl := hd.leaving outside
  refine ⟨?_, not_inAsyncFn_of_live hd.accounts hl.live⟩
  have hfns : s.asyncFns = some [] ∨ s.asyncFns = none := by
    cases hloop : s.loop <;> rw [hloop] at outside
    case breaking => exact .inl (hl.broken (.inl hloop))
    case closing => exact .inl (hl.broken (.inr (.inl hloop)))
    case closed => exact .inl (hl.broken (.inr (.inr hloop)))
    case returned => exact .inr (hl.returned (.inl hloop)).1
    case destroyed => exact .inr (hl.returned (.inr hloop)).1
    all_goals cases outside
  rcases hfns with hfns | hfns <;> rw [State.queued, hfns] <;> rfl

omit [DecidableEq T] in
/-- Outside of a cleanup none is running. -/
theorem current_of_not_inAsyncFn {s : State T} (h : ¬ s.inAsyncFn) : s.current = [] := by
  unfold State.current
  split
  · next fn hfn => exact absurd ⟨fn, hfn⟩ h
  · rfl

/-- Once `m_async_fns` has been reset, the async thread leaves its `while` loop with its next
step, and it is not asleep. -/
theorem leaves_of_reset {s : State T} (h : Attended s) (reset : s.asyncFns = none) :
    s.async = .absent ∨ s.async = .gone ∨
      s.async = .ready ∧ (next s .asyncCheck).async = .gone := by
  obtain ⟨hd, hw⟩ := h
  cases hd.handshake with
  | looping _ safe => exact absurd reset safe.cleanups
  | leaving hl =>
    have hfn := not_inAsyncFn_of_live hd.accounts hl.live
    cases hs : s.async with
    | absent => exact .inl rfl
    | gone => exact .inr (.inl rfl)
    | running fn => exact absurd ⟨fn, hs⟩ hfn
    | wake => exact absurd hs (hl.quiet .async)
    | asleep => cases reset.symm.trans (hw.asleep hs)
    | ready =>
      refine .inr (.inr ⟨rfl, ?_⟩)
      show s.asyncCheck.async = .gone
      rw [asyncCheck_of_none reset]

/-- While a function is queued, the async thread is awake: about to look at the list, or running
the function before. -/
theorem awake_of_queued {s : State T} (h : Attended s) (queued : s.queued ≠ []) :
    s.async = .ready ∨ s.inAsyncFn ∨ s.async = .wake := by
  obtain ⟨hd, hw⟩ := h
  have hempty : ∀ {fns}, s.asyncFns = fns → fns.getD [] = [] → False := by
    intro fns hfns hnil
    exact queued ((congrArg (·.getD []) hfns).trans hnil)
  cases hs : s.async with
  | absent => exact absurd (hw.absent hs) queued
  | ready => exact .inl rfl
  | asleep => exact (hempty (hw.asleep hs) rfl).elim
  | running fn => exact .inr (.inl ⟨fn, hs⟩)
  | wake => exact .inr (.inr rfl)
  | gone => exact (hempty (hw.gone hs) rfl).elim

/-- Over every disciplined run: the functions taken up so far, followed by those queued, are those
added, in order and each once; the functions done, followed by the one running, are those taken
up; outside the `for(;;)` all that were added are done, so that nothing is discarded by the reset
of the list; the async thread never sleeps while a function is queued; and it ends after the
reset, and only then. -/
theorem async_cleanups_run {s t : State T} {as : List (Action T)}
    (start : (disciplined T).init s) (path : (disciplined T).Path s as t) :
    (disciplined T).trace begins s as ++ t.queued = (disciplined T).trace adds s as ∧
    (disciplined T).trace ends s as ++ t.current = (disciplined T).trace begins s as ∧
    ((disciplined T).trace adds s as).Nodup ∧
    (t.loop.inside = false → t.queued = [] ∧ ¬ t.inAsyncFn ∧
      (disciplined T).trace ends s as = (disciplined T).trace adds s as) ∧
    (t.loop = .closed → t.asyncFns = some []) ∧
    (t.async = .asleep → t.asyncFns = some []) ∧
    (t.queued ≠ [] → t.async = .ready ∨ t.inAsyncFn ∨ t.async = .wake) ∧
    (t.asyncFns = none → t.async = .absent ∨ t.async = .gone ∨
      t.async = .ready ∧ (next t .asyncCheck).async = .gone) ∧
    (t.async = .gone → t.asyncFns = none) := by
  have hs := attended_of_starts start
  have keep : ∀ u a, Attended u → (disciplined T).enabled u a → Attended (next u a) :=
    fun u a => attended_next a
  have ht : Attended t := path.keeps keep hs
  have hlist := path.trace_conserved begins adds State.queued keep
    (fun u a hu en => (conserves_next hu.1 hu.2 a en).list) hs
  have hplace := path.trace_conserved ends begins State.current keep
    (fun u a hu en => (conserves_next hu.1 hu.2 a en).place) hs
  have hcount := path.trace_appended adds (fun u => List.range u.added) keep
    (fun u a hu en => (conserves_next hu.1 hu.2 a en).count) hs
  rw [show s.queued = [] by rw [State.queued, start.1.asyncFns]; rfl, List.nil_append] at hlist
  rw [show s.current = [] by rw [State.current, start.1.async], List.nil_append] at hplace
  refine ⟨hlist, hplace, ?_, ?_, asyncFns_of_exit ht.1, ht.2.asleep, awake_of_queued ht,
    leaves_of_reset ht, ht.2.gone⟩
  · have hall : (List.range t.added).Nodup := List.nodup_range
    rw [hcount] at hall
    exact (List.nodup_append.mp hall).2.1
  · intro outside
    obtain ⟨hqueued, hidle⟩ := idle_of_outside ht.1 outside
    rw [hqueued, List.append_nil] at hlist
    rw [current_of_not_inAsyncFn hidle, List.append_nil] at hplace
    exact ⟨hqueued, hidle, hplace.trans hlist⟩

/-- The loop thread queues two cleanups and drops its reference while the first one runs; the
second one finds `done()`. -/
def twoCleanups : List (Action Bool) :=
  [.addAsyncCleanup, .asyncCheck, .addAsyncCleanup, .loopDrop, .asyncFinish, .asyncCheck,
    .asyncFinish, .asyncWriteDone, .asyncCheck, .read, .check, .resetTasks, .close, .exit]

/-- Both have run in order when `loop()` returns, and the async thread, which was asleep, is about
to end. -/
theorem async_cleanups_run_two :
    ∃ t, (disciplined Bool).Path twoThreads twoCleanups t ∧ t.loop = .returned ∧
      (disciplined Bool).trace ends twoThreads twoCleanups = [0, 1] ∧
      (next t .asyncCheck).async = .gone := by
  have hstart : (disciplined Bool).init twoThreads := ⟨twoThreads_starts, by decide⟩
  have hrun : ((disciplined Bool).run twoThreads twoCleanups).map
      (fun t => t.loop = .returned && t.async = .ready && t.asyncFns = none) = some true := by decide
  obtain ⟨t, ht, hp⟩ := Option.map_eq_some_iff.mp hrun
  simp only [Bool.and_eq_true, decide_eq_true_eq] at hp
  obtain ⟨⟨hloop, hready⟩, hreset⟩ := hp
  have hpath := Transition.System.run_eq_some_iff.mp ht
  obtain ⟨-, -, -, hdone, -, -, -, hleaves, -⟩ := async_cleanups_run hstart hpath
  refine ⟨t, hpath, hloop, (hdone (by rw [hloop]; rfl)).2.2.trans (by decide), ?_⟩
  rcases hleaves hreset with ha | ha | ha
  · cases hready.symm.trans ha
  · cases hready.symm.trans ha
  · exact ha.2

end Multiprocess.Loop
