import Multiprocess.Server.Context
import Multiprocess.Server.Stages

/-!
# The cancellation protocol

`Facts` ties the objects of a request (`cancel_mutex`, `request_canceled`, `CancelMonitor`,
`CancelProbe`) to the stage the worker is at; `Inv` adds that the code left to the worker follows
the stages from there. Every action of the two threads keeps it, whatever the worker is answered;
with `mayWait = false` only if what it is answered with the lock held is waitless (`Waitless`). The
cancellation protocol and, in `Deadlock`, the absence of deadlocks are read off the invariant.

The invariant is about one request. It says nothing of the other requests of the connection, nor
that the request ends.
-/

namespace Multiprocess.Server

open Resumption
open Resumption.Prog (Follows)

variable {E : Type}

/-! ## The invariant -/

/-- The objects of a request whose worker is at the stage. -/
structure Facts (s : State E) (st : Stage) : Prop where
  held : s.held = st.held
  frame : s.frame = st.frame
  monitor : s.monitor = none ↔ st = .finished
  attached : (∃ m, s.monitor = some m ∧ m.probe = true) ↔ s.probe = some ⟨true⟩
  onCancel : ∀ m, s.monitor = some m → m.onCancel = true → st.isRegistered = true
  canceled : ∀ m, s.monitor = some m → m.canceled = false → m.probe = true
  watching : st.isRegistered = true → ∀ m, s.monitor = some m →
    m.onCancel = true ∨ s.requestCanceled = true
  answered : ∀ m, s.monitor = some m → m.onCancel = true → m.canceled = true →
    s.loop = .onCancel ∨ s.requestCanceled = true
  calling : s.loop = .onCancel →
    ∃ m, s.monitor = some m ∧ m.canceled = true ∧ m.onCancel = true ∧ m.probe = true
  freed : s.freed = true ∨ s.loop = .freeing → s.probe = none
  seen : s.held = true → s.seen = true → st.isRegistered = true ∧ s.requestCanceled = false
  runs : s.onCancelRuns = 0 ∨ s.onCancelRuns = 1 ∧ (s.probe = none ∨ s.loop = .onCancel)

/-- The code left to the worker follows the stages. -/
def WorkerAt (mayWait : Bool) : Worker E → Stage → Prop
  | .queued p, st => st = .start ∧ Follows (stages E mayWait) st p fun st _ => st = .finished
  | .running p, st => Follows (stages E mayWait) st p fun st _ => st = .finished
  | .posted fn p, st => st.allows mayWait (.sync fn) ∧
    Follows (stages E mayWait) (st.after (.sync fn)) p fun st _ => st = .finished
  | .awaiting k, st => st.allows mayWait .await ∧
    ∀ r, Follows (stages E mayWait) st (k r) fun st _ => st = .finished
  | .dropped, _ => False

/-- The request was canceled before its function was posted. -/
structure Dropped (s : State E) : Prop where
  worker : s.worker = .dropped
  monitor : s.monitor = none
  probe : s.probe = none
  held : s.held = false
  loop : s.loop ≠ .onCancel
  runs : s.onCancelRuns = 0

/-- The invariant of a request. -/
def Inv (mayWait : Bool) (s : State E) : Prop :=
  Dropped s ∨ ∃ st, WorkerAt mayWait s.worker st ∧ Facts s st

variable {mayWait : Bool} {s : State E} {st : Stage}

/-! ## One lemma for each operation -/

/-- The facts do not depend on where the worker is. -/
theorem facts_worker (h : Facts s st) (w : Worker E) : Facts { s with worker := w } st :=
  ⟨h.held, h.frame, h.monitor, h.attached, h.onCancel, h.canceled, h.watching, h.answered,
    h.calling, h.freed, h.seen, h.runs⟩

theorem not_calling (h : Facts s st) (hst : st.isRegistered = false) : s.loop ≠ .onCancel := by
  intro hl
  obtain ⟨m, hm, -, ho, -⟩ := h.calling hl
  rw [h.onCancel m hm ho] at hst
  cases hst

/-- A step of the frame or the lock that leaves the registration alone. -/
theorem facts_held (h : Facts s st) {st' : Stage} {held : Bool}
    (same : st'.isRegistered = st.isRegistered) (frame : st'.frame = st.frame)
    (notFinished : st ≠ .finished) (notFinished' : st' ≠ .finished) (new : held = st'.held) :
    Facts { s with held := held, seen := false } st' :=
  ⟨new, h.frame.trans frame.symm, iff_of_false (mt h.monitor.mp notFinished) notFinished',
    h.attached, fun m hm ho => same ▸ h.onCancel m hm ho, h.canceled,
    fun hr => h.watching (same ▸ hr), h.answered, h.calling, h.freed, fun _ => nofun, h.runs⟩

theorem facts_unlock (h : Facts s (.registered true)) :
    Facts { s with held := false } (.registered false) :=
  ⟨rfl, h.frame, iff_of_false (mt h.monitor.mp nofun) nofun, h.attached,
    fun _ _ _ => rfl, h.canceled, fun _ => h.watching rfl, h.answered, h.calling, h.freed,
    nofun, h.runs⟩

/-- `cancel_mutex` and `server_context` come and go while nothing is registered or locked. -/
theorem facts_frame (h : Facts s st) (st' : Stage) {requestCanceled : Bool}
    (unregistered : st.isRegistered = false) (unregistered' : st'.isRegistered = false)
    (unlocked : st.held = false) (unlocked' : st'.held = false) (notFinished : st ≠ .finished)
    (notFinished' : st' ≠ .finished) :
    Facts { s with frame := st'.frame, requestCanceled := requestCanceled } st' := by
  have hoff : ∀ m, s.monitor = some m → m.onCancel ≠ true := fun m hm ho =>
    Bool.false_ne_true (unregistered.symm.trans (h.onCancel m hm ho))
  have hfree : s.held ≠ true := Bool.eq_false_iff.mp (h.held.trans unlocked)
  exact ⟨h.held.trans (unlocked.trans unlocked'.symm), rfl,
    iff_of_false (mt h.monitor.mp notFinished) notFinished', h.attached,
    fun m hm ho => absurd ho (hoff m hm), h.canceled,
    fun hr => absurd (unregistered'.symm.trans hr) Bool.false_ne_true,
    fun m hm ho => absurd ho (hoff m hm), h.calling, h.freed, fun hh => absurd hh hfree, h.runs⟩

/-- A read of `request_canceled`. -/
theorem facts_read (h : Facts s (.registered true)) :
    Facts { s with seen := !s.requestCanceled } (.registered true) :=
  ⟨h.held, h.frame, h.monitor, h.attached, h.onCancel, h.canceled, h.watching, h.answered,
    h.calling, h.freed,
    fun _ hseen => ⟨rfl, by simpa only [Bool.not_eq_true'] using hseen⟩, h.runs⟩

/-- An operation of the worker that is not a `sync` or a wait. -/
theorem facts_perform (h : Facts s st) {o : Op} (allowed : st.allows mayWait o)
    (notSync : ∀ fn, o ≠ .sync fn) : Facts (s.perform o) (st.after o) := by
  cases o with
  | enter =>
    obtain rfl := Stage.eq_of_enter allowed
    exact facts_frame h (.entered false) rfl rfl rfl rfl nofun nofun
  | leave =>
    obtain rfl := Stage.eq_of_leave allowed
    exact facts_frame h .left rfl rfl rfl rfl nofun nofun
  | lock =>
    rcases Stage.eq_of_lock allowed with rfl | rfl
    · exact facts_held h rfl rfl nofun nofun rfl
    · exact facts_held h rfl rfl nofun nofun rfl
  | unlock =>
    obtain rfl := Stage.eq_of_unlock allowed
    exact facts_unlock h
  | canceled site =>
    obtain rfl := Stage.eq_of_canceled allowed
    exact facts_read h
  | sync fn => exact absurd rfl (notSync fn)
  | _ => exact h

/-! ### The functions run on the event loop thread -/

theorem exists_monitor (h : Facts s st) (hst : st ≠ .finished) : ∃ m, s.monitor = some m :=
  Option.ne_none_iff_exists'.mp (mt h.monitor.mp hst)

theorem register_of_canceled {m : Monitor} (hm : s.monitor = some m) (hc : m.canceled = true) :
    s.register = { s with requestCanceled := true } := by
  unfold State.register
  split
  · next hm' =>
    cases hm.symm.trans hm'
    exact if_pos hc
  · next hn => cases hm.symm.trans hn

theorem register_of_live {m : Monitor} (hm : s.monitor = some m) (hc : m.canceled = false) :
    s.register = { s with monitor := some { m with onCancel := true } } := by
  unfold State.register
  split
  · next hm' =>
    cases hm.symm.trans hm'
    exact if_neg (by rw [hc]; nofun)
  · next hn => cases hm.symm.trans hn

/-- The first `sync` finds the request canceled already, or sets `m_on_cancel`. -/
theorem facts_register (h : Facts s (.entered true)) : Facts s.register (.registered true) := by
  have hloop := not_calling h rfl
  obtain ⟨m, hm⟩ := exists_monitor h nofun
  have hblind : s.held = true → s.seen = true → False := fun hh hs =>
    absurd (h.seen hh hs).1 nofun
  cases hc : m.canceled with
  | true =>
    rw [register_of_canceled hm hc]
    exact ⟨h.held, h.frame, iff_of_false (mt h.monitor.mp nofun) nofun, h.attached,
      fun _ _ _ => rfl, h.canceled, fun _ _ _ => .inr rfl, fun _ _ _ _ => .inr rfl,
      fun hl => absurd hl hloop, h.freed, fun hh hs => absurd (hblind hh hs) id, h.runs⟩
  | false =>
    rw [register_of_live hm hc]
    have hprobe := h.canceled m hm hc
    refine ⟨h.held, h.frame, iff_of_false nofun nofun, ?_, fun _ _ _ => rfl, ?_, ?_, ?_,
      fun hl => absurd hl hloop, h.freed, fun hh hs => absurd (hblind hh hs) id, h.runs⟩
    · rw [← h.attached]
      exact iff_of_true ⟨_, rfl, hprobe⟩ ⟨m, hm, hprobe⟩
    · rintro _ ⟨⟩ -
      exact hprobe
    · rintro - _ ⟨⟩
      exact .inl rfl
    · rintro _ ⟨⟩ - hcanceled
      exact absurd (hc.symm.trans hcanceled) nofun

/-- The deferred `sync` clears `m_on_cancel`. -/
theorem facts_clear (h : Facts s (.registered false)) (idle : s.loop = .idle) :
    Facts { s with monitor := s.monitor.map ({ · with onCancel := false }) } .cleared := by
  obtain ⟨m, hm⟩ := exists_monitor h nofun
  have hloop : s.loop ≠ .onCancel := by rw [idle]; nofun
  simp only [hm, Option.map_some]
  refine ⟨h.held, h.frame, iff_of_false nofun nofun, ?_, ?_, ?_, nofun, ?_,
    fun hl => absurd hl hloop, h.freed, fun hh => absurd (h.held.symm.trans hh) nofun, h.runs⟩
  · rw [← h.attached, hm]
    constructor <;> rintro ⟨_, ⟨⟩, hp⟩ <;> exact ⟨_, rfl, hp⟩
  · rintro _ ⟨⟩ ho
    cases ho
  · rintro _ ⟨⟩ hc
    exact h.canceled m hm hc
  · rintro _ ⟨⟩ ho
    cases ho

/-- `~CancelMonitor` detaches the probe it knows of. -/
theorem destroyMonitor_detaches (h : Facts s st) : s.destroyMonitor.probe ≠ some ⟨true⟩ := by
  unfold State.destroyMonitor
  split
  · next m hm =>
    cases hp : m.probe with
    | true =>
      simp only [↓reduceIte]
      cases s.probe <;> nofun
    | false =>
      simp only [Bool.false_eq_true, ↓reduceIte]
      intro hprobe
      obtain ⟨m', hm', hp'⟩ := h.attached.mpr hprobe
      cases hm.symm.trans hm'
      cases hp.symm.trans hp'
  · next hm =>
    intro hprobe
    obtain ⟨m', hm', -⟩ := h.attached.mpr hprobe
    cases hm.symm.trans hm'

theorem destroyMonitor_of_some {m : Monitor} (hm : s.monitor = some m) :
    s.destroyMonitor = { s with
      monitor := none
      probe := if m.probe then s.probe.map fun _ => ⟨false⟩ else s.probe } := by
  unfold State.destroyMonitor
  split
  · next hm' =>
    cases hm.symm.trans hm'
    rfl
  · next hn => cases hm.symm.trans hn

/-- The last `sync` destroys the monitor, which detaches the probe. -/
theorem facts_finish (h : Facts s .left) : Facts s.destroyMonitor .finished := by
  have hloop := not_calling h rfl
  obtain ⟨m, hm⟩ := exists_monitor h nofun
  have hdetached := destroyMonitor_detaches h
  rw [destroyMonitor_of_some hm] at hdetached ⊢
  have hgone : s.probe = none →
      (if m.probe then s.probe.map fun _ => (⟨false⟩ : Probe) else s.probe) = none := by
    intro hp
    rw [hp, Option.map_none, ite_self]
  refine ⟨h.held, h.frame, iff_of_true rfl rfl, ?_, nofun, nofun, nofun, nofun,
    fun hl => absurd hl hloop, fun hf => hgone (h.freed hf),
    fun hh => absurd (h.held.symm.trans hh) nofun, ?_⟩
  · exact iff_of_false (by rintro ⟨_, ⟨⟩, -⟩) hdetached
  · rcases h.runs with hr | ⟨hr, hp | hl⟩
    · exact .inl hr
    · exact .inr ⟨hr, .inl (hgone hp)⟩
    · exact absurd hl hloop

/-- Each function given to `sync`, at its stage. -/
theorem facts_sync (h : Facts s st) (idle : s.loop = .idle) {fn : SyncFn}
    (allowed : st.allows mayWait (.sync fn)) : Facts (s.sync fn) (st.after (.sync fn)) := by
  rcases Stage.eq_of_sync allowed with ⟨rfl, rfl⟩ | ⟨rfl, rfl⟩ | ⟨rfl | rfl | rfl, -⟩ | ⟨rfl, rfl⟩ |
    ⟨rfl, rfl⟩
  · exact h
  · exact facts_register h
  · exact h
  · exact h
  · exact h
  · exact facts_clear h idle
  · exact facts_finish h

/-! ### Cancellation -/

theorem promiseDestroyed_of_set {m : Monitor} (hm : s.monitor = some m)
    (ho : m.onCancel = true) : s.promiseDestroyed = { s with
      monitor := some { m with canceled := true }, loop := .onCancel
      onCancelRuns := s.onCancelRuns + 1 } := by
  unfold State.promiseDestroyed
  split
  · next hm' =>
    cases hm.symm.trans hm'
    exact if_pos ho
  · next hn => cases hm.symm.trans hn

theorem promiseDestroyed_of_unset {m : Monitor} (hm : s.monitor = some m)
    (ho : m.onCancel = false) : s.promiseDestroyed = { s with
      monitor := some { m with canceled := true, probe := false }, probe := none,
      loop := .freeing } := by
  unfold State.promiseDestroyed
  split
  · next hm' =>
    cases hm.symm.trans hm'
    exact if_neg (by rw [ho]; nofun)
  · next hn => cases hm.symm.trans hn

/-- `m_on_cancel` is called: it waits for the lock. -/
theorem facts_call (h : Facts s st) {m : Monitor} (hm : s.monitor = some m)
    (hp : m.probe = true) (ho : m.onCancel = true) (first : s.onCancelRuns = 0)
    (probe : s.probe ≠ none) : Facts { s with
      monitor := some { m with canceled := true }, loop := .onCancel
      onCancelRuns := s.onCancelRuns + 1 } st := by
  have hnone : s.monitor ≠ none := by rw [hm]; nofun
  refine ⟨h.held, h.frame, iff_of_false nofun (mt h.monitor.mpr hnone), ?_, ?_, ?_, ?_, ?_, ?_,
    ?_, h.seen, ?_⟩
  · rw [← h.attached]
    exact iff_of_true ⟨_, rfl, hp⟩ ⟨m, hm, hp⟩
  · exact fun _ _ _ => h.onCancel m hm ho
  · rintro _ ⟨⟩ hc
    cases hc
  · rintro - _ ⟨⟩
    exact .inl ho
  · exact fun _ _ _ _ => .inl rfl
  · exact fun _ => ⟨_, rfl, rfl, ho, hp⟩
  · rintro (hf | hl)
    · exact absurd (h.freed (.inl hf)) probe
    · cases hl
  · exact .inr ⟨by simp only [first], .inr rfl⟩

/-- There is no `m_on_cancel` to call. -/
theorem facts_uncalled (h : Facts s st) {m : Monitor} (hm : s.monitor = some m)
    (ho : m.onCancel = false) (first : s.onCancelRuns = 0) : Facts { s with
      monitor := some { m with canceled := true, probe := false }, probe := none,
      loop := .freeing } st := by
  have hnone : s.monitor ≠ none := by rw [hm]; nofun
  refine ⟨h.held, h.frame, iff_of_false nofun (mt h.monitor.mpr hnone), ?_, ?_, ?_, ?_, ?_,
    nofun, fun _ => rfl, h.seen, .inl first⟩
  · refine iff_of_false ?_ nofun
    rintro ⟨_, ⟨⟩, hp'⟩
    cases hp'
  · rintro _ ⟨⟩ ho'
    exact absurd (ho.symm.trans ho') nofun
  · rintro _ ⟨⟩ hc
    cases hc
  · rintro hr _ ⟨⟩
    exact .inr ((h.watching hr m hm).resolve_left (by rw [ho]; nofun))
  · rintro _ ⟨⟩ ho'
    exact absurd (ho.symm.trans ho') nofun

/-- The promise of a posted request is destroyed. -/
theorem facts_destroyProbe (h : Facts s st) (idle : s.loop = .idle) (probe : s.probe ≠ none) :
    Facts s.destroyProbe st := by
  have hloop : s.loop ≠ .onCancel := by rw [idle]; nofun
  have hfirst : s.onCancelRuns = 0 := by
    rcases h.runs with hr | ⟨-, hp | hl⟩
    · exact hr
    · exact absurd hp probe
    · exact absurd hl hloop
  unfold State.destroyProbe
  split
  · next hattached =>
    obtain ⟨m, hm, hp⟩ := h.attached.mpr hattached
    cases ho : m.onCancel with
    | true =>
      rw [promiseDestroyed_of_set hm ho]
      exact facts_call h hm hp ho hfirst probe
    | false =>
      rw [promiseDestroyed_of_unset hm ho]
      exact facts_uncalled h hm ho hfirst
  · next hdetached =>
    refine ⟨h.held, h.frame, h.monitor, ?_, h.onCancel, h.canceled, h.watching, ?_, nofun,
      fun _ => rfl, h.seen, .inl hfirst⟩
    · exact iff_of_false (mt h.attached.mp hdetached) nofun
    · intro m hm ho hc
      exact .inr ((h.answered m hm ho hc).resolve_left hloop)

/-- `m_on_cancel` gets the lock. -/
theorem facts_onCancel (h : Facts s st) (calling : s.loop = .onCancel) (free : s.held = false) :
    Facts s.onCancel st := by
  obtain ⟨m, hm, hcanceled, ho, -⟩ := h.calling calling
  have hnone : s.monitor ≠ none := by rw [hm]; nofun
  have hruns : s.onCancelRuns = 0 ∨ s.onCancelRuns = 1 := h.runs.imp_right And.left
  unfold State.onCancel
  rw [hm, Option.map_some]
  refine ⟨h.held, h.frame, iff_of_false nofun (mt h.monitor.mpr hnone), ?_, ?_, ?_,
    fun _ _ _ => .inr rfl, fun _ _ _ _ => .inr rfl, nofun, fun _ => rfl,
    fun hh => absurd (free.symm.trans hh) nofun, hruns.imp_right fun hr => ⟨hr, .inl rfl⟩⟩
  · refine iff_of_false ?_ nofun
    rintro ⟨_, ⟨⟩, hp'⟩
    cases hp'
  · exact fun _ _ _ => h.onCancel m hm ho
  · rintro _ ⟨⟩ hc
    exact absurd (hcanceled.symm.trans hc) nofun

theorem facts_free (h : Facts s st) (freeing : s.loop = .freeing) :
    Facts { s with freed := true, loop := .idle } st := by
  have hprobe := h.freed (.inr freeing)
  refine ⟨h.held, h.frame, h.monitor, h.attached, h.onCancel, h.canceled, h.watching, ?_, nofun,
    fun _ => hprobe, h.seen, ?_⟩
  · intro m hm ho hc
    exact .inr ((h.answered m hm ho hc).resolve_left (by rw [freeing]; nofun))
  · exact h.runs.imp_right fun ⟨hr, _⟩ => ⟨hr, .inl hprobe⟩

/-! ## Every action keeps the invariant -/

theorem inv_posted [ExceptionTypes E] (inner : Innermost) (ws : List (Wrapper E))
    (h : mayWait = true ∨ loopFree ws = true) :
    Inv mayWait (posted (request inner ws)) := by
  refine .inr ⟨.start, ⟨rfl, follows_stages inner ws h⟩, rfl, rfl, iff_of_false nofun nofun, ?_,
    ?_, ?_, nofun, ?_, nofun, ?_, nofun, .inl rfl⟩
  · exact iff_of_true ⟨_, rfl, rfl⟩ rfl
  · rintro _ ⟨⟩ ho
    cases ho
  · rintro _ ⟨⟩ -
    rfl
  · rintro _ ⟨⟩ ho
    cases ho
  · rintro (hf | hf) <;> cases hf

/-- The answer to what the worker asks next is waitless. -/
def Worker.waitless (env : (o : Op) → Op.Ans E o) : Worker E → Prop
  | .running (.op o _) => o.waitless (env o)
  | _ => True

/-- With the lock held, what the worker is answered does not make it wait for the event loop. -/
def Waitless (s : State E) : Action E → Prop
  | .work env => s.held = true → s.worker.waitless env
  | _ => True

instance (env : (o : Op) → Op.Ans E o) : ∀ w : Worker E, Decidable (w.waitless env)
  | .running (.op o _) => inferInstanceAs (Decidable (o.waitless (env o)))
  | .running (.pure _) | .queued _ | .posted _ _ | .awaiting _ | .dropped =>
    inferInstanceAs (Decidable True)

instance (s : State E) : ∀ a : Action E, Decidable (Waitless s a)
  | .work env => inferInstanceAs (Decidable (s.held = true → s.worker.waitless env))
  | .start | .runPosted | .reply _ | .cancel | .onCancel | .free =>
    inferInstanceAs (Decidable True)

/-- A read of `request_canceled` aside, the answer is that of the environment. -/
theorem waitless_answer {env : (o : Op) → Op.Ans E o} {o : Op} (h : o.waitless (env o)) :
    o.waitless (s.answer env o) := by
  cases o with
  | canceled site => trivial
  | _ => exact h

/-- The worker takes a step. -/
theorem inv_work (h : WorkerAt mayWait s.worker st) (hf : Facts s st)
    (env : (o : Op) → Op.Ans E o) (can : s.worker.canWork s.held = true)
    (hwait : mayWait = true ∨ Waitless s (.work env)) : Inv mayWait (s.work env) := by
  cases hw : s.worker with
  | running p =>
    rw [hw] at h can
    cases p with
    | pure r => cases can
    | op o k =>
      obtain ⟨hallowed, hrest⟩ := h
      have hexpected : (stages E mayWait).expects st o (s.answer env o) := by
        refine hwait.imp_right fun hwaitless => ?_
        cases hheld : st.held with
        | false => exact .inl rfl
        | true =>
          have hnext : s.worker.waitless env := hwaitless (hf.held.trans hheld)
          rw [hw] at hnext
          exact .inr (waitless_answer hnext)
      have hother : (∀ fn, o ≠ .sync fn) →
          Inv mayWait { s.perform o with worker := .running (k (s.answer env o)) } :=
        fun hsync => .inr
          ⟨st.after o, hrest _ hexpected, facts_worker (facts_perform hf hallowed hsync) _⟩
      unfold State.work
      simp only [hw]
      cases o with
      | sync fn => exact .inr ⟨st, ⟨hallowed, hrest () hexpected⟩, facts_worker hf _⟩
      | await =>
        exact .inr ⟨st, ⟨hallowed, fun r => hrest r (.inr (.inr trivial))⟩, facts_worker hf _⟩
      | _ => exact hother nofun
  | _ =>
    rw [hw] at can
    cases can

theorem destroyProbe_worker (s : State E) : s.destroyProbe.worker = s.worker := by
  unfold State.destroyProbe State.promiseDestroyed
  split
  · split
    · split <;> rfl
    · rfl
  · rfl

/-- The closure of a request that was not posted is destroyed with its monitor. -/
theorem dropped_cancel (h : Facts s st) {p : Comp E} (worker : s.worker = .queued p)
    (start : st = .start) (first : s.onCancelRuns = 0) :
    Dropped s.cancel := by
  have hdrop : s.dropClosure = { s.destroyMonitor with worker := .dropped } := by
    unfold State.dropClosure
    rw [worker]
  have hmonitor : s.destroyMonitor.monitor = none := by
    obtain ⟨m, hm⟩ := exists_monitor h (by rw [start]; nofun)
    rw [destroyMonitor_of_some hm]
  have hsame : s.destroyMonitor.held = s.held ∧ s.destroyMonitor.onCancelRuns = 0 := by
    unfold State.destroyMonitor
    split <;> exact ⟨rfl, first⟩
  have hheld : s.held = false := by
    rw [h.held, start]
    rfl
  have hdetached : s.dropClosure.probe ≠ some ⟨true⟩ := by
    rw [hdrop]
    exact destroyMonitor_detaches h
  unfold State.cancel State.destroyProbe
  rw [if_neg hdetached, hdrop]
  exact ⟨rfl, hmonitor, rfl, hsame.1.trans hheld, nofun, hsame.2⟩

theorem inv_cancel (h : WorkerAt mayWait s.worker st) (hf : Facts s st) (idle : s.loop = .idle)
    (probe : s.probe.isSome = true) : Inv mayWait s.cancel := by
  have hprobe : s.probe ≠ none := Option.isSome_iff_ne_none.mp probe
  have hposted : s.dropClosure = s → Inv mayWait s.cancel := by
    intro hsame
    refine .inr ⟨st, ?_, ?_⟩
    · rw [State.cancel, hsame, destroyProbe_worker]
      exact h
    · rw [State.cancel, hsame]
      exact facts_destroyProbe hf idle hprobe
  cases hw : s.worker with
  | queued p =>
    rw [hw] at h
    have hfirst : s.onCancelRuns = 0 := by
      rcases hf.runs with hr | ⟨-, hp | hl⟩
      · exact hr
      · exact absurd hp hprobe
      · cases idle.symm.trans hl
    exact .inl (dropped_cancel hf hw h.1 hfirst)
  | _ =>
    refine hposted ?_
    unfold State.dropClosure
    rw [hw]

/-- A request dropped before it was posted stays dropped. -/
theorem dropped_next (h : Dropped s) (a : Action E) (ha : enabled s a) : Dropped (next s a) := by
  obtain ⟨hw, hm, hp, hh, hl, hr⟩ := h
  cases a with
  | free => exact ⟨hw, hm, hp, hh, nofun, hr⟩
  | start =>
    rw [enabled, hw] at ha
    cases ha.2
  | work env =>
    rw [enabled, hw] at ha
    cases ha
  | runPosted =>
    rw [enabled, hw] at ha
    cases ha.2
  | reply r =>
    rw [enabled, hw] at ha
    cases ha.2
  | cancel =>
    rw [enabled, hp] at ha
    cases ha.2
  | onCancel => exact absurd ha.1 hl

/-- The step lemma. -/
theorem inv_next (h : Inv mayWait s) (a : Action E) (ha : enabled s a)
    (hwait : mayWait = true ∨ Waitless s a) : Inv mayWait (next s a) := by
  rcases h with h | ⟨st, hw, hf⟩
  · exact .inl (dropped_next h a ha)
  cases a with
  | start =>
    cases hq : s.worker with
    | queued p =>
      rw [hq] at hw
      refine .inr ⟨st, ?_, ?_⟩
      · simp only [next, State.start, hq]
        exact hw.2
      · simp only [next, State.start, hq]
        exact facts_worker hf _
    | _ =>
      rw [enabled, hq] at ha
      cases ha.2
  | work env => exact inv_work hw hf env ha hwait
  | runPosted =>
    obtain ⟨hidle, hposted⟩ := ha
    cases hq : s.worker with
    | posted fn p =>
      rw [hq] at hw
      refine .inr ⟨st.after (.sync fn), ?_, ?_⟩
      · simp only [next, State.runPosted, hq]
        exact hw.2
      · simp only [next, State.runPosted, hq]
        exact facts_worker (facts_sync hf hidle hw.1) _
    | _ =>
      rw [hq] at hposted
      cases hposted
  | reply r =>
    obtain ⟨-, hawaiting⟩ := ha
    cases hq : s.worker with
    | awaiting k =>
      rw [hq] at hw
      refine .inr ⟨st, ?_, ?_⟩
      · simp only [next, State.reply, hq]
        exact hw.2 r
      · simp only [next, State.reply, hq]
        exact facts_worker hf _
    | _ =>
      rw [hq] at hawaiting
      cases hawaiting
  | cancel => exact inv_cancel hw hf ha.1 ha.2
  | onCancel => exact .inr ⟨st, hw, facts_onCancel hf ha.1 ha.2⟩
  | free => exact .inr ⟨st, hw, facts_free hf ha⟩

section Requests

variable [ExceptionTypes E] {kind : Innermost → List (Wrapper E) → Prop}

/-- Every request keeps the invariant if its worker may wait. -/
theorem inv_reachable (hs : (requests kind).Reachable s) : Inv true s := by
  refine hs.invariant (I := Inv true) ?_ fun _ a hi ha => inv_next hi a ha (.inl rfl)
  rintro _ ⟨inner, ws, -, rfl⟩
  exact inv_posted inner ws (.inl rfl)

/-- A loop-free request keeps the invariant without waits if the answers are waitless. -/
theorem inv_waitless (h : ∀ inner ws, kind inner ws → loopFree ws = true)
    (hs : ((requests kind).guardedBy Waitless).Reachable s) : Inv false s := by
  have hkeep : ∀ t a, Inv false t → ((requests kind).guardedBy Waitless).enabled t a →
      Inv false (next t a) := fun t a hi ha => inv_next hi a ha.2 (.inr ha.1)
  refine hs.invariant ?_ hkeep
  rintro _ ⟨inner, ws, hk, rfl⟩
  exact inv_posted inner ws (.inr (h inner ws hk))

/-! ## The protocol -/

omit [ExceptionTypes E] in
/-- The params and results are there as long as the worker may rely on it. -/
theorem not_freed (hf : Facts s st) (held : s.held = true) (seen : s.seen = true) :
    s.freed = false := by
  obtain ⟨hreg, hlive⟩ := hf.seen held seen
  have hnever : s.requestCanceled ≠ true := by rw [hlive]; nofun
  by_contra hfreed
  have hprobe := hf.freed (.inl (by simpa only [Bool.not_eq_false] using hfreed))
  obtain ⟨m, hm⟩ := exists_monitor hf (by rintro rfl; cases hreg)
  have hdetached : m.probe ≠ true := fun hp => by
    have := hf.attached.mp ⟨m, hm, hp⟩
    rw [hprobe] at this
    cases this
  have hcanceled : m.canceled = true := by
    by_contra hc
    exact hdetached (hf.canceled m hm (by simpa only [Bool.not_eq_true] using hc))
  have hset := (hf.watching hreg m hm).resolve_right hnever
  have hcalling := (hf.answered m hm hset hcanceled).resolve_right hnever
  obtain ⟨m', hm', -, -, hp'⟩ := hf.calling hcalling
  cases hm.symm.trans hm'
  exact hdetached hp'

/-- What the two threads rely on, for every request and every moment of a cancellation: the params
and results are not freed while the worker holds `cancel_lock` and has seen `request_canceled`
false; `m_on_cancel` runs at most once, and while it runs the frame it refers to is there; the
monitor and the probe point at each other or are both detached; and what their code asserts or
dereferences holds or exists. -/
theorem cancellation_protocol
    (hs : (requests fun (_ : Innermost) (_ : List (Wrapper E)) => True).Reachable s) :
    (s.held = true → s.seen = true → s.freed = false) ∧
    (s.onCancelRuns ≤ 1 ∧ (s.loop = .onCancel → s.frame = true)) ∧
    ((∃ m, s.monitor = some m ∧ m.probe = true) ↔ s.probe = some ⟨true⟩) ∧
    (∀ fn p, s.worker = .posted fn p → fn = .register ∨ fn = .clear ∨ fn = .finish →
      ∃ m, s.monitor = some m ∧ (fn = .register → m.onCancel = false)) := by
  have hinv : Inv true s := inv_reachable hs
  rcases hinv with ⟨hw, hm, hp, hh, hl, hr⟩ | ⟨st, hw, hf⟩
  · refine ⟨fun hheld => ?_, ⟨by omega, fun hc => absurd hc hl⟩, ?_, ?_⟩
    · cases hh.symm.trans hheld
    · rw [hm, hp]
      exact iff_of_false (by rintro ⟨_, ⟨⟩, -⟩) nofun
    · intro fn p hposted
      cases hw.symm.trans hposted
  · refine ⟨not_freed hf, ⟨?_, fun hc => ?_⟩, hf.attached, ?_⟩
    · rcases hf.runs with hr | ⟨hr, -⟩ <;> omega
    · rw [hf.frame]
      obtain ⟨m, hm, -, ho, -⟩ := hf.calling hc
      have hreg := hf.onCancel m hm ho
      cases st with
      | registered held => rfl
      | _ => cases hreg
    · intro fn p hposted hfn
      rw [hposted] at hw
      have hstage := Stage.eq_of_sync hw.1
      have hlive : st ≠ .finished := by
        rintro rfl
        exact hw.1
      obtain ⟨m, hm⟩ := exists_monitor hf hlive
      refine ⟨m, hm, ?_⟩
      rintro rfl
      have hst : st = .entered true := by
        rcases hstage with ⟨⟨⟩, -⟩ | ⟨-, hst⟩ | ⟨hfn | hfn | hfn, -⟩ | ⟨⟨⟩, -⟩ | ⟨⟨⟩, -⟩
        · exact hst
        · cases hfn
        · cases hfn
        · cases hfn
      subst hst
      by_contra ho
      exact absurd (hf.onCancel m hm (by simpa only [Bool.not_eq_false] using ho)) nofun

end Requests

/-- An environment in which everything returns normally. -/
def returning (E : Type) : (o : Op) → Op.Ans E o
  | .code _ | .await => .ok ()
  | .sent | .canceled _ | .want | .owned => false
  | .waits => ([] : List Wait)
  | .sync _ | .lock | .unlock | .getParams | .getResults | .interrupted | .enter | .leave => ()

/-- A request without parameters is canceled when its worker has released the lock to run the
method. -/
theorem cancellation_protocol_during_method :
    ∃ s, (requests fun (_ : Innermost) (_ : List (Wrapper StandardException)) => True).Reachable s ∧
      s.loop = .onCancel ∧ s.onCancelRuns ≤ 1 ∧ s.frame = true ∧ s.probe = some ⟨true⟩ := by
  have hstart : (requests fun (_ : Innermost) (_ : List (Wrapper StandardException)) =>
      True).init (posted (request .call [])) := ⟨.call, [], trivial, rfl⟩
  obtain ⟨s, hs, hp⟩ := Transition.System.exists_reachable_of_run _ hstart
    [.start, .work (returning _), .runPosted, .work (returning _), .work (returning _),
      .work (returning _), .runPosted, .work (returning _), .work (returning _), .cancel]
    (fun s => s.loop = .onCancel && s.monitor = some ⟨true, true, true⟩) (by decide)
  simp only [Bool.and_eq_true, decide_eq_true_eq] at hp
  obtain ⟨hloop, hmonitor⟩ := hp
  obtain ⟨-, ⟨hruns, hframe⟩, hlink, -⟩ := cancellation_protocol hs
  exact ⟨s, hs, hloop, hruns, hframe hloop, hlink.mp ⟨_, hmonitor, rfl⟩⟩

end Multiprocess.Server
