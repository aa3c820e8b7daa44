import Multiprocess.Context.Affinity
import Multiprocess.Lib.Measure

/-!
# Calls that call back return

What the affinity of threads is for: a thread that waits in `clientInvoke` runs the calls that come
back to it, so that calls may nest to any depth in both directions over any number of threads, and
none waits for a thread that waits for it. From any state of `Context/Affinity.lean`, let nobody
call any more; the connection stays, and a method that runs returns. The steps that are left are
bounded, and where none is left every call has been executed and has returned.

The calls of one top-level call stand one in the other over the stacks of two threads. `Nested` says
so: the younger of two that have not returned is inside a call made by the older, so that the
youngest one that has no answer is never kept from going on.
-/

namespace Multiprocess.Context.Affinity

open Transition (System)

/-- Everything but a new call. -/
def Action.internal : Action → Bool
  | .call _ => false
  | _ => true

/-- The endpoints when nobody calls any more. -/
def returning : System State Action := endpoints.guardedBy fun _ a => a.internal = true

/-- The call has not returned to its caller. -/
def State.pending (s : State) (r : Nat) : Prop := .calling r ∈ s.stack (s.requests r).caller

/-- Its executor is in the lambda of `PassField` for it. -/
def State.executing (s : State) (r : Nat) : Prop :=
  ∃ phase inserted, .executing r phase inserted ∈ s.stack (s.executor r)

/-- The calls that have not returned stand one in the other. -/
structure Nested (s : State) : Prop where
  sorted : ∀ t, ((s.stack t).map Frame.request).Pairwise (· > ·)
  unanswered : ∀ r < s.sent, (s.requests r).done = false → s.pending r
  executing : ∀ r < s.sent,
    s.executing r ↔ (s.requests r).ran ≠ none ∧ (s.requests r).done = false
  answered : ∀ r < s.sent, (s.requests r).done = true → (s.requests r).ran ≠ none
  /-- a call is made inside an execution that is still there -/
  parent : ∀ r < s.sent, ∀ p, (s.requests r).parent = some p → s.pending r →
    p < r ∧ s.executing p ∧ s.executor p = (s.requests r).caller
  /-- and the next one of the same top-level call inside that of an older one -/
  child : ∀ r q, r < q → q < s.sent → (s.requests r).origin = (s.requests q).origin →
    s.pending r → s.pending q →
      ∃ c ≤ q, c < s.sent ∧ s.pending c ∧ (s.requests c).parent = some r

variable {s s' : State} {t : Thread}

/-! ## The stacks -/

/-- Below a frame are the frames of older requests. -/
theorem Nested.below (h : Nested s) {f g : Frame} {rest : List Frame} (hst : s.stack t = f :: rest)
    (hg : g ∈ rest) : g.request < f.request := by
  have hsorted := h.sorted t
  rw [hst, List.map_cons, List.pairwise_cons] at hsorted
  exact hsorted.1 _ (List.mem_map_of_mem hg)

theorem head_mem {f : Frame} {rest : List Frame} (hst : s.stack t = f :: rest) :
    f ∈ s.stack t := by
  rw [hst]
  exact List.mem_cons_self

/-- A frame of an executing request is on its executor's stack. -/
theorem executing_of_mem (hl : Local s t) {r : Nat} {phase : Phase} {inserted : Bool}
    (hf : .executing r phase inserted ∈ s.stack t) : s.executor r = t ∧ s.executing r := by
  obtain ⟨-, rfl⟩ := hl.frames _ hf
  exact ⟨rfl, phase, inserted, hf⟩

/-- A frame of a call is on its caller's stack. -/
theorem pending_of_mem (hl : Local s t) {r : Nat} (hf : .calling r ∈ s.stack t) :
    (s.requests r).caller = t ∧ s.pending r := by
  obtain ⟨-, rfl⟩ := hl.frames _ hf
  exact ⟨rfl, hf⟩

/-- The innermost execution of a thread has no call inside. -/
theorem Nested.childless (h : Nested s) (hl : Local s t) {r c : Nat} {phase : Phase}
    {inserted : Bool} {rest : List Frame} (hst : s.stack t = .executing r phase inserted :: rest)
    (hc : c < s.sent) (hp : s.pending c) : (s.requests c).parent ≠ some r := by
  intro hparent
  obtain ⟨hlt, -, hcaller⟩ := h.parent c hc r hparent hp
  have hmem : .executing r phase inserted ∈ s.stack t := head_mem hst
  unfold State.pending at hp
  rw [← hcaller, (executing_of_mem hl hmem).1, hst] at hp
  rcases List.mem_cons.mp hp with hp | hp
  · cases hp
  · exact Nat.lt_asymm hlt (h.below hst hp)

/-- The thread of the top-level call is in it. -/
theorem Nested.root (h : Nested s) (hk : Known s) {r : Nat} (hr : r < s.sent) (hp : s.pending r) :
    s.stack (s.requests r).origin ≠ [] := by
  induction r using Nat.strongRecOn with
  | ind r ih =>
    have hdescends := hk.descends r hr
    unfold Request.Descends at hdescends
    cases hparent : (s.requests r).parent with
    | none =>
      rw [hparent] at hdescends
      unfold State.pending at hp
      rw [show (s.requests r).caller = _ from hdescends] at hp
      exact List.ne_nil_of_mem hp
    | some p =>
      rw [hparent] at hdescends
      obtain ⟨hlt, hexec, -⟩ := h.parent r hr p hparent hp
      have hdone := ((h.executing p hdescends.1).mp hexec).2
      rw [← hdescends.2]
      exact ih p hlt hdescends.1 (h.unanswered p hdescends.1 hdone)

/-- The executor of a request is not its caller. -/
theorem Known.executor_ne (h : Known s) {r : Nat} (hr : r < s.sent) :
    s.executor r ≠ (s.requests r).caller := by
  have hrouted := h.routed r hr
  obtain ⟨handle, callbackThread, hrequest, hcallback, hends⟩ := hrouted.ends
  unfold State.executor
  rcases hends with ⟨hcaller, hthread, -⟩ | ⟨hcaller, hthread⟩
  · have hclient := hrouted.client
    rw [hthread, (h.request _ handle hrouted.client hrequest).2, hcaller]
    intro heq
    rw [← heq] at hclient
    cases hclient
  · have hclient := hrouted.client
    rw [hthread, (h.callback _ callbackThread hcallback).2, hcaller]
    intro heq
    rw [heq] at hclient
    cases hclient

/-- The thread of a request was made before. -/
theorem Known.thread_lt (h : Known s) {r : Nat} (hr : r < s.sent) :
    (s.requests r).thread < s.made := by
  have hrouted := h.routed r hr
  obtain ⟨handle, callbackThread, hrequest, hcallback, hends⟩ := hrouted.ends
  rcases hends with ⟨-, hthread, -⟩ | ⟨-, hthread⟩
  · rw [hthread]
    exact (h.request _ handle hrouted.client hrequest).1
  · rw [hthread]
    exact (h.callback _ callbackThread hcallback).1

/-- A request that is still to be executed is younger than all that its executor has frames of. -/
theorem Nested.youngest (h : Nested s) (hi : Inv s) {r : Nat} (hr : r < s.sent)
    (hran : (s.requests r).ran = none) (hw : s.waits (s.executor r) = true) :
    ∀ f ∈ s.stack (s.executor r), f.request < r := by
  have hunanswered : (s.requests r).done = false := by
    cases hd : (s.requests r).done with
    | false => rfl
    | true => exact absurd hran (h.answered r hr hd)
  have hpending := h.unanswered r hr hunanswered
  unfold State.waits at hw
  split at hw
  · next hst =>
    rw [hst]
    exact fun f hf => absurd hf List.not_mem_nil
  · next q rest hst =>
    have hq : .calling q ∈ s.stack (s.executor r) := head_mem hst
    have hon := (hi.threads _).frames _ hq
    obtain ⟨hcaller, hqp⟩ := pending_of_mem (hi.threads _) hq
    have htop : q < r := by
      rcases Nat.lt_trichotomy q r with hlt | rfl | hgt
      · exact hlt
      · exact absurd hcaller.symm (hi.known.executor_ne hr)
      · -- else a call inside the request would be there
        have horigin : (s.requests r).origin = (s.requests q).origin :=
          hi.known.origin_eq (f := .executing r .entering false) (g := .calling q) ⟨hr, rfl⟩ hon
        obtain ⟨c, -, hc, hcp, hparent⟩ := h.child r q hgt hon.1 horigin hpending hqp
        obtain ⟨-, hexec, -⟩ := h.parent c hc r hparent hcp
        exact absurd hran ((h.executing r hr).mp hexec).1
    rw [hst]
    intro f hf
    rcases List.mem_cons.mp hf with rfl | hf
    · exact htop
    · exact Nat.lt_trans (h.below hst hf) htop
  · cases hw

/-! ## One lemma for each step -/

/-- At the start no call is under way. -/
theorem nested_started : Nested started where
  sorted _ := .nil
  unanswered _ hr := absurd hr (Nat.not_lt_zero _)
  executing _ hr := absurd hr (Nat.not_lt_zero _)
  answered _ hr := absurd hr (Nat.not_lt_zero _)
  parent _ hr := absurd hr (Nat.not_lt_zero _)
  child _ _ _ hq := absurd hq (Nat.not_lt_zero _)

/-- No call is sent, and none returns. -/
theorem Nested.child_of_same (h : Nested s) (sent : s'.sent = s.sent)
    (same : ∀ r, (s.requests r).Same (s'.requests r))
    (pending : ∀ r, s'.pending r ↔ s.pending r) (r q : Nat) (hlt : r < q) (hq : q < s'.sent)
    (horigin : (s'.requests r).origin = (s'.requests q).origin) (hrp : s'.pending r)
    (hqp : s'.pending q) :
    ∃ c ≤ q, c < s'.sent ∧ s'.pending c ∧ (s'.requests c).parent = some r := by
  rw [(same r).origin, (same q).origin] at horigin
  obtain ⟨c, hc, hcs, hcp, hparent⟩ :=
    h.child r q hlt (sent ▸ hq) horigin ((pending r).mp hrp) ((pending q).mp hqp)
  exact ⟨c, hc, sent.symm ▸ hcs, (pending c).mpr hcp, (same c).parent.trans hparent⟩

/-- A step that leaves the requests, and every frame but for its phase. -/
theorem Nested.same (h : Nested s) (sent : s'.sent = s.sent)
    (requests : s'.requests = s.requests)
    (executor : ∀ r < s.sent, s'.executor r = s.executor r)
    (sorted : ∀ t, (s'.stack t).map Frame.request = (s.stack t).map Frame.request)
    (calling : ∀ t r, .calling r ∈ s'.stack t ↔ .calling r ∈ s.stack t)
    (running : ∀ t r, (∃ phase inserted, .executing r phase inserted ∈ s'.stack t) ↔
      ∃ phase inserted, .executing r phase inserted ∈ s.stack t) : Nested s' := by
  have hpending : ∀ r, s'.pending r ↔ s.pending r := by
    intro r
    unfold State.pending
    rw [requests]
    exact calling _ r
  have hexecuting : ∀ r < s.sent, (s'.executing r ↔ s.executing r) := by
    intro r hr
    unfold State.executing
    rw [executor r hr]
    exact running _ r
  constructor
  · intro u
    rw [sorted]
    exact h.sorted u
  · intro r hr
    rw [hpending, requests]
    exact h.unanswered r (sent ▸ hr)
  · intro r hr
    rw [hexecuting r (sent ▸ hr), requests]
    exact h.executing r (sent ▸ hr)
  · rw [sent, requests]
    exact h.answered
  · intro r hr p hparent hp
    rw [sent] at hr
    rw [requests] at hparent
    obtain ⟨hlt, hexec, hcaller⟩ := h.parent r hr p hparent ((hpending r).mp hp)
    have hp : p < s.sent := Nat.lt_trans hlt hr
    rw [hexecuting p hp, executor p hp, requests]
    exact ⟨hlt, hexec, hcaller⟩
  · refine h.child_of_same sent (fun i => ?_) hpending
    rw [requests]
    exact .refl _

/-- New entries and handles are nothing to the requests there are. -/
theorem Nested.of_handles (h : Nested s) (hk : Known s) (e : Extends s s')
    (sent : s'.sent = s.sent) (requests : s'.requests = s.requests) (stack : s'.stack = s.stack) :
    Nested s' := by
  refine h.same sent requests (fun r hr => hk.executor_eq e hr) ?_ ?_ ?_
  all_goals
    rw [stack]
    intros
    rfl

/-- The innermost execution goes on to another phase. -/
theorem Nested.phase (h : Nested s) {r : Nat} {phase phase' : Phase} {inserted inserted' : Bool}
    {rest : List Frame} (entries : Thread → Option Nat)
    (hst : s.stack t = .executing r phase inserted :: rest) :
    Nested { s with
      request_threads := entries
      stack := Function.update s.stack t (.executing r phase' inserted' :: rest) } := by
  refine h.same rfl rfl (fun _ _ => rfl) ?_ ?_ ?_
  · refine (Function.forall_update_iff s.stack fun u frames =>
      frames.map Frame.request = (s.stack u).map Frame.request).mpr ⟨?_, fun _ _ => rfl⟩
    rw [hst]
    rfl
  · refine (Function.forall_update_iff s.stack fun u frames =>
      ∀ q, .calling q ∈ frames ↔ .calling q ∈ s.stack u).mpr ⟨fun q => ?_, fun _ _ _ => .rfl⟩
    rw [hst]
    simp only [List.mem_cons, reduceCtorEq, false_or]
  · refine (Function.forall_update_iff s.stack fun u frames =>
      ∀ q, (∃ p i, .executing q p i ∈ frames) ↔ ∃ p i, .executing q p i ∈ s.stack u).mpr
        ⟨fun q => ?_, fun _ _ _ => .rfl⟩
    rw [hst]
    simp only [List.mem_cons, Frame.executing.injEq]
    constructor
    · rintro ⟨p, i, ⟨rfl, -, -⟩ | hmem⟩
      · exact ⟨phase, inserted, .inl ⟨rfl, rfl, rfl⟩⟩
      · exact ⟨p, i, .inr hmem⟩
    · rintro ⟨p, i, ⟨rfl, -, -⟩ | hmem⟩
      · exact ⟨phase', inserted', .inl ⟨rfl, rfl, rfl⟩⟩
      · exact ⟨p, i, .inr hmem⟩

/-- The entry of `PassField` keeps the calls nested. -/
theorem nested_enter (h : Nested s) (ht : InPhase .entering (s.stack t) = true) :
    Nested (s.enter t) := by
  obtain ⟨r, inserted, rest, hst⟩ := stack_of_inPhase ht
  unfold State.enter
  rw [hst]
  exact h.phase _ hst

/-- The end of a method keeps the calls nested. -/
theorem nested_finish (h : Nested s) (ht : InPhase .running (s.stack t) = true) :
    Nested (s.finish t) := by
  obtain ⟨r, inserted, rest, hst⟩ := stack_of_inPhase ht
  unfold State.finish
  rw [hst]
  exact h.phase s.request_threads hst

theorem makeThread_thread (s : State) (handle i : Nat) :
    ((next s (.makeThread handle)).handles i).thread = (s.handles i).thread := by
  change (Function.update s.handles handle { s.handles handle with ready := true } i).thread = _
  rw [Function.update_apply]
  split
  · next heq => rw [heq]
  · rfl

/-- A thread that is made keeps the calls nested. -/
theorem nested_makeThread (h : Nested s) (handle : Nat) : Nested (next s (.makeThread handle)) :=
  h.same rfl rfl (fun _ _ => makeThread_thread s handle _) (fun _ => rfl) (fun _ _ => .rfl)
    fun _ _ => .rfl

/-- A call with a parent is made in the innermost execution. -/
theorem executing_of_parent (hr : s.runs t = true) {p : Nat} (hparent : s.parent t = some p) :
    ∃ inserted rest, s.stack t = .executing p .running inserted :: rest := by
  unfold State.runs at hr
  unfold State.parent at hparent
  split at hparent
  · next r phase i rest hst =>
    rw [hst] at hr
    obtain rfl := Option.some.inj hparent
    cases phase with
    | running => exact ⟨i, rest, hst⟩
    | _ => cases hr
  · cases hparent

/-- The calls that have not returned, of the top-level call of a thread that may call: its
innermost execution, and the ones with a call inside. -/
theorem Nested.inside (h : Nested s) (hi : Inv s) (hr : s.runs t = true) {r : Nat}
    (hrs : r < s.sent) (hp : s.pending r) (horigin : (s.requests r).origin = s.origin t) :
    s.parent t = some r ∨ ∃ c < s.sent, s.pending c ∧ (s.requests c).parent = some r := by
  rcases origin_of_runs hr with ⟨f, -, horig, hparent⟩ | ⟨ht, horig, hparent⟩
  · obtain ⟨i, rest, hst⟩ := executing_of_parent hr hparent
    have hf : .executing f.request .running i ∈ s.stack t := head_mem hst
    have hfs := ((hi.threads t).frames _ hf).sent
    have hexec := (executing_of_mem (hi.threads t) hf).2
    have hfp := h.unanswered _ hfs ((h.executing _ hfs).mp hexec).2
    have hsame := horigin.trans horig
    rcases Nat.lt_trichotomy r f.request with hlt | rfl | hgt
    · obtain ⟨c, -, hcs, hcp, hc⟩ := h.child r _ hlt hfs hsame hp hfp
      exact .inr ⟨c, hcs, hcp, hc⟩
    · exact .inl hparent
    · -- a younger one would be inside a call made here
      obtain ⟨c, -, hcs, hcp, hc⟩ := h.child _ r hgt hrs hsame.symm hfp hp
      exact absurd hc (h.childless (hi.threads t) hst hcs hcp)
  · -- a thread that calls on its own is in no call
    refine absurd ?_ (h.root hi.known hrs hp)
    rw [horigin, horig]
    unfold State.runs at hr
    unfold State.parent at hparent
    split at hparent
    · cases hparent
    · next hne =>
      split at hr
      · next hst => exact hst
      · next r' i rest hst => exact absurd hst (hne r' .running i rest)
      · cases hr

section Send

variable {thread callback : Nat}

/-- The stacks after a request is sent. -/
theorem send_stack (u : Thread) : (s.send t thread callback).stack u =
    if u = t then .calling s.sent :: s.stack t else s.stack u :=
  Function.update_apply _ _ _ _

/-- The calls pending before are pending still. -/
theorem send_pending {r : Nat} (hr : r < s.sent) :
    (s.send t thread callback).pending r ↔ s.pending r := by
  unfold State.pending
  rw [send_old hr, send_stack]
  split
  · next heq =>
    rw [heq, List.mem_cons, Frame.calling.injEq]
    exact or_iff_right (Nat.ne_of_lt hr)
  · rfl

theorem send_executing_mem {u : Thread} {r : Nat} {phase : Phase} {inserted : Bool} :
    .executing r phase inserted ∈ (s.send t thread callback).stack u ↔
      .executing r phase inserted ∈ s.stack u := by
  rw [send_stack]
  split
  · next heq => simp only [heq, List.mem_cons, reduceCtorEq, false_or]
  · rfl

theorem send_executing (hk : Known s) {r : Nat} (hr : r < s.sent) :
    (s.send t thread callback).executing r ↔ s.executing r := by
  unfold State.executing
  rw [hk.executor_eq extends_send hr]
  simp only [send_executing_mem]

/-- A thread calls, in its innermost execution or on its own. -/
theorem nested_send (h : Nested s) (hi : Inv s) (hruns : s.runs t = true) :
    Nested (s.send t thread callback) := by
  have hk := hi.known
  have hframes : ∀ u, ∀ f ∈ s.stack u, f.request < s.sent :=
    fun u f hf => ((hi.threads u).frames f hf).sent
  have hnew : (s.send t thread callback).pending s.sent := by
    unfold State.pending
    rw [send_new, send_stack, if_pos rfl]
    exact List.mem_cons_self
  constructor
  · intro u
    rw [send_stack]
    split
    · rw [List.map_cons, List.pairwise_cons]
      refine ⟨fun n hn => ?_, h.sorted t⟩
      obtain ⟨f, hf, rfl⟩ := List.mem_map.mp hn
      exact hframes t f hf
    · exact h.sorted u
  · intro r hr hdone
    rcases Nat.lt_succ_iff_lt_or_eq.mp hr with hr | rfl
    · rw [send_old hr] at hdone
      exact (send_pending hr).mpr (h.unanswered r hr hdone)
    · exact hnew
  · intro r hr
    rcases Nat.lt_succ_iff_lt_or_eq.mp hr with hr | rfl
    · rw [send_executing hk hr, send_old hr]
      exact h.executing r hr
    · rw [send_new]
      refine iff_of_false ?_ fun hran => hran.1 rfl
      rintro ⟨p, i, hf⟩
      exact Nat.lt_irrefl _ (hframes _ _ (send_executing_mem.mp hf))
  · intro r hr
    rcases Nat.lt_succ_iff_lt_or_eq.mp hr with hr | rfl
    · rw [send_old hr]
      exact h.answered r hr
    · rw [send_new]
      exact fun hd => by cases hd
  · intro r hr p hparent hp
    rcases Nat.lt_succ_iff_lt_or_eq.mp hr with hr | rfl
    · rw [send_old hr] at hparent ⊢
      obtain ⟨hlt, hexec, hcaller⟩ := h.parent r hr p hparent ((send_pending hr).mp hp)
      have hps : p < s.sent := Nat.lt_trans hlt hr
      rw [send_executing hk hps, hk.executor_eq extends_send hps]
      exact ⟨hlt, hexec, hcaller⟩
    · rw [send_new] at hparent ⊢
      obtain ⟨i, rest, hst⟩ := executing_of_parent hruns hparent
      have hps : p < s.sent := hframes t _ (head_mem hst)
      obtain ⟨hexecutor, hexec⟩ := executing_of_mem (hi.threads t) (head_mem hst)
      rw [send_executing hk hps, hk.executor_eq extends_send hps]
      exact ⟨hps, hexec, hexecutor⟩
  · intro r q hlt hq horigin hrp hqp
    have hr : r < s.sent := Nat.lt_of_lt_of_le hlt (Nat.le_of_lt_succ hq)
    rw [send_pending hr] at hrp
    rcases Nat.lt_succ_iff_lt_or_eq.mp hq with hq | rfl
    · rw [send_old hr, send_old hq] at horigin
      obtain ⟨c, hc, hcs, hcp, hparent⟩ := h.child r q hlt hq horigin hrp ((send_pending hq).mp hqp)
      exact ⟨c, hc, Nat.lt_succ_of_lt hcs, (send_pending hcs).mpr hcp, by rwa [send_old hcs]⟩
    · rw [send_old hr, send_new] at horigin
      rcases h.inside hi hruns hr hrp horigin with hparent | ⟨c, hcs, hcp, hparent⟩
      · exact ⟨s.sent, Nat.le_refl _, Nat.lt_succ_self _, hqp, by rw [send_new]; exact hparent⟩
      · exact ⟨c, Nat.le_of_lt hcs, Nat.lt_succ_of_lt hcs, (send_pending hcs).mpr hcp,
          by rwa [send_old hcs]⟩

end Send

theorem extends_setCallback (s : State) (t : Thread) : Extends s (s.setCallback t).1 := by
  unfold State.setCallback
  split
  · exact ⟨Nat.le_refl _, Nat.le_refl _, fun _ _ => .refl _, fun _ _ hu => hu, fun _ _ _ hu => hu,
      fun _ _ => rfl⟩
  · next hnone =>
    rw [setThread_none hnone]
    refine ⟨Nat.le_refl _, Nat.le_succ _, fun _ _ => .refl _, fun u handle hu => ?_,
      fun _ _ _ hu => hu, fun i hi => ?_⟩
    · have hne : u ≠ t := by
        rintro rfl
        cases hnone.symm.trans hu
      exact (Function.update_of_ne hne _ _).trans hu
    · exact congrArg Handle.thread (Function.update_of_ne (Nat.ne_of_lt hi) _ _)

theorem extends_setRequest (s : State) (t : Thread) : Extends s (s.setRequest t).1 := by
  unfold State.setRequest
  split
  · exact ⟨Nat.le_refl _, Nat.le_refl _, fun _ _ => .refl _, fun _ _ hu => hu, fun _ _ _ hu => hu,
      fun _ _ => rfl⟩
  · next hnone =>
    rw [setThread_none hnone]
    refine ⟨Nat.le_refl _, Nat.le_succ _, fun _ _ => .refl _, fun _ _ hu => hu,
      fun u handle _ hu => ?_, fun i hi => ?_⟩
    · have hne : u ≠ t := by
        rintro rfl
        cases hnone.symm.trans hu
      exact (Function.update_of_ne hne _ _).trans hu
    · exact congrArg Handle.thread (Function.update_of_ne (Nat.ne_of_lt hi) _ _)

/-- The two maps and the handles are all they change. -/
theorem setCallback_requests (s : State) (t : Thread) :
    (s.setCallback t).1.sent = s.sent ∧ (s.setCallback t).1.requests = s.requests := by
  unfold State.setCallback
  split <;> exact ⟨rfl, rfl⟩

theorem setRequest_requests (s : State) (t : Thread) :
    (s.setRequest t).1.sent = s.sent ∧ (s.setRequest t).1.requests = s.requests := by
  unfold State.setRequest
  split <;> exact ⟨rfl, rfl⟩

/-- A call nests in what its thread executes. -/
theorem nested_call (h : Nested s) (hi : Inv s) (hr : s.runs t = true) : Nested (s.call t) := by
  have hc := inv_setCallback hi t
  have hrc : (s.setCallback t).1.runs t = true :=
    (runs_congr (setCallback_stack s t)).trans hr
  have hn : Nested (s.setCallback t).1 :=
    h.of_handles hi.known (extends_setCallback s t) (setCallback_requests s t).1
      (setCallback_requests s t).2 (setCallback_stack s t)
  refine nested_send ?_ (inv_setRequest hc hrc) ((runs_congr (setRequest_stack _ t)).trans hrc)
  exact hn.of_handles hc.known (extends_setRequest _ t) (setRequest_requests _ t).1
    (setRequest_requests _ t).2 (setRequest_stack _ t)

/-! ### Executions -/

/-- A request that is executed nests in the call it came from. -/
theorem nested_execute (h : Nested s) (hi : Inv s) {r : Nat} (hr : r < s.sent)
    (hran : (s.requests r).ran = none) (hw : s.waits (s.executor r) = true) :
    Nested (s.execute r) := by
  have hrequest : ∀ i, (s.requests i).Same ((s.execute r).requests i) ∧
      ((s.execute r).requests i).done = (s.requests i).done ∧
      ((s.execute r).requests i).ran =
        if i = r then some (s.executor r) else (s.requests i).ran := by
    refine (Function.forall_update_iff s.requests fun i q => (s.requests i).Same q ∧
      q.done = (s.requests i).done ∧
      q.ran = if i = r then some (s.executor r) else (s.requests i).ran).mpr ⟨?_, ?_⟩
    · exact ⟨⟨rfl, rfl, rfl, rfl, rfl⟩, rfl, (if_pos rfl).symm⟩
    · exact fun i hne => ⟨.refl _, rfl, (if_neg hne).symm⟩
  have hexecutor : ∀ i, (s.execute r).executor i = s.executor i := by
    intro i
    unfold State.executor
    rw [(hrequest i).1.thread]
    rfl
  have hstack : ∀ u, (s.execute r).stack u =
      if u = s.executor r then .executing r .entering false :: s.stack (s.executor r)
        else s.stack u := fun u => Function.update_apply _ _ _ _
  have hpending : ∀ i, (s.execute r).pending i ↔ s.pending i := by
    intro i
    unfold State.pending
    rw [(hrequest i).1.caller, hstack]
    split
    · next heq => simp only [heq, List.mem_cons, reduceCtorEq, false_or]
    · rfl
  have hexecuting : ∀ i, (s.execute r).executing i ↔ i = r ∨ s.executing i := by
    intro i
    unfold State.executing
    simp only [hexecutor, hstack]
    by_cases hir : i = r
    · subst hir
      refine iff_of_true ⟨.entering, false, ?_⟩ (.inl rfl)
      rw [if_pos rfl]
      exact List.mem_cons_self
    · rw [or_iff_right hir]
      split
      · next heq => simp only [heq, List.mem_cons, Frame.executing.injEq, hir, false_and, false_or]
      · rfl
  constructor
  · intro u
    rw [hstack]
    split
    · rw [List.map_cons, List.pairwise_cons]
      refine ⟨fun n hn => ?_, h.sorted _⟩
      obtain ⟨f, hf, rfl⟩ := List.mem_map.mp hn
      exact h.youngest hi hr hran hw f hf
    · exact h.sorted u
  · intro i hi' hdone
    rw [(hrequest i).2.1] at hdone
    exact (hpending i).mpr (h.unanswered i hi' hdone)
  · intro i hi'
    rw [hexecuting, (hrequest i).2.1, (hrequest i).2.2, h.executing i hi']
    split
    · next heq =>
      subst heq
      refine iff_of_true (.inl rfl) ⟨Option.some_ne_none _, ?_⟩
      cases hd : (s.requests i).done with
      | false => rfl
      | true => exact absurd hran (h.answered i hr hd)
    · next hne => exact or_iff_right hne
  · intro i hi' hdone
    rw [(hrequest i).2.1] at hdone
    rw [(hrequest i).2.2]
    split
    · exact Option.some_ne_none _
    · exact h.answered i hi' hdone
  · intro i hi' p hparent hp
    rw [(hrequest i).1.parent] at hparent
    obtain ⟨hlt, hexec, hcaller⟩ := h.parent i hi' p hparent ((hpending i).mp hp)
    rw [hexecuting, hexecutor, (hrequest i).1.caller]
    exact ⟨hlt, .inr hexec, hcaller⟩
  · exact h.child_of_same rfl (fun i => (hrequest i).1) hpending

/-- A request that is over was the innermost. -/
theorem nested_leave (h : Nested s) (hi : Inv s) (ht : InPhase .leaving (s.stack t) = true) :
    Nested (s.leave t) := by
  obtain ⟨r, inserted, rest, hst⟩ := stack_of_inPhase ht
  have hl := hi.threads t
  have e := extends_leave hl hst
  have hmem : .executing r .leaving inserted ∈ s.stack t := head_mem hst
  obtain ⟨hon, hexec⟩ := executing_of_mem hl hmem
  have hrs : r < s.sent := (hl.frames _ hmem).sent
  have hleave := leave_eq hst
  have hsent : (s.leave t).sent = s.sent := by rw [hleave]
  have hrequest := leave_requests hst
  have hdone : ∀ i, ((s.leave t).requests i).done =
      if i = r then true else (s.requests i).done := by
    rw [hleave]
    refine (Function.forall_update_iff s.requests fun i q =>
      q.done = if i = r then true else (s.requests i).done).mpr ⟨(if_pos rfl).symm, ?_⟩
    exact fun i hne => (if_neg hne).symm
  have hstack : ∀ u, (s.leave t).stack u = if u = t then rest else s.stack u := by
    rw [hleave]
    exact fun u => Function.update_apply _ _ _ _
  have hpending : ∀ i, (s.leave t).pending i ↔ s.pending i := by
    intro i
    unfold State.pending
    rw [(hrequest i).1.caller, hstack]
    split
    · next heq => simp only [heq, hst, List.mem_cons, reduceCtorEq, false_or]
    · rfl
  have hexecuting : ∀ i < s.sent, ((s.leave t).executing i ↔ s.executing i ∧ i ≠ r) := by
    intro i hi'
    unfold State.executing
    simp only [hi.known.executor_eq e hi', hstack]
    split
    · next heq =>
      rw [heq, hst]
      constructor
      · rintro ⟨p, j, hf⟩
        exact ⟨⟨p, j, List.mem_cons_of_mem _ hf⟩, Nat.ne_of_lt (h.below hst hf)⟩
      · rintro ⟨⟨p, j, hf⟩, hne⟩
        rcases List.mem_cons.mp hf with hf | hf
        · cases hf
          exact absurd rfl hne
        · exact ⟨p, j, hf⟩
    · next hne =>
      refine (and_iff_left ?_).symm
      rintro rfl
      exact hne hon
  constructor
  · intro u
    rw [hstack]
    split
    · have hsorted := h.sorted t
      rw [hst, List.map_cons, List.pairwise_cons] at hsorted
      exact hsorted.2
    · exact h.sorted u
  · intro i hi' hd
    rw [hsent] at hi'
    rw [hdone] at hd
    split at hd
    · cases hd
    · exact (hpending i).mpr (h.unanswered i hi' hd)
  · intro i hi'
    rw [hsent] at hi'
    rw [hexecuting i hi', hdone, (hrequest i).2, h.executing i hi']
    split
    · next heq => exact iff_of_false (fun hx => hx.2 heq) fun hx => by cases hx.2
    · next hne => exact and_iff_left hne
  · intro i hi' hd
    rw [hsent] at hi'
    rw [hdone] at hd
    rw [(hrequest i).2]
    split at hd
    · next heq =>
      rw [heq]
      exact ((h.executing r hrs).mp hexec).1
    · exact h.answered i hi' hd
  · intro i hi' p hparent hp
    rw [hsent] at hi'
    rw [(hrequest i).1.parent] at hparent
    rw [hpending] at hp
    obtain ⟨hlt, hexec', hcaller⟩ := h.parent i hi' p hparent hp
    have hps : p < s.sent := Nat.lt_trans hlt hi'
    have hne : p ≠ r := by
      rintro rfl
      exact h.childless hl hst hi' hp hparent
    rw [hexecuting p hps, hi.known.executor_eq e hps, (hrequest i).1.caller]
    exact ⟨hlt, ⟨hexec', hne⟩, hcaller⟩
  · exact h.child_of_same hsent (fun i => (hrequest i).1) hpending

/-- So was a call that returns. -/
theorem nested_return (h : Nested s) (hi : Inv s) (ha : enabled s (.return t)) :
    Nested (next s (.return t)) := by
  obtain ⟨r, rest, hst, hanswer⟩ : ∃ r rest, s.stack t = .calling r :: rest ∧
      (s.requests r).done = true := by
    unfold enabled at ha
    simp only at ha
    split at ha
    · next r rest hst => exact ⟨r, rest, hst, ha⟩
    · cases ha
  have hmem : .calling r ∈ s.stack t := head_mem hst
  obtain ⟨hcaller, hrp⟩ := pending_of_mem (hi.threads t) hmem
  have hrs : r < s.sent := ((hi.threads t).frames _ hmem).sent
  have hstack : ∀ u, (next s (.return t)).stack u = if u = t then rest else s.stack u := by
    intro u
    change Function.update s.stack t (s.stack t).tail u = _
    rw [hst]
    exact Function.update_apply _ _ _ _
  have hpending : ∀ i, (next s (.return t)).pending i ↔ s.pending i ∧ i ≠ r := by
    intro i
    unfold State.pending
    rw [hstack]
    change (_ ∈ if (s.requests i).caller = t then _ else _) ↔ _
    split
    · next heq =>
      rw [heq, hst]
      constructor
      · exact fun hf => ⟨List.mem_cons_of_mem _ hf, Nat.ne_of_lt (h.below hst hf)⟩
      · rintro ⟨hf, hne⟩
        rcases List.mem_cons.mp hf with hf | hf
        · cases hf
          exact absurd rfl hne
        · exact hf
    · next hne =>
      refine (and_iff_left ?_).symm
      rintro rfl
      exact hne hcaller
  have hexecuting : ∀ i, (next s (.return t)).executing i ↔ s.executing i := by
    intro i
    unfold State.executing
    simp only [hstack]
    change (∃ p j, _ ∈ if s.executor i = t then _ else _) ↔ _
    split
    · next heq => simp only [heq, hst, List.mem_cons, reduceCtorEq, false_or]
    · rfl
  constructor
  · intro u
    rw [hstack]
    split
    · have hsorted := h.sorted t
      rw [hst, List.map_cons, List.pairwise_cons] at hsorted
      exact hsorted.2
    · exact h.sorted u
  · intro i hi' hd
    refine (hpending i).mpr ⟨h.unanswered i hi' hd, ?_⟩
    rintro rfl
    cases hanswer.symm.trans hd
  · intro i hi'
    rw [hexecuting]
    exact h.executing i hi'
  · exact h.answered
  · intro i hi' p hparent hp
    rw [hexecuting]
    exact h.parent i hi' p hparent ((hpending i).mp hp).1
  · intro i q hlt hq horigin hip hqp
    obtain ⟨hqp, hqr⟩ := (hpending q).mp hqp
    obtain ⟨c, hc, hcs, hcp, hparent⟩ := h.child i q hlt hq horigin ((hpending i).mp hip).1 hqp
    refine ⟨c, hc, hcs, (hpending c).mpr ⟨hcp, ?_⟩, hparent⟩
    rintro rfl
    -- what is inside the returning call has returned before
    have hdescends := hi.known.descends c hcs
    unfold Request.Descends at hdescends
    rw [hparent] at hdescends
    obtain ⟨c', -, hcs', hcp', hparent'⟩ := h.child c q (Nat.lt_of_le_of_ne hc (Ne.symm hqr)) hq
      (hdescends.2.symm.trans horigin) hcp hqp
    obtain ⟨-, hexec, -⟩ := h.parent c' hcs' c hparent' hcp'
    cases hanswer.symm.trans ((h.executing c hcs).mp hexec).2

/-- Every step keeps the calls nested. -/
theorem nested_next (s : State) (a : Action) (h : Inv s ∧ Nested s) (ha : enabled s a) :
    Inv (next s a) ∧ Nested (next s a) := by
  refine ⟨inv_next s a h.1 ha, ?_⟩
  cases a with
  | call t => exact nested_call h.2 h.1 ha
  | makeThread handle => exact nested_makeThread h.2 handle
  | execute r => exact nested_execute h.2 h.1 ha.1 ha.2.1 ha.2.2.2
  | enter t => exact nested_enter h.2 ha
  | finish t => exact nested_finish h.2 ha
  | leave t => exact nested_leave h.2 h.1 ha
  | «return» t => exact nested_return h.2 h.1 ha

/-! ## Where nothing can go on -/

section Stuck

variable (stuck : ∀ a, ¬ returning.enabled s a)
include stuck

/-- The innermost frame of a thread waits for an answer. -/
theorem calling_of_stuck {f : Frame} {rest : List Frame} (hst : s.stack t = f :: rest) :
    ∃ r, f = .calling r ∧ (s.requests r).done = false := by
  cases f with
  | calling r =>
    refine ⟨r, rfl, ?_⟩
    rw [← Bool.not_eq_true]
    refine fun hd => stuck (.return t) ⟨rfl, ?_⟩
    simp only [endpoints, enabled, hst]
    exact hd
  | executing r phase inserted =>
    have hin : InPhase phase (s.stack t) = true := by
      rw [hst]
      exact decide_eq_true rfl
    cases phase with
    | entering => exact absurd ⟨rfl, hin⟩ (stuck (.enter t))
    | running => exact absurd ⟨rfl, hin⟩ (stuck (.finish t))
    | leaving => exact absurd ⟨rfl, hin⟩ (stuck (.leave t))

/-- A request with no answer waits for a younger one. -/
theorem younger_of_stuck (hi : Inv s) (h : Nested s) {r : Nat} (hr : r < s.sent)
    (hd : (s.requests r).done = false) : ∃ q, r < q ∧ q < s.sent ∧ (s.requests q).done = false := by
  have hready : (s.handles (s.requests r).thread).ready = true := by
    rw [← Bool.not_eq_false]
    exact fun hready => stuck (.makeThread _) ⟨rfl, hi.known.thread_lt hr, hready⟩
  by_cases hran : (s.requests r).ran = none
  · have hw : ¬ s.waits (s.executor r) = true :=
      fun hw => stuck (.execute r) ⟨rfl, hr, hran, hready, hw⟩
    unfold State.waits at hw
    cases hst : s.stack (s.executor r) with
    | nil =>
      -- a thread that calls on its own is called back in its call only
      rw [hst] at hw
      simp only [Bool.not_eq_true, Bool.not_eq_false'] at hw
      have horigin := hi.known.origin_of_client (f := .executing r .entering false) ⟨hr, rfl⟩ hw
      exact absurd (horigin ▸ hst) (h.root hi.known hr (h.unanswered r hr hd))
    | cons f rest =>
      obtain ⟨q, rfl, -⟩ := calling_of_stuck stuck hst
      rw [hst] at hw
      exact absurd rfl hw
  · obtain ⟨phase, inserted, hf⟩ := (h.executing r hr).mpr ⟨hran, hd⟩
    obtain ⟨f, rest, hst⟩ := List.exists_cons_of_ne_nil (List.ne_nil_of_mem hf)
    obtain ⟨q, rfl, hqd⟩ := calling_of_stuck stuck hst
    have hq : .calling q ∈ s.stack (s.executor r) := head_mem hst
    refine ⟨q, ?_, ((hi.threads _).frames _ hq).sent, hqd⟩
    rw [hst] at hf
    rcases List.mem_cons.mp hf with hf | hf
    · cases hf
    · exact h.below hst hf

end Stuck

/-! ## The steps are bounded -/

def Frame.work : Frame → Nat
  | .calling _ => 1
  | .executing _ .entering _ => 3
  | .executing _ .running _ => 2
  | .executing _ .leaving _ => 1

namespace State

def stackWork (s : State) (threads : Finset Thread) : Nat :=
  ∑ t ∈ threads, ((s.stack t).map Frame.work).sum

/-- The requests still to be executed. -/
def requestWork (s : State) : Nat :=
  ∑ r ∈ Finset.range s.sent, if (s.requests r).ran.isNone then 4 else 0

/-- The `makeThread` requests still to run. -/
def handleWork (s : State) : Nat :=
  ∑ i ∈ Finset.range s.made, if (s.handles i).ready then 0 else 1

def work (s : State) (threads : Finset Thread) : Nat :=
  s.stackWork threads + s.requestWork + s.handleWork

/-- The threads of the requests are among these. -/
def Covers (s : State) (threads : Finset Thread) : Prop :=
  ∀ r < s.sent, (s.requests r).caller ∈ threads ∧ s.executor r ∈ threads

end State

/-- The requests of a state come from finitely many threads. -/
theorem exists_covers (s : State) : ∃ threads, s.Covers threads := by
  refine ⟨(Finset.range s.sent).image (fun r => (s.requests r).caller) ∪
    (Finset.range s.sent).image s.executor, fun r hr => ⟨?_, ?_⟩⟩
  · exact Finset.mem_union_left _ (Finset.mem_image_of_mem _ (Finset.mem_range.mpr hr))
  · exact Finset.mem_union_right _ (Finset.mem_image_of_mem _ (Finset.mem_range.mpr hr))

/-- What the steps other than a call leave alone. -/
structure Fixed (s s' : State) : Prop where
  sent : s'.sent = s.sent
  made : s'.made = s.made
  caller : ∀ r, (s'.requests r).caller = (s.requests r).caller
  executor : ∀ r, s'.executor r = s.executor r

/-- The steps that are no calls send nothing. -/
theorem fixed_next (a : Action) (internal : a.internal = true) (ha : enabled s a) :
    Fixed s (next s a) := by
  have hupdate : ∀ (r : Nat) (q : Request), (s.requests r).Same q → ∀ i,
      (s.requests i).Same (Function.update s.requests r q i) := fun r q hq =>
    (Function.forall_update_iff s.requests fun i q => (s.requests i).Same q).mpr
      ⟨hq, fun i _ => .refl _⟩
  cases a with
  | call t => cases internal
  | makeThread handle => exact ⟨rfl, rfl, fun _ => rfl, fun r => makeThread_thread s handle _⟩
  | execute r =>
    have hsame := hupdate r { s.requests r with ran := some (s.executor r) }
      ⟨rfl, rfl, rfl, rfl, rfl⟩
    exact ⟨rfl, rfl, fun i => (hsame i).caller,
      fun i => congrArg (fun n => (s.handles n).thread) (hsame i).thread⟩
  | enter t =>
    obtain ⟨r, inserted, rest, hst⟩ := stack_of_inPhase ha
    simp only [next, State.enter, hst]
    exact ⟨rfl, rfl, fun _ => rfl, fun _ => rfl⟩
  | finish t =>
    obtain ⟨r, inserted, rest, hst⟩ := stack_of_inPhase ha
    simp only [next, State.finish, hst]
    exact ⟨rfl, rfl, fun _ => rfl, fun _ => rfl⟩
  | leave t =>
    obtain ⟨r, inserted, rest, hst⟩ := stack_of_inPhase ha
    have hsame := hupdate r { s.requests r with done := true } ⟨rfl, rfl, rfl, rfl, rfl⟩
    simp only [next, leave_eq hst]
    exact ⟨rfl, rfl, fun i => (hsame i).caller,
      fun i => congrArg (fun n => (s.handles n).thread) (hsame i).thread⟩
  | «return» t => exact ⟨rfl, rfl, fun _ => rfl, fun _ => rfl⟩

theorem Fixed.covers {threads : Finset Thread} (h : Fixed s s') (covers : s.Covers threads) :
    s'.Covers threads := by
  intro r hr
  rw [h.caller, h.executor]
  exact covers r (h.sent ▸ hr)

variable {threads : Finset Thread}

/-- The threads with a frame are among those counted. -/
theorem mem_of_frame (hl : Local s t) (covers : s.Covers threads) {f : Frame}
    (hf : f ∈ s.stack t) : t ∈ threads := by
  have hon := hl.frames f hf
  cases f with
  | calling r => exact hon.2 ▸ (covers r hon.1).1
  | executing r phase inserted => exact hon.2 ▸ (covers r hon.1).2

/-- One stack changes. -/
theorem stackWork_update (ht : t ∈ threads) {frames : List Frame}
    (hstack : s'.stack = Function.update s.stack t frames) :
    s'.stackWork threads + ((s.stack t).map Frame.work).sum =
      s.stackWork threads + (frames.map Frame.work).sum := by
  have h := Transition.Measure.finset_sum_change ht
    (f := fun u => ((s'.stack u).map Frame.work).sum)
    (g := fun u => ((s.stack u).map Frame.work).sum) fun u hu => by
      simp only [hstack, Function.update_of_ne hu]
  simp only [hstack, Function.update_self] at h
  unfold State.stackWork
  rw [hstack]
  exact h

/-- A step that changes the innermost frame of one thread. -/
theorem work_top (hl : Local s t) (covers : s.Covers threads) {f : Frame} {rest frames : List Frame}
    (hst : s.stack t = f :: rest) (hstack : s'.stack = Function.update s.stack t frames)
    (lower : (frames.map Frame.work).sum < f.work + (rest.map Frame.work).sum)
    (requests : s'.requestWork = s.requestWork) (handles : s'.handleWork = s.handleWork) :
    s'.work threads < s.work threads := by
  have hf : f ∈ s.stack t := head_mem hst
  have h := stackWork_update (mem_of_frame hl covers hf) hstack
  rw [hst, List.map_cons, List.sum_cons] at h
  unfold State.work
  omega

/-- Each of these steps leaves less to do. -/
theorem work_next (hi : Inv s) (covers : s.Covers threads) (a : Action)
    (internal : a.internal = true) (ha : enabled s a) :
    (next s a).work threads < s.work threads := by
  cases a with
  | call t => cases internal
  | makeThread handle =>
    have hdone : ((next s (.makeThread handle)).handles handle).ready = true :=
      congrArg Handle.ready (Function.update_self handle _ s.handles)
    have h : (next s (.makeThread handle)).handleWork + _ = s.handleWork + _ :=
      Transition.Measure.finset_sum_change (Finset.mem_range.mpr ha.1) fun i hi => by
        simp only [next, Function.update_of_ne hi]
    rw [ha.2, hdone, if_pos rfl, if_neg Bool.false_ne_true] at h
    have hstack : (next s (.makeThread handle)).stackWork threads = s.stackWork threads := rfl
    have hrequest : (next s (.makeThread handle)).requestWork = s.requestWork := rfl
    unfold State.work
    omega
  | execute r =>
    obtain ⟨hr, hran, -, -⟩ := ha
    have hstack : (s.execute r).stackWork threads + _ = s.stackWork threads + _ :=
      stackWork_update (covers r hr).2 rfl
    rw [List.map_cons, List.sum_cons] at hstack
    have hnew : ((s.execute r).requests r).ran = some (s.executor r) :=
      congrArg Request.ran (Function.update_self r _ s.requests)
    have h : (s.execute r).requestWork + _ = s.requestWork + _ :=
      Transition.Measure.finset_sum_change (Finset.mem_range.mpr hr) fun i hi => by
        simp only [State.execute, Function.update_of_ne hi]
    rw [hran, hnew, Option.isNone_none, Option.isNone_some, if_pos rfl,
      if_neg Bool.false_ne_true] at h
    have hhandle : (s.execute r).handleWork = s.handleWork := rfl
    have hframe : Frame.work (.executing r .entering false) = 3 := rfl
    change (s.execute r).work threads < _
    unfold State.work
    omega
  | enter t =>
    obtain ⟨r, inserted, rest, hst⟩ := stack_of_inPhase ha
    have heq : next s (.enter t) = s.enter t := rfl
    unfold State.enter at heq
    rw [hst] at heq
    rw [heq]
    refine work_top (hi.threads t) covers hst rfl ?_ rfl rfl
    simp only [List.map_cons, List.sum_cons, Frame.work]
    omega
  | finish t =>
    obtain ⟨r, inserted, rest, hst⟩ := stack_of_inPhase ha
    have heq : next s (.finish t) = s.finish t := rfl
    unfold State.finish at heq
    rw [hst] at heq
    rw [heq]
    refine work_top (hi.threads t) covers hst rfl ?_ rfl rfl
    simp only [List.map_cons, List.sum_cons, Frame.work]
    omega
  | leave t =>
    obtain ⟨r, inserted, rest, hst⟩ := stack_of_inPhase ha
    have hran := leave_requests hst
    have heq : next s (.leave t) = _ := leave_eq hst
    refine work_top (hi.threads t) covers hst (congrArg State.stack heq) ?_ ?_ ?_
    · simp only [Frame.work]
      omega
    · simp only [State.requestWork, next, (hran _).2]
      rw [leave_eq hst]
    · rw [heq]
      rfl
  | «return» t =>
    obtain ⟨r, rest, hst⟩ : ∃ r rest, s.stack t = .calling r :: rest := by
      unfold enabled at ha
      simp only at ha
      split at ha
      · next r rest hst => exact ⟨r, rest, hst⟩
      · cases ha
    refine work_top (hi.threads t) covers hst rfl ?_ rfl rfl
    rw [hst]
    simp only [List.tail_cons, Frame.work]
    omega

/-! ## Whole runs -/

/-- Nobody is in a call or an execution, and every request was executed and answered. -/
structure Returned (s : State) : Prop where
  stack : ∀ t, s.stack t = []
  executed : ∀ r < s.sent, (s.requests r).ran = some (s.executor r) ∧ (s.requests r).done = true

/-- Where none is possible every call has returned. -/
theorem returned_of_stuck (hi : Inv s) (h : Nested s) (stuck : ∀ a, ¬ returning.enabled s a) :
    Returned s := by
  -- one without an answer would wait for a younger one, and so on without end
  have hdone : ∀ n r, s.sent - r = n → r < s.sent → (s.requests r).done = true := by
    intro n
    induction n using Nat.strongRecOn with
    | ind n ih =>
      intro r hn hr
      rw [← Bool.not_eq_false]
      intro hd
      obtain ⟨q, hlt, hq, hqd⟩ := younger_of_stuck stuck hi h hr hd
      cases hqd.symm.trans (ih (s.sent - q) (by omega) q rfl hq)
  constructor
  · intro t
    cases hst : s.stack t with
    | nil => rfl
    | cons f rest =>
      obtain ⟨r, rfl, hd⟩ := calling_of_stuck stuck hst
      have hf : .calling r ∈ s.stack t := head_mem hst
      cases hd.symm.trans (hdone _ r rfl ((hi.threads t).frames _ hf).sent)
  · intro r hr
    have hd := hdone _ r rfl hr
    obtain ⟨u, hu⟩ := Option.ne_none_iff_exists'.mp (h.answered r hr hd)
    exact ⟨hu.trans (congrArg some (hi.known.ran r hr u hu)), hd⟩

/-- In every state that any threads of both endpoints reach by calling and calling back to any
depth: the steps left without new calls are bounded, whatever their order; some run of them goes to
the end; and at the end of each every call has been executed, by the thread it named, and has
returned. -/
theorem nested_calls_return (h : endpoints.Reachable s) :
    (∃ n, ∀ as s', returning.Path s as s' → as.length ≤ n) ∧
    (∃ as s', returning.Path s as s' ∧ ∀ a, ¬ returning.enabled s' a) ∧
    ∀ as s', returning.Path s as s' → (∀ a, ¬ returning.enabled s' a) →
      s'.sent = s.sent ∧ Returned s' := by
  have hinv : Inv s ∧ Nested s := by
    refine h.invariant (I := fun s => Inv s ∧ Nested s) ?_ nested_next
    rintro s rfl
    exact ⟨inv_started, nested_started⟩
  obtain ⟨threads, covers⟩ := exists_covers s
  have keep : ∀ u a, (Inv u ∧ Nested u) ∧ u.Covers threads → returning.enabled u a →
      (Inv (next u a) ∧ Nested (next u a)) ∧ (next u a).Covers threads := fun u a hu ha =>
    ⟨nested_next u a hu.1 ha.2, (fixed_next a ha.1 ha.2).covers hu.2⟩
  have lower : ∀ u a, (Inv u ∧ Nested u) ∧ u.Covers threads → returning.enabled u a →
      (next u a).work threads < u.work threads := fun u a hu ha =>
    work_next hu.1.1 hu.2 a ha.1 ha.2
  obtain ⟨hbound, hend⟩ := Transition.Measure.settles (fun u => u.work threads) keep lower
    ⟨hinv, covers⟩
  refine ⟨hbound, hend, fun as s' path stuck => ?_⟩
  have hsent : (Inv s' ∧ Nested s') ∧ s'.sent = s.sent := by
    refine path.keeps (I := fun u => (Inv u ∧ Nested u) ∧ u.sent = s.sent) ?_ ⟨hinv, rfl⟩
    exact fun u a hu ha =>
      ⟨nested_next u a hu.1 ha.2, (fixed_next a ha.1 ha.2).sent.trans hu.2⟩
  exact ⟨hsent.2, returned_of_stuck hsent.1.1 hsent.1.2 stuck⟩

/-- Three calls that stand one in the other come back. -/
theorem nested_calls_return_three : ∃ s, endpoints.Reachable s ∧ s.sent = 3 ∧
    s.pending 0 ∧ s.pending 1 ∧ s.pending 2 ∧
      ∃ as s', returning.Path s as s' ∧ s'.sent = 3 ∧ Returned s' := by
  obtain ⟨s, hs, hp⟩ := endpoints.exists_reachable_of_run (s := started) rfl
    [.call (.client .left 0), .makeThread 1, .execute 0, .enter (.worker .right 1),
      .call (.worker .right 1), .execute 1, .enter (.client .left 0), .call (.client .left 0)]
    (fun s => decide (s.sent = 3 ∧ .calling 0 ∈ s.stack (s.requests 0).caller ∧
      .calling 1 ∈ s.stack (s.requests 1).caller ∧
      .calling 2 ∈ s.stack (s.requests 2).caller)) (by decide)
  obtain ⟨hsent, hfirst, hsecond, hthird⟩ := of_decide_eq_true hp
  obtain ⟨-, ⟨as, s', path, stuck⟩, hall⟩ := nested_calls_return hs
  obtain ⟨hsame, hreturned⟩ := hall as s' path stuck
  exact ⟨s, hs, hsent, hfirst, hsecond, hthird, as, s', path, hsame.trans hsent, hreturned⟩

end Multiprocess.Context.Affinity
