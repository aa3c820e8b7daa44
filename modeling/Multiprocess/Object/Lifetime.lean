import Multiprocess.Lib.Measure
import Multiprocess.Object.Protocol

/-!
# The life of a remote object, and the end of a call

What the protocol of `Object/Model.lean` gives its users, over every interleaving of the two sides
with any number of objects and calls, and wherever the connection is lost:

* a method runs on an implementation that is there for as long as it runs, and no implementation
  is released twice (`method_has_impl`);
* a `ProxyClient` whose interface declares `destroy` leaves its destructor, if the call came
  through, when the implementation has been released (`destroy_answered`);
* a call returns once, and has then run once if it returned normally (`call_answered`);
* the steps that are left run out, and then every call has returned, and every implementation that
  no client holds over the connection has been released once (`settled`).
-/

namespace Multiprocess.Object

open Transition (System)
open Transition.Measure

variable {C : Type} [DecidableEq C] {p : Program C} {s : State C}

/-! ## Safety -/

/-- Where an object is referred to and its `destroy` has not begun, `m_impl` is not null. -/
theorem Inv.live_impl (h : Inv p s) {o : Obj C}
    (hlive : ∃ b, s.server o = .live b) (hd : (s.stage (.destroy o)).begun = false) :
    s.server o = .live true := by
  obtain ⟨b, hb⟩ := hlive
  cases b with
  | true => exact hb
  | false => exact absurd (h.objects.impl_gone o hb) (by simp only [hd, Bool.false_eq_true,
      not_false_eq_true])

theorem Inv.released_zero (h : Inv p s) {o : Obj C} (ho : s.server o = .live true) :
    s.released o = 0 := by
  have := h.history.conserved o
  rw [ho] at this
  simp only [if_true, reduceCtorEq, if_false] at this
  omega

theorem Inv.released_le (h : Inv p s) (o : Obj C) : s.released o ≤ 1 := by
  have := h.history.conserved o
  split at this <;> split at this <;> omega

/-- A `destroy` whose method may have been entered has left the client. -/
theorem Stage.left_of_begun {t : Stage} (h : t.begun = true) : t.left = true := by
  cases t <;> first | rfl | exact absurd h nofun

/-- What the two sides may rely on of an object. -/
structure Safe (p : Program C) (s : State C) : Prop where
  -- a method runs on an implementation that has not been released
  running : ∀ k, s.stage (.call k) = .executing →
    s.server (p.target k) = .live true ∧ s.released (p.target k) = 0
  -- an object a client holds over the connection is there, with its implementation
  reachable : s.clientUp = true → s.serverUp = true → ∀ o, s.client o = .alive →
    s.server o = .live true ∧ s.released o = 0
  -- nothing is released twice
  once : ∀ o, s.released o ≤ 1

/-- A method runs on an implementation that is there for as long as it runs, an object held by a
client over the connection keeps its implementation, and none is released twice. -/
theorem method_has_impl (h : (connection p).Reachable s) : Safe p s := by
  have hinv := reachable_inv h
  constructor
  · intro k hk
    have hserving : (s.stage (.call k)).serving = true := hk ▸ rfl
    have hbegun : (s.stage (.destroy (p.target k))).begun = false := by
      by_contra hb
      have hleft := Stage.left_of_begun (Bool.of_not_eq_false hb)
      exact absurd hserving (by
        simp only [(hinv.objects.after_destroy k hleft).2, Bool.false_eq_true, not_false_eq_true])
    have himpl := hinv.live_impl
      (hinv.objects.serving_live _ ((hinv.wire.mem_serving _).mpr hserving)) hbegun
    exact ⟨himpl, hinv.released_zero himpl⟩
  · intro hc hs o ho
    have hbegun : (s.stage (.destroy o)).begun = false := by
      by_contra hb
      have hidle : s.stage (.destroy o) ≠ .idle := fun hi => hb (by rw [hi]; rfl)
      rcases hinv.calls.destroy_begun o hidle with hcl | hcl <;>
        exact absurd (ho.symm.trans hcl) nofun
    have himpl := hinv.live_impl
      (hinv.objects.exports_live o (hinv.objects.held hc hs o (.inl ho))) hbegun
    exact ⟨himpl, hinv.released_zero himpl⟩
  · exact hinv.released_le

/-- One call makes an object, and another, on a worker, uses it. -/
def makeAndUse : Program Bool where
  target k := if k then .result false 0 else .root
  results k := if k then 0 else 1
  context r := decide (r ≠ .call false)
  destroys o := decide (o ≠ .root)

/-- The object is made, and the worker is in its method. -/
def inMethod : List (Action Bool) :=
  [.start false, .build (.call false), .arrive, .begin_ (.call false) true,
    .finish (.call false) false, .deliver true, .deliver true, .start true, .build (.call true),
    .arrive, .post (.call true), .begin_ (.call true) true]

/-- The connection is lost while the worker is in its method; the client destroys its proxy, and the
server drops its export. -/
theorem method_has_impl_disconnected : ∃ s, (connection makeAndUse).Reachable s ∧
    s.client (.result false 0) = .gone ∧ s.exports = [.root] ∧
    s.server (.result false 0) = .live true ∧ s.released (.result false 0) = 0 := by
  obtain ⟨s, hs, hp⟩ := (connection makeAndUse).exists_reachable_of_run rfl
    (inMethod ++ [.serverClose, .clientEof, .destroy (.result false 0),
      .build (.destroy (.result false 0)), .release (.result false 0),
      .dropExport (.result false 0)])
    (fun s => s.stage (.call true) = .executing && s.client (.result false 0) = .gone &&
      s.exports = [.root]) (by decide)
  simp only [Bool.and_eq_true, decide_eq_true_eq] at hp
  obtain ⟨⟨hstage, hgone⟩, hexports⟩ := hp
  exact ⟨s, hs, hgone, hexports, (method_has_impl hs).running true hstage⟩

/-! ## Calls return once -/

theorem collect_outcome (s : State C) (o : Obj C) : (s.collect p o).outcome = s.outcome := by
  obtain ⟨_, _, heq⟩ := collect_frame (p := p) s o
  rw [heq]

theorem closeClient_outcome {r : Req C} {out : Outcome} (h : Inv p s)
    (ho : s.outcome r = some out) : s.closeClient.outcome r = some out := by
  have hcalls : r ∉ s.calls := fun hr =>
    absurd (((h.calls.mem_calls r).mp hr).2.symm.trans ho) nofun
  unfold State.closeClient
  simp only [hcalls, false_and, if_false]
  exact ho

/-- What a call came to is not taken back. -/
theorem outcome_next {r : Req C} {out : Outcome} (h : Inv p s) (a : Action C)
    (ha : enabled p s a) (ho : s.outcome r = some out) : (next p s a).outcome r = some out := by
  cases a with
  | start k => exact ho
  | destroy o =>
    simp only [next, State.beginDestroy]
    split <;> exact ho
  | build r' =>
    have hne : r ≠ r' := by
      rintro rfl
      exact absurd ((h.calls.outcome_none r (.inr ha)).symm.trans ho) nofun
    simp only [next, State.build]
    split
    · exact ho
    · simpa only [State.return_, State.setStage, Function.update_of_ne hne] using ho
  | release o =>
    simp only [next, State.release]
    split
    · have hcalls : r ∉ s.calls := fun hr =>
        absurd (((h.calls.mem_calls r).mp hr).2.symm.trans ho) nofun
      simp only [State.closeClient, State.releaseCap, hcalls, false_and, if_false]
      exact ho
    · exact ho
  | deliver kept =>
    have hawaited := h.wire.awaited ha.1
    simp only [next, State.deliver]
    split
    · exact ho
    · split <;> exact ho
    · next r' out' ms heq =>
      have hne : r ≠ r' := by
        rintro rfl
        have := hawaited r (.inr (.inr ⟨out', heq ▸ List.mem_cons_self⟩))
        exact absurd (this.symm.trans ho) nofun
      simpa only [State.return_, Function.update_of_ne hne] using ho
  | clientClose => exact closeClient_outcome h ho
  | clientEof => exact closeClient_outcome h ho
  | arrive =>
    simp only [next, State.arrive]
    split
    · exact ho
    · split <;> exact ho
    · simpa only [State.unexport, collect_outcome] using ho
  | begin_ r' decoded =>
    simp only [next, State.begin_]
    split
    · unfold State.execute
      cases r' with
      | call k => exact ho
      | destroy o => simp only; split <;> exact ho
    · exact ho
  | finish r' threw =>
    simp only [next, State.finish, State.leave, collect_outcome, State.reply]
    split <;> exact ho
  | asyncRun =>
    simp only [next, State.asyncRun]
    split <;> exact ho
  | dropExport o => simpa only [next, State.unexport, collect_outcome] using ho
  | dropCall r' => simpa only [next, State.leave, State.setStage, collect_outcome] using ho
  | post _ | refuse _ | serverClose | serverEof => exact ho

theorem outcome_path {t : State C} {as : List (Action C)} {r : Req C} {out : Outcome}
    (h : Inv p s) (hp : (connection p).Path s as t) (ho : s.outcome r = some out) :
    t.outcome r = some out := by
  have hkeep := hp.keeps (I := fun s => Inv p s ∧ s.outcome r = some out)
    (fun s a hs ha => ⟨hs.1.next a ha, outcome_next hs.1 a ha hs.2⟩) ⟨h, ho⟩
  exact hkeep.2

/-- What a caller may rely on. -/
structure Answered (p : Program C) (s : State C) (r : Req C) : Prop where
  -- the method is entered at most once, whatever becomes of the call
  once : s.runs r ≤ 1
  -- it has been entered, and is over, if the call returned normally
  ran : s.outcome r = some .ok → s.runs r = 1 ∧ s.stage r = .replied .ok
  -- what the call came to is final
  final : ∀ as t out, (connection p).Path s as t → s.outcome r = some out →
    t.outcome r = some out

/-- A call runs at most once on the server, and what it came to for its caller is final. If it
returned normally the method has been entered once and is over: it has returned, or has thrown what
the server answers like a return. -/
theorem call_answered (h : (connection p).Reachable s) (r : Req C) : Answered p s r := by
  have hinv := reachable_inv h
  refine ⟨hinv.history.runs_le r, fun ho => ?_, fun as t out hp ho => outcome_path hinv hp ho⟩
  rcases hinv.history.outcome_replied r .ok ho with hd | hstage
  · exact absurd hd nofun
  · exact ⟨hinv.history.runs_one r (.inr hstage), hstage⟩

theorem call_answered_use : ∃ s, (connection makeAndUse).Reachable s ∧
    s.outcome (.call true) = some .ok ∧ s.runs (.call true) = 1 := by
  obtain ⟨s, hs, hp⟩ := (connection makeAndUse).exists_reachable_of_run rfl
    (inMethod ++ [.finish (.call true) false, .deliver true])
    (fun s => s.outcome (.call true) = some .ok) (by decide)
  have hok := of_decide_eq_true hp
  exact ⟨s, hs, hok, ((call_answered hs (.call true)).ran hok).1⟩

/-- Where the `destroy` of `~ProxyClientBase` returned normally, the implementation has been
released, and no call on the object is under way or will run. -/
theorem destroy_answered (h : (connection p).Reachable s) {o : Obj C}
    (ho : s.outcome (.destroy o) = some .ok) :
    s.released o = 1 ∧ ∀ as t, (connection p).Path s as t → ∀ k, p.target k = o →
      t.stage (.call k) ≠ .sent ∧ (t.stage (.call k)).serving = false := by
  have hinv := reachable_inv h
  refine ⟨hinv.history.destroy_released o ((call_answered h _).ran ho).1, ?_⟩
  rintro as t hp k rfl
  have hlater := (call_answered (h.path hp) (.destroy (p.target k))).ran
    (outcome_path hinv hp ho)
  refine (reachable_inv (h.path hp)).objects.after_destroy k ?_
  rw [hlater.2]
  rfl

theorem destroy_answered_use : ∃ s, (connection makeAndUse).Reachable s ∧
    s.client (.result false 0) = .closing ∧ s.released (.result false 0) = 1 := by
  obtain ⟨s, hs, hp⟩ := (connection makeAndUse).exists_reachable_of_run rfl
    (inMethod ++ [.finish (.call true) false, .deliver true, .destroy (.result false 0),
      .build (.destroy (.result false 0)), .arrive, .post (.destroy (.result false 0)),
      .begin_ (.destroy (.result false 0)) true, .finish (.destroy (.result false 0)) false,
      .deliver true])
    (fun s => s.outcome (.destroy (.result false 0)) = some .ok &&
      s.client (.result false 0) = .closing) (by decide)
  simp only [Bool.and_eq_true, decide_eq_true_eq] at hp
  exact ⟨s, hs, hp.2, (destroy_answered hs hp.1).1⟩

/-! ## Everything is answered and released -/

/-- How many objects the results of a request can carry. -/
def Program.size (p : Program C) : Req C → Nat
  | .call k => p.results k
  | .destroy _ => 0

/-- How much is left to do for a request in `EventLoop::post`, for one that is served, and for a
message. A request can make `n` objects, each of which is read and dropped. -/
def Stage.postWork (n : Nat) : Stage → Nat
  | .posting => 5 * n + 8
  | _ => 0

def Stage.serveWork (n : Nat) : Stage → Nat
  | .queued => 5 * n + 6
  | .posted => 5 * n + 5
  | .executing => 5 * n + 4
  | .failing => 3
  | _ => 0

def ToServer.work (p : Program C) : ToServer C → Nat
  | .request r => 5 * p.size r + 7
  | .release _ => 1

def ToClient.work : ToClient C → Nat
  | .cap _ => 2
  | .ret _ _ => 1

/-- A bound on the internal steps left. -/
def work (p : Program C) (s : State C) : Nat :=
  (s.calls.map fun r => (s.stage r).postWork (p.size r)).sum +
    (s.toServer.map (ToServer.work p)).sum +
    (s.serving.map fun r => (s.stage r).serveWork (p.size r)).sum +
    (s.toClient.map ToClient.work).sum +
    2 * s.closing.length + 3 * s.exports.length + s.asyncFns.length +
    s.clientUp.toNat + s.serverUp.toNat

omit [DecidableEq C] in
/-- The calls in `EventLoop::post` are the ones that count. -/
theorem posting_sum {l : List (Req C)} {f g : Req C → Stage}
    (h : ∀ r ∈ l, f r = .posting ↔ g r = .posting) :
    (l.map fun r => (f r).postWork (p.size r)).sum =
      (l.map fun r => (g r).postWork (p.size r)).sum := by
  refine congrArg List.sum (List.map_congr_left fun r hr => ?_)
  have := h r hr
  unfold Stage.postWork
  grind

theorem collect_work (s : State C) (o : Obj C) :
    work p (s.collect p o) ≤ work p s + 1 := by
  unfold State.collect
  split
  · split
    · simp only [work, List.length_append, List.length_singleton]
      omega
    · exact Nat.le_succ _
    · exact Nat.le_succ _
  · exact Nat.le_succ _

/-- A request moves on to a stage with less to do. -/
theorem setStage_work (h : Inv p s) {r : Req C} {t : Stage} (hr : (s.stage r).serving = true)
    (ht : t.serving = true) (hlt : t.serveWork (p.size r) < (s.stage r).serveWork (p.size r)) :
    work p (s.setStage r t) < work p s := by
  have hpost := posting_sum (p := p) (l := s.calls) (f := (s.setStage r t).stage) (g := s.stage)
    (by
      intro r' _
      have := active_of_serving hr
      have := active_of_serving ht
      simp only [State.setStage]
      grind [Function.update_apply])
  have hserve := sum_change h.wire.serving_nodup ((h.wire.mem_serving r).mpr hr)
    (f := fun r' => ((s.setStage r t).stage r').serveWork (p.size r'))
    (g := fun r' => (s.stage r').serveWork (p.size r')) (by
      intro r' hne
      simp only [State.setStage, Function.update_of_ne hne])
  simp only [State.setStage, Function.update_self] at hpost hserve
  simp only [work, State.setStage]
  omega

theorem build_work (h : Inv p s) {r : Req C} (ha : enabled p s (.build r)) :
    work p (s.build r) < work p s := by
  have hr : r ∈ s.calls := (h.calls.mem_calls r).mpr
    ⟨fun hi => absurd (ha.symm.trans hi) nofun, h.calls.outcome_none r (.inr ha)⟩
  have hserve : ∀ t : Stage, t.serving = false → (s.serving.map fun r' =>
      ((Function.update s.stage r t) r').serveWork (p.size r')).sum =
      (s.serving.map fun r' => (s.stage r').serveWork (p.size r')).sum := by
    intro t ht
    refine congrArg List.sum (List.map_congr_left fun r' hr' => ?_)
    have hne : r' ≠ r := by
      rintro rfl
      have := (h.wire.mem_serving _).mp hr'
      rw [ha] at this
      exact absurd this nofun
    rw [Function.update_of_ne hne]
  have hcalls := h.calls.calls_nodup
  have hstage : s.stage r = .posting := ha
  have hposting : Stage.postWork (p.size r) .posting = 5 * p.size r + 8 := rfl
  unfold State.build
  split
  · have hchange := sum_change hcalls hr
      (f := fun r' => (Function.update s.stage r .sent r').postWork (p.size r'))
      (g := fun r' => (s.stage r').postWork (p.size r')) (fun r' hne => by
        simp only [Function.update_of_ne hne])
    have hsent : Stage.postWork (p.size r) .sent = 0 := rfl
    simp only [Function.update_self, hstage, hposting, hsent] at hchange
    simp only [work, State.setStage, hserve .sent rfl, List.map_append, List.map_cons,
      List.map_nil, List.sum_append, List.sum_singleton, ToServer.work]
    omega
  · have hchange := sum_erase hcalls hr
      (f := fun r' => (Function.update s.stage r .unsent r').postWork (p.size r'))
      (g := fun r' => (s.stage r').postWork (p.size r')) (fun r' hne => by
        simp only [Function.update_of_ne hne])
    simp only [hstage, hposting] at hchange
    simp only [work, State.setStage, State.return_, hserve .unsent rfl]
    omega

theorem closeClient_work (s : State C) :
    work p s.closeClient + s.clientUp.toNat ≤ work p s := by
  have hfilter : ∀ l : List (Req C),
      ((l.filter (s.stage · = .posting)).map fun r => (s.stage r).postWork (p.size r)).sum =
        (l.map fun r => (s.stage r).postWork (p.size r)).sum := by
    intro l
    induction l with
    | nil => rfl
    | cons r l ih =>
      by_cases hr : s.stage r = .posting
      · simp only [List.filter_cons, hr, decide_true, if_true, List.map_cons, List.sum_cons, ih]
      · have hzero : (s.stage r).postWork (p.size r) = 0 := by
          unfold Stage.postWork
          grind
        simp only [List.filter_cons, hr, decide_false, Bool.false_eq_true, if_false, List.map_cons,
          List.sum_cons, ih, hzero, Nat.zero_add]
  simp only [work, State.closeClient, hfilter, Bool.toNat_false]
  omega

theorem releaseCap_work (s : State C) (o : Obj C) : work p (s.releaseCap o) ≤ work p s + 1 := by
  simp only [work, State.releaseCap]
  split
  · simp only [List.map_append, List.map_cons, List.map_nil, List.sum_append, List.sum_singleton,
      ToServer.work]
    omega
  · omega

theorem release_work (h : Inv p s) {o : Obj C} (ha : enabled p s (.release o)) :
    work p (s.release o) < work p s := by
  have hmem : o ∈ s.closing := (h.calls.mem_closing o).mpr ha.1
  have hlength := List.length_erase_of_mem hmem
  have hpos := List.length_pos_of_mem hmem
  have hbase : work p { s.releaseCap o with closing := s.closing.erase o } + 2 =
      work p (s.releaseCap o) := by
    simp only [work, State.releaseCap]
    omega
  have hcap := releaseCap_work (p := p) s o
  have hlt : work p { s.releaseCap o with closing := s.closing.erase o } < work p s := by omega
  unfold State.release
  split
  · exact Nat.lt_of_le_of_lt (Nat.le_of_add_right_le (closeClient_work _)) hlt
  · exact hlt

theorem deliver_work (h : Inv p s) {kept : Bool} (ha : enabled p s (.deliver kept)) :
    work p (s.deliver kept) < work p s := by
  unfold State.deliver
  split
  · next heq => exact absurd heq ha.2
  · next o ms heq =>
    have hwork : work p { s with toClient := ms } + 2 = work p s := by
      simp only [work, heq, List.map_cons, List.sum_cons, ToClient.work]
      omega
    split
    · exact Nat.lt_of_succ_lt (Nat.lt_of_lt_of_eq (Nat.lt_succ_self _) hwork)
    · have := releaseCap_work (p := p) { s with toClient := ms } o
      omega
  · next r out ms heq =>
    have hret := h.wire.ret_replied r out (heq ▸ List.mem_cons_self)
    have hnone := h.wire.awaited ha.1 r (.inr (.inr ⟨out, heq ▸ List.mem_cons_self⟩))
    have hr : r ∈ s.calls := (h.calls.mem_calls r).mpr
      ⟨fun hi => absurd (hret.symm.trans hi) nofun, hnone⟩
    have hchange := sum_erase h.calls.calls_nodup hr
      (f := fun r' => (s.stage r').postWork (p.size r'))
      (g := fun r' => (s.stage r').postWork (p.size r')) (fun _ _ => rfl)
    simp only [work, State.return_, heq, List.map_cons, List.sum_cons, ToClient.work]
    omega

theorem arrive_work (h : Inv p s) (ha : enabled p s .arrive) :
    work p (s.arrive p) < work p s := by
  unfold State.arrive
  split
  · next heq => exact absurd heq ha.2.2
  · next r ms heq =>
    have hon : p.on r ∈ s.exports := h.objects.addressed ha.1 (.request r)
      (heq ▸ List.mem_cons_self)
    have hsent := (h.wire.mem_toServer r).mp (heq ▸ List.mem_cons_self)
    rw [if_pos hon]
    have hpost := posting_sum (p := p) (l := s.calls)
      (f := Function.update s.stage r .queued) (g := s.stage) (by grind [Function.update_apply])
    have hserve : (s.serving.map fun r' =>
        (Function.update s.stage r .queued r').serveWork (p.size r')).sum =
        (s.serving.map fun r' => (s.stage r').serveWork (p.size r')).sum := by
      refine congrArg List.sum (List.map_congr_left fun r' hr' => ?_)
      have hne : r' ≠ r := by
        rintro rfl
        have := (h.wire.mem_serving _).mp hr'
        rw [hsent] at this
        cases this
      rw [Function.update_of_ne hne]
    have hqueued : Stage.serveWork (p.size r) .queued = 5 * p.size r + 6 := rfl
    simp only [work, State.setStage, heq, List.map_cons, List.sum_cons, ToServer.work,
      Function.update_self, hqueued, hserve, hpost]
    omega
  · next o ms heq =>
    have hon : o ∈ s.exports := h.objects.addressed ha.1 (.release o)
      (heq ▸ List.mem_cons_self)
    have hlength := List.length_erase_of_mem hon
    have hpos := List.length_pos_of_mem hon
    have hwork : work p { s with toServer := ms, exports := s.exports.erase o } + 4 = work p s := by
      simp only [work, heq, List.map_cons, List.sum_cons, ToServer.work]
      omega
    have hcollect := collect_work (p := p)
      { s with toServer := ms, exports := s.exports.erase o } o
    unfold State.unexport
    exact Nat.lt_of_le_of_lt hcollect (by omega)

/-- A request that is over leaves less to do than it was, with the objects it made. -/
theorem reply_work (h : Inv p s) {r : Req C} {out : Outcome} (hr : (s.stage r).serving = true)
    (hout : out = .ok → s.stage r = .executing) :
    work p { s.reply p r out with
      serving := (s.reply p r out).serving.erase r, loopBusy := none } + 2 ≤ work p s := by
  have hmem : r ∈ s.serving := (h.wire.mem_serving r).mpr hr
  have hpaid : 5 * (p.caps r out).length + 3 ≤ (s.stage r).serveWork (p.size r) := by
    unfold Program.caps
    split
    · rw [hout rfl]
      simp only [List.length_map, List.length_range, Stage.serveWork, Program.size]
      omega
    · revert hr
      cases s.stage r <;> simp only [Stage.serving, Stage.serveWork, List.length_nil] <;> grind
  have hcaps : ((p.caps r out).map (ToClient.work ∘ ToClient.cap)).sum =
      2 * (p.caps r out).length := by
    have hconst : ToClient.work ∘ ToClient.cap = fun _ : Obj C => 2 := rfl
    rw [hconst, List.map_const', List.sum_replicate_nat, Nat.mul_comm]
  have hpost : ∀ t : Stage, t ≠ .posting → (s.calls.map fun r' =>
      (Function.update s.stage r t r').postWork (p.size r')).sum =
      (s.calls.map fun r' => (s.stage r').postWork (p.size r')).sum := by
    intro t ht
    have := active_of_serving hr
    exact posting_sum (by grind [Function.update_apply])
  have hserve : ∀ t : Stage, ((s.serving.erase r).map fun r' =>
      (Function.update s.stage r t r').serveWork (p.size r')).sum +
      (s.stage r).serveWork (p.size r) =
      (s.serving.map fun r' => (s.stage r').serveWork (p.size r')).sum :=
    fun t => sum_erase h.wire.serving_nodup hmem
      (f := fun r' => (Function.update s.stage r t r').serveWork (p.size r'))
      (g := fun r' => (s.stage r').serveWork (p.size r')) fun r' hne => by
        simp only [Function.update_of_ne hne]
  unfold State.reply
  split
  · have := hserve (.replied out)
    simp only [work, State.setStage, hpost (.replied out) (fun h => by cases h), List.map_append, List.map_map,
      List.map_cons, List.map_nil, List.sum_append, List.sum_singleton, hcaps, ToClient.work,
      List.length_append]
    omega
  · have := hserve .dropped
    simp only [work, State.setStage, hpost .dropped (fun h => by cases h)]
    omega

theorem finish_work (h : Inv p s) {r : Req C} {threw : Bool}
    (ha : enabled p s (.finish r threw)) : work p (s.finish p r threw) < work p s := by
  have hr : (s.stage r).serving = true := by
    rcases ha.1 with hr | hr <;> rw [hr] <;> rfl
  have hreply := reply_work h hr (finish_out (b := threw))
  unfold State.finish State.leave
  exact Nat.lt_of_le_of_lt (collect_work _ _) hreply

theorem begin_work (h : Inv p s) {r : Req C} {decoded : Bool}
    (ha : enabled p s (.begin_ r decoded)) : work p (s.begin_ p r decoded) < work p s := by
  have hstage : s.stage r = .posted ∨ s.stage r = .queued := by
    rcases ha.2 with hr | hr
    · exact .inl hr.2
    · exact .inr hr.2.2
  have hserving : (s.stage r).serving = true := by rcases hstage with hr | hr <;> rw [hr] <;> rfl
  have hexec : work p (s.setStage r .executing) < work p s := by
    refine setStage_work h hserving rfl ?_
    rcases hstage with hr | hr <;> rw [hr] <;> simp only [Stage.serveWork] <;> omega
  have hfail : work p (s.setStage r .failing) < work p s := by
    refine setStage_work h hserving rfl ?_
    rcases hstage with hr | hr <;> rw [hr] <;> simp only [Stage.serveWork] <;> omega
  unfold State.begin_ State.execute
  simp only
  split
  · cases r with
    | call k => exact hexec
    | destroy o => simp only; split <;> exact hexec
  · exact hfail

theorem unexport_work (s : State C) {o : Obj C} (ho : o ∈ s.exports) :
    work p (s.unexport p o) < work p s := by
  have hlength := List.length_erase_of_mem ho
  have hpos := List.length_pos_of_mem ho
  have hwork : work p { s with exports := s.exports.erase o } + 3 = work p s := by
    simp only [work]
    omega
  exact Nat.lt_of_le_of_lt (collect_work _ o) (by omega)

theorem dropCall_work (h : Inv p s) {r : Req C} (ha : enabled p s (.dropCall r)) :
    work p ((s.setStage r .dropped).leave p r) < work p s := by
  have hr : (s.stage r).serving = true := ha.2.2 ▸ rfl
  have hmem : r ∈ s.serving := (h.wire.mem_serving r).mpr hr
  have hpost := posting_sum (p := p) (l := s.calls) (f := Function.update s.stage r .dropped)
    (g := s.stage) (by
      have := active_of_serving hr
      grind [Function.update_apply])
  have hserve := sum_erase h.wire.serving_nodup hmem
    (f := fun r' => (Function.update s.stage r .dropped r').serveWork (p.size r'))
    (g := fun r' => (s.stage r').serveWork (p.size r')) fun r' hne => by
      simp only [Function.update_of_ne hne]
  have hqueued : Stage.serveWork (p.size r) .queued = 5 * p.size r + 6 := rfl
  rw [ha.2.2, hqueued] at hserve
  have hwork : work p { s.setStage r .dropped with serving := s.serving.erase r } + 6 ≤
      work p s := by
    simp only [work, State.setStage, hpost]
    omega
  refine Nat.lt_of_le_of_lt (collect_work _ _) (Nat.lt_of_lt_of_le ?_ hwork)
  exact Nat.add_lt_add_left (by decide) _

/-- Every internal step leaves less to do. -/
theorem work_lower (h : Inv p s) (a : Action C) (hi : a.internal) (ha : enabled p s a) :
    work p (next p s a) < work p s := by
  cases a with
  | start _ => exact hi.elim
  | destroy _ => exact hi.elim
  | clientClose => exact hi.elim
  | serverClose => exact hi.elim
  | build r => exact build_work h ha
  | release o => exact release_work h ha
  | deliver kept => exact deliver_work h ha
  | clientEof =>
    have hclose := closeClient_work (p := p) s
    rw [ha.1] at hclose
    exact hclose
  | arrive => exact arrive_work h ha
  | post r =>
    refine setStage_work h (ha.2.2.2 ▸ rfl) rfl ?_
    rw [ha.2.2.2]
    exact Nat.lt_succ_self _
  | refuse r =>
    refine setStage_work h (ha.2.2.2 ▸ rfl) rfl ?_
    rw [ha.2.2.2]
    exact Nat.lt_of_lt_of_le (by decide : 3 < 6) (Nat.le_add_left 6 _)
  | begin_ r decoded => exact begin_work h ha
  | finish r threw => exact finish_work h ha
  | asyncRun =>
    simp only [next, State.asyncRun]
    split
    · next heq => exact absurd heq ha
    · next o os heq =>
      simp only [work, heq, List.length_cons]
      omega
  | serverEof =>
    have hup : s.serverUp = true := ha.1
    simp only [next, work, hup, Bool.toNat_true, Bool.toNat_false]
    omega
  | dropExport o => exact unexport_work s ha.2.2
  | dropCall r => exact dropCall_work h ha

/-- Nothing is left undone: every call has returned, nothing waits for the async thread, and every
implementation that no client holds over the connection has been released. -/
structure Settled (s : State C) : Prop where
  returned : ∀ r, s.stage r ≠ .idle → s.outcome r ≠ none
  cleaned : s.asyncFns = []
  released : ∀ o, s.server o ≠ .absent →
    s.clientUp = true ∧ s.serverUp = true ∧ s.client o = .alive ∧ s.server o = .live true ∨
      s.server o = .destroyed ∧ s.released o = 1

theorem settled_of_quiescent (h : Inv p s)
    (hq : (connection p).Quiescent Action.internal s) : Settled s := by
  have hasync : s.asyncFns = [] := by
    by_contra hne
    exact hq .asyncRun trivial hne
  -- a method on the event loop thread can return
  have hfree : s.free := by
    by_contra hbusy
    obtain ⟨r, hr⟩ := Option.ne_none_iff_exists'.mp hbusy
    exact hq (.finish r false) trivial ⟨((h.history.busy r).mp hr).2, .inr hr⟩
  have hserving : s.serving = [] := by
    refine List.eq_nil_iff_forall_not_mem.mpr fun r hr => ?_
    have hstage := (h.wire.mem_serving r).mp hr
    by_cases hctx : p.context r = true
    · by_cases hup : s.serverUp = true
      · have h1 := hq (.post r) trivial
        have h2 := hq (.begin_ r true) trivial
        have h3 := hq (.finish r true) trivial
        simp only [connection, enabled] at h1 h2 h3
        grind [Stage.serving]
      · have h1 := hq (.dropCall r) trivial
        have h2 := hq (.begin_ r true) trivial
        have h3 := hq (.finish r true) trivial
        simp only [connection, enabled] at h1 h2 h3
        grind [Stage.serving]
    · have h1 := hq (.dropCall r) trivial
      have h2 := hq (.begin_ r true) trivial
      have h3 := hq (.finish r true) trivial
      have h4 := h.history.posted_context r
      simp only [connection, enabled] at h1 h2 h3
      grind [Stage.serving]
  have hposting : ∀ r, s.stage r ≠ .posting := fun r => hq (.build r) trivial
  have htoServer : s.serverUp = true → s.toServer = [] := by
    intro hup
    by_contra hne
    exact hq .arrive trivial ⟨hup, hfree, hne⟩
  have htoClient : s.clientUp = true → s.toClient = [] := by
    intro hup
    by_contra hne
    exact hq (.deliver true) trivial ⟨hup, hne⟩
  -- each side has noticed that the other has lost the connection
  have hboth : s.clientUp = s.serverUp := by
    cases hc : s.clientUp <;> cases hs : s.serverUp
    · rfl
    · exact absurd ⟨hs, hfree, (by simp only [hc, Bool.false_eq_true, not_false_eq_true]),
        htoServer hs⟩ (hq .serverEof trivial)
    · exact absurd ⟨hc, (by simp only [hs, Bool.false_eq_true, not_false_eq_true]),
        htoClient hc⟩ (hq .clientEof trivial)
    · rfl
  have hreturned : ∀ r, s.stage r ≠ .idle → s.outcome r ≠ none := by
    intro r hidle hnone
    have hr := (h.calls.mem_calls r).mpr ⟨hidle, hnone⟩
    have hup := h.calls.connected r hr (hposting r)
    have hway := h.wire.on_its_way (hboth ▸ hup) r hr
    have hto := htoServer (hboth ▸ hup)
    have := htoClient hup
    have := h.wire.mem_toServer r
    have := h.wire.mem_serving r
    have := hposting r
    grind
  refine ⟨hreturned, hasync, fun o ho => ?_⟩
  have hclosing : s.client o ≠ .closing := fun hcl => hq (.release o) trivial
    ⟨hcl, fun hd => hreturned _ (h.calls.destroy_made o hcl hd)⟩
  by_cases hexp : o ∈ s.exports
  · left
    have hup : s.serverUp = true := by
      by_contra hdown
      exact hq (.dropExport o) trivial ⟨hdown, hfree, hexp⟩
    have hcup : s.clientUp = true := hboth ▸ hup
    have halive : s.client o = .alive := by
      have := h.objects.exported hcup hup o hexp
      rw [htoServer hup, htoClient hcup] at this
      grind
    refine ⟨hcup, hup, halive, h.live_impl (h.objects.exports_live o hexp) ?_⟩
    by_contra hb
    have hidle : s.stage (.destroy o) ≠ .idle := fun hi => hb (by rw [hi]; rfl)
    rcases h.calls.destroy_begun o hidle with hcl | hcl <;> cases halive.symm.trans hcl
  · right
    have hnot : ∀ b, s.server o ≠ .live b := fun b hb => h.held o b hb
      (refs_eq_zero.mpr ⟨hexp, by simp only [hserving, List.not_mem_nil, false_implies,
        implies_true]⟩)
    have hdestroyed : s.server o = .destroyed := by
      cases hs : s.server o with
      | absent => exact absurd hs ho
      | live b => exact absurd hs (hnot b)
      | destroyed => rfl
    have hcons := h.history.conserved o
    rw [hdestroyed, hasync] at hcons
    simp only [reduceCtorEq, if_false, List.count_nil] at hcons
    exact ⟨hdestroyed, by omega⟩

/-- From every reachable state the internal steps run out, and where none is left every call has
returned, and every implementation that no client holds over the connection has been released once.
This is about the calls of the model: of methods that take no objects, with encoders that do not
throw, and with no objects made for a reply that finds the server's end closed. -/
theorem settled (h : (connection p).Reachable s) :
    (∀ as t, (connection p).Path s as t → (∀ a ∈ as, a.internal) → as.length ≤ work p s) ∧
      (∃ as t, (∀ a ∈ as, a.internal) ∧ (connection p).Path s as t ∧
        (connection p).Quiescent Action.internal t) ∧
      ∀ as t, (connection p).Path s as t → (connection p).Quiescent Action.internal t →
        Settled t := by
  have hinv := reachable_inv h
  have hkeep : ∀ s a, Inv p s → (connection p).enabled s a → Inv p ((connection p).next s a) :=
    fun s a hs ha => hs.next a ha
  have hlower : ∀ s a, Inv p s → a.internal → (connection p).enabled s a →
      work p ((connection p).next s a) < work p s :=
    fun s a hs hi ha => work_lower hs a hi ha
  refine ⟨fun as t hp has => ?_, System.exists_quiescent (work p) hkeep hlower s hinv, ?_⟩
  · exact Nat.le_of_add_right_le (hp.length_le (work p) hkeep hlower hinv has)
  · exact fun as t hp hq => settled_of_quiescent (reachable_inv (h.path hp)) hq

theorem settled_disconnected : ∃ s, (connection makeAndUse).Reachable s ∧
    s.stage (.call true) = .executing ∧ s.serverUp = false ∧ ∃ as t,
      (connection makeAndUse).Path s as t ∧ Settled t := by
  obtain ⟨s, hs, hp⟩ := (connection makeAndUse).exists_reachable_of_run rfl
    (inMethod ++ [.serverClose]) (fun s => s.stage (.call true) = .executing && !s.serverUp)
    (by decide)
  simp only [Bool.and_eq_true, decide_eq_true_eq, Bool.not_eq_true'] at hp
  obtain ⟨-, ⟨as, t, -, hpath, hquiet⟩, hsettled⟩ := settled hs
  exact ⟨s, hs, hp.1, hp.2, as, t, hpath, hsettled as t hpath hquiet⟩

end Multiprocess.Object
