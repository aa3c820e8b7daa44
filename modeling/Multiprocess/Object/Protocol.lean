import Mathlib.Data.List.Nodup
import Mathlib.Data.List.Perm.Basic
import Multiprocess.Object.Model

/-!
# What holds on a connection

The invariant of the protocol of `Object/Model.lean`, in four parts, each with the steps that keep
it: what the client knows of its calls and its proxies (`Calls`), where the messages are (`Wire`),
which objects are held by what (`Objects`), and what has run and been released (`History`).

Two facts carry the rest. A `destroy` is sent only when no call on its object is on its way or
served, and none is sent after it (`Objects.after_destroy`). The stream is in order, so nothing for
an object follows its release (`Objects.ordered`), and whatever arrives finds it exported.

That anything comes to pass is not said here, but in `Lifetime`.
-/

namespace Multiprocess.Object

variable {C : Type} [DecidableEq C] {p : Program C} {s : State C} {r : Req C} {o : Obj C}

/-- The object a message is for. -/
def ToServer.on (p : Program C) : ToServer C → Obj C
  | .request r => p.on r
  | .release o => o

/-- The method of a request may have been entered. -/
def Stage.begun : Stage → Bool
  | .executing | .replied _ | .dropped => true
  | _ => false

/-- A `destroy` in this stage has left the client. -/
def Stage.left : Stage → Bool
  | .idle | .posting | .unsent => false
  | _ => true

/-- A request the server works on has been sent. -/
theorem active_of_serving {t : Stage} (h : t.serving = true) : t ≠ .idle ∧ t ≠ .posting := by
  constructor <;> rintro rfl <;> exact absurd h nofun

/-- And has left the client. -/
theorem Stage.left_of_serving {stage : Stage} (h : stage.serving = true) : stage.left = true := by
  cases stage <;> first | rfl | exact absurd h nofun

/-! ## The four parts -/

/-- The client's side: who is in `clientInvoke`, and what that says of the proxies. -/
structure Calls (p : Program C) (s : State C) : Prop where
  calls_nodup : s.calls.Nodup
  mem_calls : ∀ r, r ∈ s.calls ↔ s.stage r ≠ .idle ∧ s.outcome r = none
  outcome_none : ∀ r, s.stage r = .idle ∨ s.stage r = .posting → s.outcome r = none
  connected : ∀ r ∈ s.calls, s.stage r ≠ .posting → s.clientUp = true
  closing_nodup : s.closing.Nodup
  mem_closing : ∀ o, o ∈ s.closing ↔ s.client o = .closing
  target_alive : ∀ k, .call k ∈ s.calls → s.client (p.target k) = .alive
  destroy_closing : ∀ o, .destroy o ∈ s.calls → s.client o = .closing ∧ p.destroys o = true
  destroy_begun : ∀ o, s.stage (.destroy o) ≠ .idle → s.client o = .closing ∨ s.client o = .gone
  destroy_made : ∀ o, s.client o = .closing → p.destroys o = true → s.stage (.destroy o) ≠ .idle

/-- The stream and the requests being served: each request is where its stage says, and while the
client is connected somebody waits for it. -/
structure Wire (s : State C) : Prop where
  mem_toServer : ∀ r, .request r ∈ s.toServer ↔ s.stage r = .sent
  toServer_nodup : s.toServer.Nodup
  mem_serving : ∀ r, r ∈ s.serving ↔ (s.stage r).serving = true
  serving_nodup : s.serving.Nodup
  ret_replied : ∀ r out, .ret r out ∈ s.toClient → s.stage r = .replied out
  toClient_nodup : s.toClient.Nodup
  awaited : s.clientUp = true → ∀ r, s.stage r = .sent ∨ (s.stage r).serving = true ∨
    (∃ out, .ret r out ∈ s.toClient) → s.outcome r = none
  on_its_way : s.serverUp = true → ∀ r ∈ s.calls, s.stage r = .posting ∨ s.stage r = .sent ∨
    (s.stage r).serving = true ∨ ∃ out, .ret r out ∈ s.toClient

/-- The objects: what holds each, on both sides and in the stream. -/
structure Objects (p : Program C) (s : State C) : Prop where
  after_destroy : ∀ k, (s.stage (.destroy (p.target k))).left = true →
    s.stage (.call k) ≠ .sent ∧ (s.stage (.call k)).serving = false
  release_gone : ∀ o, .release o ∈ s.toServer → s.client o = .gone
  ordered : s.toServer.Pairwise fun m m' => ∀ o, m = .release o → m'.on p ≠ o
  addressed : s.serverUp = true → ∀ m ∈ s.toServer, m.on p ∈ s.exports
  held : s.clientUp = true → s.serverUp = true →
    ∀ o, s.client o = .alive ∨ s.client o = .closing → o ∈ s.exports
  cap_fresh : ∀ o, .cap o ∈ s.toClient → s.client o = .absent ∧ s.server o ≠ .absent ∧
    (s.serverUp = true → o ∈ s.exports)
  exported : s.clientUp = true → s.serverUp = true → ∀ o ∈ s.exports,
    s.client o = .alive ∨ s.client o = .closing ∨ .cap o ∈ s.toClient ∨ .release o ∈ s.toServer
  exports_nodup : s.exports.Nodup
  exports_live : ∀ o ∈ s.exports, ∃ b, s.server o = .live b
  serving_live : ∀ r ∈ s.serving, ∃ b, s.server (p.on r) = .live b
  impl_gone : ∀ o, s.server o = .live false → (s.stage (.destroy o)).begun = true
  absent_client : ∀ o, s.server o = .absent → s.client o = .absent
  made : ∀ k i, s.server (.result k i) ≠ .absent → s.stage (.call k) = .replied .ok
  root_made : s.server .root ≠ .absent

/-- A server object that is there is referred to. -/
def Held (p : Program C) (s : State C) (o : Obj C) : Prop :=
  ∀ b, s.server o = .live b → s.refs p o ≠ 0

/-- What has been run and released, and who has the server's event loop thread. -/
structure History (p : Program C) (s : State C) : Prop where
  runs_le : ∀ r, s.runs r ≤ 1
  runs_zero : ∀ r, (s.stage r).begun = false → s.runs r = 0
  runs_one : ∀ r, s.stage r = .executing ∨ s.stage r = .replied .ok → s.runs r = 1
  outcome_replied : ∀ r out, s.outcome r = some out → out = .disconnected ∨
    s.stage r = .replied out
  conserved : ∀ o, (if s.server o = .live true then 1 else 0) + s.asyncFns.count o +
    s.released o = if s.server o = .absent then 0 else 1
  destroy_released : ∀ o, s.runs (.destroy o) = 1 → s.released o = 1
  posted_context : ∀ r, s.stage r = .posted → p.context r = true
  busy : ∀ r, s.loopBusy = some r ↔
    p.context r = false ∧ (s.stage r = .executing ∨ s.stage r = .failing)

/-! ## References -/

/-- The last reference to an object is gone when it is neither exported nor served. -/
theorem refs_eq_zero : s.refs p o = 0 ↔ o ∉ s.exports ∧ ∀ r ∈ s.serving, p.on r ≠ o := by
  unfold State.refs
  rw [Nat.add_eq_zero_iff, List.count_eq_zero, List.countP_eq_zero]
  simp only [decide_eq_true_eq, ne_eq]

/-- A destructor changes its object and `m_async_fns` only. -/
theorem collect_frame (s : State C) (o : Obj C) : ∃ server asyncFns,
    s.collect p o = { s with server := server, asyncFns := asyncFns } := by
  unfold State.collect
  split
  · split <;> exact ⟨_, _, rfl⟩
  · exact ⟨_, _, rfl⟩

/-- Destroying a server object changes no call. -/
theorem Calls.collect (h : Calls p s) (o : Obj C) : Calls p (s.collect p o) := by
  obtain ⟨_, _, heq⟩ := collect_frame (p := p) s o
  rw [heq]
  exact { h with }

/-- Nor any message on its way. -/
theorem Wire.collect (h : Wire s) (o : Obj C) : Wire (s.collect p o) := by
  obtain ⟨_, _, heq⟩ := collect_frame (p := p) s o
  rw [heq]
  exact { h with }

/-- The destructor leaves no reference to the object it destroys. -/
theorem Objects.collect (h : Objects p s) (o : Obj C) : Objects p (s.collect p o) := by
  unfold State.collect
  split
  · next hr =>
    have hfree := refs_eq_zero.mp hr
    cases h
    split
    · constructor
      case after_destroy | release_gone | ordered | addressed | held | exported | exports_nodup
          => assumption
      case cap_fresh | exports_live | serving_live | impl_gone | absent_client | made |
          root_made =>
        simp only
        grind [Function.update_apply]
    · constructor
      case after_destroy | release_gone | ordered | addressed | held | exported | exports_nodup
          => assumption
      case cap_fresh | exports_live | serving_live | impl_gone | absent_client | made |
          root_made =>
        simp only
        grind [Function.update_apply]
    · constructor <;> assumption
  · exact h

/-- Nor the references that are counted. -/
theorem refs_collect (o o' : Obj C) : (s.collect p o).refs p o' = s.refs p o' := by
  obtain ⟨_, _, heq⟩ := collect_frame (p := p) s o
  rw [heq]
  rfl

/-- A live object is still live, and is not the one that has just lost its last reference. -/
theorem collect_live {o' : Obj C} {b : Bool} (h : (s.collect p o).server o' = .live b) :
    s.server o' = .live b ∧ (o' = o → s.refs p o ≠ 0) := by
  unfold State.collect at h
  split at h
  · next hr =>
    by_cases ho : o' = o
    · subst ho
      split at h
      · simp only [Function.update_self, reduceCtorEq] at h
      · simp only [Function.update_self, reduceCtorEq] at h
      · next htrue hfalse =>
        cases b with
        | false => exact (hfalse h).elim
        | true => exact (htrue h).elim
    · refine ⟨?_, fun he => absurd he ho⟩
      split at h
      · simpa only [Function.update_of_ne ho] using h
      · simpa only [Function.update_of_ne ho] using h
      · exact h
  · next hr => exact ⟨h, fun _ => hr⟩

/-- Only the object whose reference was dropped may be without one. -/
theorem Held.collect (h : ∀ o', o' ≠ o → Held p s o') (o' : Obj C) :
    Held p (s.collect p o) o' := by
  intro b hb
  obtain ⟨hlive, hself⟩ := collect_live hb
  rw [refs_collect]
  by_cases ho : o' = o
  · exact ho ▸ hself ho
  · exact h o' ho b hlive

/-- An object with an implementation queues its release once. -/
theorem History.collect (h : History p s) (o : Obj C) : History p (s.collect p o) := by
  unfold State.collect
  split
  · cases h
    split
    · constructor
      case runs_le | runs_zero | runs_one | outcome_replied | destroy_released | posted_context
          | busy => assumption
      case conserved =>
        simp only
        grind [Function.update_apply]
    · constructor
      case runs_le | runs_zero | runs_one | outcome_replied | destroy_released | posted_context
          | busy => assumption
      case conserved =>
        simp only
        grind [Function.update_apply]
    · constructor <;> assumption
  · exact h

/-- A fact about every request and its stage, when the stage of one of them is set. -/
theorem State.forall_setStage (s : State C) (r : Req C) (t : Stage) (motive : Req C → Stage → Prop)
    (here : motive r t) (others : ∀ r', r' ≠ r → motive r' (s.stage r')) (r' : Req C) :
    motive r' ((s.setStage r t).stage r') :=
  (Function.forall_update_iff s.stage motive).mpr ⟨here, others⟩ r'

/-! ## The client -/

omit [DecidableEq C] in
/-- The `destroy` of an object the client still holds has not been called. -/
theorem Calls.destroy_idle (h : Calls p s) (halive : s.client o = .alive) :
    s.stage (.destroy o) = .idle := by
  by_contra hne
  rcases h.destroy_begun o hne with hclosing | hgone
  · exact absurd (halive.symm.trans hclosing) nofun
  · exact absurd (halive.symm.trans hgone) nofun

/-- The application calls only objects it may call. -/
theorem Calls.start (h : Calls p s) {k : C} (ha : enabled p s (.start k)) :
    Calls p (s.invoke (.call k)) := by
  obtain ⟨halive, hidle⟩ := ha
  have hnew : .call k ∉ s.calls := fun hk => ((h.mem_calls _).mp hk).1 hidle
  have hnone : s.outcome (.call k) = none := h.outcome_none _ (.inl hidle)
  have hposting : (s.invoke (.call k)).stage (.call k) = .posting := Function.update_self _ _ _
  have hother : ∀ r, r ≠ .call k → (s.invoke (.call k)).stage r = s.stage r :=
    fun _ hne => Function.update_of_ne hne _ _
  refine { h with
    calls_nodup := List.nodup_cons.mpr ⟨hnew, h.calls_nodup⟩
    mem_calls := fun r => ?_
    outcome_none := fun r hr => ?_
    connected := fun r hr hsent => ?_
    target_alive := fun k' hk => ?_
    destroy_closing := fun o ho => ?_ }
  · by_cases hne : r = .call k
    · subst hne
      refine iff_of_true List.mem_cons_self ⟨?_, hnone⟩
      rw [hposting]
      nofun
    · rw [hother r hne]
      exact (List.mem_cons.trans (or_iff_right hne)).trans (h.mem_calls r)
  · by_cases hne : r = .call k
    · exact hne ▸ hnone
    · rw [hother r hne] at hr
      exact h.outcome_none r hr
  · by_cases hne : r = .call k
    · exact absurd (hne ▸ hposting) hsent
    · rw [hother r hne] at hsent
      exact h.connected r ((List.mem_cons.mp hr).resolve_left hne) hsent
  · rcases List.mem_cons.mp hk with heq | hk
    · obtain rfl := Req.call.inj heq
      exact halive
    · exact h.target_alive k' hk
  · exact h.destroy_closing o ((List.mem_cons.mp ho).resolve_left nofun)

/-- A `destroy` goes out where no call on the object is left. -/
theorem Calls.beginDestroy (h : Calls p s) (ha : enabled p s (.destroy o)) :
    Calls p (s.beginDestroy p o) := by
  obtain ⟨halive, hnone⟩ := ha
  have hidle := h.destroy_idle halive
  have hcall : ∀ k, .call k ∈ s.calls → p.target k ≠ o := fun k hk => hnone _ hk
  cases h
  unfold State.beginDestroy
  split
  · constructor
    case calls_nodup | mem_calls | outcome_none | connected | closing_nodup | mem_closing |
        target_alive | destroy_closing | destroy_begun | destroy_made =>
      simp only [State.invoke, State.setStage]
      grind [Function.update_apply]
  · constructor
    case calls_nodup | mem_calls | outcome_none | connected => assumption
    case closing_nodup | mem_closing | target_alive | destroy_closing | destroy_begun |
        destroy_made =>
      simp only
      grind [Function.update_apply]

/-- A posted request goes out, or is answered at once if the connection is gone. -/
theorem Calls.build (h : Calls p s) (ha : enabled p s (.build r)) : Calls p (s.build r) := by
  simp only [enabled] at ha
  cases h
  unfold State.build
  split
  · constructor
    case calls_nodup | closing_nodup | mem_closing | target_alive | destroy_closing =>
        assumption
    case mem_calls | outcome_none | connected | destroy_begun | destroy_made =>
      simp only [State.setStage]
      grind [Function.update_apply]
  · constructor
    case closing_nodup | mem_closing => assumption
    case calls_nodup | mem_calls | outcome_none | connected | target_alive | destroy_closing |
        destroy_begun | destroy_made =>
      simp only [State.return_, State.setStage]
      grind [Function.update_apply, List.Nodup.mem_erase_iff, List.Nodup.erase]

/-- Every call that waits is answered when the client's end closes. -/
theorem Calls.closeClient (h : Calls p s) : Calls p s.closeClient := by
  cases h
  unfold State.closeClient
  constructor
  case closing_nodup | mem_closing | destroy_begun | destroy_made => assumption
  case calls_nodup | mem_calls | outcome_none | connected | target_alive | destroy_closing =>
    simp only
    grind [List.Nodup.filter]

/-- Releasing an object changes its handle, and closes the connection if it is the root. -/
theorem Calls.release (h : Calls p s) (ha : enabled p s (.release o)) :
    Calls p (s.release o) := by
  obtain ⟨hclosing, hdone⟩ := ha
  have hbase : Calls p { s.releaseCap o with closing := s.closing.erase o } := by
    cases h
    constructor
    case calls_nodup | mem_calls | outcome_none | connected => assumption
    case closing_nodup | mem_closing | target_alive | destroy_closing | destroy_begun |
        destroy_made =>
      simp only [State.releaseCap]
      grind [Function.update_apply, List.Nodup.mem_erase_iff, List.Nodup.erase]
  unfold State.release
  split
  · exact hbase.closeClient
  · exact hbase

/-- A message from the server answers at most the call it belongs to. -/
theorem Calls.deliver (h : Calls p s) (hw : Wire s) (ho : Objects p s) (kept : Bool) :
    Calls p (s.deliver kept) := by
  have hfresh := ho.cap_fresh
  have hret := hw.ret_replied
  cases h
  unfold State.deliver
  split
  · constructor <;> assumption
  · split
    · constructor
      case calls_nodup | mem_calls | outcome_none | connected | closing_nodup => assumption
      case mem_closing | target_alive | destroy_closing | destroy_begun | destroy_made =>
        simp only
        grind [Function.update_apply]
    · constructor
      case calls_nodup | mem_calls | outcome_none | connected | closing_nodup => assumption
      case mem_closing | target_alive | destroy_closing | destroy_begun | destroy_made =>
        simp only [State.releaseCap]
        grind [Function.update_apply]
  · constructor
    case closing_nodup | mem_closing | destroy_begun | destroy_made => assumption
    case calls_nodup | mem_calls | outcome_none | connected | target_alive | destroy_closing =>
      simp only [State.return_]
      grind [Function.update_apply, List.Nodup.mem_erase_iff, List.Nodup.erase]

/-- A request that has left `posting` moves on. -/
theorem Calls.setStage (h : Calls p s) {t : Stage}
    (hr : s.stage r ≠ .idle ∧ s.stage r ≠ .posting) (ht : t ≠ .idle ∧ t ≠ .posting) :
    Calls p (s.setStage r t) := by
  cases h
  constructor
  case calls_nodup | closing_nodup | mem_closing | target_alive | destroy_closing => assumption
  case mem_calls | outcome_none | connected | destroy_begun | destroy_made =>
    simp only [State.setStage]
    grind [Function.update_apply]

/-! ## The stream -/

section Head
variable {ms : List (ToServer C)}

omit [DecidableEq C] in
/-- A request that arrives was sent and not looked at yet. -/
theorem Wire.head_sent (h : Wire s) (heq : s.toServer = .request r :: ms) : s.stage r = .sent :=
  (h.mem_toServer r).mp (heq ▸ List.mem_cons_self)

omit [DecidableEq C] in
/-- The next request finds its object: nothing the client sent before it has released it. -/
theorem Objects.head_exported (h : Objects p s) (hup : s.serverUp = true)
    (heq : s.toServer = .request r :: ms) : p.on r ∈ s.exports :=
  h.addressed hup (.request r) (heq ▸ List.mem_cons_self)

end Head

/-- A call that is posted is not on its way. -/
theorem Wire.invoke (h : Wire s) (hr : s.stage r = .idle) : Wire (s.invoke r) := by
  cases h
  constructor
  case toServer_nodup | serving_nodup | toClient_nodup => assumption
  case mem_toServer | mem_serving | ret_replied | awaited | on_its_way =>
    simp only [State.invoke, State.setStage]
    grind [Function.update_apply, Stage.serving]

/-- Nor is a `destroy` that is posted. -/
theorem Wire.beginDestroy (h : Wire s) (hc : Calls p s) (ha : enabled p s (.destroy o)) :
    Wire (s.beginDestroy p o) := by
  have hidle := hc.destroy_idle ha.1
  have hbase : Wire { s with
      client := Function.update s.client o .closing, closing := o :: s.closing } := { h with }
  unfold State.beginDestroy
  split
  · exact hbase.invoke hidle
  · exact hbase

/-- A request that is sent is the last in its queue. -/
theorem Wire.build (h : Wire s) (hc : Calls p s) (ha : enabled p s (.build r)) :
    Wire (s.build r) := by
  simp only [enabled] at ha
  have hnone := hc.outcome_none r (.inr ha)
  have hcalls := hc.calls_nodup
  cases h
  unfold State.build
  split
  · constructor
    case serving_nodup | toClient_nodup => assumption
    case mem_toServer | toServer_nodup | mem_serving | ret_replied | awaited | on_its_way =>
      simp only [State.setStage]
      grind [Function.update_apply, Stage.serving, List.nodup_append]
  · constructor
    case toServer_nodup | serving_nodup | toClient_nodup => assumption
    case mem_toServer | mem_serving | ret_replied | awaited | on_its_way =>
      simp only [State.return_, State.setStage]
      grind [Function.update_apply, Stage.serving, List.Nodup.mem_erase_iff]

/-- Closing the client's end leaves the queues as they are. -/
theorem Wire.closeClient (h : Wire s) : Wire s.closeClient := by
  cases h
  unfold State.closeClient
  constructor
  case mem_toServer | toServer_nodup | mem_serving | serving_nodup | ret_replied |
      toClient_nodup => assumption
  case awaited | on_its_way =>
    simp only
    grind

/-- A release is sent once for each object. -/
theorem Wire.releaseCap (h : Wire s) (ho : .release o ∉ s.toServer) : Wire (s.releaseCap o) := by
  cases h
  constructor
  case mem_serving | serving_nodup | ret_replied | toClient_nodup | awaited | on_its_way =>
      assumption
  case mem_toServer | toServer_nodup =>
    simp only [State.releaseCap]
    grind [List.nodup_append]

/-- The release of an object goes out with no other on its way. -/
theorem Wire.release (h : Wire s) (ho : Objects p s) (ha : enabled p s (.release o)) :
    Wire (s.release o) := by
  have hnew : .release o ∉ s.toServer := fun hm =>
    absurd (ha.1.symm.trans (ho.release_gone o hm)) nofun
  have hbase : Wire { s.releaseCap o with closing := s.closing.erase o } :=
    { h.releaseCap hnew with }
  unfold State.release
  split
  · exact hbase.closeClient
  · exact hbase

/-- A delivered message leaves the queue. -/
theorem Wire.deliver (h : Wire s) (hc : Calls p s) (ho : Objects p s) (kept : Bool) :
    Wire (s.deliver kept) := by
  have hgone := ho.release_gone
  have hfresh := ho.cap_fresh
  have hcalls := hc.calls_nodup
  cases h
  unfold State.deliver
  split
  · constructor <;> assumption
  · split
    · constructor
      case mem_toServer | toServer_nodup | mem_serving | serving_nodup => assumption
      case ret_replied | toClient_nodup | awaited | on_its_way =>
        simp only
        grind
    · constructor
      case mem_serving | serving_nodup => assumption
      case mem_toServer | toServer_nodup | ret_replied | toClient_nodup | awaited | on_its_way
          =>
        simp only [State.releaseCap]
        grind [List.nodup_append]
  · constructor
    case mem_toServer | toServer_nodup | mem_serving | serving_nodup => assumption
    case ret_replied | toClient_nodup | awaited | on_its_way =>
      simp only [State.return_]
      grind [Function.update_apply, Stage.serving, List.Nodup.mem_erase_iff]

omit [DecidableEq C] in
/-- A request that is being served is no longer in the stream. -/
theorem Wire.request_not_mem (h : Wire s) (hr : (s.stage r).serving = true) :
    .request r ∉ s.toServer := by
  intro hm
  rw [(h.mem_toServer r).mp hm] at hr
  cases hr

omit [DecidableEq C] in
/-- A request that is being served has not been replied to. -/
theorem Wire.ret_not_mem (h : Wire s) (hr : (s.stage r).serving = true) (out : Outcome) :
    .ret r out ∉ s.toClient := by
  intro hm
  rw [h.ret_replied r out hm] at hr
  cases hr

/-- The request that moves on was not in the stream, and is not put there. -/
theorem Wire.sent_setStage (h : Wire s) {t : Stage} (hr : (s.stage r).serving = true)
    (ht : t ≠ .sent) (r' : Req C) :
    .request r' ∈ s.toServer ↔ (s.setStage r t).stage r' = .sent :=
  s.forall_setStage r t (fun r' t => ToServer.request r' ∈ s.toServer ↔ t = .sent)
    (iff_of_false (h.request_not_mem hr) ht) (fun r' _ => h.mem_toServer r') r'

/-- Return messages on their way belong to requests that are answered. -/
theorem Wire.ret_setStage (h : Wire s) {t : Stage} (hr : (s.stage r).serving = true) (r' : Req C) :
    ∀ out, .ret r' out ∈ s.toClient → (s.setStage r t).stage r' = .replied out :=
  s.forall_setStage r t (fun r' t => ∀ out, ToClient.ret r' out ∈ s.toClient → t = .replied out)
    (fun out hm => absurd hm (h.ret_not_mem hr out)) (fun r' _ => h.ret_replied r') r'

/-- A call that waits has its request, or its Return message, somewhere on the way. -/
theorem Wire.awaited_setStage (h : Wire s) {t : Stage} (hr : (s.stage r).serving = true)
    (hup : s.clientUp = true) (r' : Req C) :
    (s.setStage r t).stage r' = .sent ∨ ((s.setStage r t).stage r').serving = true ∨
      (∃ out, .ret r' out ∈ s.toClient) → s.outcome r' = none :=
  s.forall_setStage r t
    (fun r' t => t = .sent ∨ t.serving = true ∨ (∃ out, ToClient.ret r' out ∈ s.toClient) →
      s.outcome r' = none)
    (fun _ => h.awaited hup r (.inr (.inl hr))) (fun r' _ => h.awaited hup r') r'

/-- A request that is over is not served. -/
theorem Wire.serving_erase (h : Wire s) {t : Stage} (ht : t.serving = false) (r' : Req C) :
    r' ∈ s.serving.erase r ↔ ((s.setStage r t).stage r').serving = true :=
  s.forall_setStage r t (fun r' t => r' ∈ s.serving.erase r ↔ t.serving = true)
    (iff_of_false h.serving_nodup.not_mem_erase (Bool.not_eq_true _ ▸ ht))
    (fun r' hne => (List.mem_erase_of_ne hne).trans (h.mem_serving r')) r'

/-- A request that is served moves on and is still served. -/
theorem Wire.setStage (h : Wire s) {t : Stage} (hr : (s.stage r).serving = true)
    (ht : t.serving = true) : Wire (s.setStage r t) where
  mem_toServer := h.sent_setStage hr (by rintro rfl; cases ht)
  toServer_nodup := h.toServer_nodup
  mem_serving := s.forall_setStage r t (fun r' t => r' ∈ s.serving ↔ t.serving = true)
    (iff_of_true ((h.mem_serving r).mpr hr) ht) fun r' _ => h.mem_serving r'
  serving_nodup := h.serving_nodup
  ret_replied := h.ret_setStage hr
  toClient_nodup := h.toClient_nodup
  awaited hup := h.awaited_setStage hr hup
  on_its_way hup := s.forall_setStage r t
    (fun r' t => r' ∈ s.calls → t = .posting ∨ t = .sent ∨ t.serving = true ∨
      ∃ out, ToClient.ret r' out ∈ s.toClient)
    (fun _ => .inr (.inr (.inl ht))) fun r' _ => h.on_its_way hup r'

/-- A request that arrives is served from then on. -/
theorem Wire.arrive (h : Wire s) (ho : Objects p s) (ha : enabled p s .arrive) :
    Wire (s.arrive p) := by
  unfold State.arrive
  split
  · exact h
  · next r ms heq =>
    rw [if_pos (ho.head_exported ha.1 heq)]
    cases h
    constructor
    case toClient_nodup => assumption
    case mem_toServer | toServer_nodup | mem_serving | serving_nodup | ret_replied | awaited |
        on_its_way =>
      simp only [State.setStage]
      grind [Function.update_apply, Stage.serving]
  · next o ms heq =>
    refine Wire.collect ?_ o
    cases h
    constructor
    case mem_serving | serving_nodup | ret_replied | toClient_nodup | awaited | on_its_way =>
        assumption
    case mem_toServer | toServer_nodup =>
      simp only
      grind

/-- Executing a request sends nothing. -/
theorem Wire.execute (h : Wire s) (hr : (s.stage r).serving = true) : Wire (s.execute r) := by
  have hbase := h.setStage hr (t := .executing) rfl
  unfold State.execute
  cases r with
  | call k => exact { hbase with }
  | destroy o => simp only; split <;> exact { hbase with }

/-- Nor does its start, whether its parameters were decoded or not. -/
theorem Wire.begin_ (h : Wire s) (hr : (s.stage r).serving = true) (decoded : Bool) :
    Wire (s.begin_ p r decoded) := by
  have hbase : Wire { s with loopBusy := if p.context r then none else some r } := { h with }
  unfold State.begin_
  simp only
  split
  · exact hbase.execute hr
  · exact hbase.setStage hr rfl

omit [DecidableEq C] in
/-- The objects of a reply are different ones. -/
theorem caps_nodup (p : Program C) (r : Req C) (out : Outcome) : (p.caps r out).Nodup := by
  unfold Program.caps
  split
  · refine List.Nodup.map ?_ List.nodup_range
    intro i j hij
    exact (Obj.result.inj hij).2
  · exact List.nodup_nil

omit [DecidableEq C] in
/-- A reply carries objects if it is that of a call that returned, and then the call's own. -/
theorem mem_caps {r : Req C} {out : Outcome} : o ∈ p.caps r out ↔
    out = .ok ∧ ∃ k i, r = .call k ∧ i < p.results k ∧ o = .result k i := by
  unfold Program.caps
  split
  · next k =>
    simp only [List.mem_map, List.mem_range, true_and, Req.call.injEq]
    constructor
    · rintro ⟨i, hi, rfl⟩
      exact ⟨k, i, rfl, hi, rfl⟩
    · rintro ⟨_, i, rfl, hi, rfl⟩
      exact ⟨i, hi, rfl⟩
  · next hne =>
    simp only [List.not_mem_nil, false_iff]
    rintro ⟨rfl, k, i, rfl, -⟩
    exact hne k rfl rfl

omit [DecidableEq C] in
/-- The objects a request makes were not there before. -/
theorem Objects.caps_absent (h : Objects p s) {out : Outcome}
    (hout : out = .ok → s.stage r = .executing) (ho : o ∈ p.caps r out) :
    s.server o = .absent := by
  obtain ⟨hok, k, i, rfl, -, rfl⟩ := mem_caps.mp ho
  by_contra hne
  exact absurd ((h.made k i hne).symm.trans (hout hok)) nofun

/-- A request ends with no connection to reply on. -/
theorem Wire.drop (h : Wire s) (hr : (s.stage r).serving = true) (hd : ¬ s.serverUp) :
    Wire { s.setStage r .dropped with serving := s.serving.erase r } where
  mem_toServer := h.sent_setStage hr (by rintro ⟨⟩)
  toServer_nodup := h.toServer_nodup
  mem_serving := h.serving_erase rfl
  serving_nodup := h.serving_nodup.erase r
  ret_replied := h.ret_setStage hr
  toClient_nodup := h.toClient_nodup
  awaited hup := h.awaited_setStage hr hup
  on_its_way hup := absurd hup hd

/-- A request's reply and the end of its reference, before the destructor. -/
theorem Wire.reply (h : Wire s) (ho : Objects p s) {out : Outcome}
    (hr : (s.stage r).serving = true) (hout : out = .ok → s.stage r = .executing) :
    Wire { s.reply p r out with serving := (s.reply p r out).serving.erase r } := by
  have hnew : ∀ o ∈ p.caps r out, .cap o ∉ s.toClient := fun o hmem hcap =>
    (ho.cap_fresh o hcap).2.1 (ho.caps_absent hout hmem)
  have hadded : ((p.caps r out).map ToClient.cap ++ [ToClient.ret r out]).Nodup := by
    refine ((caps_nodup p r out).map fun _ _ => ToClient.cap.inj).append (List.nodup_singleton _) ?_
    intro m hm hlast
    obtain ⟨o, -, rfl⟩ := List.mem_map.mp hm
    cases List.mem_singleton.mp hlast
  have hdisjoint : s.toClient.Disjoint ((p.caps r out).map ToClient.cap ++ [.ret r out]) := by
    intro m hm hmem
    rcases List.mem_append.mp hmem with hcap | hlast
    · obtain ⟨o, ho, rfl⟩ := List.mem_map.mp hcap
      exact hnew o ho hm
    · exact h.ret_not_mem hr out (List.mem_singleton.mp hlast ▸ hm)
  have hret : ∀ r' out', .ret r' out' ∈ s.toClient ++ ((p.caps r out).map .cap ++ [.ret r out]) ↔
      .ret r' out' ∈ s.toClient ∨ r' = r ∧ out' = out := by
    intro r' out'
    simp only [List.mem_append, List.mem_map, List.mem_singleton, reduceCtorEq, and_false,
      exists_false, false_or, ToClient.ret.injEq]
  unfold State.reply
  split
  · exact {
      mem_toServer := h.sent_setStage hr (by rintro ⟨⟩)
      toServer_nodup := h.toServer_nodup
      mem_serving := h.serving_erase rfl
      serving_nodup := h.serving_nodup.erase r
      ret_replied := s.forall_setStage r (.replied out)
        (fun r' t => ∀ out', ToClient.ret r' out' ∈ _ → t = .replied out')
        (fun out' hm => ((hret r out').mp hm).elim (absurd · (h.ret_not_mem hr out'))
          fun hnew => congrArg Stage.replied hnew.2.symm)
        fun r' hne out' hm => ((hret r' out').mp hm).elim (h.ret_replied r' out')
          fun hnew => absurd hnew.1 hne
      toClient_nodup := h.toClient_nodup.append hadded hdisjoint
      awaited := fun hup => s.forall_setStage r (.replied out)
        (fun r' t => t = .sent ∨ t.serving = true ∨ (∃ out', ToClient.ret r' out' ∈ _) →
          s.outcome r' = none)
        (fun _ => h.awaited hup r (.inr (.inl hr)))
        fun r' hne hway => h.awaited hup r' (hway.imp_right (Or.imp_right (Exists.imp
          fun out' hm => ((hret r' out').mp hm).resolve_right fun hnew => hne hnew.1)))
      on_its_way := fun hup => s.forall_setStage r (.replied out)
        (fun r' t => r' ∈ s.calls → t = .posting ∨ t = .sent ∨ t.serving = true ∨
          ∃ out', ToClient.ret r' out' ∈ _)
        (fun _ => .inr (.inr (.inr ⟨out, (hret r out).mpr (.inr ⟨rfl, rfl⟩)⟩)))
        fun r' _ hcall => (h.on_its_way hup r' hcall).imp_right (Or.imp_right (Or.imp_right
          (Exists.imp fun out' hm => (hret r' out').mpr (.inl hm)))) }
  · exact h.drop hr (by assumption)

omit [DecidableEq C] in
/-- What a request that ends replies: its method has returned if the answer says so. -/
theorem finish_out {b : Bool}
    (h : (if s.stage r = .executing ∧ ¬ b then Outcome.ok else .exception) = .ok) :
    s.stage r = .executing := by
  by_contra hne
  rw [if_neg fun hx => hne hx.1] at h
  exact absurd h nofun

/-- A reply follows the objects that its results carry. -/
theorem Wire.finish (h : Wire s) (ho : Objects p s) (hr : (s.stage r).serving = true)
    (threw : Bool) : Wire (s.finish p r threw) := by
  refine Wire.collect ?_ _
  exact { h.reply ho hr finish_out with }

/-- A request dropped with the connection is not answered. -/
theorem Wire.dropCall (h : Wire s) (hr : (s.stage r).serving = true) (hd : ¬ s.serverUp) :
    Wire ((s.setStage r .dropped).leave p r) := (h.drop hr hd).collect _

/-! ## The objects -/

/-- A call is made on an object that is there. -/
theorem Objects.start (h : Objects p s) {k : C} (ha : enabled p s (.start k)) :
    Objects p (s.invoke (.call k)) := by
  simp only [enabled] at ha
  cases h
  constructor
  case release_gone | ordered | addressed | held | cap_fresh | exported | exports_nodup |
      exports_live | serving_live | impl_gone | absent_client | root_made => assumption
  case after_destroy | made =>
    simp only [State.invoke, State.setStage]
    grind [Function.update_apply, Stage.serving]

/-- A handle is closed while its object is still exported. -/
theorem Objects.beginDestroy (h : Objects p s) (hc : Calls p s) (ha : enabled p s (.destroy o)) :
    Objects p (s.beginDestroy p o) := by
  have hidle := hc.destroy_idle ha.1
  have halive := ha.1
  cases h
  unfold State.beginDestroy
  split
  · constructor
    case ordered | addressed | exports_nodup | exports_live | serving_live | made | root_made =>
        assumption
    case after_destroy | release_gone | held | cap_fresh | exported | impl_gone | absent_client
        =>
      simp only [State.invoke, State.setStage]
      grind [Function.update_apply, Stage.left, Stage.begun]
  · constructor
    case after_destroy | ordered | addressed | exports_nodup | exports_live | serving_live |
        impl_gone | made | root_made => assumption
    case release_gone | held | cap_fresh | exported | absent_client =>
      simp only
      grind [Function.update_apply]

/-- What is sent is for an object the client still holds, and a `destroy` is sent when no call on
its object is on its way. -/
theorem Objects.build (h : Objects p s) (hc : Calls p s) (hw : Wire s)
    (ha : enabled p s (.build r)) : Objects p (s.build r) := by
  simp only [enabled] at ha
  have hcalls : r ∈ s.calls := (hc.mem_calls r).mpr
    ⟨fun hi => absurd (ha.symm.trans hi) nofun, hc.outcome_none r (.inr ha)⟩
  have hclient : s.client (p.on r) = .alive ∨ s.client (p.on r) = .closing := by
    cases r with
    | call k => exact .inl (hc.target_alive k hcalls)
    | destroy o => exact .inr (hc.destroy_closing o hcalls).1
  have hnot : .release (p.on r) ∉ s.toServer := fun hm => by
    have := h.release_gone _ hm
    grind
  have hdestroy : ∀ k, r = .call k → (s.stage (.destroy (p.target k))).left = false := by
    rintro k rfl
    by_contra hleft
    have := hc.destroy_begun (p.target k)
    have := hc.target_alive k hcalls
    grind [Stage.left]
  have hsent : s.clientUp = true → ∀ k, r = .destroy (p.target k) →
      s.stage (.call k) ≠ .sent ∧ (s.stage (.call k)).serving = false := by
    rintro hup k rfl
    have hawaited := hw.awaited hup (.call k)
    have hmem := hc.mem_calls (.call k)
    have := hc.target_alive k
    have := hc.destroy_closing _ hcalls
    grind [Stage.serving]
  unfold State.build
  cases h
  split
  · constructor
    case held | cap_fresh | exports_nodup | exports_live | serving_live | absent_client |
        root_made => assumption
    case after_destroy | release_gone | ordered | addressed | exported | impl_gone | made =>
      simp only [State.setStage]
      grind [Function.update_apply, Stage.serving, Stage.left, Stage.begun, ToServer.on, Program.on]
  · constructor
    case release_gone | ordered | addressed | held | cap_fresh | exported | exports_nodup |
        exports_live | serving_live | absent_client | root_made => assumption
    case after_destroy | impl_gone | made =>
      simp only [State.return_, State.setStage]
      grind [Function.update_apply, Stage.serving, Stage.left, Stage.begun]

/-- Closing the client's end changes no handle. -/
theorem Objects.closeClient (h : Objects p s) : Objects p s.closeClient := by
  cases h
  unfold State.closeClient
  constructor
  case after_destroy | release_gone | ordered | addressed | cap_fresh | exports_nodup |
      exports_live | serving_live | impl_gone | absent_client | made | root_made => assumption
  case held | exported =>
    simp only
    grind

/-- The client lets go of an object it holds, or was about to hold. -/
theorem Objects.releaseCap (h : Objects p s)
    (ho : s.client o = .closing ∨ s.client o = .absent ∧ s.server o ≠ .absent ∧
      (s.serverUp = true → o ∈ s.exports) ∧ .cap o ∉ s.toClient) :
    Objects p (s.releaseCap o) := by
  cases h
  constructor
  case after_destroy | exports_nodup | exports_live | serving_live | impl_gone | made |
      root_made => assumption
  case release_gone | ordered | addressed | held | cap_fresh | exported | absent_client =>
    simp only [State.releaseCap]
    grind [Function.update_apply, ToServer.on]

/-- An object that is released is still exported until the message arrives. -/
theorem Objects.release (h : Objects p s) (ha : enabled p s (.release o)) :
    Objects p (s.release o) := by
  have hbase : Objects p { s.releaseCap o with closing := s.closing.erase o } :=
    { h.releaseCap (.inl ha.1) with }
  unfold State.release
  split
  · exact hbase.closeClient
  · exact hbase

/-- A capability that is delivered becomes a handle, or is released if it is not kept. -/
theorem Objects.deliver (h : Objects p s) (hw : Wire s) (kept : Bool) :
    Objects p (s.deliver kept) := by
  have hnodup := hw.toClient_nodup
  unfold State.deliver
  split
  · exact h
  · next o ms heq =>
    rw [heq] at hnodup
    have hfresh := h.cap_fresh o (heq ▸ List.mem_cons_self)
    split
    · cases h
      constructor
      case after_destroy | ordered | addressed | exports_nodup | exports_live | serving_live |
          impl_gone | made | root_made => assumption
      case release_gone | held | cap_fresh | exported | absent_client =>
        simp only
        grind [Function.update_apply]
    · cases h
      constructor
      case after_destroy | exports_nodup | exports_live | serving_live | impl_gone | made |
          root_made => assumption
      case release_gone | ordered | addressed | held | cap_fresh | exported | absent_client =>
        simp only [State.releaseCap]
        grind [Function.update_apply, ToServer.on]
  · cases h
    constructor
    case after_destroy | release_gone | ordered | addressed | held | exports_nodup |
        exports_live | serving_live | impl_gone | absent_client | made | root_made => assumption
    case cap_fresh | exported =>
      simp only [State.return_]
      grind

/-- A request that is served moves on before its method is entered. -/
theorem Objects.setStage (h : Objects p s) {t : Stage} (hr : (s.stage r).serving = true)
    (ht : t.serving = true) (hb : (s.stage r).begun = false) :
    Objects p (s.setStage r t) := by
  cases h
  have hleft := Stage.left_of_serving hr
  constructor
  case release_gone | ordered | addressed | held | cap_fresh | exported | exports_nodup |
      exports_live | serving_live | absent_client | root_made => assumption
  case after_destroy | impl_gone | made =>
    simp only [State.setStage]
    grind [Function.update_apply, Stage.serving]

/-- Exports are dropped only where the server's end is closed. -/
theorem Objects.dropExport (h : Objects p s) (hd : ¬ s.serverUp) :
    Objects p (s.unexport p o) := by
  refine Objects.collect ?_ o
  cases h
  constructor
  case after_destroy | release_gone | ordered | serving_live | impl_gone | absent_client | made
      | root_made => assumption
  case addressed | held | cap_fresh | exported | exports_nodup | exports_live =>
    simp only
    grind [List.Nodup.erase]

/-- A release that arrives drops the export; a request takes a reference. -/
theorem Objects.arrive (h : Objects p s) (hw : Wire s) (ha : enabled p s .arrive) :
    Objects p (s.arrive p) := by
  have hordered := h.ordered
  have haddr := h.addressed ha.1
  unfold State.arrive
  split
  · exact h
  · next r ms heq =>
    have hon := h.head_exported ha.1 heq
    have hsent := hw.head_sent heq
    rw [if_pos hon]
    cases h
    constructor
    case held | cap_fresh | exports_nodup | exports_live | absent_client | root_made =>
        assumption
    case after_destroy | release_gone | ordered | addressed | exported | serving_live |
        impl_gone | made =>
      simp only [State.setStage]
      grind [Function.update_apply, Stage.serving, Stage.left, Stage.begun]
  · next o ms heq =>
    rw [heq, List.pairwise_cons] at hordered
    have hgone := h.release_gone o (heq ▸ List.mem_cons_self)
    have hafter : ∀ m ∈ ms, m.on p ≠ o := fun m hm => hordered.1 m hm o rfl
    refine Objects.collect ?_ o
    cases h
    constructor
    case after_destroy | serving_live | impl_gone | absent_client | made | root_made =>
        assumption
    case release_gone | ordered | addressed | held | cap_fresh | exported | exports_nodup |
        exports_live =>
      simp only
      grind [List.Nodup.mem_erase_iff, List.Nodup.erase]

/-- Executing a request leaves the objects as they are. -/
theorem Objects.execute (h : Objects p s) (hr : (s.stage r).serving = true)
    (hb : (s.stage r).begun = false) : Objects p (s.execute r) := by
  have hbase := h.setStage hr (t := .executing) rfl hb
  unfold State.execute
  cases r with
  | call k => exact { hbase with }
  | destroy o =>
    simp only
    split
    · cases hbase
      simp only [State.setStage] at *
      constructor
      case after_destroy | release_gone | ordered | addressed | held | exported | exports_nodup =>
          assumption
      case cap_fresh | exports_live | serving_live | impl_gone | absent_client | made | root_made =>
        grind [Function.update_apply, Stage.begun]
    · exact { hbase with }

/-- So does its start. -/
theorem Objects.begin_ (h : Objects p s) (hr : (s.stage r).serving = true)
    (hb : (s.stage r).begun = false) (decoded : Bool) : Objects p (s.begin_ p r decoded) := by
  have hbase : Objects p { s with loopBusy := if p.context r then none else some r } :=
    { h with }
  unfold State.begin_
  simp only
  split
  · exact hbase.execute hr hb
  · exact hbase.setStage hr rfl hb

/-- A request's reply and the end of its reference, before the destructor. -/
theorem Objects.reply (h : Objects p s) (hw : Wire s) {out : Outcome}
    (hr : (s.stage r).serving = true) (hout : out = .ok → s.stage r = .executing) :
    Objects p { s.reply p r out with serving := (s.reply p r out).serving.erase r } := by
  have hnew : ∀ o ∈ p.caps r out, s.server o = .absent := fun o => h.caps_absent hout
  have hnodup := caps_nodup p r out
  have hmem : ∀ o, o ∈ p.caps r out ↔ _ := fun o => mem_caps
  have hserving := hw.serving_nodup
  have hret := hw.ret_replied
  have hleft := Stage.left_of_serving hr
  cases h
  unfold State.reply
  split
  · constructor
    case release_gone | ordered => assumption
    -- the new objects are exported and on their way to the client, with their implementation
    case addressed | held | cap_fresh | exported | exports_nodup | exports_live | absent_client |
        root_made =>
      simp only [State.setStage]
      grind [Function.update_apply]
    -- and the request is over: it was executing if it makes any
    case after_destroy | serving_live | impl_gone | made =>
      simp only [State.setStage]
      grind [Function.update_apply, Stage.serving, Stage.begun]
  · constructor
    case release_gone | ordered | addressed | held | cap_fresh | exported | exports_nodup |
        exports_live | absent_client | root_made => assumption
    case after_destroy | serving_live | impl_gone | made =>
      simp only [State.setStage]
      grind [Function.update_apply, Stage.serving, Stage.begun]

/-- The objects of a reply are exported with it. -/
theorem Objects.finish (h : Objects p s) (hw : Wire s) (hr : (s.stage r).serving = true)
    (threw : Bool) : Objects p (s.finish p r threw) := by
  refine Objects.collect ?_ _
  exact { h.reply hw hr finish_out with }

/-- A dropped request's object loses one reference. -/
theorem Objects.dropCall (h : Objects p s) (hr : s.stage r = .queued) :
    Objects p ((s.setStage r .dropped).leave p r) := by
  have hleft : (s.stage r).left = true := hr ▸ rfl
  refine Objects.collect ?_ _
  cases h
  constructor
  case release_gone | ordered | addressed | held | cap_fresh | exported | exports_nodup |
      exports_live | absent_client | root_made => assumption
  case after_destroy | serving_live | impl_gone | made =>
    simp only [State.setStage]
    grind [Function.update_apply, Stage.serving, Stage.begun]

/-! ## Who holds a server object -/

/-- An exported object is held. -/
theorem held_of_export (ho : o ∈ s.exports) : Held p s o :=
  fun _ _ hr => (refs_eq_zero.mp hr).1 ho

/-- A step that leaves the references as they are and makes no object. -/
theorem Held.congr {t : State C} (h : ∀ o, Held p s o) (he : t.exports = s.exports)
    (hs : t.serving = s.serving) (hv : ∀ o b, t.server o = .live b → ∃ b, s.server o = .live b)
    (o : Obj C) : Held p t o := by
  intro b hb hr
  obtain ⟨b, hb⟩ := hv o b hb
  rw [State.refs, he, hs] at hr
  exact h o b hb hr

/-- It stays so when a request leaves, -/
theorem Held.leave (h : ∀ o, Held p s o) (o : Obj C) :
    Held p (s.leave p r) o := by
  refine Held.collect ?_ o
  intro o' ho b hb hr
  have hold := h o' b hb
  rw [refs_eq_zero] at hr
  rw [Ne, refs_eq_zero] at hold
  have hne : p.on r ≠ o' := Ne.symm ho
  grind

/-- when an export is dropped, -/
theorem Held.unexport (h : ∀ o, Held p s o) (o o' : Obj C) :
    Held p (s.unexport p o) o' := by
  refine Held.collect ?_ o'
  intro o'' hne b hb hr
  have hold := h o'' b hb
  rw [refs_eq_zero] at hr
  rw [Ne, refs_eq_zero] at hold
  grind

/-- and when a request starts. -/
theorem Held.begin_ (h : ∀ o, Held p s o) (decoded : Bool) (o : Obj C) :
    Held p (s.begin_ p r decoded) o := by
  unfold State.begin_
  simp only
  split
  · unfold State.execute
    cases r with
    | call k => exact Held.congr h rfl rfl (fun _ b hb => ⟨b, hb⟩) o
    | destroy o' =>
      simp only
      split
      · refine Held.congr h ?_ ?_ ?_ o
        · rfl
        · rfl
        · intro o'' b hb
          simp only at hb
          grind [Function.update_apply]
      · exact Held.congr h rfl rfl (fun _ b hb => ⟨b, hb⟩) o
  · exact Held.congr h rfl rfl (fun _ b hb => ⟨b, hb⟩) o

/-- The objects a reply makes are exported. -/
theorem Held.reply (h : ∀ o, Held p s o) (out : Outcome) (o : Obj C) :
    Held p (s.reply p r out) o := by
  unfold State.reply
  split
  · intro b hb hr
    have hold := h o
    rw [refs_eq_zero] at hr
    simp only [State.setStage, List.mem_append, not_or] at hb hr
    rw [if_neg hr.1.2] at hb
    exact hold b hb (refs_eq_zero.mpr ⟨hr.1.1, hr.2⟩)
  · exact Held.congr h rfl rfl (fun _ b hb => ⟨b, hb⟩) o

/-! ## What has run -/

/-- A call that is posted has not run. -/
theorem History.invoke (h : History p s) (hr : s.stage r = .idle) : History p (s.invoke r) := by
  cases h
  constructor
  case runs_le | conserved | destroy_released => assumption
  case runs_zero | runs_one | outcome_replied | posted_context | busy =>
    simp only [State.invoke, State.setStage]
    grind [Function.update_apply, Stage.begun]

/-- Nor has a `destroy`. -/
theorem History.beginDestroy (h : History p s) (hc : Calls p s) (ha : enabled p s (.destroy o)) :
    History p (s.beginDestroy p o) := by
  have hidle := hc.destroy_idle ha.1
  have hbase : History p { s with
      client := Function.update s.client o .closing, closing := o :: s.closing } := { h with }
  unfold State.beginDestroy
  split
  · exact hbase.invoke hidle
  · exact hbase

/-- Nor has a request when it is sent. -/
theorem History.build (h : History p s) (ha : enabled p s (.build r)) :
    History p (s.build r) := by
  simp only [enabled] at ha
  cases h
  unfold State.build
  split
  · constructor
    case runs_le | conserved | destroy_released => assumption
    case runs_zero | runs_one | outcome_replied | posted_context | busy =>
      simp only [State.setStage]
      grind [Function.update_apply, Stage.begun]
  · constructor
    case runs_le | conserved | destroy_released => assumption
    case runs_zero | runs_one | outcome_replied | posted_context | busy =>
      simp only [State.return_, State.setStage]
      grind [Function.update_apply, Stage.begun]

/-- Closing the client's end runs nothing and releases nothing. -/
theorem History.closeClient (h : History p s) : History p s.closeClient := by
  cases h
  unfold State.closeClient
  constructor
  case runs_le | runs_zero | runs_one | conserved | destroy_released | posted_context | busy =>
      assumption
  case outcome_replied =>
    simp only
    grind

/-- Nor does releasing an object on the client. -/
theorem History.release (h : History p s) (o : Obj C) : History p (s.release o) := by
  have hbase : History p { s.releaseCap o with closing := s.closing.erase o } := { h with }
  unfold State.release
  split
  · exact hbase.closeClient
  · exact hbase

/-- What a call came to is what the server's reply said. -/
theorem History.deliver (h : History p s) (hw : Wire s) (kept : Bool) :
    History p (s.deliver kept) := by
  have hret := hw.ret_replied
  unfold State.deliver
  split
  · exact h
  · split <;> exact { h with }
  · cases h
    constructor
    case runs_le | runs_zero | runs_one | conserved | destroy_released | posted_context | busy
        => assumption
    case outcome_replied =>
      simp only [State.return_]
      grind [Function.update_apply]

/-- A release that arrives may destroy the server object, whose implementation is then queued. -/
theorem History.arrive (h : History p s) (hw : Wire s) (ho : Objects p s)
    (ha : enabled p s .arrive) : History p (s.arrive p) := by
  unfold State.arrive
  split
  · exact h
  · next r ms heq =>
    have hsent := hw.head_sent heq
    rw [if_pos (ho.head_exported ha.1 heq)]
    cases h
    constructor
    case runs_le | conserved | destroy_released => assumption
    case runs_zero | runs_one | outcome_replied | posted_context | busy =>
      simp only [State.setStage]
      grind [Function.update_apply, Stage.begun]
  · next o ms heq =>
    refine History.collect ?_ o
    exact { h with }

/-- A request on its way to a worker moves on before its method is entered. -/
theorem History.setStage (h : History p s) {t : Stage} (hr : s.stage r = .queued)
    (hc : p.context r = true) (ht : t = .posted ∨ t = .failing) :
    History p (s.setStage r t) := by
  cases h
  constructor
  case runs_le | conserved | destroy_released => assumption
  case runs_zero | runs_one | outcome_replied | posted_context | busy =>
    simp only [State.setStage]
    grind [Function.update_apply, Stage.begun]

/-- A method that is entered finds the implementation of its object: of `destroy` this is the one
time it releases it. -/
theorem History.begin_ (h : History p s) (ho : Objects p s) (hw : Wire s) {decoded : Bool}
    (ha : enabled p s (.begin_ r decoded)) : History p (s.begin_ p r decoded) := by
  obtain ⟨hfree, hstage⟩ := ha
  have hr : r ∈ s.serving := (hw.mem_serving r).mpr (by grind [Stage.serving])
  have himpl : ∀ o, r = .destroy o → s.server o = .live true := by
    rintro o rfl
    obtain ⟨b, hb⟩ := ho.serving_live _ hr
    cases b with
    | true => exact hb
    | false => have := ho.impl_gone o hb; grind [Stage.begun]
  simp only [State.free] at hfree
  cases h
  unfold State.begin_ State.execute
  simp only
  split
  · cases r with
    | call k =>
      -- the method of a call runs once, and releases nothing
      constructor
      case conserved | destroy_released => assumption
      case runs_le | runs_zero | runs_one | outcome_replied | posted_context | busy =>
        simp only [State.setStage]
        grind [Function.update_apply, Stage.begun]
    | destroy o =>
      -- `destroy` moves the one implementation from the object to the released ones
      simp only [himpl o rfl, if_true]
      constructor
      case conserved | destroy_released =>
        simp only [State.setStage]
        grind [Function.update_apply]
      case runs_le | runs_zero | runs_one | outcome_replied | posted_context | busy =>
        simp only [State.setStage]
        grind [Function.update_apply, Stage.begun]
  · -- a request that fails here has not entered its method
    constructor
    case runs_le | conserved | destroy_released => assumption
    case runs_zero | runs_one | outcome_replied | posted_context | busy =>
      simp only [State.setStage]
      grind [Function.update_apply, Stage.begun]

/-- A request's reply, before the destructor. The objects it makes have their implementation. -/
theorem History.reply (h : History p s) (ho : Objects p s) {out : Outcome}
    (hr : (s.stage r).serving = true) (hout : out = .ok → s.stage r = .executing)
    (hbusy : s.free ∨ s.loopBusy = some r) :
    History p { s.reply p r out with
      serving := (s.reply p r out).serving.erase r, loopBusy := none } := by
  have hnew : ∀ o ∈ p.caps r out, s.server o = .absent := fun o => ho.caps_absent hout
  simp only [State.free] at hbusy
  cases h
  unfold State.reply
  split
  · constructor
    case runs_le | destroy_released => assumption
    case runs_zero | runs_one | outcome_replied | conserved | posted_context | busy =>
      simp only [State.setStage]
      grind [Function.update_apply, Stage.begun, Stage.serving]
  · constructor
    case runs_le | conserved | destroy_released => assumption
    case runs_zero | runs_one | outcome_replied | posted_context | busy =>
      simp only [State.setStage]
      grind [Function.update_apply, Stage.begun, Stage.serving]

/-- A request that is over has run once, or not at all if it was rejected before. -/
theorem History.finish (h : History p s) (ho : Objects p s) {threw : Bool}
    (ha : enabled p s (.finish r threw)) : History p (s.finish p r threw) := by
  have hr : (s.stage r).serving = true := by
    rcases ha.1 with hr | hr <;> rw [hr] <;> rfl
  refine History.collect ?_ _
  exact { h.reply ho hr finish_out ha.2 with }

/-- A dropped request never ran. -/
theorem History.dropCall (h : History p s) (hr : s.stage r = .queued) :
    History p ((s.setStage r .dropped).leave p r) := by
  refine History.collect ?_ _
  cases h
  constructor
  case runs_le | conserved | destroy_released => assumption
  case runs_zero | runs_one | outcome_replied | posted_context | busy =>
    simp only [State.setStage]
    grind [Function.update_apply, Stage.begun]

/-- A queued cleanup releases its implementation. -/
theorem History.asyncRun (h : History p s) : History p s.asyncRun := by
  unfold State.asyncRun
  split
  · exact h
  · next o os heq =>
    cases h
    constructor
    case runs_le | runs_zero | runs_one | outcome_replied | posted_context | busy => assumption
    case conserved | destroy_released =>
      simp only
      grind [Function.update_apply]

/-! ## The invariant -/

/-- What holds in every state of a run. -/
structure Inv (p : Program C) (s : State C) : Prop where
  calls : Calls p s
  wire : Wire s
  objects : Objects p s
  held : ∀ o, Held p s o
  history : History p s

/-- The invariant holds at the start. -/
theorem Inv.started : Inv p started where
  calls := by constructor <;> simp only [Object.started] <;> grind
  wire := by constructor <;> simp only [Object.started] <;> grind [Stage.serving]
  objects := by
    have hroot : ∀ o ∈ [Obj.root (C := C)],
        ∃ b, (if o = .root then Server.live true else .absent) = .live b :=
      fun o ho => ⟨true, if_pos (List.mem_singleton.mp ho)⟩
    constructor
    case exports_live => assumption
    case after_destroy | release_gone | ordered | addressed | held | cap_fresh | exported |
        exports_nodup | serving_live | impl_gone | absent_client | made | root_made =>
      simp only [Object.started]
      grind [Stage.left]
  held := by
    intro o b hb
    refine held_of_export ?_ b hb
    simp only [Object.started] at hb ⊢
    grind
  history := by constructor <;> simp only [Object.started] <;> grind

/-- A message arriving at the server keeps it. -/
theorem Inv.arrive (h : Inv p s) (ha : enabled p s .arrive) : Inv p (s.arrive p) where
  calls := by
    unfold State.arrive
    split
    · exact h.calls
    · next r ms heq =>
      have hactive : s.stage r ≠ .idle ∧ s.stage r ≠ .posting := by
        rw [h.wire.head_sent heq]
        exact ⟨nofun, nofun⟩
      split
      · exact { h.calls.setStage (t := .queued) hactive ⟨nofun, nofun⟩ with }
      · exact { h.calls.setStage (t := .replied .exception) hactive ⟨nofun, nofun⟩ with }
    · refine Calls.collect ?_ _
      exact { h.calls with }
  wire := h.wire.arrive h.objects ha
  objects := h.objects.arrive h.wire ha
  held := by
    unfold State.arrive
    split
    · exact h.held
    · next r ms heq =>
      rw [if_pos (h.objects.head_exported ha.1 heq)]
      intro o b hb hr
      rw [refs_eq_zero] at hr
      exact h.held o b hb
        (refs_eq_zero.mpr ⟨hr.1, fun r' hr' => hr.2 r' (List.mem_cons_of_mem _ hr')⟩)
    · next o ms heq =>
      refine Held.unexport ?_ o
      exact h.held
  history := h.history.arrive h.wire h.objects ha

/-- A request on its way to a worker moves on. -/
theorem Inv.setStage (h : Inv p s) {t : Stage} (hr : s.stage r = .queued)
    (hc : p.context r = true) (ht : t = .posted ∨ t = .failing) : Inv p (s.setStage r t) := by
  have hserving : (s.stage r).serving = true := hr ▸ rfl
  have hstage : t.serving = true := by rcases ht with rfl | rfl <;> rfl
  exact {
    calls := h.calls.setStage (active_of_serving hserving) (active_of_serving hstage)
    wire := h.wire.setStage hserving hstage
    objects := h.objects.setStage hserving hstage (hr ▸ rfl)
    held := Held.congr h.held rfl rfl fun _ b hb => ⟨b, hb⟩
    history := h.history.setStage hr hc ht }

/-- So does a request being started, -/
theorem Inv.begin_ (h : Inv p s) {decoded : Bool} (ha : enabled p s (.begin_ r decoded)) :
    Inv p (s.begin_ p r decoded) := by
  have hstage : s.stage r = .posted ∨ s.stage r = .queued := by
    rcases ha.2 with hr | hr
    · exact .inl hr.2
    · exact .inr hr.2.2
  have hserving : (s.stage r).serving = true := by rcases hstage with hr | hr <;> rw [hr] <;> rfl
  have hbegun : (s.stage r).begun = false := by rcases hstage with hr | hr <;> rw [hr] <;> rfl
  have hactive := active_of_serving hserving
  refine ⟨?_, h.wire.begin_ hserving decoded, h.objects.begin_ hserving hbegun decoded,
    Held.begin_ h.held decoded, h.history.begin_ h.objects h.wire ha⟩
  unfold State.begin_ State.execute
  simp only
  split
  · have hbase := h.calls.setStage (t := .executing) hactive ⟨nofun, nofun⟩
    cases r with
    | call k => exact { hbase with }
    | destroy o => simp only; split <;> exact { hbase with }
  · exact { h.calls.setStage (t := .failing) hactive ⟨nofun, nofun⟩ with }

/-- ending, -/
theorem Inv.finish (h : Inv p s) {threw : Bool} (ha : enabled p s (.finish r threw)) :
    Inv p (s.finish p r threw) := by
  have hserving : (s.stage r).serving = true := by
    rcases ha.1 with hr | hr <;> rw [hr] <;> rfl
  have hactive := active_of_serving hserving
  refine ⟨?_, h.wire.finish h.objects hserving threw, h.objects.finish h.wire hserving threw, ?_,
    h.history.finish h.objects ha⟩
  · refine Calls.collect ?_ _
    unfold State.reply
    split
    · exact { h.calls.setStage (t := .replied _) hactive ⟨nofun, nofun⟩ with }
    · exact { h.calls.setStage (t := .dropped) hactive ⟨nofun, nofun⟩ with }
  · refine Held.leave ?_
    exact Held.reply h.held _

/-- or being dropped; -/
theorem Inv.dropCall (h : Inv p s) (ha : enabled p s (.dropCall r)) :
    Inv p ((s.setStage r .dropped).leave p r) := by
  have hr := ha.2.2
  refine ⟨?_, h.wire.dropCall (hr ▸ rfl) ha.1, h.objects.dropCall hr, ?_, h.history.dropCall hr⟩
  · refine Calls.collect ?_ _
    exact { h.calls.setStage (t := .dropped) (active_of_serving (hr ▸ rfl)) ⟨nofun, nofun⟩ with }
  · exact Held.leave (Held.congr h.held rfl rfl fun _ b hb => ⟨b, hb⟩)

/-- a request being sent, -/
theorem Inv.build (h : Inv p s) (ha : enabled p s (.build r)) : Inv p (s.build r) where
  calls := h.calls.build ha
  wire := h.wire.build h.calls ha
  objects := h.objects.build h.calls h.wire ha
  held := by
    unfold State.build
    split <;> exact Held.congr h.held rfl rfl fun _ b hb => ⟨b, hb⟩
  history := h.history.build ha

/-- a handle being closed, -/
theorem Inv.beginDestroy (h : Inv p s) (ha : enabled p s (.destroy o)) :
    Inv p (s.beginDestroy p o) where
  calls := h.calls.beginDestroy ha
  wire := h.wire.beginDestroy h.calls ha
  objects := h.objects.beginDestroy h.calls ha
  held := by
    unfold State.beginDestroy
    simp only
    split <;> exact Held.congr h.held rfl rfl fun _ b hb => ⟨b, hb⟩
  history := h.history.beginDestroy h.calls ha

/-- or released; -/
theorem Inv.release (h : Inv p s) (ha : enabled p s (.release o)) : Inv p (s.release o) where
  calls := h.calls.release ha
  wire := h.wire.release h.objects ha
  objects := h.objects.release ha
  held := by
    unfold State.release
    simp only
    split <;> exact Held.congr h.held rfl rfl fun _ b hb => ⟨b, hb⟩
  history := h.history.release o

/-- a message arriving at the client; -/
theorem Inv.deliver (h : Inv p s) (kept : Bool) : Inv p (s.deliver kept) where
  calls := h.calls.deliver h.wire h.objects kept
  wire := h.wire.deliver h.calls h.objects kept
  objects := h.objects.deliver h.wire kept
  held := by
    unfold State.deliver
    split
    · exact h.held
    · split <;> exact Held.congr h.held rfl rfl fun _ b hb => ⟨b, hb⟩
    · exact Held.congr h.held rfl rfl fun _ b hb => ⟨b, hb⟩
  history := h.history.deliver h.wire kept

/-- the loss of the client's end, -/
theorem Inv.closeClient (h : Inv p s) : Inv p s.closeClient where
  calls := h.calls.closeClient
  wire := h.wire.closeClient
  objects := h.objects.closeClient
  held := Held.congr h.held rfl rfl fun _ b hb => ⟨b, hb⟩
  history := h.history.closeClient

/-- and of the server's; -/
theorem Inv.closeServer (h : Inv p s) : Inv p { s with serverUp := false } where
  calls := { h.calls with }
  wire := { h.wire with on_its_way := nofun }
  objects := { h.objects with
    addressed := nofun
    held := fun _ => nofun
    cap_fresh := fun o ho => ⟨(h.objects.cap_fresh o ho).1, (h.objects.cap_fresh o ho).2.1, nofun⟩
    exported := fun _ => nofun }
  held := Held.congr h.held rfl rfl fun _ b hb => ⟨b, hb⟩
  history := { h.history with }

/-- a cleanup run by the async thread; -/
theorem Inv.asyncRun (h : Inv p s) : Inv p s.asyncRun := by
  have hhistory := h.history.asyncRun
  unfold State.asyncRun at hhistory ⊢
  split at hhistory
  · exact h
  · exact {
      calls := { h.calls with }
      wire := { h.wire with }
      objects := { h.objects with }
      held := Held.congr h.held rfl rfl fun _ b hb => ⟨b, hb⟩
      history := hhistory }

/-- and an export dropped after the loss. -/
theorem Inv.dropExport (h : Inv p s) (hd : ¬ s.serverUp) : Inv p (s.unexport p o) where
  calls := by
    refine Calls.collect ?_ o
    exact { h.calls with }
  wire := by
    refine Wire.collect ?_ o
    exact { h.wire with }
  objects := h.objects.dropExport hd
  held := Held.unexport h.held o
  history := by
    refine History.collect ?_ o
    exact { h.history with }

/-- Every step keeps the invariant. -/
theorem Inv.next (h : Inv p s) (a : Action C) (ha : enabled p s a) : Inv p (next p s a) := by
  cases a with
  | start k => exact {
      calls := h.calls.start ha
      wire := h.wire.invoke ha.2
      objects := h.objects.start ha
      held := Held.congr h.held rfl rfl fun _ b hb => ⟨b, hb⟩
      history := h.history.invoke ha.2 }
  | destroy o => exact h.beginDestroy ha
  | build r => exact h.build ha
  | release o => exact h.release ha
  | deliver kept => exact h.deliver kept
  | clientClose => exact h.closeClient
  | clientEof => exact h.closeClient
  | arrive => exact h.arrive ha
  | post r => exact h.setStage ha.2.2.2 ha.2.2.1 (.inl rfl)
  | refuse r => exact h.setStage ha.2.2.2 ha.2.2.1 (.inr rfl)
  | begin_ r decoded => exact h.begin_ ha
  | finish r threw => exact h.finish ha
  | asyncRun => exact h.asyncRun
  | serverClose => exact h.closeServer
  | serverEof => exact h.closeServer
  | dropExport o => exact h.dropExport ha.1
  | dropCall r => exact h.dropCall ha

/-- It holds in every reachable state. -/
theorem reachable_inv (h : (connection p).Reachable s) : Inv p s := by
  refine h.invariant ?_ fun s a hs ha => hs.next a ha
  rintro s rfl
  exact Inv.started

end Multiprocess.Object
