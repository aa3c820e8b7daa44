import Multiprocess.Connection.Cleanup
import Mathlib.Data.List.Nodup

/-!
# Which functions are registered

`At` says of one client which of its functions are in `m_sync_cleanup_fns`, by its fields and by
what the event loop thread is doing; `Placed` adds that the second callback of a client stands
before its first; `Ledger` balances the functions registered against those run, erased and left.

What follows from it for the clients is said in `Dangling`.
-/

namespace Multiprocess.Cleanup

open Transition (System)

variable {C : Type} [DecidableEq C] {kind : C → Kind} {s t : State C}

/-! ## The invariant -/

/-- What is registered for a client. -/
structure At (kind : C → Kind) (s : State C) (c : C) : Prop where
  own : .own c ∈ s.fns ↔ (s.clients c).phase.holds = true ∧ (s.clients c).connection = true ∧
    s.loop.running ≠ some (.own c)
  disconnect : .disconnect c ∈ s.fns ↔ (s.clients c).phase = .live ∧
    (s.clients c).disconnectCb = true ∧ s.loop.running ≠ some (.disconnect c)
  connected : (s.clients c).phase = .live → (s.clients c).disconnectCb = true →
    (s.clients c).connection = true
  callback : (s.clients c).disconnectCb = true →
    kind c = .thread ∧ ((s.clients c).phase = .live ∨ (s.clients c).phase = .gone)
  emplaced : (s.clients c).phase = .emplaced → kind c = .thread ∧ (s.clients c).connection = true
  runningOwn : s.loop.running = some (.own c) → (s.clients c).phase.holds = true ∧
    (s.clients c).connection = true ∧ (s.clients c).disconnectCb = false
  runningDisconnect : s.loop.running = some (.disconnect c) → (s.clients c).phase = .live ∧
    (s.clients c).disconnectCb = true
  setting : s.loop.set = some c ↔ (s.clients c).phase = .emplaced
  cleaning : s.loop.deleter = some c ↔ (s.clients c).phase = .cleaning

/-- No callback of a client stands before its second one. -/
def Ordered (fns : List (Entry C)) : Prop :=
  fns.Pairwise fun a b => ∀ c, a = .own c → b ≠ .disconnect c

/-- What is registered. -/
structure Placed (kind : C → Kind) (s : State C) : Prop where
  clients : ∀ c, At kind s c
  ordered : Ordered s.fns
  deleted : s.deleted = true → s.fns = [] ∧ s.loop = .idle
  unmisused : s.misused = false

/-- Each function is registered at most once, and is then in the list, run or erased. -/
structure Ledger (s : State C) : Prop where
  balance : ∀ e, s.ran e + s.erased e + s.fns.count e = s.added e
  once : ∀ e, s.added e ≤ 1
  fresh : ∀ e : Entry C, (s.clients e.client).phase = .absent → s.added e = 0
  single : ∀ c, (s.clients c).phase = .constructing ∨ (s.clients c).phase = .emplaced →
    s.added (.disconnect c) = 0

/-- The invariant. -/
structure Inv (kind : C → Kind) (s : State C) : Prop where
  placed : Placed kind s
  ledger : Ledger s

/-! ## Clients the step is not about -/

omit [DecidableEq C] in
/-- What is registered for a client depends on nothing of the others. -/
theorem At.congr {c : C} (h : At kind s c) (clients : t.clients c = s.clients c)
    (own : .own c ∈ t.fns ↔ .own c ∈ s.fns) (disconnect : .disconnect c ∈ t.fns ↔ .disconnect c ∈ s.fns)
    (runningOwn : t.loop.running = some (.own c) ↔ s.loop.running = some (.own c))
    (runningDisconnect : t.loop.running = some (.disconnect c) ↔
      s.loop.running = some (.disconnect c))
    (set : t.loop.set = some c ↔ s.loop.set = some c)
    (deleter : t.loop.deleter = some c ↔ s.loop.deleter = some c) : At kind t c where
  own := by rw [own, clients, ne_eq, runningOwn]; exact h.own
  disconnect := by rw [disconnect, clients, ne_eq, runningDisconnect]; exact h.disconnect
  connected := by rw [clients]; exact h.connected
  callback := by rw [clients]; exact h.callback
  emplaced := by rw [clients]; exact h.emplaced
  runningOwn := by rw [clients, runningOwn]; exact h.runningOwn
  runningDisconnect := by rw [clients, runningDisconnect]; exact h.runningDisconnect
  setting := by rw [clients, set]; exact h.setting
  cleaning := by rw [clients, deleter]; exact h.cleaning

omit [DecidableEq C] in
/-- The same when the event loop thread stays where it is. -/
theorem At.congr_loop {c : C} (h : At kind s c) (clients : t.clients c = s.clients c)
    (own : .own c ∈ t.fns ↔ .own c ∈ s.fns) (disconnect : .disconnect c ∈ t.fns ↔ .disconnect c ∈ s.fns)
    (loop : t.loop = s.loop) : At kind t c :=
  h.congr clients own disconnect (by rw [loop]) (by rw [loop]) (by rw [loop]) (by rw [loop])

theorem nodup_of_ledger (h : Ledger s) : s.fns.Nodup := by
  refine List.nodup_iff_count_le_one.mpr fun e => ?_
  have hb := h.balance e
  have ho := h.once e
  omega

/-! ## The ledger -/

/-- A step that registers, runs and erases nothing, and makes no client absent. -/
theorem ledger_same (h : Ledger s) (fns : t.fns = s.fns) (added : t.added = s.added)
    (ran : t.ran = s.ran) (erased : t.erased = s.erased)
    (absent : ∀ c, (t.clients c).phase = .absent → (s.clients c).phase = .absent)
    (single : ∀ c, (t.clients c).phase = .constructing ∨ (t.clients c).phase = .emplaced →
      (s.clients c).phase = .constructing ∨ (s.clients c).phase = .emplaced) : Ledger t where
  balance := by rw [fns, added, ran, erased]; exact h.balance
  once := by rw [added]; exact h.once
  fresh e he := by rw [added]; exact h.fresh e (absent _ he)
  single c hc := by rw [added]; exact h.single c (single c hc)

theorem ledger_add (h : Ledger s) {e : Entry C} (hfresh : s.added e = 0)
    (habsent : (t.clients e.client).phase ≠ .absent)
    (hsingle : ∀ c, e = .disconnect c →
      (t.clients c).phase ≠ .constructing ∧ (t.clients c).phase ≠ .emplaced)
    (fns : t.fns = e :: s.fns) (added : t.added = Function.update s.added e (s.added e + 1))
    (ran : t.ran = s.ran) (erased : t.erased = s.erased)
    (others : ∀ c, c ≠ e.client → t.clients c = s.clients c)
    (newly : s.added (.disconnect e.client) = 0) : Ledger t where
  balance e' := by
    rw [fns, added, ran, erased, List.count_cons, Function.update_apply]
    have hb := h.balance e'
    by_cases he : e' = e
    · subst he
      rw [if_pos rfl, beq_self_eq_true, if_pos rfl]
      omega
    · rw [if_neg he, if_neg (by simpa only [beq_iff_eq] using Ne.symm he)]
      omega
  once e' := by
    rw [added, Function.update_apply]
    split
    · omega
    · exact h.once e'
  fresh e' he' := by
    have hne : e' ≠ e := by
      rintro rfl
      exact habsent he'
    rw [added, Function.update_of_ne hne]
    by_cases hc : e'.client = e.client
    · exact absurd (hc ▸ he') habsent
    · rw [others _ hc] at he'
      exact h.fresh e' he'
  single c hc := by
    have hne : Entry.disconnect c ≠ e := by
      intro he
      obtain ⟨h1, h2⟩ := hsingle c he.symm
      rcases hc with hc | hc
      · exact h1 hc
      · exact h2 hc
    rw [added, Function.update_of_ne hne]
    by_cases he : c = e.client
    · rw [he]
      exact newly
    · rw [others c he] at hc
      exact h.single c hc

theorem ledger_remove (h : Ledger s) {e : Entry C} (he : e ∈ s.fns) :
    Ledger (s.removeSyncCleanup e) := by
  rw [removeSyncCleanup_mem he]
  refine ⟨fun e' => ?_, h.once, h.fresh, h.single⟩
  have hb := h.balance e'
  have hpos := List.count_pos_iff.mpr he
  simp only [List.count_erase, Function.update_apply]
  by_cases hee : e' = e
  · subst hee
    rw [if_pos rfl, beq_self_eq_true, if_pos rfl]
    omega
  · rw [if_neg hee, if_neg (by simpa only [beq_iff_eq] using Ne.symm hee)]
    omega

/-! ## Clients that come -/

omit [DecidableEq C] in
theorem mem_cons_other {e e' : Entry C} {fns : List (Entry C)} (h : e ≠ e') :
    e ∈ e' :: fns ↔ e ∈ fns :=
  List.mem_cons.trans (or_iff_right h)

/-- The constructor of a client registers its callback. -/
theorem placed_register (phase : Phase) (loop : LoopPc C) (h : Placed kind s) {c : C}
    (absent : (s.clients c).phase = .absent) (holds : phase.holds = true) (notLive : phase ≠ .live)
    (thread : phase = .emplaced → kind c = .thread)
    (running : loop.running = s.loop.running) (deleter : loop.deleter = s.loop.deleter)
    (set : loop.set = some c ↔ phase = .emplaced)
    (others : ∀ d, d ≠ c → (loop.set = some d ↔ s.loop.set = some d)) (hd : s.deleted = false) :
    Placed kind { s.register c phase with loop := loop } := by
  have hc := h.clients c
  have hown : s.loop.running ≠ some (.own c) := by
    intro hr
    have hholds := (hc.runningOwn hr).1
    rw [absent] at hholds
    cases hholds
  have hdisc : .disconnect c ∉ s.fns := by
    intro hmem
    cases absent.symm.trans (hc.disconnect.mp hmem).1
  refine ⟨fun d => ?_, ?_, fun hdel => ?_, h.unmisused⟩
  · by_cases hdc : d = c
    · subst hdc
      have hcl : ({ s.register d phase with loop := loop } : State C).clients d
          = ⟨phase, true, false⟩ := register_same (s := s) phase
      refine ⟨?_, ?_, ?_, ?_, ?_, ?_, ?_, ?_, ?_⟩ <;> rw [hcl]
      · exact ⟨fun _ => ⟨holds, rfl, running ▸ hown⟩, fun _ => List.mem_cons_self⟩
      · refine ⟨fun hmem => ?_, fun hr => absurd hr.1 notLive⟩
        rcases List.mem_cons.mp hmem with he | hmem
        · cases he
        · exact absurd hmem hdisc
      · exact fun hl => absurd hl notLive
      · nofun
      · exact fun hp => ⟨thread hp, rfl⟩
      · exact fun hr => absurd (running ▸ hr) hown
      · intro hr
        cases absent.symm.trans (hc.runningDisconnect (running ▸ hr)).1
      · exact set
      · refine ⟨fun hr => ?_, fun hp => ?_⟩
        · cases absent.symm.trans (hc.cleaning.mp (deleter ▸ hr))
        · have hp : phase = .cleaning := hp
          rw [hp] at holds
          cases holds
    · refine (h.clients d).congr (register_other (s := s) phase hdc) ?_ ?_ ?_ ?_ (others d hdc) ?_
      · exact mem_cons_other fun he => hdc (congrArg Entry.client he)
      · exact mem_cons_other nofun
      · rw [running]
      · rw [running]
      · rw [deleter]
  · refine List.pairwise_cons.mpr ⟨fun b hb d hd => ?_, h.ordered⟩
    cases hd
    rintro rfl
    exact hdisc hb
  · cases hd.symm.trans hdel

theorem ledger_register (phase : Phase) (loop : LoopPc C) (h : Ledger s) {c : C}
    (absent : (s.clients c).phase = .absent) (hp : phase ≠ .absent) :
    Ledger { s.register c phase with loop := loop } := by
  have hcl := congrArg Client.phase (register_same (s := s) (c := c) phase)
  exact ledger_add h (e := .own c) (h.fresh (.own c) absent) (fun ha => hp (hcl.symm.trans ha))
    nofun rfl rfl rfl rfl (fun d hd => register_other (s := s) phase hd) (h.fresh (.disconnect c) absent)

/-- `SetThread` registers the second callback. -/
theorem placed_addDisconnect (h : Placed kind s) {c : C} (hs : s.loop = .setting c) :
    Placed kind (s.addDisconnect c) := by
  have hc := h.clients c
  have hrun : s.loop.running = none := by rw [hs]; rfl
  have hphase : (s.clients c).phase = .emplaced := hc.setting.mp (by rw [hs]; rfl)
  obtain ⟨hthread, hconn⟩ := hc.emplaced hphase
  refine ⟨fun d => ?_, ?_, fun hdel => ?_, h.unmisused⟩
  · by_cases hdc : d = c
    · subst hdc
      refine ⟨?_, ?_, ?_, ?_, ?_, nofun, nofun, ?_, ?_⟩ <;> rw [addDisconnect_same]
      · refine ⟨fun _ => ⟨rfl, hconn, nofun⟩, fun _ => List.mem_cons_of_mem _ ?_⟩
        rw [hc.own, hphase, hrun]
        exact ⟨rfl, hconn, nofun⟩
      · exact ⟨fun _ => ⟨rfl, rfl, nofun⟩, fun _ => List.mem_cons_self⟩
      · exact fun _ _ => hconn
      · exact fun _ => ⟨hthread, .inl rfl⟩
      · nofun
      · exact ⟨nofun, nofun⟩
      · exact ⟨nofun, nofun⟩
    · refine (h.clients d).congr (addDisconnect_other hdc) ?_ ?_ ?_ ?_ ?_ ?_
      · exact mem_cons_other nofun
      · exact mem_cons_other fun he => hdc (congrArg Entry.client he)
      · rw [hrun]
        exact ⟨nofun, nofun⟩
      · rw [hrun]
        exact ⟨nofun, nofun⟩
      · rw [hs]
        exact ⟨nofun, fun he => absurd (Option.some.inj he).symm hdc⟩
      · rw [hs]
        exact ⟨nofun, nofun⟩
  · exact List.pairwise_cons.mpr ⟨fun b _ d hd => (by cases hd), h.ordered⟩
  · cases hs.symm.trans (h.deleted hdel).2

theorem ledger_addDisconnect (h : Ledger s) {c : C} (hp : (s.clients c).phase = .emplaced) :
    Ledger (s.addDisconnect c) := by
  refine ledger_add h (e := .disconnect c) (h.single c (.inr hp)) ?_ ?_ rfl rfl rfl rfl
    (fun d hd => addDisconnect_other hd) (h.single c (.inr hp))
  · change ((s.addDisconnect c).clients c).phase ≠ _
    rw [addDisconnect_same]
    nofun
  · intro d hd
    cases hd
    rw [addDisconnect_same]
    exact ⟨nofun, nofun⟩

/-! ## Clients that move on -/

/-- A client that has no second callback moves on, and its callback stays registered or stays
taken back. -/
theorem placed_setPhase (phase : Phase) (h : Placed kind s) {c : C} (hcb : (s.clients c).disconnectCb = false)
    (hset : (s.clients c).phase ≠ .emplaced) (hclean : (s.clients c).phase ≠ .cleaning)
    (hset' : phase ≠ .emplaced) (hclean' : phase ≠ .cleaning)
    (holds : phase.holds = (s.clients c).phase.holds ∨ (s.clients c).connection = false) :
    Placed kind (s.setPhase c phase) := by
  have hc := h.clients c
  refine ⟨fun d => ?_, h.ordered, h.deleted, h.unmisused⟩
  by_cases hdc : d = c
  · subst hdc
    refine ⟨?_, ?_, ?_, ?_, ?_, ?_, ?_, ?_, ?_⟩ <;> rw [setPhase_same]
    · change _ ∈ s.fns ↔ _
      rw [hc.own]
      rcases holds with holds | hconn
      · rw [← holds]
        rfl
      · rw [hconn]
        exact ⟨(fun hf => by cases hf.2.1), fun hf => by cases hf.2.1⟩
    · change _ ∈ s.fns ↔ _
      rw [hc.disconnect, hcb]
      exact ⟨(fun hf => by cases hf.2.1), fun hf => by cases hf.2.1⟩
    · rw [hcb]
      nofun
    · rw [hcb]
      nofun
    · exact fun hp => absurd hp hset'
    · intro hr
      obtain ⟨hh, hconn, -⟩ := hc.runningOwn hr
      rcases holds with holds | hnull
      · exact ⟨holds.trans hh, hconn, hcb⟩
      · cases hconn.symm.trans hnull
    · intro hr
      cases hcb.symm.trans (hc.runningDisconnect hr).2
    · exact ⟨fun hs => absurd (hc.setting.mp hs) hset, fun hp => absurd hp hset'⟩
    · exact ⟨fun hs => absurd (hc.cleaning.mp hs) hclean, fun hp => absurd hp hclean'⟩
  · exact (h.clients d).congr_loop (setPhase_other hdc) Iff.rfl Iff.rfl rfl

theorem ledger_setPhase (phase : Phase) (h : Ledger s) {c : C} (habsent : phase ≠ .absent)
    (hc : phase ≠ .constructing) (he : phase ≠ .emplaced) : Ledger (s.setPhase c phase) := by
  refine ledger_same h rfl rfl rfl rfl (fun d hd => ?_) fun d hd => ?_ <;> by_cases hdc : d = c
  · rw [hdc, setPhase_same] at hd
    exact absurd hd habsent
  · rwa [setPhase_other hdc] at hd
  · rw [hdc, setPhase_same] at hd
    rcases hd with hd | hd
    · exact absurd hd hc
    · exact absurd hd he
  · rwa [setPhase_other hdc] at hd

/-! ## Clients that go -/

/-- A client goes, and with it every function registered for it. -/
theorem placed_leave (phase : Phase) (h : Placed kind s) {c : C}
    (hp : phase = .gone ∨ phase = .cleaning) (hphase : (t.clients c).phase = phase)
    (callback : (t.clients c).disconnectCb = true → kind c = .thread ∧ phase = .gone)
    (others : ∀ d, d ≠ c → t.clients d = s.clients d)
    (fns : ∀ e, e ∈ t.fns ↔ e ∈ s.fns ∧ e.client ≠ c) (sublist : t.fns.Sublist s.fns)
    (running : ∀ e, t.loop.running = some e ↔ s.loop.running = some e ∧ e.client ≠ c)
    (set : ∀ d, t.loop.set = some d ↔ s.loop.set = some d ∧ d ≠ c)
    (deleter : t.loop.deleter = some c ↔ phase = .cleaning)
    (deleters : ∀ d, d ≠ c → (t.loop.deleter = some d ↔ s.loop.deleter = some d))
    (deleted : t.deleted = true → s.deleted = true ∧ t.loop = s.loop)
    (unmisused : t.misused = false) : Placed kind t := by
  have hholds : phase.holds ≠ true := by
    rcases hp with rfl | rfl <;> nofun
  have hlive : phase ≠ .live := by
    rcases hp with rfl | rfl <;> nofun
  have hset : phase ≠ .emplaced := by
    rcases hp with rfl | rfl <;> nofun
  refine ⟨fun d => ?_, h.ordered.sublist sublist, fun hd => ?_, unmisused⟩
  · by_cases hdc : d = c
    · subst hdc
      refine ⟨?_, ?_, ?_, ?_, ?_, ?_, ?_, ?_, ?_⟩ <;> rw [hphase]
      · rw [fns]
        exact ⟨fun hf => absurd rfl hf.2, fun hf => absurd hf.1 hholds⟩
      · rw [fns]
        exact ⟨fun hf => absurd rfl hf.2, fun hf => absurd hf.1 hlive⟩
      · exact fun hl => absurd hl hlive
      · exact fun hcb => ⟨(callback hcb).1, .inr (callback hcb).2⟩
      · exact fun he => absurd he hset
      · exact fun hr => absurd rfl ((running _).mp hr).2
      · exact fun hr => absurd rfl ((running _).mp hr).2
      · exact ⟨fun hs => absurd rfl ((set d).mp hs).2, fun he => absurd he hset⟩
      · exact deleter
    · refine (h.clients d).congr (others d hdc) ?_ ?_ ?_ ?_ ?_ (deleters d hdc)
      · exact (fns _).trans (and_iff_left hdc)
      · exact (fns _).trans (and_iff_left hdc)
      · exact (running _).trans (and_iff_left hdc)
      · exact (running _).trans (and_iff_left hdc)
      · exact (set d).trans (and_iff_left hdc)
  · obtain ⟨hd, hl⟩ := deleted hd
    obtain ⟨hf, hi⟩ := h.deleted hd
    rw [hl]
    exact ⟨List.sublist_nil.mp (hf ▸ sublist), hi⟩

/-- The functions left when the callback of a client is erased, and it has no second one. -/
theorem mem_erase_own (hn : s.fns.Nodup) {c : C} (hdis : .disconnect c ∉ s.fns) (e : Entry C) :
    e ∈ s.fns.erase (.own c) ↔ e ∈ s.fns ∧ e.client ≠ c := by
  rw [hn.mem_erase_iff]
  constructor
  · rintro ⟨hne, hmem⟩
    refine ⟨hmem, fun hc => ?_⟩
    cases e with
    | own d => exact hne (congrArg Entry.own hc)
    | disconnect d => exact hdis ((show d = c from hc) ▸ hmem)
  · rintro ⟨hmem, hc⟩
    refine ⟨fun he => ?_, hmem⟩
    rw [he] at hc
    exact hc rfl

omit [DecidableEq C] in
theorem mem_of_unregistered {c : C} (hown : .own c ∉ s.fns) (hdis : .disconnect c ∉ s.fns)
    (e : Entry C) : e ∈ s.fns ↔ e ∈ s.fns ∧ e.client ≠ c := by
  refine ⟨fun hmem => ⟨hmem, fun hc => ?_⟩, And.left⟩
  cases e with
  | own d => exact hown ((show d = c from hc) ▸ hmem)
  | disconnect d => exact hdis ((show d = c from hc) ▸ hmem)

/-- The event loop thread is not running a function of a client it can destroy. -/
theorem running_of_canDestroy {loop : LoopPc C} {c : C} (h : loop.canDestroy c = true)
    (e : Entry C) : loop.running = some e ↔ loop.running = some e ∧ e.client ≠ c := by
  refine ⟨fun hr => ⟨hr, fun hc => ?_⟩, And.left⟩
  cases loop with
  | idle => cases hr
  | setting d => cases hr
  | deleting d r =>
    obtain rfl : r = some e := hr
    simp only [LoopPc.canDestroy, Bool.and_eq_true, bne_iff_ne, ne_eq, Option.some.injEq] at h
    cases e with
    | own d => exact h.1 (congrArg Entry.own hc)
    | disconnect d => exact h.2 (congrArg Entry.disconnect hc)

omit [DecidableEq C] in
/-- A client that is not in `SetThread` is not the one that is. -/
theorem At.set_iff {c : C} (h : At kind s c) (hp : (s.clients c).phase ≠ .emplaced) (d : C) :
    s.loop.set = some d ↔ s.loop.set = some d ∧ d ≠ c := by
  refine ⟨fun hs => ⟨hs, ?_⟩, And.left⟩
  rintro rfl
  exact hp (h.setting.mp hs)

/-- The cleanup function of a client that has no second callback. -/
theorem placed_cleanup (h : Inv kind s) {c : C} {k : Kind}
    (hcb : (s.clients c).disconnectCb = false)
    (hp : (s.clients c).phase = .live ∨ (s.clients c).phase = .destroying)
    (hd : s.loop.canDestroy c = true) (hk : k = .owner → s.loop = .idle) :
    Placed kind (s.cleanup k c) := by
  have hc := h.placed.clients c
  have hdis : .disconnect c ∉ s.fns := fun hmem => by
    cases hcb.symm.trans (hc.disconnect.mp hmem).2.1
  have hholds : (s.clients c).phase.holds = true := by
    rcases hp with hp | hp <;> rw [hp] <;> rfl
  have hset := hc.set_iff (by rcases hp with hp | hp <;> rw [hp] <;> nofun)
  have hclean : s.loop.deleter ≠ some c := fun hs => by
    rcases hp with hp | hp <;> cases hp.symm.trans (hc.cleaning.mp hs)
  have hrun := running_of_canDestroy hd
  cases hconn : (s.clients c).connection with
  | false =>
    have hown : .own c ∉ s.fns := fun hmem => by
      cases hconn.symm.trans (hc.own.mp hmem).2.1
    rw [cleanup_null hconn]
    refine placed_leave .gone h.placed (.inl rfl) ?_ ?_ (fun d hd => setPhase_other hd)
      (mem_of_unregistered hown hdis) (List.Sublist.refl _) hrun hset ?_ (fun d _ => Iff.rfl)
      (fun hdel => ⟨hdel, rfl⟩) h.placed.unmisused
    · rw [setPhase_same]
    · rw [setPhase_same, hcb]
      nofun
    · exact ⟨fun hs => absurd hs hclean, nofun⟩
  | true =>
    have hown : .own c ∈ s.fns := hc.own.mpr ⟨hholds, hconn, fun hr => ((hrun _).mp hr).2 rfl⟩
    have hfns := mem_erase_own (nodup_of_ledger h.ledger) hdis
    have hcl : ∀ phase, ((s.removeSyncCleanup (.own c)).setPhase c phase).clients c =
        ⟨phase, true, false⟩ := fun phase => by
      rw [setPhase_same, removeSyncCleanup_clients, hconn, hcb]
    have hothers : ∀ phase d, d ≠ c →
        ((s.removeSyncCleanup (.own c)).setPhase c phase).clients d = s.clients d :=
      fun phase d hdc => by rw [setPhase_other hdc, removeSyncCleanup_clients]
    by_cases hko : k = .owner
    · subst hko
      have hidle := hk rfl
      rw [cleanup_owner hconn]
      refine placed_leave .cleaning h.placed (.inr rfl) (congrArg Client.phase (hcl _)) ?_ (hothers _) ?_ ?_
        ?_ ?_ ⟨fun _ => rfl, fun _ => rfl⟩ ?_ ?_ ?_ <;>
        simp only [setPhase_fns, setPhase_deleted, setPhase_misused, removeSyncCleanup_fns hown,
          removeSyncCleanup_misused hown, removeSyncCleanup_deleted, hcl, hidle]
      · nofun
      · exact hfns
      · exact List.erase_sublist
      · exact fun e => ⟨nofun, nofun⟩
      · exact fun d => ⟨nofun, nofun⟩
      · exact fun d hdc => ⟨fun he => absurd (Option.some.inj he).symm hdc, nofun⟩
      · intro hdel
        rw [(h.placed.deleted hdel).1] at hown
        cases hown
      · exact h.placed.unmisused
    · rw [cleanup_connected hconn hko]
      refine placed_leave .gone h.placed (.inl rfl) (congrArg Client.phase (hcl _)) ?_ (hothers _) ?_ ?_
        ?_ ?_ ?_ ?_ ?_ ?_ <;>
        simp only [setPhase_fns, setPhase_deleted, setPhase_misused, setPhase_loop,
          removeSyncCleanup_fns hown, removeSyncCleanup_misused hown, removeSyncCleanup_deleted,
          removeSyncCleanup_loop, hcl]
      · nofun
      · exact hfns
      · exact List.erase_sublist
      · exact hrun
      · exact hset
      · exact ⟨fun hs => absurd hs hclean, nofun⟩
      · exact fun _ _ => trivial
      · exact fun hdel => ⟨hdel, trivial⟩
      · exact h.placed.unmisused

theorem ledger_gone (h : Ledger s) (c : C) : Ledger (s.setPhase c .gone) :=
  ledger_setPhase .gone h nofun nofun nofun

theorem ledger_cleanup (h : Ledger s) {c : C} {k : Kind}
    (hown : (s.clients c).connection = true → .own c ∈ s.fns) : Ledger (s.cleanup k c) := by
  cases hconn : (s.clients c).connection with
  | false =>
    rw [cleanup_null hconn]
    exact ledger_gone h c
  | true =>
    have hrem := ledger_remove h (hown hconn)
    by_cases hko : k = .owner
    · subst hko
      rw [cleanup_owner hconn]
      have hset := ledger_setPhase .cleaning hrem (c := c) nofun nofun nofun
      exact ⟨hset.balance, hset.once, hset.fresh, hset.single⟩
    · rw [cleanup_connected hconn hko]
      exact ledger_gone hrem c

/-- The cleanup function of `ProxyClientBase` runs. -/
theorem inv_cleanup (h : Inv kind s) {c : C} {k : Kind}
    (hcb : (s.clients c).disconnectCb = false)
    (hp : (s.clients c).phase = .live ∨ (s.clients c).phase = .destroying)
    (hd : s.loop.canDestroy c = true) (hk : k = .owner → s.loop = .idle) :
    Inv kind (s.cleanup k c) := by
  refine ⟨placed_cleanup h hcb hp hd hk, ledger_cleanup h.ledger fun hconn => ?_⟩
  refine (h.placed.clients c).own.mpr ⟨?_, hconn, fun hr => ?_⟩
  · rcases hp with hp | hp <;> rw [hp] <;> rfl
  · exact ((running_of_canDestroy hd _).mp hr).2 rfl

/-- A map entry is removed: both functions of its client are erased. -/
theorem inv_destroyThread (h : Inv kind s) {c : C} (hp : (s.clients c).phase = .live)
    (hd : s.loop.canDestroy c = true) : Inv kind (s.destroyThread c) := by
  have hc := h.placed.clients c
  cases hcb : (s.clients c).disconnectCb with
  | false =>
    rw [destroyThread_unset hcb]
    exact inv_cleanup h hcb (.inl hp) hd nofun
  | true =>
    have hrun := running_of_canDestroy hd
    have hconn := hc.connected hp hcb
    have hdis : .disconnect c ∈ s.fns :=
      hc.disconnect.mpr ⟨hp, hcb, fun hr => ((hrun _).mp hr).2 rfl⟩
    have hown : .own c ∈ s.fns :=
      hc.own.mpr ⟨by rw [hp]; rfl, hconn, fun hr => ((hrun _).mp hr).2 rfl⟩
    have hn := nodup_of_ledger h.ledger
    have hown' : .own c ∈ (s.removeSyncCleanup (.disconnect c)).fns := by
      rw [removeSyncCleanup_mem hdis]
      exact hn.mem_erase_iff.mpr ⟨nofun, hown⟩
    have hledger := ledger_remove h.ledger hdis
    have hdis' : .disconnect c ∉ (s.removeSyncCleanup (.disconnect c)).fns := by
      rw [removeSyncCleanup_mem hdis]
      exact hn.not_mem_erase
    have hfns : ∀ e, e ∈ (s.fns.erase (.disconnect c)).erase (.own c) ↔
        e ∈ s.fns ∧ e.client ≠ c := by
      intro e
      have herase := mem_erase_own (nodup_of_ledger hledger) hdis' e
      rw [removeSyncCleanup_fns hdis, hn.mem_erase_iff] at herase
      rw [herase]
      refine ⟨fun hmem => ⟨hmem.1.2, hmem.2⟩, fun hmem => ⟨⟨?_, hmem.1⟩, hmem.2⟩⟩
      rintro rfl
      exact hmem.2 rfl
    rw [destroyThread_set hcb hconn]
    refine ⟨?_, ledger_cleanup hledger fun _ => hown'⟩
    have hne : Kind.thread ≠ .owner := nofun
    rw [cleanup_connected (by rw [removeSyncCleanup_clients]; exact hconn) hne]
    have hcl := setPhase_same (s := (s.removeSyncCleanup (.disconnect c)).removeSyncCleanup (.own c))
      (c := c) .gone
    refine placed_leave .gone h.placed (.inl rfl) (congrArg Client.phase hcl)
      (fun _ => ⟨(hc.callback hcb).1, rfl⟩) (fun d hdc => by
        rw [setPhase_other hdc, removeSyncCleanup_clients, removeSyncCleanup_clients])
      ?_ ?_ ?_ ?_ ?_ ?_ ?_ ?_ <;>
      simp only [setPhase_fns, setPhase_deleted, setPhase_misused, setPhase_loop,
        removeSyncCleanup_fns hown', removeSyncCleanup_fns hdis, removeSyncCleanup_misused hown',
        removeSyncCleanup_misused hdis, removeSyncCleanup_deleted, removeSyncCleanup_loop]
    · exact hfns
    · exact List.erase_sublist.trans List.erase_sublist
    · exact hrun
    · exact hc.set_iff (by rw [hp]; nofun)
    · refine ⟨fun hs => ?_, nofun⟩
      cases hp.symm.trans (hc.cleaning.mp hs)
    · exact fun _ _ => trivial
    · exact fun hdel => ⟨hdel, trivial⟩
    · exact h.placed.unmisused

/-! ## `~Connection` -/

omit [DecidableEq C] in
theorem loop_of_between (h : s.loop.between = true) : ∃ d, s.loop = .deleting d none := by
  cases hs : s.loop with
  | idle => rw [hs] at h; cases h
  | setting c => rw [hs] at h; cases h
  | deleting d r =>
    cases r with
    | none => exact ⟨d, rfl⟩
    | some e => rw [hs] at h; cases h

omit [DecidableEq C] in
theorem loop_of_running {e : Entry C} (h : s.loop.running = some e) :
    ∃ d, s.loop = .deleting d (some e) := by
  cases hs : s.loop with
  | idle => rw [hs] at h; cases h
  | setting c => rw [hs] at h; cases h
  | deleting d r =>
    rw [hs] at h
    exact ⟨d, congrArg _ h⟩

omit [DecidableEq C] in
/-- The client whose function is taken out. Its callback is not taken out before the second one. -/
theorem at_splice {e : Entry C} (hc : At kind s e.client) {d : Option C}
    (hl : s.loop = .deleting d none) {fns : List (Entry C)} (hf : s.fns = e :: fns)
    (hn : e ∉ fns) (hord : Ordered s.fns) {ran : Entry C → Nat} :
    At kind { s with fns := fns, loop := .deleting d (some e), ran := ran } e.client := by
  have hrun : s.loop.running = none := by rw [hl]; rfl
  have hhead : e ∈ s.fns := by rw [hf]; exact List.mem_cons_self
  have hset := hc.setting
  have hclean := hc.cleaning
  rw [hl] at hset hclean
  rw [hf] at hord
  have hfirst := (List.pairwise_cons.mp hord).1
  cases e with
  | own c =>
    obtain ⟨hholds, hconn, -⟩ := hc.own.mp hhead
    have hdis : .disconnect c ∉ fns := fun hmem => hfirst _ hmem c rfl rfl
    have hcb : ¬ ((s.clients c).phase = .live ∧ (s.clients c).disconnectCb = true) := by
      rintro ⟨hp, hcb⟩
      have hmem := hc.disconnect.mpr ⟨hp, hcb, by rw [hrun]; nofun⟩
      rw [hf] at hmem
      rcases List.mem_cons.mp hmem with he | hmem
      · cases he
      · exact hdis hmem
    refine ⟨⟨fun hmem => absurd hmem hn, fun hr => absurd rfl hr.2.2⟩,
      ⟨fun hmem => absurd hmem hdis, fun hr => absurd ⟨hr.1, hr.2.1⟩ hcb⟩, hc.connected,
      hc.callback, hc.emplaced, fun _ => ⟨hholds, hconn, ?_⟩, nofun, hset, hclean⟩
    cases hback : (s.clients c).disconnectCb with
    | false => exact hback
    | true =>
      rcases (hc.callback hback).2 with hp | hp
      · exact absurd ⟨hp, hback⟩ hcb
      · have hp : (s.clients c).phase = .gone := hp
        rw [Entry.client_own, hp] at hholds
        cases hholds
  | disconnect c =>
    obtain ⟨hp, hcb, -⟩ := hc.disconnect.mp hhead
    refine ⟨?_, ⟨fun hmem => absurd hmem hn, fun hr => absurd rfl hr.2.2⟩, hc.connected,
      hc.callback, hc.emplaced, nofun, fun _ => ⟨hp, hcb⟩, hset, hclean⟩
    have hown := hc.own
    rw [hf, hrun] at hown
    constructor
    · intro hmem
      obtain ⟨hh, hconn, -⟩ := hown.mp (List.mem_cons_of_mem _ hmem)
      exact ⟨hh, hconn, nofun⟩
    · rintro ⟨hh, hconn, -⟩
      exact (List.mem_cons.mp (hown.mpr ⟨hh, hconn, nofun⟩)).resolve_left nofun

/-- The list is emptied from the front: what is taken out is being run. -/
theorem inv_splice (h : Inv kind s) (hb : s.loop.between = true) (hne : s.fns ≠ []) :
    Inv kind s.splice := by
  obtain ⟨d, hl⟩ := loop_of_between hb
  obtain ⟨e, fns, hf⟩ := List.exists_cons_of_ne_nil hne
  have hn := List.nodup_cons.mp (hf ▸ nodup_of_ledger h.ledger)
  have hsplice := splice_cons hl hf
  have hrun : s.loop.running = none := by rw [hl]; rfl
  have hmem : ∀ e', e' ≠ e → (e' ∈ fns ↔ e' ∈ s.fns) := by
    intro e' he
    rw [hf, List.mem_cons, or_iff_right he]
  rw [hsplice]
  refine ⟨⟨fun c => ?_, ?_, fun hd => ?_, h.placed.unmisused⟩, ?_⟩
  · have hc := h.placed.clients c
    by_cases hcl : e.client = c
    · subst hcl
      exact at_splice hc hl hf hn.1 h.placed.ordered
    · refine hc.congr rfl (hmem _ ?_) (hmem _ ?_) ?_ ?_ ?_ ?_
      · rintro rfl
        exact hcl rfl
      · rintro rfl
        exact hcl rfl
      · rw [hrun]
        refine ⟨fun hr => ?_, nofun⟩
        cases hr
        exact absurd rfl hcl
      · rw [hrun]
        refine ⟨fun hr => ?_, nofun⟩
        cases hr
        exact absurd rfl hcl
      · rw [hl]
        exact ⟨nofun, nofun⟩
      · rw [hl]
        exact Iff.rfl
  · have hord := h.placed.ordered
    rw [hf] at hord
    exact (List.pairwise_cons.mp hord).2
  · cases hl.symm.trans (h.placed.deleted hd).2
  · refine ⟨fun e' => ?_, h.ledger.once, h.ledger.fresh, h.ledger.single⟩
    have hbal := h.ledger.balance e'
    rw [hf, List.count_cons] at hbal
    simp only [Function.update_apply]
    by_cases he : e' = e
    · subst he
      rw [beq_self_eq_true, if_pos rfl] at hbal
      rw [if_pos rfl]
      omega
    · rw [if_neg (by simpa only [beq_iff_eq] using Ne.symm he)] at hbal
      rw [if_neg he]
      omega

/-- The callback of a client is run: the client loses its connection. -/
theorem inv_runOwn (h : Inv kind s) {c : C} {d : Option C}
    (hl : s.loop = .deleting d (some (.own c))) : Inv kind s.run := by
  have hc := h.placed.clients c
  have hr : s.loop.running = some (.own c) := by rw [hl]; rfl
  obtain ⟨hholds, hconn, hcb⟩ := hc.runningOwn hr
  have hrun : s.run =
      { s.update c ({ · with connection := false }) with loop := .deleting d none } := by
    simp only [State.run, hl, State.runFn, touch_exists (Phase.exists_of_holds hholds)]
  have hcl : s.run.clients c = ⟨(s.clients c).phase, false, (s.clients c).disconnectCb⟩ := by
    rw [hrun]
    change (s.update c ({ · with connection := false })).clients c = _
    exact update_same
  have hothers : ∀ c', c' ≠ c → s.run.clients c' = s.clients c' := by
    intro c' hne
    rw [hrun]
    change (s.update c ({ · with connection := false })).clients c' = _
    exact update_other hne
  have hphase : ∀ c', (s.run.clients c').phase = (s.clients c').phase := by
    intro c'
    by_cases hne : c' = c
    · rw [hne, hcl]
    · rw [hothers c' hne]
  have hfns : s.run.fns = s.fns := by rw [hrun]; rfl
  have hloop : s.run.loop = .deleting d none := by rw [hrun]
  refine ⟨⟨fun c' => ?_, by rw [hfns]; exact h.placed.ordered, fun hd => ?_, ?_⟩, ?_⟩
  · by_cases hne : c' = c
    · subst hne
      have hset := hc.setting
      have hclean := hc.cleaning
      rw [hl] at hset hclean
      refine ⟨?_, ?_, ?_, ?_, ?_, ?_, ?_, ?_, ?_⟩ <;> rw [hcl]
      · rw [hfns, hc.own]
        exact ⟨fun hf => absurd hr hf.2.2, fun hf => by cases hf.2.1⟩
      · rw [hfns, hc.disconnect, hcb]
        exact ⟨(fun hf => by cases hf.2.1), fun hf => by cases hf.2.1⟩
      · rw [hcb]
        nofun
      · exact hc.callback
      · exact fun hp => by cases hset.mpr hp
      · rw [hloop]
        nofun
      · rw [hloop]
        nofun
      · rw [hloop]
        exact hset
      · rw [hloop]
        exact hclean
    · refine (h.placed.clients c').congr (hothers c' hne) (by rw [hfns]) (by rw [hfns]) ?_ ?_ ?_ ?_ <;>
        rw [hloop, hl]
      · exact ⟨nofun, fun he => absurd (Entry.own.inj (Option.some.inj he)).symm hne⟩
      · exact ⟨nofun, nofun⟩
      · exact Iff.rfl
      · exact Iff.rfl
  · rw [hrun] at hd
    cases hl.symm.trans (h.placed.deleted hd).2
  · rw [hrun]
    exact h.placed.unmisused
  · refine ledger_same h.ledger hfns (by rw [hrun]; rfl) (by rw [hrun]; rfl) (by rw [hrun]; rfl)
      (fun c' => ?_) fun c' => ?_ <;> rw [hphase]
    · exact id
    · exact id

/-- The function `SetThread` registered is run: it destroys the client, which takes its callback
back. -/
theorem inv_runDisconnect (h : Inv kind s) {c : C} {d : Option C}
    (hl : s.loop = .deleting d (some (.disconnect c))) : Inv kind s.run := by
  have hc := h.placed.clients c
  have hr : s.loop.running = some (.disconnect c) := by rw [hl]; rfl
  obtain ⟨hp, hcb⟩ := hc.runningDisconnect hr
  have hconn := hc.connected hp hcb
  have hown : .own c ∈ s.fns := by
    refine hc.own.mpr ⟨by rw [hp]; rfl, hconn, ?_⟩
    rw [hr]
    nofun
  have hdis : .disconnect c ∉ s.fns := fun hmem => absurd hr (hc.disconnect.mp hmem).2.2
  have hex : (s.clients c).phase.exists = true := by rw [hp]; rfl
  have hcl : (s.update c ({ · with disconnectCb := false })).clients c = ⟨.live, true, false⟩ := by
    rw [update_same, hp, hconn]
  have hne : Kind.thread ≠ .owner := nofun
  have hrun : s.run = { ((s.update c ({ · with disconnectCb := false })).removeSyncCleanup
      (.own c)).setPhase c .gone with loop := .deleting d none } := by
    simp only [State.run, hl, State.runFn, touch_exists hex]
    rw [destroyThread_unset (by rw [hcl]), cleanup_connected (by rw [hcl]) hne]
  have hledger : Ledger (s.update c ({ · with disconnectCb := false })) := by
    have hphase : ∀ c', ((s.update c ({ · with disconnectCb := false })).clients c').phase
        = (s.clients c').phase := by
      intro c'
      by_cases hne : c' = c
      · rw [hne, hcl, hp]
      · rw [update_other hne]
    refine ledger_same h.ledger rfl rfl rfl rfl (fun c' => ?_) fun c' => ?_ <;> rw [hphase]
    · exact id
    · exact id
  have hgone := ledger_gone (ledger_remove hledger (e := .own c) hown) c
  rw [hrun]
  refine ⟨?_, ⟨hgone.balance, hgone.once, hgone.fresh, hgone.single⟩⟩
  have hmem : .own c ∈ (s.update c ({ · with disconnectCb := false })).fns := hown
  have hlast := setPhase_same (s := (s.update c ({ · with disconnectCb := false })).removeSyncCleanup
    (.own c)) (c := c) .gone
  rw [removeSyncCleanup_clients, hcl] at hlast
  refine placed_leave .gone h.placed (.inl rfl) (congrArg Client.phase hlast) ?_ ?_ ?_ ?_
    ?_ ?_ ?_ ?_ ?_ ?_
  · intro hf
    cases (congrArg Client.disconnectCb hlast).symm.trans hf
  · intro c' hne
    change (((s.update c ({ · with disconnectCb := false })).removeSyncCleanup (.own c)).setPhase c
      .gone).clients c' = _
    rw [setPhase_other hne, removeSyncCleanup_clients, update_other hne]
  · simp only [setPhase_fns, removeSyncCleanup_fns hmem]
    exact mem_erase_own (nodup_of_ledger h.ledger) hdis
  · simp only [setPhase_fns, removeSyncCleanup_fns hmem]
    exact List.erase_sublist
  · intro e
    rw [hl]
    refine ⟨nofun, ?_⟩
    rintro ⟨he, hne⟩
    cases he
    exact absurd rfl hne
  · intro c'
    rw [hl]
    exact ⟨nofun, nofun⟩
  · refine ⟨fun hs => ?_, nofun⟩
    cases hp.symm.trans (hc.cleaning.mp (by rw [hl]; exact hs))
  · intro c' _
    rw [hl]
    exact Iff.rfl
  · intro hd
    simp only [setPhase_deleted, removeSyncCleanup_deleted] at hd
    cases hl.symm.trans (h.placed.deleted hd).2
  · simp only [setPhase_misused, removeSyncCleanup_misused hmem]
    exact h.placed.unmisused

theorem inv_finish_none (h : Inv kind s) (hl : s.loop = .deleting none none) (hf : s.fns = []) :
    Inv kind { s with loop := .idle, deleted := true } := by
  refine ⟨⟨fun c => ?_, h.placed.ordered, fun _ => ⟨hf, rfl⟩, h.placed.unmisused⟩,
    ⟨h.ledger.balance, h.ledger.once, h.ledger.fresh, h.ledger.single⟩⟩
  refine (h.placed.clients c).congr rfl Iff.rfl Iff.rfl ?_ ?_ ?_ ?_ <;> rw [hl] <;>
    exact ⟨nofun, nofun⟩

/-- The cleanup function that deleted the connection ends. -/
theorem inv_cleaned (h : Inv kind s) {c : C} (hl : s.loop = .deleting (some c) none) :
    Inv kind { s.update c ({ · with phase := .gone, connection := false }) with
      loop := .deleting none none } := by
  have hc := h.placed.clients c
  have hp : (s.clients c).phase = .cleaning := hc.cleaning.mp (by rw [hl]; rfl)
  have hcl := update_same (s := s) (c := c) (f := ({ · with phase := .gone, connection := false }))
  have hothers : ∀ c', c' ≠ c →
      (s.update c ({ · with phase := .gone, connection := false })).clients c' = s.clients c' :=
    fun c' hne => update_other hne
  have hcb : (s.clients c).disconnectCb = false := by
    cases hcb : (s.clients c).disconnectCb with
    | false => rfl
    | true => rcases (hc.callback hcb).2 with hp' | hp' <;> cases hp.symm.trans hp'
  have hown : .own c ∉ s.fns := fun hmem => by
    have hholds := (hc.own.mp hmem).1
    rw [hp] at hholds
    cases hholds
  have hdis : .disconnect c ∉ s.fns := fun hmem => by
    cases hcb.symm.trans (hc.disconnect.mp hmem).2.1
  constructor
  · refine placed_leave .gone h.placed (.inl rfl) (congrArg Client.phase hcl) ?_ hothers
      (mem_of_unregistered hown hdis) (List.Sublist.refl _) ?_ ?_ ⟨nofun, nofun⟩ ?_ ?_
      h.placed.unmisused
    · intro hf
      cases hcb.symm.trans ((congrArg Client.disconnectCb hcl).symm.trans hf)
    · intro e
      rw [hl]
      exact ⟨nofun, nofun⟩
    · intro c'
      rw [hl]
      exact ⟨nofun, nofun⟩
    · intro c' hne
      rw [hl]
      exact ⟨nofun, fun he => absurd (Option.some.inj he).symm hne⟩
    · intro hd
      cases hl.symm.trans (h.placed.deleted hd).2
  · refine ledger_same h.ledger rfl rfl rfl rfl (fun c' hc' => ?_) fun c' hc' => ?_ <;>
      by_cases hne : c' = c
    · rw [hne] at hc'
      cases (congrArg Client.phase hcl).symm.trans hc'
    · exact (congrArg Client.phase (hothers c' hne)).symm.trans hc'
    · rw [hne] at hc'
      rcases hc' with hc' | hc' <;> cases (congrArg Client.phase hcl).symm.trans hc'
    · have hsame := congrArg Client.phase (hothers c' hne)
      exact hc'.imp hsame.symm.trans hsame.symm.trans

/-- `~Connection` ends with an empty list. -/
theorem inv_finish (h : Inv kind s) (hb : s.loop.between = true) (hf : s.fns = []) :
    Inv kind s.finish := by
  obtain ⟨d, hl⟩ := loop_of_between hb
  cases d with
  | none =>
    rw [finish_handler hl]
    exact inv_finish_none h hl hf
  | some c =>
    have hdone := inv_finish_none (inv_cleaned h hl) rfl hf
    rw [finish_owner hl]
    exact hdone

/-- A `~Connection` begins, called by a disconnect handler. -/
theorem inv_deleteConnection (h : Inv kind s) (hl : s.loop = .idle) (hd : s.deleted = false) :
    Inv kind { s with loop := .deleting none none } := by
  refine ⟨⟨fun c => ?_, h.placed.ordered, fun hdel => ?_, h.placed.unmisused⟩,
    ⟨h.ledger.balance, h.ledger.once, h.ledger.fresh, h.ledger.single⟩⟩
  · refine (h.placed.clients c).congr rfl Iff.rfl Iff.rfl ?_ ?_ ?_ ?_ <;> rw [hl] <;>
      exact ⟨nofun, nofun⟩
  · cases hd.symm.trans hdel

/-! ## Every step -/

/-- The constructor of a client fails only when its callback has run. -/
def Completes (s : State C) : Action C → Prop
  | .constructThrows c => (s.clients c).connection = false
  | _ => True

instance (s : State C) : ∀ a, Decidable (Completes s a)
  | .constructThrows _ => inferInstanceAs (Decidable (_ = _))
  | .construct _ | .constructed _ | .emplace _ | .addDisconnect _ | .destroy _ | .cleanup _
  | .destroyOnLoop _ | .removeThread _ | .deleteConnection | .splice | .run | .finish =>
    inferInstanceAs (Decidable True)

omit [DecidableEq C] in
/-- A client that is neither live nor gone has no second callback. -/
theorem At.unset {c : C} (h : At kind s c) (hk : kind c ≠ .thread ∨
    (s.clients c).phase ≠ .live ∧ (s.clients c).phase ≠ .gone) :
    (s.clients c).disconnectCb = false := by
  cases hcb : (s.clients c).disconnectCb with
  | false => rfl
  | true =>
    obtain ⟨hthread, hp⟩ := h.callback hcb
    rcases hk with hk | ⟨hlive, hgone⟩
    · exact absurd hthread hk
    · rcases hp with hp | hp
      · exact absurd hp hlive
      · exact absurd hp hgone

/-- Every step that meets the condition keeps the invariant. -/
theorem inv_next (s : State C) (a : Action C) (h : Inv kind s) (hok : Completes s a)
    (ha : (cleanups kind).enabled s a) : Inv kind ((cleanups kind).next s a) := by
  cases a with
  | construct c =>
    obtain ⟨hp, hk, hd⟩ := ha
    have hset : s.loop.set ≠ some c := fun hs => by
      cases hp.symm.trans ((h.placed.clients c).setting.mp hs)
    exact ⟨placed_register .constructing s.loop h.placed hp rfl nofun nofun rfl rfl
      ⟨fun hs => absurd hs hset, nofun⟩ (fun _ _ => Iff.rfl) hd,
      ledger_register .constructing s.loop h.ledger hp nofun⟩
  | constructed c =>
    have hp : (s.clients c).phase = .constructing := ha
    have hcb := (h.placed.clients c).unset (.inr (by rw [hp]; exact ⟨nofun, nofun⟩))
    exact ⟨placed_setPhase .live h.placed hcb (by rw [hp]; nofun) (by rw [hp]; nofun) nofun nofun
      (.inl (by rw [hp]; rfl)), ledger_setPhase .live h.ledger nofun nofun nofun⟩
  | constructThrows c =>
    have hp : (s.clients c).phase = .constructing := ha
    have hcb := (h.placed.clients c).unset (.inr (by rw [hp]; exact ⟨nofun, nofun⟩))
    exact ⟨placed_setPhase .failed h.placed hcb (by rw [hp]; nofun) (by rw [hp]; nofun) nofun nofun
      (.inr hok), ledger_setPhase .failed h.ledger nofun nofun nofun⟩
  | emplace c =>
    obtain ⟨hp, hk, hd, hl⟩ := ha
    refine ⟨placed_register .emplaced (.setting c) h.placed hp rfl nofun (fun _ => hk) ?_ ?_
      ⟨fun _ => rfl, fun _ => rfl⟩ (fun c' hne => ?_) hd,
      ledger_register .emplaced (.setting c) h.ledger hp nofun⟩
    · rw [hl]
      rfl
    · rw [hl]
      rfl
    · rw [hl]
      exact ⟨fun he => absurd (Option.some.inj he).symm hne, nofun⟩
  | addDisconnect c =>
    have hl : s.loop = .setting c := ha
    exact ⟨placed_addDisconnect h.placed hl, ledger_addDisconnect h.ledger
      ((h.placed.clients c).setting.mp (by rw [hl]; rfl))⟩
  | destroy c =>
    obtain ⟨hp, hk⟩ := ha
    have hcb := (h.placed.clients c).unset (.inl hk)
    exact ⟨placed_setPhase .destroying h.placed hcb (by rw [hp]; nofun) (by rw [hp]; nofun) nofun nofun
      (.inl (by rw [hp]; rfl)), ledger_setPhase .destroying h.ledger nofun nofun nofun⟩
  | cleanup c =>
    obtain ⟨hp, hl⟩ := ha
    have hcb := (h.placed.clients c).unset (.inr (by rw [hp]; exact ⟨nofun, nofun⟩))
    exact inv_cleanup h hcb (.inr hp) (by rw [hl]; rfl) fun _ => hl
  | destroyOnLoop c =>
    obtain ⟨hp, hk, hd, hown⟩ := ha
    exact inv_cleanup h ((h.placed.clients c).unset (.inl hk)) (.inl hp) hd hown
  | removeThread c => exact inv_destroyThread h ha.1 ha.2.2
  | deleteConnection => exact inv_deleteConnection h ha.1 ha.2
  | splice => exact inv_splice h ha.1 ha.2
  | run =>
    obtain ⟨e, he⟩ := Option.isSome_iff_exists.mp ha
    obtain ⟨d, hl⟩ := loop_of_running he
    cases e with
    | own c => exact inv_runOwn h hl
    | disconnect c => exact inv_runDisconnect h hl
  | finish => exact inv_finish h ha.1 ha.2

theorem inv_opened : Inv kind (opened : State C) where
  placed :=
    { clients := fun c => ⟨⟨nofun, fun hf => (by cases hf.1)⟩, ⟨nofun, fun hf => (by cases hf.1)⟩,
        nofun, nofun, nofun, nofun, nofun, ⟨nofun, nofun⟩, ⟨nofun, nofun⟩⟩
      ordered := List.Pairwise.nil
      deleted := nofun
      unmisused := rfl }
  ledger :=
    { balance := fun _ => rfl
      once := fun _ => Nat.zero_le 1
      fresh := fun _ _ => rfl
      single := fun _ _ => rfl }

end Multiprocess.Cleanup
