import Multiprocess.Connection.Registered

/-!
# Registrations, and clients whose constructor fails

`Registered` is what `~Connection` and the clients rely on. It is read off the invariant, which
every step keeps but the failure of a constructor whose callback is registered; `Dangling` is what
such a failure leaves behind, which no later step repairs.

Which constructors fail is not decided here.
-/

namespace Multiprocess.Cleanup

open Transition (System)

variable {C : Type} [DecidableEq C] {kind : C → Kind} {s t : State C}

/-! ## What is relied on -/

/-- The registrations of a state are right. -/
structure Registered (s : State C) : Prop where
  /-- each client with a connection has one callback registered, unless it is being run -/
  own : ∀ c, (s.clients c).phase.holds = true → (s.clients c).connection = true →
    s.loop.running ≠ some (.own c) → s.fns.count (.own c) = 1
  /-- and one more when it has a second callback, unless that is being run -/
  disconnect : ∀ c, (s.clients c).phase.holds = true → (s.clients c).disconnectCb = true →
    s.loop.running ≠ some (.disconnect c) → s.fns.count (.disconnect c) = 1
  /-- each function registered or being run refers to a client that exists and has a connection -/
  refers : ∀ e, e ∈ s.fns ∨ s.loop.running = some e →
    (s.clients e.client).phase.holds = true ∧ (s.clients e.client).connection = true
  /-- each function is registered once, and then in the list, run or erased -/
  once : ∀ e, s.ran e + s.erased e + s.fns.count e = s.added e ∧ s.added e ≤ 1
  /-- no iterator was erased that was not in the list, no function run for a dead client -/
  valid : s.misused = false
  /-- after the connection is deleted no function is left and no client refers to it -/
  deleted : s.deleted = true → s.fns = [] ∧
    ∀ c, (s.clients c).phase.exists = true → (s.clients c).connection = false

/-- A function that is in the list is there once. -/
theorem count_of_mem (h : Ledger s) {e : Entry C} (he : e ∈ s.fns) : s.fns.count e = 1 := by
  have hpos := List.count_pos_iff.mpr he
  have hbal := h.balance e
  have honce := h.once e
  omega

/-- The invariant gives what the claim of registration asks. -/
theorem registered_of_inv (h : Inv kind s) : Registered s where
  own c hh hconn hr := count_of_mem h.ledger ((h.placed.clients c).own.mpr ⟨hh, hconn, hr⟩)
  disconnect c hh hcb hr := by
    have hc := h.placed.clients c
    refine count_of_mem h.ledger (hc.disconnect.mpr ⟨?_, hcb, hr⟩)
    rcases (hc.callback hcb).2 with hp | hp
    · exact hp
    · rw [hp] at hh
      cases hh
  refers e he := by
    have hc := h.placed.clients e.client
    cases e with
    | own c =>
      rcases he with he | he
      · exact ⟨(hc.own.mp he).1, (hc.own.mp he).2.1⟩
      · exact ⟨(hc.runningOwn he).1, (hc.runningOwn he).2.1⟩
    | disconnect c =>
      obtain ⟨hp, hcb⟩ : (s.clients c).phase = .live ∧ (s.clients c).disconnectCb = true := by
        rcases he with he | he
        · exact ⟨(hc.disconnect.mp he).1, (hc.disconnect.mp he).2.1⟩
        · exact hc.runningDisconnect he
      exact ⟨congrArg Phase.holds hp, hc.connected hp hcb⟩
  once e := ⟨h.ledger.balance e, h.ledger.once e⟩
  valid := h.placed.unmisused
  deleted hd := by
    obtain ⟨hf, hl⟩ := h.placed.deleted hd
    refine ⟨hf, fun c hex => ?_⟩
    have hc := h.placed.clients c
    cases hconn : (s.clients c).connection with
    | false => rfl
    | true =>
      have hclean : (s.clients c).phase ≠ .cleaning := fun hp => by
        have hd := hc.cleaning.mpr hp
        rw [hl] at hd
        cases hd
      have hmem := hc.own.mpr ⟨Phase.holds_of_exists hex hclean, hconn, by rw [hl]; nofun⟩
      rw [hf] at hmem
      cases hmem

/-! ## A client whose constructor fails -/

/-- The callback of a client that does not exist is registered, being run, or has been run. -/
structure Dangling (c : C) (s : State C) : Prop where
  dead : (s.clients c).phase = .failed ∨ (s.clients c).phase = .gone
  left : .own c ∈ s.fns ∨ s.loop.running = some (.own c) ∨ s.misused = true
  notSetting : s.loop.set ≠ some c

/-- A client that dangles is not registered. -/
theorem not_registered_of_dangling {c : C} (h : Dangling c s) : ¬ Registered s := by
  intro hr
  have hno : ¬ (.own c ∈ s.fns ∨ s.loop.running = some (.own c)) := fun he => by
    have hholds := (hr.refers _ he).1
    rw [Entry.client_own] at hholds
    rcases h.dead with hd | hd <;> rw [hd] at hholds <;> cases hholds
  rcases h.left with hl | hl | hl
  · exact hno (.inl hl)
  · exact hno (.inr hl)
  · cases hr.valid.symm.trans hl

/-- A step leaves a client, its callback and what is known of misuse alone. -/
structure Leaves (c : C) (s t : State C) : Prop where
  client : t.clients c = s.clients c
  fns : .own c ∈ s.fns → .own c ∈ t.fns
  misused : s.misused = true → t.misused = true

namespace Leaves

variable {c d : C}

omit [DecidableEq C] in
theorem trans {u : State C} (h : Leaves c s t) (k : Leaves c t u) : Leaves c s u :=
  ⟨k.client.trans h.client, k.fns ∘ h.fns, k.misused ∘ h.misused⟩

theorem update (f : Client → Client) (hd : c ≠ d) : Leaves c s (s.update d f) :=
  ⟨update_other hd, id, id⟩

theorem addSyncCleanup (e : Entry C) : Leaves c s (s.addSyncCleanup e) :=
  ⟨rfl, List.mem_cons_of_mem _, id⟩

theorem setPhase (phase : Phase) (hd : c ≠ d) : Leaves c s (s.setPhase d phase) := update _ hd

theorem register (phase : Phase) (hd : c ≠ d) : Leaves c s (s.register d phase) :=
  (addSyncCleanup (.own d)).trans (update _ hd)

theorem removeSyncCleanup {e : Entry C} (he : e ≠ .own c) : Leaves c s (s.removeSyncCleanup e) := by
  refine ⟨by rw [removeSyncCleanup_clients], fun hmem => ?_, fun hm => ?_⟩ <;>
    unfold State.removeSyncCleanup <;> split
  · exact (List.mem_erase_of_ne (Ne.symm he)).mpr hmem
  · exact hmem
  · exact hm
  · rfl

omit [DecidableEq C] in
theorem touch (c d : C) (s : State C) : Leaves c s (s.touch d) := by
  unfold State.touch
  split
  · exact ⟨rfl, id, id⟩
  · exact ⟨rfl, id, fun _ => rfl⟩

theorem cleanup (k : Kind) (hd : c ≠ d) : Leaves c s (s.cleanup k d) := by
  have hrem := (removeSyncCleanup (s := s) (e := .own d) fun he => hd (Entry.own.inj he).symm)
  unfold State.cleanup
  split
  · split
    · have hset := hrem.trans (update ({ · with phase := .cleaning }) hd)
      exact ⟨hset.client, hset.fns, hset.misused⟩
    · exact hrem.trans (update _ hd)
  · exact update _ hd

theorem destroyThread (hd : c ≠ d) : Leaves c s (s.destroyThread d) := by
  unfold State.destroyThread
  split
  · split
    · have hrem : Leaves c s (s.removeSyncCleanup (.disconnect d)) := removeSyncCleanup (by nofun)
      exact hrem.trans (cleanup _ hd)
    · have hmis : Leaves c s { s with misused := true } := ⟨rfl, id, fun _ => rfl⟩
      exact hmis.trans (cleanup _ hd)
  · exact cleanup _ hd

end Leaves

omit [DecidableEq C] in
/-- A step that leaves a dangling client alone leaves it dangling. -/
theorem Dangling.of_leaves {c : C} (h : Dangling c s) (hl : Leaves c s t)
    (running : s.loop.running = some (.own c) → t.loop.running = some (.own c))
    (set : t.loop.set ≠ some c) : Dangling c t where
  dead := by rw [hl.client]; exact h.dead
  left := h.left.imp hl.fns (Or.imp running hl.misused)
  notSetting := set

omit [DecidableEq C] in
/-- A client that is somewhere else in its life is another one. -/
theorem Dangling.ne {c d : C} (h : Dangling c s) {p : Phase} (hd : (s.clients d).phase = p)
    (hf : p ≠ .failed) (hg : p ≠ .gone) : c ≠ d := by
  rintro rfl
  rcases h.dead with hc | hc
  · exact hf (hd.symm.trans hc)
  · exact hg (hd.symm.trans hc)

/-- Only the owner's cleanup moves the loop thread, to the deletion of the connection. -/
theorem cleanup_loop (k : Kind) (d : C) : (s.cleanup k d).loop = s.loop ∨
    k = .owner ∧ (s.cleanup k d).loop = .deleting (some d) none := by
  unfold State.cleanup
  split
  · split
    · next hko => exact .inr ⟨hko, rfl⟩
    · exact .inl removeSyncCleanup_loop
  · exact .inl rfl

/-- The cleanup of a thread's client does not. -/
theorem cleanup_loop_thread (d : C) : (s.cleanup .thread d).loop = s.loop := by
  rcases cleanup_loop .thread d with hl | ⟨hk, -⟩
  · exact hl
  · cases hk

/-- Nor does its destruction. -/
theorem destroyThread_loop (d : C) : (s.destroyThread d).loop = s.loop := by
  unfold State.destroyThread
  split
  · split
    · exact (cleanup_loop_thread d).trans removeSyncCleanup_loop
    · exact cleanup_loop_thread d
  · exact cleanup_loop_thread d

/-- The cleanup function of another client. -/
theorem Dangling.cleanup {c d : C} (h : Dangling c s) {k : Kind} (hd : c ≠ d)
    (hk : k = .owner → s.loop = .idle) : Dangling c (s.cleanup k d) := by
  rcases cleanup_loop k d with hl | ⟨hko, hl⟩
  · exact h.of_leaves (.cleanup k hd) (by rw [hl]; exact id) (by rw [hl]; exact h.notSetting)
  · refine h.of_leaves (.cleanup k hd) ?_ (by rw [hl]; nofun)
    rw [hk hko]
    nofun

/-- The cleanup function of a dead client that is destroyed once more. -/
theorem cleanup_dead (c : C) (h : s.misused = true) :
    ((s.cleanup .thread c).clients c).phase = .gone ∧ (s.cleanup .thread c).misused = true := by
  have hne : Kind.thread ≠ .owner := nofun
  cases hconn : (s.clients c).connection with
  | false =>
    rw [cleanup_null hconn, setPhase_same]
    exact ⟨rfl, h⟩
  | true =>
    rw [cleanup_connected hconn hne, setPhase_same]
    refine ⟨rfl, ?_⟩
    rw [setPhase_misused]
    unfold State.removeSyncCleanup
    split
    · exact h
    · rfl

/-- The functions `~Connection` runs: one for the dead client is a misuse. -/
theorem Dangling.run {c : C} (h : Dangling c s) {e : Entry C} {d : Option C}
    (hl : s.loop = .deleting d (some e)) : Dangling c s.run := by
  have hrun : s.run = { s.runFn e with loop := .deleting d none } := by
    unfold State.run
    rw [hl]
  rw [hrun]
  have hdead : (s.clients c).phase.exists = false := by
    rcases h.dead with hc | hc <;> rw [hc] <;> rfl
  have htouch : s.touch c = { s with misused := true } := by
    unfold State.touch
    rw [hdead, if_neg nofun]
  have hother : ∀ u : State C, Leaves c s u → e ≠ .own c →
      Dangling c { u with loop := .deleting d none } := by
    intro u hu he
    refine ⟨by rw [hu.client]; exact h.dead, ?_, nofun⟩
    rcases h.left with hf | hr | hm
    · exact .inl (hu.fns hf)
    · rw [hl] at hr
      exact absurd (Option.some.inj hr) he
    · exact .inr (.inr (hu.misused hm))
  cases e with
  | own c' =>
    by_cases hc : c = c'
    · subst hc
      refine ⟨?_, .inr (.inr ?_), nofun⟩
      · have hphase : ((s.runFn (.own c)).clients c).phase = (s.clients c).phase := by
          show (((s.touch c).update c ({ · with connection := false })).clients c).phase = _
          rw [update_same, htouch]
        exact h.dead.imp hphase.trans hphase.trans
      · change (s.touch c).misused = true
        rw [htouch]
    · exact hother _ ((Leaves.touch c c' s).trans (.update ({ · with connection := false }) hc))
        fun he => hc (Entry.own.inj he).symm
  | disconnect c' =>
    by_cases hc : c = c'
    · subst hc
      have hcb : (((s.touch c).update c ({ · with disconnectCb := false })).clients c).disconnectCb
          = false := by rw [update_same]
      have hmis : ((s.touch c).update c ({ · with disconnectCb := false })).misused = true := by
        change (s.touch c).misused = true
        rw [htouch]
      have hgone := cleanup_dead c hmis
      rw [← destroyThread_unset hcb] at hgone
      exact ⟨.inr hgone.1, .inr (.inr hgone.2), nofun⟩
    · exact hother _ (((Leaves.touch c c' s).trans
        (.update ({ · with disconnectCb := false }) hc)).trans (.destroyThread hc)) nofun

/-- No step gives a dead client's callback back. -/
theorem dangling_next {c : C} (s : State C) (a : Action C) (h : Dangling c s)
    (ha : (cleanups kind).enabled s a) : Dangling c ((cleanups kind).next s a) := by
  cases a with
  | construct d => exact h.of_leaves (.register _ (h.ne ha.1 nofun nofun)) id h.notSetting
  | constructed d => exact h.of_leaves (.setPhase .live (h.ne ha nofun nofun)) id h.notSetting
  | constructThrows d => exact h.of_leaves (.setPhase .failed (h.ne ha nofun nofun)) id h.notSetting
  | emplace d =>
    obtain ⟨hp, -, -, hl⟩ := ha
    have hd := h.ne hp nofun nofun
    have hreg := Leaves.register (s := s) .emplaced hd
    refine h.of_leaves ⟨hreg.client, hreg.fns, hreg.misused⟩ ?_ ?_
    · rw [hl]
      nofun
    · exact fun hs => hd (Option.some.inj hs).symm
  | addDisconnect d =>
    have hl : s.loop = .setting d := ha
    have hd : c ≠ d := by
      rintro rfl
      exact h.notSetting (by rw [hl]; rfl)
    have hadd := (Leaves.addSyncCleanup (s := s) (c := c) (.disconnect d)).trans
      (.update ({ · with phase := .live, disconnectCb := true }) hd)
    refine h.of_leaves ⟨hadd.client, hadd.fns, hadd.misused⟩ ?_ nofun
    rw [hl]
    nofun
  | destroy d => exact h.of_leaves (.setPhase .destroying (h.ne ha.1 nofun nofun)) id h.notSetting
  | cleanup d => exact h.cleanup (h.ne ha.1 nofun nofun) fun _ => ha.2
  | destroyOnLoop d => exact h.cleanup (h.ne ha.1 nofun nofun) ha.2.2.2
  | removeThread d =>
    have hl := destroyThread_loop (s := s) d
    refine h.of_leaves (.destroyThread (h.ne ha.1 nofun nofun)) (fun hr => ?_) fun hs => ?_
    · exact (congrArg LoopPc.running hl).trans hr
    · exact h.notSetting ((congrArg LoopPc.set hl).symm.trans hs)
  | deleteConnection =>
    refine h.of_leaves ⟨rfl, id, id⟩ ?_ nofun
    rw [show s.loop = .idle from ha.1]
    nofun
  | splice =>
    obtain ⟨d, hl⟩ := loop_of_between ha.1
    obtain ⟨e, fns, hf⟩ := List.exists_cons_of_ne_nil ha.2
    change Dangling c s.splice
    rw [splice_cons hl hf]
    refine ⟨h.dead, ?_, nofun⟩
    rcases h.left with hmem | hr | hm
    · rw [hf] at hmem
      rcases List.mem_cons.mp hmem with rfl | hmem
      · exact .inr (.inl rfl)
      · exact .inl hmem
    · rw [hl] at hr
      cases hr
    · exact .inr (.inr hm)
  | run =>
    obtain ⟨e, he⟩ := Option.isSome_iff_exists.mp ha
    obtain ⟨d, hl⟩ := loop_of_running he
    exact h.run hl
  | finish =>
    obtain ⟨d, hl⟩ := loop_of_between ha.1
    have hr : s.loop.running ≠ some (.own c) := by
      rw [hl]
      nofun
    change Dangling c s.finish
    cases d with
    | none =>
      rw [finish_handler hl]
      exact h.of_leaves ⟨rfl, id, id⟩ (fun he => absurd he hr) nofun
    | some d =>
      rw [finish_owner hl]
      by_cases hd : c = d
      · subst hd
        have hcl := update_same (s := s) (c := c)
          (f := ({ · with phase := .gone, connection := false }))
        exact ⟨.inr (congrArg Client.phase hcl), h.left.imp_right (.inr <| ·.resolve_left hr), nofun⟩
      · have hup := Leaves.update (s := s) ({ · with phase := .gone, connection := false }) hd
        exact h.of_leaves ⟨hup.client, hup.fns, hup.misused⟩ (fun he => absurd he hr) nofun

/-- A constructor that fails leaves its callback behind. -/
theorem dangling_of_throw (h : Inv kind s) {c : C} (hp : (s.clients c).phase = .constructing)
    (hconn : (s.clients c).connection = true) : Dangling c (s.setPhase c .failed) := by
  have hc := h.placed.clients c
  refine ⟨.inl (by rw [setPhase_same]), ?_, fun hs => ?_⟩
  · by_cases hr : s.loop.running = some (.own c)
    · exact .inr (.inl hr)
    · exact .inl (hc.own.mpr ⟨by rw [hp]; rfl, hconn, hr⟩)
  · cases hp.symm.trans (hc.setting.mp hs)

/-- A constructor that throws half way leaves a dangling client. -/
theorem dangling_of_not_completes (h : Inv kind s) {a : Action C}
    (ha : (cleanups kind).enabled s a) (hn : ¬ Completes s a) :
    ∃ c, Dangling c ((cleanups kind).next s a) := by
  cases a with
  | constructThrows c =>
    exact ⟨c, dangling_of_throw h ha ((Bool.not_eq_false _).mp hn)⟩
  | _ => exact absurd trivial hn

/-- A run in which a constructor fails with its callback registered ends with that dangling. -/
theorem dangling_of_not_meets (h : Inv kind s) {as : List (Action C)}
    (path : (cleanups kind).Path s as t) (hn : ¬ (cleanups kind).Meets Completes s as) :
    ∃ c, Dangling c t := by
  induction path with
  | nil => exact absurd trivial hn
  | @cons s t a as ha rest ih =>
    by_cases hok : Completes s a
    · exact ih (inv_next s a h hok ha) fun hm => hn ⟨hok, hm⟩
    · obtain ⟨c, hc⟩ := dangling_of_not_completes h ha hok
      exact ⟨c, rest.keeps dangling_next hc⟩

/-- The registrations are right after a run, in every order of its steps, exactly when no client
constructor in it failed with its callback still registered. -/
theorem registered_iff_meets (kind : C → Kind) (as : List (Action C)) (t : State C)
    (path : (cleanups kind).Path opened as t) :
    Registered t ↔ (cleanups kind).Meets Completes opened as := by
  constructor
  · intro hr
    by_contra hn
    obtain ⟨c, hc⟩ := dangling_of_not_meets inv_opened path hn
    exact not_registered_of_dangling hc hr
  · intro hok
    have hinv := (System.guardedBy_path_iff.mpr ⟨path, hok⟩).keeps (I := Inv kind)
      (by
        rintro s a hs ⟨hok, ha⟩
        exact inv_next s a hs hok ha) inv_opened
    exact registered_of_inv hinv

/-- A map entry, a client that owns the connection and another one: the owner is destroyed, and
`~Connection` runs the callback that destroys the map entry, which takes its own callback back. -/
theorem registered_after_owner :
    ∃ t, (cleanups (C := Nat) fun c => if c = 0 then .owner else if c = 1 then .thread else .plain).Path
        opened [.construct 0, .constructed 0, .construct 2, .emplace 1, .constructed 2,
          .addDisconnect 1, .destroy 0, .cleanup 0, .splice, .run, .splice, .run, .finish] t ∧
      Registered t ∧ t.deleted = true ∧ t.erased (.own 1) = 1 ∧ t.ran (.disconnect 1) = 1 ∧
      t.ran (.own 2) = 1 := by
  obtain ⟨t, hrun, hp⟩ := Option.map_eq_some_iff.mp (show
    ((cleanups (C := Nat) fun c => if c = 0 then .owner else if c = 1 then .thread else .plain).run
        opened [.construct 0, .constructed 0, .construct 2, .emplace 1, .constructed 2,
          .addDisconnect 1, .destroy 0, .cleanup 0, .splice, .run, .splice, .run, .finish]).map
      (fun t => decide (t.deleted = true ∧ t.erased (.own 1) = 1 ∧ t.ran (.disconnect 1) = 1 ∧
        t.ran (.own 2) = 1)) = some true by decide)
  have path := System.run_eq_some_iff.mp hrun
  exact ⟨t, path, (registered_iff_meets _ _ t path).mpr (by decide), of_decide_eq_true hp⟩

/-- The constructor of a client throws: its callback stays in the list, and `~Connection` runs it
for an object that does not exist. -/
theorem dangling_after_throw :
    (∃ t, (cleanups (C := Nat) fun _ => .plain).Reachable t ∧ .own 0 ∈ t.fns ∧
        (t.clients 0).phase = .failed ∧ ¬ Registered t) ∧
      ∃ t, (cleanups (C := Nat) fun _ => .plain).Reachable t ∧ t.misused = true := by
  constructor
  · obtain ⟨t, ht, hp⟩ := System.exists_reachable_of_run
      (cleanups (C := Nat) fun _ => .plain) (s := opened) rfl [.construct 0, .constructThrows 0]
      (fun t => decide (.own 0 ∈ t.fns ∧ (t.clients 0).phase = .failed)) (by decide)
    obtain ⟨hmem, hfail⟩ := of_decide_eq_true hp
    refine ⟨t, ht, hmem, hfail, fun hr => ?_⟩
    have hholds := (hr.refers _ (.inl hmem)).1
    rw [Entry.client_own, hfail] at hholds
    cases hholds
  · obtain ⟨t, ht, hp⟩ := System.exists_reachable_of_run
      (cleanups (C := Nat) fun _ => .plain) (s := opened) rfl
      [.construct 0, .constructThrows 0, .deleteConnection, .splice, .run]
      (fun t => t.misused) (by decide)
    exact ⟨t, ht, hp⟩

end Multiprocess.Cleanup
