import Multiprocess.Loop.Model

/-!
# `EventLoop::post` is an exactly-once rendezvous

`Rendezvous` says, in every state of any number of threads, what the slot `m_post_fn`, the
posters' positions, the loop thread and the bytes in the pipe have to do with each other, and how
often each posted function has run. One lemma for each operation of `State` shows that the
operation keeps it; `rendezvous_next` takes the action apart into operations.

Nothing is assumed of the threads here, and anybody may write bytes to the pipe. That every call
returns in the end is said in `Progress`.
-/

namespace Multiprocess.Loop

variable {T : Type}

/-! ## What the operations read and change -/

@[simp] theorem PostPc.installed_notified (pc : PostPc) :
    pc.notified.installed = pc.installed := by cases pc <;> rfl

@[simp] theorem PostPc.asleep_notified (pc : PostPc) : pc.notified.asleep = false := by
  cases pc <;> rfl

@[simp] theorem PostPc.notified_eq_notify (pc : PostPc) : pc.notified = .notify ↔ pc = .notify := by
  cases pc <;> simp only [PostPc.notified, reduceCtorEq]

theorem PostPc.notified_ne_waitSlot (pc : PostPc) : pc.notified ≠ .waitSlot true := by
  cases pc <;> simp only [PostPc.notified, ne_eq, reduceCtorEq, not_false_eq_true,
    PostPc.waitSlot.injEq, Bool.false_eq_true]

theorem PostPc.notified_ne_waitDone (pc : PostPc) : pc.notified ≠ .waitDone true := by
  cases pc <;> simp only [PostPc.notified, ne_eq, reduceCtorEq, not_false_eq_true,
    PostPc.waitDone.injEq, Bool.false_eq_true]

variable [DecidableEq T]

/-- Where the threads are after one has moved. -/
theorem setPost_post (s : State T) (p q : Thread T) (pc : PostPc) :
    (s.setPost p pc).post q = if q = p then pc else s.post q := by
  simp only [State.setPost, Function.update_apply]

theorem setPost_same (s : State T) (p : Thread T) (pc : PostPc) :
    (s.setPost p pc).post p = pc := by simp only [State.setPost, Function.update_self]

/-- The others are where they were. -/
theorem setPost_other {p q : Thread T} (s : State T) (pc : PostPc) (h : q ≠ p) :
    (s.setPost p pc).post q = s.post q := by rw [setPost_post, if_neg h]

/-! ## The invariant -/

/-- The function of the call has run or is running. -/
def State.ran (s : State T) (c : Call T) : Prop :=
  c.seq < s.calls c.thread ∨
    c = s.call c.thread ∧ (s.post c.thread).installed = true ∧
      (s.postFn ≠ some c ∨ s.loop = .running c)

instance (s : State T) (c : Call T) : Decidable (s.ran c) :=
  inferInstanceAs (Decidable (_ ∨ _ ∧ _ ∧ (_ ∨ _)))

/-- What relates the slot, the posters, the loop thread, the pipe and the runs. -/
structure Rendezvous (s : State T) : Prop where
  -- the slot holds the call its thread is in
  slot : ∀ c, s.postFn = some c → (s.post c.thread).installed = true ∧ c = s.call c.thread
  running : ∀ c, s.loop = .running c → s.postFn = some c
  runs : ∀ c, s.runs c = if s.ran c then 1 else 0
  -- no wake-up is lost
  byte : ∀ c, s.postFn = some c →
    s.post c.thread = .notify ∨ 0 < s.pipe ∨ s.loop = .checking ∨ s.loop = .running c
  -- who sleeps has a reason to
  slotWait : ∀ p, s.post p = .waitSlot true → s.postFn ≠ none
  doneWait : ∀ p, s.post p = .waitDone true → s.postFn = some (s.call p)

/-- At the start the slot is free and nobody is in `post`. -/
theorem rendezvous_of_starts {s : State T} (h : Starts s) : Rendezvous s where
  slot c hc := by rw [h.postFn] at hc; cases hc
  running c hc := by rw [h.loop] at hc; cases hc
  runs c := by
    have hno : ¬ s.ran c := by
      rintro (hlt | ⟨-, hin, -⟩)
      · rw [h.calls] at hlt
        exact Nat.not_lt_zero _ hlt
      · rw [h.post] at hin
        cases hin
    rw [if_neg hno, h.runs]
  byte c hc := by rw [h.postFn] at hc; cases hc
  slotWait p hp := by rw [h.post] at hp; cases hp
  doneWait p hp := by rw [h.post] at hp; cases hp

/-! ## One lemma for each operation -/

/-- A change of what the invariant does not read. -/
theorem rendezvous_same_fields {s t : State T} (h : Rendezvous s) (slot : t.postFn = s.postFn)
    (loop : t.loop = s.loop) (post : t.post = s.post) (calls : t.calls = s.calls)
    (runs : t.runs = s.runs) (pipe : s.pipe ≤ t.pipe) : Rendezvous t := by
  have hran : ∀ c, t.ran c ↔ s.ran c := by
    intro c
    simp only [State.ran, State.call, slot, loop, post, calls]
  refine ⟨?_, ?_, ?_, ?_, ?_, ?_⟩
  · simpa only [slot, post, State.call, calls] using h.slot
  · simpa only [slot, loop] using h.running
  · intro c
    simp only [runs, h.runs, hran]
  · intro c hc
    rw [slot] at hc
    rw [post, loop]
    rcases h.byte c hc with hb | hb | hb
    · exact .inl hb
    · exact .inr (.inl (Nat.lt_of_lt_of_le hb pipe))
    · exact .inr (.inr hb)
  · simpa only [slot, post] using h.slotWait
  · simpa only [slot, post, State.call, calls] using h.doneWait

/-- Waking everybody keeps who installed what. -/
theorem rendezvous_notifyAll {s : State T} (h : Rendezvous s) : Rendezvous s.notifyAll where
  slot c hc := by
    obtain ⟨hin, he⟩ := h.slot c hc
    exact ⟨by simpa only [State.notifyAll, PostPc.installed_notified] using hin, he⟩
  running := h.running
  runs c := by
    have hran : s.notifyAll.ran c ↔ s.ran c := by
      simp only [State.ran, State.notifyAll, State.call, PostPc.installed_notified]
    simp only [hran]
    exact h.runs c
  byte c hc := by
    simp only [State.notifyAll, PostPc.notified_eq_notify]
    exact h.byte c hc
  slotWait p hp := absurd hp (PostPc.notified_ne_waitSlot _)
  doneWait p hp := absurd hp (PostPc.notified_ne_waitDone _)

/-- A thread moves without passing the assignment of `m_post_fn` or the return of `post`. -/
theorem rendezvous_setPost {s : State T} (h : Rendezvous s) (p : Thread T) {pc : PostPc}
    (same : pc.installed = (s.post p).installed)
    (byte : s.post p = .notify → pc = .notify ∨ 0 < s.pipe)
    (slotWait : pc = .waitSlot true → s.postFn ≠ none)
    (doneWait : pc = .waitDone true → s.postFn = some (s.call p)) :
    Rendezvous (s.setPost p pc) := by
  have hin : ∀ q, ((s.setPost p pc).post q).installed = (s.post q).installed := by
    intro q
    rw [setPost_post]
    split
    · next he => rw [he, same]
    · rfl
  refine ⟨?_, h.running, ?_, ?_, ?_, ?_⟩
  · intro c hc
    rw [hin]
    exact h.slot c hc
  · intro c
    have hran : (s.setPost p pc).ran c ↔ s.ran c := by
      unfold State.ran
      rw [hin]
      rfl
    simp only [hran]
    exact h.runs c
  · intro c hc
    rcases h.byte c hc with hb | hb | hb
    · by_cases he : c.thread = p
      · rw [he, setPost_same]
        rw [he] at hb
        exact (byte hb).imp_right .inl
      · exact .inl ((setPost_other s pc he).trans hb)
    · exact .inr (.inl hb)
    · exact .inr (.inr hb)
  · intro q hq
    by_cases he : q = p
    · rw [he, setPost_same] at hq
      exact slotWait hq
    · rw [setPost_other s pc he] at hq
      exact h.slotWait q hq
  · intro q hq
    by_cases he : q = p
    · rw [he, setPost_same] at hq
      rw [he]
      exact doneWait hq
    · rw [setPost_other s pc he] at hq
      exact h.doneWait q hq

/-- The loop thread moves, but not into or out of a function. -/
theorem rendezvous_loop {s t : State T} (h : Rendezvous s) (slot : t.postFn = s.postFn)
    (post : t.post = s.post) (calls : t.calls = s.calls) (runs : t.runs = s.runs)
    (old : ∀ c, s.loop ≠ .running c) (new : ∀ c, t.loop ≠ .running c)
    (byte : ∀ c, s.postFn = some c →
      s.post c.thread = .notify ∨ 0 < t.pipe ∨ t.loop = .checking) : Rendezvous t := by
  have hran : ∀ c, t.ran c ↔ s.ran c := by
    intro c
    simp only [State.ran, State.call, slot, post, calls, old c, new c, or_false]
  refine ⟨?_, fun c hc => absurd hc (new c), ?_, ?_, ?_, ?_⟩
  · simpa only [slot, post, State.call, calls] using h.slot
  · intro c
    simp only [runs, h.runs, hran]
  · intro c hc
    rw [slot] at hc
    rw [post]
    rcases byte c hc with hb | hb | hb
    · exact .inl hb
    · exact .inr (.inl hb)
    · exact .inr (.inr (.inl hb))
  · simpa only [slot, post] using h.slotWait
  · simpa only [slot, post, State.call, calls] using h.doneWait

/-- The loop thread moves on its way out of `loop()`. -/
theorem rendezvous_leave {s t : State T} (h : Rendezvous s) {pc : LoopPc T} (loop : s.loop = pc)
    (notChecking : pc ≠ .checking) (notRunning : ∀ c, pc ≠ .running c)
    (new : ∀ c, t.loop ≠ .running c) (slot : t.postFn = s.postFn) (post : t.post = s.post)
    (calls : t.calls = s.calls) (runs : t.runs = s.runs) (pipe : t.pipe = s.pipe) :
    Rendezvous t := by
  subst loop
  refine rendezvous_loop h slot post calls runs notRunning new ?_
  intro c hc
  rw [pipe]
  rcases h.byte c hc with hb | hb | hb | hb
  · exact .inl hb
  · exact .inr (.inl hb)
  · exact absurd hb notChecking
  · exact absurd hb (notRunning c)

/-- The loop thread runs a function that is in the slot. -/
theorem not_running_of_slot_free {s : State T} (h : Rendezvous s) (free : s.postFn = none)
    (c : Call T) : s.loop ≠ .running c := by
  intro hc
  rw [h.running c hc] at free
  cases free

/-- `m_post_fn = &fn`. -/
theorem rendezvous_install {s : State T} (h : Rendezvous s) (p : Thread T)
    (free : s.postFn = none) (out : (s.post p).installed = false) :
    Rendezvous { s.setPost p .notify with postFn := some (s.call p) } := by
  have hidle := not_running_of_slot_free h free
  refine ⟨?_, ?_, ?_, ?_, ?_, ?_⟩
  · rintro c hc
    cases hc
    have hat : (s.setPost p .notify).post p = .notify := setPost_same s p _
    exact ⟨by simp only [State.call, hat, PostPc.installed], rfl⟩
  · intro c hc
    exact absurd hc (hidle c)
  · intro c
    have hran : State.ran { s.setPost p .notify with postFn := some (s.call p) } c ↔ s.ran c := by
      unfold State.ran
      refine or_congr_right ?_
      by_cases he : c.thread = p
      · -- its function is in the slot and has not started
        refine iff_of_false ?_ ?_
        · rintro ⟨hc, -, hrun | hrun⟩
          · exact hrun (by rw [hc, he]; rfl)
          · exact hidle c hrun
        · rintro ⟨-, hin, -⟩
          rw [he, out] at hin
          cases hin
      · have hne : some (s.call p) ≠ some c := by
          rintro ⟨⟩
          exact he rfl
        simp only [setPost_other s _ he, free, hne, ne_eq, not_false_eq_true, true_or, reduceCtorEq]
        rfl
    simp only [hran]
    exact h.runs c
  · rintro c hc
    cases hc
    exact .inl (setPost_same s p _)
  · intro q _ hq
    cases hq
  · intro q hq
    by_cases he : q = p
    · rw [he]
      rfl
    · have hq : s.post q = .waitDone true := (setPost_other s _ he).symm.trans hq
      have hslot := h.doneWait q hq
      rw [free] at hslot
      cases hslot

/-- `post` returns. -/
theorem rendezvous_return {s : State T} (h : Rendezvous s) (p : Thread T) {pc : PostPc}
    (inside : (s.post p).installed = true) (cleared : s.postFn ≠ some (s.call p))
    (outside : pc.installed = false) (awake : pc.asleep = false) :
    Rendezvous
      (({ s with calls := Function.update s.calls p (s.calls p + 1) }).setPost p pc) := by
  have hslot : ∀ c, s.postFn = some c → c.thread ≠ p := by
    intro c hc he
    obtain ⟨-, hcall⟩ := h.slot c hc
    rw [hcall, he] at hc
    exact cleared hc
  have hcalls : ∀ q, q ≠ p → Function.update s.calls p (s.calls p + 1) q = s.calls q := by
    intro q hq
    rw [Function.update_of_ne hq]
  have hpost : ∀ q, q ≠ p →
      (({ s with calls := Function.update s.calls p (s.calls p + 1) }).setPost p pc).post q
        = s.post q := fun q hq => setPost_other _ pc hq
  have hat : (({ s with calls := Function.update s.calls p (s.calls p + 1) }).setPost p pc).post p
      = pc := setPost_same _ p pc
  refine ⟨?_, h.running, ?_, ?_, ?_, ?_⟩
  · intro c hc
    obtain ⟨hin, hcall⟩ := h.slot c hc
    have hne := hslot c hc
    refine ⟨by rw [hpost _ hne, hin], ?_⟩
    rw [hcall]
    simp only [State.call, State.setPost, hcalls _ hne]
  · intro c
    have hran : State.ran
        (({ s with calls := Function.update s.calls p (s.calls p + 1) }).setPost p pc) c
          ↔ s.ran c := by
      obtain ⟨q, n⟩ := c
      by_cases he : q = p
      · subst he
        simp only [State.ran, hat, outside, Bool.false_eq_true, false_and, and_false, or_false,
          inside, true_and]
        simp only [State.setPost, Function.update_self, State.call, Call.mk.injEq, true_and]
        constructor
        · intro hlt
          by_cases hn : n = s.calls q
          · refine .inr ⟨hn, .inl ?_⟩
            rw [hn]
            exact cleared
          · exact .inl (by omega)
        · rintro (hlt | ⟨heq, -⟩) <;> omega
      · simp only [State.ran, hpost q he, State.call]
        simp only [State.setPost, hcalls q he]
    simp only [hran]
    exact h.runs c
  · intro c hc
    rw [hpost _ (hslot c hc)]
    exact h.byte c hc
  · intro q hq
    by_cases he : q = p
    · rw [he, hat] at hq
      rw [hq] at awake
      cases awake
    · rw [hpost q he] at hq
      exact h.slotWait q hq
  · intro q hq
    by_cases he : q = p
    · rw [he, hat] at hq
      rw [hq] at awake
      cases awake
    · rw [hpost q he] at hq
      rw [show State.postFn _ = s.postFn from rfl, h.doneWait q hq]
      simp only [State.call, State.setPost, hcalls q he]

/-- The loop starts the function it found in the slot. -/
theorem rendezvous_start {s : State T} (h : Rendezvous s) {c : Call T} (slot : s.postFn = some c)
    (loop : s.loop = .checking) :
    Rendezvous { s with
      loop := .running c, runs := Function.update s.runs c (s.runs c + 1) } := by
  obtain ⟨hin, hcall⟩ := h.slot c slot
  have hnew : ¬ s.ran c := by
    rintro (hlt | ⟨-, -, hne | hrun⟩)
    · rw [hcall] at hlt
      exact Nat.lt_irrefl _ hlt
    · exact hne slot
    · rw [loop] at hrun
      cases hrun
  refine ⟨h.slot, ?_, ?_, ?_, h.slotWait, h.doneWait⟩
  · rintro d hd
    cases hd
    exact slot
  · intro d
    have hd := h.runs d
    by_cases he : d = c
    · subst he
      rw [if_neg hnew] at hd
      simp only [Function.update_self, hd]
      rw [if_pos]
      exact .inr ⟨hcall, hin, .inr rfl⟩
    · have hran : State.ran { s with
          loop := .running c, runs := Function.update s.runs c (s.runs c + 1) } d ↔ s.ran d := by
        have hcd : LoopPc.running c ≠ .running d := by
          rintro ⟨⟩
          exact he rfl
        simp only [State.ran, State.call, loop, hcd, reduceCtorEq]
      simp only [Function.update_of_ne he, hd, hran]
  · rintro d hd
    rw [slot] at hd
    cases hd
    exact .inr (.inr (.inr rfl))

/-- A check that finds a function runs it. -/
theorem check_of_slot {s : State T} {c : Call T} (slot : s.postFn = some c) :
    s.check = { s with
      loop := .running c, runs := Function.update s.runs c (s.runs c + 1) } := by
  obtain ⟨postFn⟩ := s
  cases slot
  rfl

/-- One that finds none reads on, or closes. -/
theorem check_of_free {s : State T} (free : s.postFn = none) :
    s.check = { s with loop := if s.done then .breaking else .reading } := by
  obtain ⟨postFn⟩ := s
  cases free
  rfl

/-- Either way the slot stays as it is. -/
theorem rendezvous_check {s : State T} (h : Rendezvous s) (loop : s.loop = .checking) :
    Rendezvous s.check := by
  cases hslot : s.postFn with
  | some c =>
    rw [check_of_slot hslot]
    exact rendezvous_start h hslot loop
  | none =>
    rw [check_of_free hslot]
    have hnew : ∀ c : Call T, (if s.done then LoopPc.breaking else .reading) ≠ .running c := by
      intro c
      split <;> simp only [ne_eq, reduceCtorEq, not_false_eq_true]
    refine rendezvous_loop h rfl rfl rfl rfl (not_running_of_slot_free h hslot) hnew ?_
    intro c hc
    rw [hslot] at hc
    cases hc

/-- The function has returned or thrown: the slot is empty and every sleeper is woken. -/
theorem rendezvous_finish {s : State T} (h : Rendezvous s) {c : Call T}
    (loop : s.loop = .running c) : Rendezvous s.finish := by
  have hslot := h.running c loop
  refine ⟨?_, ?_, ?_, ?_, ?_, ?_⟩
  · intro d hd
    cases hd
  · intro d hd
    cases hd
  · intro d
    have hran : s.finish.ran d ↔ s.ran d := by
      have hold : s.postFn ≠ some d ∨ s.loop = .running d := by
        rw [hslot, loop]
        by_cases he : c = d
        · exact .inr (congrArg _ he)
        · exact .inl fun hc => he (Option.some.inj hc)
      have hnew : s.finish.postFn ≠ some d ∨ s.finish.loop = .running d := .inl nofun
      simp only [State.ran, hold, hnew, and_true]
      simp only [State.finish, State.notifyAll, State.call, PostPc.installed_notified]
    simp only [hran]
    exact h.runs d
  · intro d hd
    cases hd
  · intro p hp
    exact absurd hp (PostPc.notified_ne_waitSlot _)
  · intro p hp
    exact absurd hp (PostPc.notified_ne_waitDone _)

/-- `reset` leaves its thread outside `post`, asleep nowhere. -/
theorem rendezvous_reset {s : State T} {o : Owner T} {p : Thread T}
    (move : ∀ pc : PostPc, pc.installed = false → pc.asleep = false →
      Rendezvous ((s.unref o).setPost p pc)) : Rendezvous (s.reset o p) := by
  unfold State.reset
  split
  · exact rendezvous_notifyAll (move .wake rfl rfl)
  · exact move .idle rfl rfl

/-- A thread that finds the slot free installs its own function. -/
theorem rendezvous_tryInstall {s : State T} (h : Rendezvous s) (p : Thread T)
    (out : (s.post p).installed = false) : Rendezvous (s.tryInstall p) := by
  unfold State.tryInstall
  split
  · next free => exact rendezvous_install h p free out
  · next full =>
    refine rendezvous_setPost h p out.symm ?_ (fun _ => full) nofun
    intro hp
    rw [hp] at out
    cases out

/-- One that finds it free again, or another's function in it, returns. -/
theorem rendezvous_tryReturn {s : State T} (h : Rendezvous s) (p : Thread T)
    (inside : s.post p = .waitDone false) : Rendezvous (s.tryReturn p) := by
  unfold State.tryReturn
  split
  · next full =>
    refine rendezvous_setPost h p (by rw [inside]; rfl) ?_ nofun (fun _ => full)
    intro hp
    rw [hp] at inside
    cases inside
  · next cleared =>
    refine rendezvous_reset fun pc houtside hawake => ?_
    have hin : (s.post p).installed = true := by rw [inside]; rfl
    exact rendezvous_same_fields (rendezvous_return h p hin cleared houtside hawake)
      rfl rfl rfl rfl rfl (Nat.le_refl _)

/-- Giving up a reference has nothing to do with the slot, -/
theorem rendezvous_drop {s : State T} (h : Rendezvous s) (o : Owner T) (p : Thread T)
    (idle : s.post p = .idle) : Rendezvous (s.reset o p) := by
  refine rendezvous_reset fun pc houtside hawake => ?_
  have hs : Rendezvous (s.unref o) :=
    rendezvous_same_fields h rfl rfl rfl rfl rfl (Nat.le_refl _)
  refine rendezvous_setPost hs p ?_ ?_ ?_ ?_
  · rw [houtside, show (s.unref o).post p = .idle from idle]
    rfl
  · intro hp
    cases idle.symm.trans hp
  · rintro rfl
    cases hawake
  · rintro rfl
    cases hawake

/-- The byte of `post` is written. -/
theorem rendezvous_write {s : State T} (h : Rendezvous s) (p : Thread T)
    (inside : s.post p = .notify) : Rendezvous (s.writeByte.setPost p (.waitDone false)) := by
  have hs : Rendezvous s.writeByte :=
    rendezvous_same_fields h rfl rfl rfl rfl rfl (Nat.le_succ _)
  refine rendezvous_setPost hs p ?_ (fun _ => .inr (Nat.succ_pos _)) nofun nofun
  rw [show s.writeByte.post p = .notify from inside]
  rfl

/-! ## Every action keeps it -/

/-- nor has taking a cleanup, -/
theorem rendezvous_asyncCheck {s : State T} (h : Rendezvous s) : Rendezvous s.asyncCheck := by
  unfold State.asyncCheck
  split <;> exact rendezvous_same_fields h rfl rfl rfl rfl rfl (Nat.le_refl _)

/-- ending it, -/
theorem rendezvous_asyncFinish {s : State T} (h : Rendezvous s) : Rendezvous s.asyncFinish := by
  have hs : Rendezvous (s.unref .asyncFn) :=
    rendezvous_same_fields h rfl rfl rfl rfl rfl (Nat.le_refl _)
  unfold State.asyncFinish
  split
  · exact rendezvous_same_fields (rendezvous_notifyAll hs) rfl rfl rfl rfl rfl (Nat.le_refl _)
  · exact rendezvous_same_fields hs rfl rfl rfl rfl rfl (Nat.le_refl _)

/-- a reset on the loop thread, -/
theorem rendezvous_loopReset {s : State T} (h : Rendezvous s) (o : Owner T) :
    Rendezvous (s.loopReset o) := by
  have hs : Rendezvous (s.unref o) :=
    rendezvous_same_fields h rfl rfl rfl rfl rfl (Nat.le_refl _)
  unfold State.loopReset
  split
  · exact rendezvous_same_fields (rendezvous_notifyAll hs) rfl rfl rfl rfl rfl (Nat.le_refl _)
  · exact hs

/-- or queueing one. -/
theorem rendezvous_addAsyncCleanup {s : State T} (h : Rendezvous s) :
    Rendezvous s.addAsyncCleanup := by
  have hs : Rendezvous { s with
      asyncFns := s.asyncFns.map (· ++ [s.added]), added := s.added + 1 } :=
    rendezvous_same_fields h rfl rfl rfl rfl rfl (Nat.le_refl _)
  unfold State.addAsyncCleanup State.startAsyncThread
  split
  · split
    · exact hs
    · exact rendezvous_same_fields hs rfl rfl rfl rfl rfl (Nat.le_refl _)
  · exact rendezvous_notifyAll hs

/-- Every enabled action keeps the invariant: the step lemma. -/
theorem rendezvous_next {s : State T} (h : Rendezvous s) (a : Action T) (ha : enabled s a) :
    Rendezvous (next s a) := by
  have frame : ∀ {t : State T}, t.postFn = s.postFn → t.loop = s.loop → t.post = s.post →
      t.calls = s.calls → t.runs = s.runs → s.pipe ≤ t.pipe → Rendezvous t :=
    rendezvous_same_fields h
  cases a with
  | post p =>
    have hs : Rendezvous (s.ref (.post p)) := frame rfl rfl rfl rfl rfl (Nat.le_refl _)
    refine rendezvous_tryInstall hs p ?_
    rw [show (s.ref (.post p)).post p = .idle from ha.1]
    rfl
  | tryInstall p =>
    refine rendezvous_tryInstall h p ?_
    rw [show s.post p = .waitSlot false from ha]
    rfl
  | write p => exact rendezvous_write h p ha
  | tryReturn p => exact rendezvous_tryReturn h p ha
  | wakeUp p =>
    refine rendezvous_setPost h p (PostPc.installed_notified _) ?_ ?_ ?_
    · intro hp
      exact .inl ((PostPc.notified_eq_notify _).mpr hp)
    · intro hp
      exact absurd hp (PostPc.notified_ne_waitSlot _)
    · intro hp
      exact absurd hp (PostPc.notified_ne_waitDone _)
  | take p => exact frame rfl rfl rfl rfl rfl (Nat.le_refl _)
  | drop p => exact rendezvous_drop h _ p ha.1.1
  | move src dst => exact frame rfl rfl rfl rfl rfl (Nat.le_refl _)
  | writeDone p =>
    have hs : Rendezvous s.writeByte := frame rfl rfl rfl rfl rfl (Nat.le_succ _)
    refine rendezvous_setPost hs p ?_ (fun _ => .inr (Nat.succ_pos _)) nofun nofun
    rw [show s.writeByte.post p = .wake from ha]
    rfl
  | loopTake => exact frame rfl rfl rfl rfl rfl (Nat.le_refl _)
  | loopDrop => exact rendezvous_loopReset h _
  | loopWriteDone => exact frame rfl rfl rfl rfl rfl (Nat.le_succ _)
  | addAsyncCleanup => exact rendezvous_addAsyncCleanup h
  | read =>
    refine rendezvous_loop h rfl rfl rfl rfl ?_ nofun (fun _ _ => .inr (.inr rfl))
    rw [ha.1]
    nofun
  | check => exact rendezvous_check h ha
  | finish threw =>
    obtain ⟨-, c, hc⟩ := ha
    exact rendezvous_finish h hc
  | resetTasks => exact rendezvous_leave h ha.1 nofun nofun nofun rfl rfl rfl rfl rfl
  | close => exact rendezvous_leave h ha nofun nofun nofun rfl rfl rfl rfl rfl
  | exit =>
    refine rendezvous_notifyAll (rendezvous_leave h ha nofun nofun nofun ?_ ?_ ?_ ?_ ?_) <;> rfl
  | destroy => exact rendezvous_leave h ha.1 nofun nofun nofun rfl rfl rfl rfl rfl
  | asyncCheck => exact rendezvous_asyncCheck h
  | asyncWakeUp => exact frame rfl rfl rfl rfl rfl (Nat.le_refl _)
  | asyncFinish => exact rendezvous_asyncFinish h
  | asyncWriteDone => exact frame rfl rfl rfl rfl rfl (Nat.le_succ _)
  | strayByte => exact frame rfl rfl rfl rfl rfl (Nat.le_succ _)

/-- So the slot belongs to its poster in every reachable state. -/
theorem rendezvous_reachable {s : State T} (h : (anyThreads T).Reachable s) : Rendezvous s :=
  h.invariant (I := Rendezvous) (fun _ => rendezvous_of_starts)
    fun _ a hs ha => rendezvous_next hs a ha

/-! ## What one action does to the slot and to the runs -/

/-- What the loop thread looks at stays as it is. -/
structure State.SameLoop (s t : State T) : Prop where
  postFn : t.postFn = s.postFn
  runs : t.runs = s.runs
  loop : t.loop = s.loop
  pipe : t.pipe = s.pipe
  fdsOpen : t.fdsOpen = s.fdsOpen
  badWrite : t.badWrite = s.badWrite
  asyncFns : t.asyncFns = none ↔ s.asyncFns = none

/-- `reset` on a thread leaves the loop thread where it is. -/
theorem sameLoop_reset (s : State T) (o : Owner T) (p : Thread T) :
    s.SameLoop (s.reset o p) := by
  unfold State.reset
  split <;> exact ⟨rfl, rfl, rfl, rfl, rfl, rfl, Iff.rfl⟩

theorem sameLoop_loopReset (s : State T) (o : Owner T) : s.SameLoop (s.loopReset o) := by
  unfold State.loopReset
  split <;> exact ⟨rfl, rfl, rfl, rfl, rfl, rfl, Iff.rfl⟩

omit [DecidableEq T] in
theorem sameLoop_addAsyncCleanup (s : State T) : s.SameLoop s.addAsyncCleanup := by
  unfold State.addAsyncCleanup State.startAsyncThread
  split_ifs <;> exact ⟨rfl, rfl, rfl, rfl, rfl, rfl, Option.map_eq_none_iff⟩

omit [DecidableEq T] in
theorem sameLoop_asyncCheck (s : State T) : s.SameLoop s.asyncCheck := by
  unfold State.asyncCheck
  split
  · exact ⟨rfl, rfl, rfl, rfl, rfl, rfl, Iff.rfl⟩
  · exact ⟨rfl, rfl, rfl, rfl, rfl, rfl, Iff.rfl⟩
  · next hfns =>
    refine ⟨rfl, rfl, rfl, rfl, rfl, rfl, iff_of_false nofun ?_⟩
    rw [hfns]
    nofun

theorem sameLoop_asyncFinish (s : State T) : s.SameLoop s.asyncFinish := by
  unfold State.asyncFinish
  split <;> exact ⟨rfl, rfl, rfl, rfl, rfl, rfl, Iff.rfl⟩

theorem sameLoop_tryReturn (s : State T) (p : Thread T) : s.SameLoop (s.tryReturn p) := by
  unfold State.tryReturn
  split
  · exact ⟨rfl, rfl, rfl, rfl, rfl, rfl, Iff.rfl⟩
  · obtain ⟨h1, h2, h3, h4, h5, h6, h7⟩ := sameLoop_reset { s with
      calls := Function.update s.calls p (s.calls p + 1) } (.post p) p
    exact ⟨h1, h2, h3, h4, h5, h6, h7⟩

theorem reset_calls (s : State T) (o : Owner T) (p : Thread T) :
    (s.reset o p).calls = s.calls := by
  unfold State.reset
  split <;> rfl

/-- A poster that finds the slot taken waits. -/
theorem tryInstall_of_full {s : State T} {c : Call T} (full : s.postFn = some c) (p : Thread T) :
    s.tryInstall p = s.setPost p (.waitSlot true) := by
  unfold State.tryInstall
  rw [if_neg]
  rw [full]
  nofun

/-- One that finds it free fills it, and is to write the byte. -/
theorem tryInstall_of_free {s : State T} (free : s.postFn = none) (p : Thread T) :
    s.tryInstall p = { s.setPost p .notify with postFn := some (s.call p) } := if_pos free

theorem tryInstall_runs (s : State T) (p : Thread T) : (s.tryInstall p).runs = s.runs := by
  unfold State.tryInstall
  split <;> rfl

theorem check_postFn (s : State T) : s.check.postFn = s.postFn := by
  cases hs : s.postFn with
  | some c => rw [check_of_slot hs]; exact hs
  | none => rw [check_of_free hs]; exact hs

/-- A set slot changes only by the end of the function in it, and then becomes empty. -/
theorem slot_next {s : State T} (h : Rendezvous s) {c : Call T} (slot : s.postFn = some c)
    (a : Action T) (ha : enabled s a) :
    (next s a).postFn = some c ∨
      (next s a).postFn = none ∧ s.loop = .running c ∧ ∃ threw, a = .finish threw := by
  rw [← slot]
  cases a with
  | post p =>
    left
    simp only [next]
    rw [tryInstall_of_full (s := s.ref _) slot]
    rfl
  | tryInstall p =>
    left
    simp only [next]
    rw [tryInstall_of_full slot]
    rfl
  | tryReturn p => exact .inl (sameLoop_tryReturn s p).postFn
  | drop p => exact .inl (sameLoop_reset s _ p).postFn
  | loopDrop => exact .inl (sameLoop_loopReset s _).postFn
  | addAsyncCleanup => exact .inl (sameLoop_addAsyncCleanup s).postFn
  | check => exact .inl (check_postFn s)
  | finish threw =>
    obtain ⟨-, d, hd⟩ := ha
    have hcd : c = d := Option.some.inj (slot.symm.trans (h.running d hd))
    exact .inr ⟨rfl, hcd ▸ hd, threw, rfl⟩
  | asyncCheck => exact .inl (sameLoop_asyncCheck s).postFn
  | asyncFinish => exact .inl (sameLoop_asyncFinish s).postFn
  | _ => exact .inl rfl

/-- Functions are run by `check` alone, and `check` runs what is in the slot. -/
theorem runs_next {s : State T} (a : Action T) (ha : enabled s a) {c : Call T}
    (ran : (next s a).runs c ≠ s.runs c) :
    s.loop = .checking ∧ s.postFn = some c ∧ (next s a).loop = .running c := by
  cases a with
  | check =>
    cases hs : s.postFn with
    | some d =>
      simp only [next, check_of_slot hs] at ran ⊢
      by_cases he : c = d
      · exact ⟨ha, congrArg _ he.symm, congrArg _ he.symm⟩
      · exact absurd (Function.update_of_ne he _ _) ran
    | none =>
      simp only [next, check_of_free hs] at ran
      exact absurd rfl ran
  | post p => exact absurd (congrFun (tryInstall_runs (s.ref _) p) c) ran
  | tryInstall p => exact absurd (congrFun (tryInstall_runs s p) c) ran
  | tryReturn p => exact absurd (congrFun (sameLoop_tryReturn s p).runs c) ran
  | drop p => exact absurd (congrFun (sameLoop_reset s _ p).runs c) ran
  | loopDrop => exact absurd (congrFun (sameLoop_loopReset s _).runs c) ran
  | addAsyncCleanup => exact absurd (congrFun (sameLoop_addAsyncCleanup s).runs c) ran
  | asyncCheck => exact absurd (congrFun (sameLoop_asyncCheck s).runs c) ran
  | asyncFinish => exact absurd (congrFun (sameLoop_asyncFinish s).runs c) ran
  | _ => exact absurd rfl ran

/-- A set slot gets its function run by its poster and the loop thread alone. -/
theorem slot_runs {s : State T} (h : Rendezvous s) {c : Call T} (slot : s.postFn = some c)
    (active : s.loop = .reading ∨ s.loop = .checking ∨ s.loop = .running c) :
    ∃ as t, (anyThreads T).Path s as t ∧
      (∀ a ∈ as, a = .write c.thread ∨ a = .loopWriteDone ∨ a = .read ∨ a = .check) ∧
      t.loop = .running c ∧ t.postFn = some c := by
  have checks : ∀ t : State T, t.postFn = some c → t.loop = .checking →
      (anyThreads T).Path t [.check] t.check ∧ t.check.loop = .running c ∧
        t.check.postFn = some c := by
    intro t ht hloop
    refine ⟨.cons hloop (.nil _), ?_, (check_postFn t).trans ht⟩
    rw [check_of_slot ht]
  have reads : ∀ t : State T, t.postFn = some c → t.loop = .reading → t.loopWake = false →
      0 < t.pipe → (anyThreads T).Path t [.read, .check] (next t .read).check ∧
        (next t .read).check.loop = .running c ∧ (next t .read).check.postFn = some c := by
    intro t ht hloop hwake hpipe
    obtain ⟨hpath, hend⟩ := checks (next t .read) ht rfl
    exact ⟨.cons ⟨hloop, hwake, hpipe⟩ hpath, hend⟩
  rcases active with hloop | hloop | hloop
  · cases hwake : s.loopWake with
    | true =>
      -- the byte of the loop thread's own `reset` serves as well
      obtain ⟨hpath, hend⟩ := reads (next s .loopWriteDone) slot hloop rfl (Nat.succ_pos _)
      refine ⟨[.loopWriteDone, .read, .check], _, .cons hwake hpath, ?_, hend⟩
      simp only [List.mem_cons, List.not_mem_nil, or_false]
      exact fun a ha => .inr ha
    | false =>
      rcases h.byte c slot with hb | hb | hb | hb
      · obtain ⟨hpath, hend⟩ :=
          reads (next s (.write c.thread)) slot hloop hwake (Nat.succ_pos _)
        refine ⟨[.write c.thread, .read, .check], _, .cons hb hpath, ?_, hend⟩
        simp only [List.mem_cons, List.not_mem_nil, or_false]
        exact fun a ha => ha.imp_right .inr
      · obtain ⟨hpath, hend⟩ := reads s slot hloop hwake hb
        refine ⟨_, _, hpath, ?_, hend⟩
        simp only [List.mem_cons, List.not_mem_nil, or_false]
        exact fun a ha => .inr (.inr ha)
      · cases hloop.symm.trans hb
      · cases hloop.symm.trans hb
  · obtain ⟨hpath, hend⟩ := checks s slot hloop
    refine ⟨_, _, hpath, ?_, hend⟩
    simp only [List.mem_singleton]
    exact fun a ha => .inr (.inr (.inr ha))
  · refine ⟨[], s, .nil s, ?_, hloop, slot⟩
    simp only [List.not_mem_nil, false_implies, implies_true]

/-! ## The end of a function releases its poster and the next one -/

/-- Once its function is out of the slot, a poster past the assignment returns on its own. -/
theorem poster_returns {s : State T} {p : Thread T} (cleared : s.postFn ≠ some (s.call p))
    (at_ : s.post p = .notify ∨ s.post p = .waitDone false) :
    ∃ as t, (∀ a ∈ as, a = .write p ∨ a = .tryReturn p) ∧ (anyThreads T).Path s as t ∧
      t.calls p = s.calls p + 1 := by
  have back : ∀ t : State T, t.post p = .waitDone false → t.postFn = s.postFn →
      t.calls = s.calls → (anyThreads T).Path t [.tryReturn p] (t.tryReturn p) ∧
        (t.tryReturn p).calls p = s.calls p + 1 := by
    intro t ht hslot hcalls
    refine ⟨.cons ht (.nil _), ?_⟩
    unfold State.tryReturn
    rw [if_neg (by simpa only [hslot, State.call, hcalls] using cleared), reset_calls, hcalls]
    exact Function.update_self ..
  rcases at_ with hp | hp
  · obtain ⟨hpath, hcalls⟩ := back (next s (.write p)) (setPost_same _ p _) rfl rfl
    refine ⟨[.write p, .tryReturn p], _, ?_, .cons hp hpath, hcalls⟩
    simp only [List.mem_cons, List.not_mem_nil, or_false, imp_self, implies_true]
  · obtain ⟨hpath, hcalls⟩ := back s hp rfl rfl
    refine ⟨[.tryReturn p], _, ?_, hpath, hcalls⟩
    simp only [List.mem_singleton]
    exact fun a ha => .inr ha

/-- The function in the slot has returned or thrown: nobody is left asleep, its poster can
return, and whoever waits for the slot can have it. -/
theorem finish_releases {s : State T} (h : Rendezvous s) {c : Call T} (loop : s.loop = .running c) :
    s.finish.postFn = none ∧ (∀ p, (s.finish.post p).asleep = false) ∧
    (∃ as t, (∀ a ∈ as, a = .write c.thread ∨ a = .tryReturn c.thread) ∧
      (anyThreads T).Path s.finish as t ∧ c.seq < t.calls c.thread) ∧
    ∀ p b, s.post p = .waitSlot b → enabled s.finish (.tryInstall p) ∧
      (s.finish.tryInstall p).postFn = some (s.call p) := by
  refine ⟨rfl, fun p => PostPc.asleep_notified _, ?_, ?_⟩
  · obtain ⟨hin, hcall⟩ := h.slot c (h.running c loop)
    have hat : s.finish.post c.thread = .notify ∨ s.finish.post c.thread = .waitDone false := by
      simp only [State.finish, State.notifyAll]
      cases hp : s.post c.thread <;> rw [hp] at hin
      case notify => exact .inl rfl
      case waitDone b => exact .inr rfl
      all_goals cases hin
    obtain ⟨as, t, has, hpath, hret⟩ := poster_returns (s := s.finish) nofun hat
    refine ⟨as, t, has, hpath, ?_⟩
    have hseq : c.seq = s.calls c.thread := congrArg Call.seq hcall
    have hsame : s.finish.calls c.thread = s.calls c.thread := rfl
    omega
  · intro p b hp
    constructor
    · have hnot : s.finish.post p = (s.post p).notified := rfl
      exact hnot.trans (congrArg PostPc.notified hp)
    · rw [tryInstall_of_free rfl]
      rfl

/-- In every reachable state, whatever the threads do and however many stray bytes are written:
the slot is never overwritten; a function has not run before its call installed it, runs at most
once, only from the slot on the loop thread and only while its call is in progress, and has run
exactly once when the call has returned; a set slot is always announced, and its poster and the
loop thread suffice to run it; and the end of a function, thrown or not, releases its poster and
the next one. -/
theorem post_exactly_once {s : State T} (h : (anyThreads T).Reachable s) :
    (∀ a c, enabled s a → s.postFn = some c → (next s a).postFn = some c ∨
      (next s a).postFn = none ∧ s.loop = .running c ∧ ∃ threw, a = .finish threw) ∧
    (∀ c, s.runs c ≤ 1) ∧
    (∀ c, s.calls c.thread < c.seq ∨ c = s.call c.thread ∧ (s.post c.thread).installed = false →
      s.runs c = 0) ∧
    (∀ c, c.seq < s.calls c.thread → s.runs c = 1) ∧
    (∀ a c, enabled s a → (next s a).runs c ≠ s.runs c →
      s.loop = .checking ∧ s.postFn = some c ∧ (next s a).loop = .running c) ∧
    (∀ c, s.loop = .running c →
      s.postFn = some c ∧ c = s.call c.thread ∧ (s.post c.thread).installed = true) ∧
    (∀ c, s.postFn = some c → s.post c.thread = .notify ∨ 0 < s.pipe ∨ s.loop = .checking ∨
      s.loop = .running c) ∧
    (∀ c, s.postFn = some c → s.loop = .reading ∨ s.loop = .checking ∨ s.loop = .running c →
      ∃ as t, (anyThreads T).Path s as t ∧
        (∀ a ∈ as, a = .write c.thread ∨ a = .loopWriteDone ∨ a = .read ∨ a = .check) ∧
        t.loop = .running c ∧ t.postFn = some c) ∧
    ∀ threw c, enabled s (.finish threw) → s.loop = .running c →
      (next s (.finish threw)).postFn = none ∧
      (∀ p, ((next s (.finish threw)).post p).asleep = false) ∧
      (∃ as t, (∀ a ∈ as, a = .write c.thread ∨ a = .tryReturn c.thread) ∧
        (anyThreads T).Path (next s (.finish threw)) as t ∧ c.seq < t.calls c.thread) ∧
      ∀ p b, s.post p = .waitSlot b → enabled (next s (.finish threw)) (.tryInstall p) ∧
        (next (next s (.finish threw)) (.tryInstall p)).postFn = some (s.call p) := by
  have hr := rendezvous_reachable h
  refine ⟨fun a c ha hc => slot_next hr hc a ha, ?_, ?_, ?_, fun a c ha => runs_next a ha, ?_,
    hr.byte, fun c => slot_runs hr, fun threw c _ hc => finish_releases hr hc⟩
  · intro c
    rw [hr.runs]
    split <;> decide
  · intro c hc
    rw [hr.runs, if_neg]
    rintro (hlt | ⟨heq, hin, -⟩)
    · rcases hc with hc | ⟨hc, -⟩
      · omega
      · rw [hc] at hlt
        exact Nat.lt_irrefl _ hlt
    · rcases hc with hc | ⟨-, hc⟩
      · rw [heq] at hc
        exact Nat.lt_irrefl _ hc
      · rw [hc] at hin
        cases hin
  · intro c hc
    rw [hr.runs, if_pos (.inl hc)]
  · intro c hc
    have hslot := hr.running c hc
    obtain ⟨hin, hcall⟩ := hr.slot c hslot
    exact ⟨hslot, hcall, hin⟩

/-! ## A run with two posters -/

/-- Two application threads, one reference held by the loop thread. -/
def twoThreads : State Bool where
  postFn := none
  asyncFns := some []
  waitFd := 3
  postFd := 4
  numClients := 1
  fdsOpen := true
  pipe := 0
  loop := .reading
  loopWake := false
  async := .absent
  post := fun _ => .idle
  calls := fun _ => 0
  live := {.loop}
  added := 0
  runs := fun _ => 0
  badWrite := false

theorem twoThreads_starts : Starts twoThreads := by
  refine ⟨rfl, rfl, rfl, ?_, rfl, rfl, rfl, rfl, rfl, fun _ => rfl, fun _ => rfl, fun _ => rfl, rfl⟩
  intro o ho
  exact .inl (Multiset.mem_singleton.mp ho)

/-- One thread posts, the other waits for the slot, and the first function throws. -/
theorem post_exactly_once_two_threads :
    ∃ s, (anyThreads Bool).Reachable s ∧ s.loop = .running ⟨.client false, 0⟩ ∧
      s.post (.client true) = .waitSlot true ∧ s.runs ⟨.client false, 0⟩ = 1 ∧
      (next s (.finish true)).postFn = none ∧
      enabled (next s (.finish true)) (.tryInstall (.client true)) := by
  obtain ⟨s, hs, hp⟩ := Transition.System.exists_reachable_of_run (anyThreads Bool)
    twoThreads_starts
    [.post (.client false), .write (.client false), .post (.client true), .read, .check]
    (fun s => s.loop = .running ⟨.client false, 0⟩ && s.post (.client true) = .waitSlot true
      && s.runs ⟨.client false, 0⟩ = 1 && !s.loopWake) (by decide)
  simp only [Bool.and_eq_true, decide_eq_true_eq, Bool.not_eq_true'] at hp
  obtain ⟨⟨⟨hloop, hpost⟩, hruns⟩, hwake⟩ := hp
  obtain ⟨-, -, -, -, -, -, -, -, hfinish⟩ := post_exactly_once hs
  obtain ⟨hfree, -, -, hnext⟩ := hfinish true _ ⟨hwake, _, hloop⟩ hloop
  exact ⟨s, hs, hloop, hpost, hruns, hfree, (hnext _ _ hpost).1⟩

end Multiprocess.Loop
