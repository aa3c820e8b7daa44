import Mathlib.Data.Multiset.Count
import Multiprocess.Loop.Post

/-!
# `m_num_clients` counts the live references

`Accounts` says that the counter is the number of live `EventLoopRef` objects, and that the
local references of `post` and of the async thread live exactly while their scope is open. Every
action keeps it, whatever the threads do.

Whether the counter reaches zero, and what happens then, is `Shutdown`.
-/

namespace Multiprocess.Loop

variable {T : Type}

theorem PostPc.inPost_notified (pc : PostPc) : pc.notified.inPost = pc.inPost := by
  cases pc <;> rfl

/-- A thread whose function is installed is in `post`. -/
theorem PostPc.inPost_of_installed {pc : PostPc} (h : pc.installed = true) :
    pc.inPost = true := by
  cases pc <;> first | rfl | cases h

/-- So is one that waits there. -/
theorem PostPc.inPost_of_asleep {pc : PostPc} (h : pc.asleep = true) : pc.inPost = true := by
  cases pc <;> first | rfl | cases h

theorem PostPc.notified_eq_wake (pc : PostPc) : pc.notified = .wake ↔ pc = .wake := by
  cases pc <;> simp only [PostPc.notified, reduceCtorEq]

theorem AsyncPc.notified_eq_wake (pc : AsyncPc) : pc.notified = .wake ↔ pc = .wake := by
  cases pc <;> simp only [AsyncPc.notified, reduceCtorEq]

theorem AsyncPc.notified_eq_running (pc : AsyncPc) (fn : Nat) :
    pc.notified = .running fn ↔ pc = .running fn := by
  cases pc <;> simp only [AsyncPc.notified, reduceCtorEq]

/-- Waking everybody starts no cleanup. -/
theorem inAsyncFn_notifyAll (s : State T) : s.notifyAll.inAsyncFn ↔ s.inAsyncFn := by
  simp only [State.inAsyncFn, State.notifyAll, AsyncPc.notified_eq_running]

/-- The async thread runs a cleanup in no other place of its loop. -/
theorem not_inAsyncFn {s : State T} {pc : AsyncPc} (h : s.async = pc)
    (hpc : ∀ fn, pc ≠ .running fn) : ¬ s.inAsyncFn := by
  rintro ⟨fn, hfn⟩
  exact hpc fn (h.symm.trans hfn)

variable [DecidableEq T]

/-- The counter is right, and each local reference lives while its scope is open. -/
structure Accounts (s : State T) : Prop where
  count : s.numClients = s.live.card
  postRef : ∀ p, s.live.count (.post p) = if (s.post p).inPost then 1 else 0
  asyncRef : s.live.count .asyncFn = if s.inAsyncFn then 1 else 0
  asyncIdle : ¬ s.inAsyncFn → s.post .async = .idle

/-- At the start the count is that of the references the application has. -/
theorem accounts_of_starts {s : State T} (h : Starts s) : Accounts s := by
  have hno : ∀ o : Owner T, o.movable = false → s.live.count o = 0 := by
    intro o ho
    refine Multiset.count_eq_zero.mpr fun hmem => ?_
    rcases h.owners o hmem with rfl | ⟨t, rfl⟩ <;> cases ho
  refine ⟨h.numClients, ?_, ?_, fun _ => h.post _⟩
  · intro p
    rw [h.post, hno _ rfl]
    rfl
  · rw [hno _ rfl, if_neg]
    exact not_inAsyncFn h.async nofun

/-- A thread in `post` holds a reference. -/
theorem Accounts.post_mem {s : State T} (h : Accounts s) {p : Thread T}
    (inside : (s.post p).inPost = true) : .post p ∈ s.live := by
  have hc := h.postRef p
  rw [if_pos inside] at hc
  exact Multiset.count_pos.mp (by omega)

/-- So does the async thread while it runs a cleanup. -/
theorem Accounts.asyncFn_mem {s : State T} (h : Accounts s) (inside : s.inAsyncFn) :
    .asyncFn ∈ s.live := by
  have hc := h.asyncRef
  rw [if_pos inside] at hc
  exact Multiset.count_pos.mp (by omega)

/-- It is in `post` only then. -/
theorem Accounts.async_inPost {s : State T} (h : Accounts s)
    (inside : s.post .async ≠ .idle) : s.inAsyncFn := by
  by_contra hno
  exact inside (h.asyncIdle hno)

/-! ## One lemma for each operation -/

/-- The account depends on the count, the references and where the threads are. -/
theorem accounts_same_fields {s t : State T} (h : Accounts s)
    (numClients : t.numClients = s.numClients) (live : t.live = s.live) (post : t.post = s.post)
    (async : t.inAsyncFn ↔ s.inAsyncFn) : Accounts t := by
  refine ⟨?_, ?_, ?_, ?_⟩
  · rw [numClients, live, h.count]
  · simpa only [live, post] using h.postRef
  · simpa only [live, async] using h.asyncRef
  · simpa only [async, post] using h.asyncIdle

/-- Waking everybody changes no account. -/
theorem accounts_notifyAll {s : State T} (h : Accounts s) : Accounts s.notifyAll := by
  refine ⟨h.count, ?_, ?_, ?_⟩
  · intro p
    simp only [State.notifyAll, PostPc.inPost_notified]
    exact h.postRef p
  · simp only [inAsyncFn_notifyAll]
    exact h.asyncRef
  · rw [inAsyncFn_notifyAll]
    intro hno
    simp only [State.notifyAll, h.asyncIdle hno, PostPc.notified]

/-- A thread moves without entering or leaving `post`. -/
theorem accounts_setPost {s : State T} (h : Accounts s) {p : Thread T} {pc : PostPc}
    (same : pc.inPost = (s.post p).inPost) (async : p = .async → pc = .idle ∨ s.inAsyncFn) :
    Accounts (s.setPost p pc) := by
  refine ⟨h.count, ?_, h.asyncRef, ?_⟩
  · intro q
    have hq := h.postRef q
    rw [setPost_post]
    split
    · next he =>
      rw [same, ← he]
      exact hq
    · exact hq
  · intro hno
    rw [setPost_post]
    split
    · next he => exact (async he.symm).resolve_right hno
    · exact h.asyncIdle hno

/-- A new reference is counted. -/
theorem ref_count {s : State T} (h : Accounts s) (o : Owner T) :
    (s.ref o).numClients = (s.ref o).live.card := by
  simp only [State.ref, Multiset.card_cons, h.count]
  omega

/-- A thread or the loop may take one. -/
theorem accounts_ref {s : State T} (h : Accounts s) {o : Owner T} (mov : o.movable = true) :
    Accounts (s.ref o) := by
  refine ⟨ref_count h o, ?_, ?_, h.asyncIdle⟩
  · intro p
    have hne : Owner.post p ≠ o := by
      rintro rfl
      cases mov
    simp only [State.ref, Multiset.count_cons_of_ne hne]
    exact h.postRef p
  · have hne : Owner.asyncFn ≠ o := by
      rintro rfl
      cases mov
    simp only [State.ref, Multiset.count_cons_of_ne hne]
    exact h.asyncRef

/-- A reference given up is counted off. -/
theorem unref_count {s : State T} (h : Accounts s) {o : Owner T} (held : o ∈ s.live) :
    (s.unref o).numClients = (s.unref o).live.card := by
  have hcard := Multiset.card_erase_add_one held
  simp only [State.unref, h.count]
  omega

/-- A thread or the loop may give up what it holds. -/
theorem accounts_unref {s : State T} (h : Accounts s) {o : Owner T} (mov : o.movable = true)
    (held : o ∈ s.live) : Accounts (s.unref o) := by
  refine ⟨unref_count h held, ?_, ?_, h.asyncIdle⟩
  · intro p
    have hne : Owner.post p ≠ o := by
      rintro rfl
      cases mov
    simp only [State.unref, Multiset.count_erase_of_ne hne]
    exact h.postRef p
  · have hne : Owner.asyncFn ≠ o := by
      rintro rfl
      cases mov
    simp only [State.unref, Multiset.count_erase_of_ne hne]
    exact h.asyncRef

/-- A reference moved from one holder to another is still one reference. -/
theorem accounts_move {s : State T} (h : Accounts s) {src dst : Owner T}
    (movSrc : src.movable = true) (movDst : dst.movable = true) (held : src ∈ s.live) :
    Accounts { s with live := dst ::ₘ s.live.erase src } := by
  have hs := accounts_ref (accounts_unref h movSrc held) movDst
  have hn : s.numClients = (s.numClients - 1) + 1 := by omega
  exact accounts_same_fields hs hn rfl rfl Iff.rfl

/-- Entering `post`: its `ref` is constructed. -/
theorem accounts_enter {s : State T} (h : Accounts s) {p : Thread T} {pc : PostPc}
    (out : (s.post p).inPost = false) (inside : pc.inPost = true)
    (async : p = .async → s.inAsyncFn) : Accounts ((s.ref (.post p)).setPost p pc) := by
  refine ⟨ref_count h _, ?_, ?_, ?_⟩
  · intro q
    rw [setPost_post]
    have hq := h.postRef q
    by_cases he : q = p
    · rw [he, out] at hq
      simp only [inside, ↓reduceIte, he]
      simp only [State.ref, State.setPost, Multiset.count_cons_self, hq, Bool.false_eq_true,
        ↓reduceIte]
    · have hne : Owner.post q ≠ .post p := fun hc => he (Owner.post.inj hc)
      simp only [if_neg he, State.ref, State.setPost, Multiset.count_cons_of_ne hne]
      exact hq
  · have hne : Owner.asyncFn ≠ .post p := by simp
    simp only [State.ref, State.setPost, Multiset.count_cons_of_ne hne]
    exact h.asyncRef
  · intro hno
    rw [setPost_post]
    split
    · next he => exact absurd (async he.symm) hno
    · exact h.asyncIdle hno

/-- Leaving `post`: its `ref` is destroyed. -/
theorem accounts_leave {s : State T} (h : Accounts s) {p : Thread T} {pc : PostPc}
    (inside : (s.post p).inPost = true) (out : pc.inPost = false) :
    Accounts ((s.unref (.post p)).setPost p pc) := by
  refine ⟨unref_count h (h.post_mem inside), ?_, ?_, ?_⟩
  · intro q
    rw [setPost_post]
    have hq := h.postRef q
    by_cases he : q = p
    · rw [he, inside] at hq
      simp only [out, Bool.false_eq_true, ↓reduceIte, he]
      simp only [State.unref, State.setPost, Multiset.count_erase_self, hq, ↓reduceIte]
    · have hne : Owner.post q ≠ .post p := fun hc => he (Owner.post.inj hc)
      simp only [if_neg he, State.unref, State.setPost, Multiset.count_erase_of_ne hne]
      exact hq
  · have hne : Owner.asyncFn ≠ .post p := by simp
    simp only [State.unref, State.setPost, Multiset.count_erase_of_ne hne]
    exact h.asyncRef
  · intro hno
    rw [setPost_post]
    split
    · next he =>
      refine absurd (h.async_inPost ?_) hno
      intro hidle
      rw [← he, hidle] at inside
      cases inside
    · exact h.asyncIdle hno

/-- The async thread takes a function: its `ref` is constructed. -/
theorem accounts_pop {s : State T} (h : Accounts s) (out : ¬ s.inAsyncFn) (fns : List Nat)
    (fn : Nat) : Accounts { s.ref .asyncFn with asyncFns := some fns, async := .running fn } := by
  refine ⟨ref_count h _, ?_, ?_, ?_⟩
  · intro p
    have hne : Owner.post p ≠ .asyncFn := nofun
    simp only [State.ref, Multiset.count_cons_of_ne hne]
    exact h.postRef p
  · have hc := h.asyncRef
    rw [if_neg out] at hc
    rw [if_pos ⟨fn, rfl⟩]
    simp only [State.ref, Multiset.count_cons_self, hc]
  · intro hno
    exact absurd ⟨fn, rfl⟩ hno

/-- The async thread is done with a function: its `ref` is reset. -/
theorem accounts_popped {s : State T} (h : Accounts s) (inside : s.inAsyncFn)
    (idle : s.post .async = .idle) {pc : AsyncPc} (out : ∀ fn, pc ≠ .running fn) :
    Accounts { s.unref .asyncFn with async := pc } := by
  have hno : ¬ State.inAsyncFn { s.unref .asyncFn with async := pc } := not_inAsyncFn rfl out
  refine ⟨unref_count h (h.asyncFn_mem inside), ?_, ?_, fun _ => idle⟩
  · intro p
    have hne : Owner.post p ≠ .asyncFn := nofun
    simp only [State.unref, Multiset.count_erase_of_ne hne]
    exact h.postRef p
  · have hc := h.asyncRef
    rw [if_pos inside] at hc
    rw [if_neg hno]
    simp only [State.unref, Multiset.count_erase_self, hc]

/-- `reset` on a thread, once its reference is gone. -/
theorem accounts_reset {s : State T} {o : Owner T} {p : Thread T}
    (move : ∀ pc : PostPc, pc.inPost = false → Accounts ((s.unref o).setPost p pc)) :
    Accounts (s.reset o p) := by
  unfold State.reset
  split
  · exact accounts_notifyAll (move .wake rfl)
  · exact move .idle rfl

/-- `post` takes its reference when it begins, -/
theorem accounts_post {s : State T} (h : Accounts s) (p : Thread T) (acts : s.acts p) :
    Accounts ((s.ref (.post p)).tryInstall p) := by
  have hout : (s.post p).inPost = false := by rw [acts.1]; rfl
  unfold State.tryInstall
  split
  · refine accounts_same_fields (accounts_enter h hout ?_ acts.2) rfl rfl rfl Iff.rfl
    rfl
  · exact accounts_enter h hout rfl acts.2

/-- keeps it while it waits for the slot, -/
theorem accounts_tryInstall {s : State T} (h : Accounts s) (p : Thread T)
    (inside : s.post p = .waitSlot false) : Accounts (s.tryInstall p) := by
  have hmove : ∀ pc : PostPc, pc.inPost = true → Accounts (s.setPost p pc) := by
    intro pc hpc
    refine accounts_setPost h (by rw [hpc, inside]; rfl) ?_
    rintro rfl
    exact .inr (h.async_inPost (by rw [inside]; nofun))
  unfold State.tryInstall
  split
  · exact accounts_same_fields (hmove .notify rfl) rfl rfl rfl Iff.rfl
  · exact hmove (.waitSlot true) rfl

/-- and gives it up when it returns. -/
theorem accounts_tryReturn {s : State T} (h : Accounts s) (p : Thread T)
    (inside : s.post p = .waitDone false) : Accounts (s.tryReturn p) := by
  have hin : (s.post p).inPost = true := by rw [inside]; rfl
  unfold State.tryReturn
  split
  · refine accounts_setPost h (by rw [inside]; rfl) ?_
    rintro rfl
    exact .inr (h.async_inPost (by rw [inside]; nofun))
  · refine accounts_reset fun pc hpc => ?_
    exact accounts_same_fields (accounts_leave h hin hpc) rfl rfl rfl Iff.rfl

/-- `reset` gives up the thread's reference. -/
theorem accounts_drop {s : State T} (h : Accounts s) (p : Thread T) (acts : s.acts p)
    (held : .thread p ∈ s.live) : Accounts (s.reset (.thread p) p) := by
  refine accounts_reset fun pc hpc => ?_
  refine accounts_setPost (accounts_unref h rfl held) ?_ (fun hp => .inr (acts.2 hp))
  rw [hpc, show (s.unref (.thread p)).post p = .idle from acts.1]
  rfl

/-- So it does on the loop thread. -/
theorem accounts_loopReset {s : State T} (h : Accounts s) (held : .loop ∈ s.live) :
    Accounts (s.loopReset .loop) := by
  have hs := accounts_unref h rfl held
  unfold State.loopReset
  split
  · exact accounts_same_fields (accounts_notifyAll hs) rfl rfl rfl Iff.rfl
  · exact hs

/-- A queued cleanup holds no reference. -/
theorem accounts_addAsyncCleanup {s : State T} (h : Accounts s) :
    Accounts s.addAsyncCleanup := by
  have hs : Accounts { s with
      asyncFns := s.asyncFns.map (· ++ [s.added]), added := s.added + 1 } :=
    accounts_same_fields h rfl rfl rfl Iff.rfl
  unfold State.addAsyncCleanup State.startAsyncThread
  split
  · next habsent =>
    split
    · exact hs
    · refine accounts_same_fields hs rfl rfl rfl ?_
      exact iff_of_false (not_inAsyncFn rfl nofun) (not_inAsyncFn habsent nofun)
  · exact accounts_notifyAll hs

/-- The async thread takes one for the cleanup it is to run, -/
theorem accounts_asyncCheck {s : State T} (h : Accounts s) (ready : s.async = .ready) :
    Accounts s.asyncCheck := by
  have hout : ¬ s.inAsyncFn := not_inAsyncFn ready nofun
  unfold State.asyncCheck
  split
  · exact accounts_same_fields h rfl rfl rfl (iff_of_false (not_inAsyncFn rfl nofun) hout)
  · exact accounts_same_fields h rfl rfl rfl (iff_of_false (not_inAsyncFn rfl nofun) hout)
  · exact accounts_pop h hout _ _

/-- and gives it up afterwards. -/
theorem accounts_asyncFinish {s : State T} (h : Accounts s) (inside : s.inAsyncFn)
    (idle : s.post .async = .idle) : Accounts s.asyncFinish := by
  unfold State.asyncFinish
  split
  · have hs : Accounts { s.unref .asyncFn with async := .asleep } :=
      accounts_popped h inside idle nofun
    refine accounts_same_fields (accounts_notifyAll hs) rfl rfl rfl ?_
    exact iff_of_false (not_inAsyncFn rfl nofun) (not_inAsyncFn rfl nofun)
  · exact accounts_popped h inside idle nofun

/-! ## Every action keeps it -/

/-- Every step keeps the account. -/
theorem accounts_next {s : State T} (h : Accounts s) (a : Action T) (ha : enabled s a) :
    Accounts (next s a) := by
  have frame : ∀ {t : State T}, t.numClients = s.numClients → t.live = s.live →
      t.post = s.post → t.async = s.async → Accounts t := by
    intro t hn hl hp hasync
    refine accounts_same_fields h hn hl hp ?_
    unfold State.inAsyncFn
    rw [hasync]
  cases a with
  | post p => exact accounts_post h p ha
  | tryInstall p => exact accounts_tryInstall h p ha
  | write p =>
    have hp : s.post p = .notify := ha
    have hs : Accounts s.writeByte := frame rfl rfl rfl rfl
    refine accounts_setPost hs ?_ ?_
    · rw [show s.writeByte.post p = .notify from hp]
      rfl
    · rintro rfl
      exact .inr (h.async_inPost (by rw [hp]; nofun))
  | tryReturn p => exact accounts_tryReturn h p ha
  | wakeUp p =>
    refine accounts_setPost h (PostPc.inPost_notified _) ?_
    rintro rfl
    refine .inr (h.async_inPost fun hidle => ?_)
    rw [enabled, hidle] at ha
    cases ha
  | take p => exact accounts_ref h rfl
  | drop p => exact accounts_drop h p ha.1 ha.2
  | move src dst => exact accounts_move h ha.1 ha.2.1 ha.2.2
  | writeDone p =>
    have hs : Accounts s.writeByte := frame rfl rfl rfl rfl
    refine accounts_setPost hs ?_ (fun _ => .inl rfl)
    rw [show s.writeByte.post p = .wake from ha]
    rfl
  | loopTake => exact accounts_ref h rfl
  | loopDrop => exact accounts_loopReset h ha.2
  | loopWriteDone => exact frame rfl rfl rfl rfl
  | addAsyncCleanup => exact accounts_addAsyncCleanup h
  | read => exact frame rfl rfl rfl rfl
  | check =>
    show Accounts s.check
    cases hslot : s.postFn with
    | some c =>
      rw [check_of_slot hslot]
      exact frame rfl rfl rfl rfl
    | none =>
      rw [check_of_free hslot]
      exact frame rfl rfl rfl rfl
  | finish threw => exact accounts_notifyAll (frame rfl rfl rfl rfl)
  | resetTasks => exact frame rfl rfl rfl rfl
  | close => exact frame rfl rfl rfl rfl
  | exit => exact accounts_notifyAll (frame rfl rfl rfl rfl)
  | destroy => exact frame rfl rfl rfl rfl
  | asyncCheck => exact accounts_asyncCheck h ha
  | asyncWakeUp =>
    refine accounts_same_fields h rfl rfl rfl ?_
    exact iff_of_false (not_inAsyncFn rfl nofun) (not_inAsyncFn ha nofun)
  | asyncFinish => exact accounts_asyncFinish h ha.1 ha.2
  | asyncWriteDone =>
    refine accounts_same_fields h rfl rfl rfl ?_
    exact iff_of_false (not_inAsyncFn rfl nofun) (not_inAsyncFn ha nofun)
  | strayByte => exact frame rfl rfl rfl rfl

/-- Whatever the threads do, the counter is the number of live references. -/
theorem accounts_reachable {s : State T} (h : (anyThreads T).Reachable s) : Accounts s :=
  h.invariant (I := Accounts) (fun _ => accounts_of_starts) fun _ a hs ha => accounts_next hs a ha

end Multiprocess.Loop
