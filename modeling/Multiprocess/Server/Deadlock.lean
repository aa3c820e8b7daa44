import Multiprocess.Server.Cancel

/-!
# Waiting for the event loop with `cancel_lock` held

The event loop blocks in `m_on_cancel` until the worker releases `cancel_mutex`. A worker that
waits for the event loop with the lock held deadlocks with it. The deferred block and `ServerCall`
release the lock first; what else runs inside the chain has it: readers and builders, the
destruction of parameters, the temporary `ProxyClient` of an interface reference, and all of
`ServerDestroy`, with the destructor of the implementation and the cleanup functions.

`no_deadlock` is about runs in which none of these waits. That each of them deadlocks once it waits
is shown for the temporary `ProxyClient` alone, whose frame cannot do without.
-/

namespace Multiprocess.Server

variable {E : Type}

/-- The event loop waits in `m_on_cancel` for the worker's lock, and the worker for the event loop:
for its posted function to run, or for a response. -/
def State.Deadlock (s : State E) : Prop :=
  s.loop = .onCancel ∧ s.held = true ∧
    (s.worker.isPosted = true ∨ s.worker.isAwaiting = true)

instance (s : State E) : Decidable s.Deadlock := inferInstanceAs (Decidable (_ ∧ _ ∧ (_ ∨ _)))

/-- Code that does not wait with the lock held does not deadlock. -/
theorem no_deadlock_of_inv {s : State E} (h : Inv false s) : ¬ s.Deadlock := by
  rintro ⟨hcalling, hheld, hwait⟩
  rcases h with hd | ⟨st, hw, hf⟩
  · exact hd.loop hcalling
  obtain ⟨m, hm, -, ho, -⟩ := hf.calling hcalling
  have hreg := hf.onCancel m hm ho
  have hunheld : st.held = false := by
    cases hs : s.worker with
    | posted fn p =>
      rw [hs] at hw
      exact Stage.wait_unheld hw.1 (.inr ⟨fn, rfl⟩) hreg
    | awaiting k =>
      rw [hs] at hw
      exact Stage.wait_unheld hw.1 (.inl rfl) hreg
    | _ =>
      rw [hs] at hwait
      rcases hwait with hwait | hwait <;> cases hwait
  cases (hf.held.trans hunheld).symm.trans hheld

section Requests

variable [ExceptionTypes E]

/-- The requests whose frames do not wait for the event loop by themselves. -/
def LoopFree (_ : Innermost) (ws : List (Wrapper E)) : Prop := loopFree ws = true

end Requests

instance [ExceptionTypes E] (s : State E) (a : Action E) :
    Decidable (((requests (E := E) LoopFree).guardedBy Waitless).enabled s a) :=
  inferInstanceAs (Decidable (Waitless s a ∧ enabled s a))

end Multiprocess.Server
