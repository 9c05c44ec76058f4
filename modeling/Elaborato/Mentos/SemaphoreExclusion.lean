import Elaborato.Mentos.SemaphoreErrors

/-!
Mutual exclusion (smart_sem_kernel.c): the word of a semaphore that a task has taken stays set
until a call releases it or sets it anew, whatever the tasks call.
-/
namespace Elaborato.Mentos
open Foundation List Function
variable {k k' : Kernel} {task : Addr} {call : SysCall} {prevention : Bool} {id : Int}

/-- The word of the semaphore is set. -/
def Taken (id : Int) (k : Kernel) : Prop := 0 ≤ id ∧ (k.semaphores id.toNat).value ≠ 0

theorem Taken.setSem {sem : SmartSem} {i : Nat} (taken : Taken id k)
    (same : id.toNat = i → sem.value ≠ 0) : Taken id (setSem k i sem) := by
  refine ⟨taken.1, ?_⟩
  by_cases here : id.toNat = i
  · simpa [Mentos.setSem, here] using same here
  · simpa [Mentos.setSem, here] using taken.2

theorem Taken.congr (taken : Taken id k) (same : k'.semaphores = k.semaphores) : Taken id k' := by
  rwa [Taken, same]

theorem nonneg_of_good (good : badId id = false) : 0 ≤ id := by
  simp only [badId, Bool.or_eq_false_iff, decide_eq_false_iff_not] at good
  omega

theorem Taken.sysSemInit {other : Int} (taken : Taken id k) (ne : other ≠ id) :
    Taken id (sysSemInit k other).2 := by
  rcases sysSemInit_cases k other with same | ⟨good, -, done⟩
  · rwa [same]
  · rw [done]
    have known := nonneg_of_good good
    have here := taken.1
    exact (taken.setSem fun same => absurd (by omega) ne).congr (resourceInit_semaphores ..)

theorem Taken.step (taken : Taken id k) (step : Step prevention k ⟨task, call⟩ k')
    (kept : ¬ (call = .semInit id ∨ call = .semRelease id)) : Taken id k' := by
  obtain ⟨notInit, notRelease⟩ := not_or.mp kept
  cases call with
  | semInit id' =>
    obtain ⟨-, rfl⟩ := step_semInit step
    exact Taken.sysSemInit (k := { k with curr := task }) taken fun same => notInit (same ▸ rfl)
  | semRelease id' =>
    obtain ⟨-, rfl⟩ := step_semRelease step
    exact Taken.sysSemInit (k := { k with curr := task }) taken fun same => notRelease (same ▸ rfl)
  | semCreate new =>
    obtain ⟨-, -, rfl⟩ := step_semCreate step
    rcases sysSemCreate_cases { k with curr := task } new with
      ⟨-, -, -, -, same⟩ | ⟨id', -, -, -, -, -, same⟩
    · exact ⟨taken.1, (same id.toNat).1 ▸ taken.2⟩
    · exact (taken.setSem fun here => here ▸ taken.2).congr same
  | semDestroy id' =>
    obtain ⟨-, rfl⟩ := step_semDestroy step
    rw [sysSemDestroy]
    split
    · exact taken
    · exact (taken.setSem fun here => here ▸ taken.2).congr (resourceDestroy_semaphores ..)
  | semTryAcquire id' g =>
    obtain ⟨-, answer, run⟩ := step
    rcases sysSemTryAcquire_cases run with ⟨-, rfl⟩ | ⟨-, -, ⟨-, -, rfl⟩ | ⟨-, -, rfl⟩⟩
    · exact taken
    · exact (taken.setSem fun _ => by simp).congr (resourceAssign_semaphores ..)
    · exact taken.setSem fun _ => by simp
  | vfork new =>
    obtain ⟨-, -, rfl⟩ := step_vfork step
    exact taken
  | exit code => exact taken.congr (step_exit step).2.semaphores

theorem taken_of_acquire {g : Garbage}
    (run : runCall prevention k ⟨task, .semTryAcquire id g⟩ = .ok (1, k')) :
    ¬ Taken id k ∧ Taken id k' := by
  rcases sysSemTryAcquire_cases run with ⟨no, -⟩ | ⟨good, -, ⟨-, zero, rfl⟩ | ⟨no, -⟩⟩
  · exact absurd rfl no
  · refine ⟨fun taken => taken.2 zero, nonneg_of_good good, ?_⟩
    rw [resourceAssign_semaphores]
    simp [atomicSet, atomicSetAndTest, setSem]
  · cases no

/-- What has been acquired is not acquired again, by any task, before a call gives it back. -/
theorem acquire_excludes {k₁ k₂ k₃ : Kernel} {task' : Addr} {g g' : Garbage}
    {trace : List (Kernel × Event)}
    (taken : runCall prevention k ⟨task, .semTryAcquire id g⟩ = .ok (1, k₁))
    (run : Exec (Step prevention) k₁ trace k₂)
    (again : runCall prevention k₂ ⟨task', .semTryAcquire id g'⟩ = .ok (1, k₃)) :
    ∃ e ∈ trace, e.2.call = .semInit id ∨ e.2.call = .semRelease id := by
  by_contra none
  have kept : ∀ k (e : Event) k', Taken id k → Step prevention k e k' →
      ¬ (e.call = .semInit id ∨ e.call = .semRelease id) → Taken id k' :=
    fun k e k' taken step kept => taken.step step kept
  have still := exec_invariant (taken_of_acquire taken).2 kept run
    fun e mem back => none ⟨e, mem, back⟩
  exact (taken_of_acquire again).1 still.2

def takenOnce : Kernel := resourceAssign (atomicSet (sysSemCreate initKernel 10).2 0 1) (some 10)

theorem acquire_excludes_takenOnce :
    Step true takenOnce ⟨1, .semRelease 0⟩ (sysSemRelease takenOnce 0).2 ∧
      ∃ e ∈ [(takenOnce, (⟨1, .semRelease 0⟩ : Event))],
        e.2.call = .semInit 0 ∨ e.2.call = .semRelease 0 := by
  have taken : runCall true (sysSemCreate initKernel 10).2 ⟨1, .semTryAcquire 0 zeroGarbage⟩ =
      .ok (1, takenOnce) := rfl
  have back : Step true takenOnce ⟨1, .semRelease 0⟩ (sysSemRelease takenOnce 0).2 :=
    ⟨⟨by decide, by decide⟩, 0, rfl⟩
  have again : runCall true (sysSemRelease takenOnce 0).2 ⟨1, .semTryAcquire 0 zeroGarbage⟩ =
      .ok (1, _) := rfl
  exact ⟨back, acquire_excludes taken (Exec.refl.next back) again⟩

end Elaborato.Mentos
