import Elaborato.Mentos.KernelCalls

/-!
What a task holds when it exits stays assigned to a task that is gone.
-/
namespace Elaborato.Mentos
open Foundation

def LifecycleStep (prevention : Bool) (k : Kernel) (e : Event) (k' : Kernel) : Prop :=
  (match e.call with
    | .semDestroy _ => False
    | _ => True) ∧ Step prevention k e k'

def NoneLost (k : Kernel) : Prop :=
  ∀ r ∈ k.rList, (∀ task, (k.resources r).assignedTask = some task → task ∈ k.queue) ∧
    ∀ g : Garbage, ((initDeadlockStructures k g).arrAvailable (k.resources r).rid).toNat +
      ∑ t ∈ Finset.range k.numActive,
        ((initDeadlockStructures k g).matAlloc t (k.resources r).rid).toNat =
      (k.resources r).nInstances

/-- A task that exits holds no resource. -/
def ExitsEmptyHanded (k : Kernel) (e : Event) : Prop :=
  match e.call with
  | .exit _ => ∀ r ∈ k.rList, (k.resources r).assignedTask ≠ some e.task
  | _ => True

def Assigned (queue : List Addr) (r : Resource) : Prop :=
  (r.assignedTask = none ∧ r.assignedInstances = 0) ∨
    ∃ task ∈ queue, r.assignedTask = some task ∧ r.assignedInstances = 1

structure Accounted (k : Kernel) : Prop where
  tables : Tables k
  assigned : ∀ r ∈ k.rList, Assigned k.queue (k.resources r)

variable {prevention : Bool} {start k k' : Kernel} {e : Event} {task r new : Addr} {i : Nat}
  {trace : List (Kernel × Event)}

theorem sum_alloc (accounted : Accounted k) (live : r ∈ k.rList) (g : Garbage) :
    ∑ t ∈ Finset.range k.numActive,
      ((initDeadlockStructures k g).matAlloc t (k.resources r).rid).toNat =
    (k.resources r).assignedInstances := by
  have tables := accounted.tables
  have entry : ∀ t, t < k.numActive → ((initDeadlockStructures k g).matAlloc t
      (k.resources r).rid).toNat = if k.queue[t]? = (k.resources r).assignedTask then
        (UInt32.ofNat (k.resources r).assignedInstances).toNat else 0 := by
    intro t ht
    rw [alloc_rid tables g ht live]
    split <;> rfl
  rcases accounted.assigned r live with ⟨nobody, none⟩ | ⟨task, queued, holder, one⟩
  · rw [none]
    apply Finset.sum_eq_zero
    intro t ht
    have inQueue : t < k.queue.length := tables.queueActive ▸ Finset.mem_range.mp ht
    rw [entry t (Finset.mem_range.mp ht), if_neg]
    simp [nobody, inQueue]
  · obtain ⟨t₀, position⟩ := List.getElem?_of_mem queued
    have inQueue : t₀ < k.queue.length := (List.getElem?_eq_some_iff.mp position).1
    have ht₀ : t₀ < k.numActive := tables.queueActive ▸ inQueue
    rw [one, Finset.sum_eq_single_of_mem t₀ (Finset.mem_range.mpr ht₀)]
    · rw [entry t₀ ht₀, position, holder, if_pos rfl, one]
      rfl
    · intro t ht other
      have htn := Finset.mem_range.mp ht
      rw [entry t htn, if_neg]
      intro same
      have sameEntry : k.queue[t]? = k.queue[t₀]? := by rw [same, holder, position]
      exact other ((List.getElem?_inj (tables.queueActive ▸ htn) tables.queueNodup).mp sameEntry)

theorem accounted_noneLost (accounted : Accounted k) : NoneLost k := by
  intro r live
  refine ⟨?_, ?_⟩
  · intro task holder
    rcases accounted.assigned r live with ⟨nobody, -⟩ | ⟨task', queued, holder', -⟩
    · rw [nobody] at holder
      cases holder
    · rw [holder'] at holder
      cases holder
      exact queued
  · intro g
    rw [sum_alloc accounted live g, available_rid accounted.tables g live,
      accounted.tables.instances r live]
    rcases accounted.assigned r live with ⟨-, none⟩ | ⟨-, -, -, one⟩
    · rw [none]
      rfl
    · rw [one]
      rfl

theorem fresh_accounted (fresh : Fresh k) : Accounted k := ⟨fresh.tables, by simp [fresh.empty]⟩

theorem assigned_mono {queue queue' : List Addr} {r : Resource} (more : ∀ t ∈ queue, t ∈ queue')
    (h : Assigned queue r) : Assigned queue' r := by
  rcases h with free | ⟨task, queued, holder⟩
  · exact .inl free
  · exact .inr ⟨task, more task queued, holder⟩

theorem accounted_touches (touches : Touches task k k') (queued : task ∈ k.queue)
    (accounted : Accounted k) : Accounted k' := by
  refine ⟨touches.tables accounted.tables, ?_⟩
  rw [touches.queue, touches.rList]
  intro r live
  rcases touches.resources r with same | reset | taken
  · rw [same]
    exact accounted.assigned r live
  · rw [reset]
    exact .inl ⟨rfl, rfl⟩
  · rw [taken]
    exact .inr ⟨task, queued, rfl, rfl⟩

theorem accounted_creates (creates : Creates k k' new i) (fresh : new ∉ k.rList)
    (accounted : Accounted k) : Accounted k' := by
  refine ⟨creates.tables accounted.tables fresh, ?_⟩
  rw [creates.queue, creates.rList]
  intro r live
  by_cases same : r = new
  · obtain ⟨category, record⟩ := creates.record
    rw [same, record]
    exact .inl ⟨rfl, rfl⟩
  · rw [creates.others r same]
    exact accounted.assigned r (by simpa [same] using live)

theorem accounted_exits (exits : Exits k k' task) (queued : task ∈ k.queue)
    (emptyHanded : ∀ r ∈ k.rList, (k.resources r).assignedTask ≠ some task)
    (accounted : Accounted k) : Accounted k' := by
  refine ⟨exits.tables accounted.tables queued, ?_⟩
  rw [exits.queue, exits.rList, exits.resources]
  intro r live
  rcases accounted.assigned r live with free | ⟨holder, inQueue, assigned, one⟩
  · exact .inl free
  · have other : holder ≠ task := by
      intro same
      exact emptyHanded r live (same ▸ assigned)
    exact .inr ⟨holder, (List.mem_erase_of_ne other).mpr inQueue, assigned, one⟩

theorem accounted_step (accounted : Accounted k) (step : LifecycleStep prevention k e k')
    (emptyHanded : ExitsEmptyHanded k e) : Accounted k' := by
  obtain ⟨task, call⟩ := e
  obtain ⟨kept, step⟩ := step
  have queued : task ∈ k.queue := step.1.1
  have here : Accounted { k with curr := task } :=
    ⟨accounted.tables.at_task task, accounted.assigned⟩
  cases call with
  | semCreate new =>
    obtain ⟨-, fresh, rfl⟩ := step_semCreate step
    rcases sysSemCreate_cases { k with curr := task } new with
      ⟨-, -, touches, -⟩ | ⟨id, i, -, -, -, creates, -⟩
    · exact accounted_touches (touches task) queued here
    · exact accounted_creates creates fresh here
  | vfork new =>
    obtain ⟨-, fresh, rfl⟩ := step_vfork step
    refine ⟨tables_vfork here.tables fresh, ?_⟩
    intro r live
    exact assigned_mono (fun _ => List.mem_append_left _) (accounted.assigned r live)
  | semInit | semTryAcquire | semRelease =>
    exact accounted_touches (step_touches step rfl) queued accounted
  | exit code => exact accounted_exits (step_exit step).2 queued emptyHanded accounted
  | semDestroy => exact kept.elim

theorem lost_step (accounted : Accounted k) (step : LifecycleStep prevention k e k')
    (holding : ¬ ExitsEmptyHanded k e) : ¬ NoneLost k' := by
  obtain ⟨task, call⟩ := e
  cases call with
  | exit code =>
    obtain ⟨queued, exits⟩ := step_exit step.2
    simp only [ExitsEmptyHanded, not_forall, not_not] at holding
    obtain ⟨r, live, holder⟩ := holding
    intro kept
    have still := (kept r (exits.rList ▸ live)).1 task (by rw [exits.resources, holder])
    rw [exits.queue] at still
    exact accounted.tables.queueNodup.not_mem_erase still
  | semCreate | semDestroy | semInit | semTryAcquire | semRelease | vfork =>
    exact absurd True.intro holding

/-- No resource is lost exactly when every task that exits has given back what it held. -/
theorem noneLost_run_iff (fresh : Fresh start)
    (run : Exec (LifecycleStep prevention) start trace k) :
    Always NoneLost trace k ↔ ∀ e ∈ trace, ExitsEmptyHanded e.1 e.2 := by
  have stays : ∀ k e k', Accounted k → LifecycleStep prevention k e k' → ExitsEmptyHanded k e →
      Accounted k' := fun _ _ _ accounted step emptyHanded =>
    accounted_step accounted step emptyHanded
  exact exec_always_iff (fresh_accounted fresh) (fun _ => accounted_noneLost) stays
    (fun _ _ _ accounted step holding => lost_step accounted step holding) run

def createdByTwo : Kernel := (sysSemCreate { (sysVfork initKernel 2).2 with curr := 2 } 10).2

/-- Task 2 has then acquired it. -/
def heldByTwo : Kernel :=
  resourceAssign (atomicSet { createdByTwo with curr := 2 } 0 1) (some 10)

def exitedHolding : Kernel :=
  match sysExit heldByTwo 0 with
  | .ok k => kernelSchedule k
  | .error _ => heldByTwo

theorem heldByTwo_run : ∃ trace, Exec (LifecycleStep true) initKernel trace heldByTwo ∧
    ∀ e ∈ trace, ExitsEmptyHanded e.1 e.2 := by
  have fork : LifecycleStep true initKernel ⟨1, .vfork 2⟩ (sysVfork initKernel 2).2 :=
    ⟨True.intro, ⟨by decide, by decide⟩, _, rfl⟩
  have create : LifecycleStep true (sysVfork initKernel 2).2 ⟨2, .semCreate 10⟩ createdByTwo :=
    ⟨True.intro, ⟨by decide, by decide⟩, _, rfl⟩
  have acquire : LifecycleStep true createdByTwo ⟨2, .semTryAcquire 0 zeroGarbage⟩ heldByTwo :=
    ⟨True.intro, ⟨by decide, by decide⟩, 1, rfl⟩
  exact ⟨_, ((Exec.refl.next fork).next create).next acquire, by simp [ExitsEmptyHanded]⟩

theorem exitedHolding_loses :
    ∃ trace, Exec (LifecycleStep true) initKernel trace exitedHolding ∧
      exitedHolding.rList = [10] ∧ exitedHolding.queue = [1] ∧
      (exitedHolding.resources 10).assignedTask = some 2 ∧
      (initDeadlockStructures exitedHolding zeroGarbage).arrAvailable 0 = 0 ∧
      (initDeadlockStructures exitedHolding zeroGarbage).matAlloc 0 0 = 0 ∧
      ¬ NoneLost exitedHolding := by
  obtain ⟨trace, run, -⟩ := heldByTwo_run
  have exit : LifecycleStep true heldByTwo ⟨2, .exit 0⟩ exitedHolding :=
    ⟨True.intro, ⟨by decide, True.intro⟩, 0, rfl⟩
  refine ⟨_, run.next exit, by decide, by decide, by decide, by decide, by decide, ?_⟩
  intro kept
  exact absurd ((kept 10 (by decide)).1 2 (by decide)) (by decide)

theorem noneLost_run_heldByTwo : Fresh initKernel ∧
    ∃ trace, Exec (LifecycleStep true) initKernel trace heldByTwo ∧
      Always NoneLost trace heldByTwo := by
  obtain ⟨trace, run, emptyHanded⟩ := heldByTwo_run
  exact ⟨initKernel_fresh, trace, run, (noneLost_run_iff initKernel_fresh run).mpr emptyHanded⟩

end Elaborato.Mentos
