import Elaborato.Mentos.KernelCalls

/-!
The columns of the max matrix: `fill_max` writes by slot, the others read by identifier.
-/
namespace Elaborato.Mentos
open Foundation List Function

def SharingStep (prevention : Bool) (k : Kernel) (e : Event) (k' : Kernel) : Prop :=
  (match e.call with
    | .semDestroy _ | .exit _ => False
    | _ => True) ∧ Step prevention k e k'

/-- The resources in the array of a task. -/
def resourcesOf (k : Kernel) (task : Addr) : List Addr :=
  (List.range taskResourceMaxAmount).filterMap (k.tasks task).resources

def MaxIndexed (k : Kernel) : Prop :=
  (∀ (g : Garbage) (t : Nat) (task r : Addr), k.queue[t]? = some task → r ∈ k.rList →
    (initDeadlockStructures k g).matMax t (k.resources r).rid =
      if r ∈ resourcesOf k task then UInt32.ofNat (k.resources r).nInstances else 0) ∧
  ∀ i ∈ fillMaxReads k, i < taskResourceMaxAmount

def AlignedCreate (k : Kernel) (e : Event) : Prop :=
  match e.call with
  | .semCreate _ =>
    freeSem k = none ∨ freeSlot { k with curr := e.task } = none ∨
      freeSlot { k with curr := e.task } = some k.rActive
  | _ => True

def CreatedBy (trace : List (Kernel × Event)) (task : Addr) (id : Nat) (r : Addr) : Prop :=
  ∃ e ∈ trace, e.2.task = task ∧ e.2.call = .semCreate r ∧
    (sysSemCreate { e.1 with curr := task } r).1 = (id : Int)

variable {prevention : Bool} {start k k' : Kernel} {e : Event} {task r new : Addr} {id i t : Nat}
  {trace : List (Kernel × Event)}

attribute [local simp] resourcesOf

theorem mem_resourcesOf : r ∈ resourcesOf k task ↔
    ∃ i < taskResourceMaxAmount, (k.tasks task).resources i = some r := by
  simp

structure Aligned (k : Kernel) : Prop where
  tables : Tables k
  slots : ∀ t ∈ k.queue, ∀ i < taskResourceMaxAmount, ∀ r,
    (k.tasks t).resources i = some r → r ∈ k.rList ∧ (k.resources r).rid = i
  room : k.rActive ≤ taskResourceMaxAmount

theorem aligned_maxIndexed (aligned : Aligned k) : MaxIndexed k := by
  refine ⟨?_, ?_⟩
  · intro g t task r position live
    have queued : task ∈ k.queue := mem_of_getElem? position
    have column := aligned.tables.rid_lt live
    have inArray : (k.resources r).rid < taskResourceMaxAmount := column.trans_le aligned.room
    rw [max_slot aligned.tables.queueActive g position column, resourceSlot, if_pos inArray]
    cases entry : (k.tasks task).resources (k.resources r).rid with
    | none =>
      rw [if_neg]
      · rfl
      · intro member
        obtain ⟨i, hi, found⟩ := mem_resourcesOf.mp member
        have same := (aligned.slots task queued i hi r found).2
        rw [same, found] at entry
        cases entry
    | some r' =>
      obtain ⟨live', rid'⟩ := aligned.slots task queued _ inArray r' entry
      have same := aligned.tables.rid_inj live' live rid'
      subst same
      rw [if_pos (mem_resourcesOf.mpr ⟨_, inArray, entry⟩)]
      rfl
  · intro i hi
    exact (mem_range.mp hi).trans_le aligned.room

theorem fresh_aligned (fresh : Fresh k) : Aligned k := by
  refine ⟨fresh.tables, ?_, by simp [fresh.inactive]⟩
  intro t queued i hi r found
  rw [fresh.arrays t queued i hi] at found
  cases found

theorem Aligned.next_free (aligned : Aligned k) (queued : task ∈ k.queue)
    (room : k.rActive < taskResourceMaxAmount) :
    (k.tasks task).resources k.rActive = none := by
  cases found : (k.tasks task).resources k.rActive with
  | none => rfl
  | some r =>
    obtain ⟨live, rid⟩ := aligned.slots task queued _ room r found
    have below := aligned.tables.rid_lt live
    omega

theorem aligned_touches (touches : Touches task k k') (aligned : Aligned k) : Aligned k' := by
  refine ⟨touches.tables aligned.tables, ?_, touches.rActive ▸ aligned.room⟩
  rw [touches.queue, touches.tasks, touches.rList]
  simp only [touches.rid]
  exact aligned.slots

theorem aligned_vfork (aligned : Aligned k) (fresh : new ∉ k.queue) (queued : k.curr ∈ k.queue) :
    Aligned (sysVfork k new).2 := by
  refine ⟨tables_vfork aligned.tables fresh, ?_, aligned.room⟩
  intro t ht i hi r found
  by_cases same : t = new
  · subst same
    simp only [sysVfork, enqueueTask, update_self] at found
    exact aligned.slots k.curr queued i hi r found
  · have old : t ∈ k.queue := by simpa [sysVfork, enqueueTask, same] using ht
    simp only [sysVfork, enqueueTask, update_of_ne same] at found
    exact aligned.slots t old i hi r found

theorem aligned_creates (creates : Creates k k' new k.rActive) (aligned : Aligned k)
    (fresh : new ∉ k.rList)
    (room : k.rActive < taskResourceMaxAmount) : Aligned k' := by
  refine ⟨creates.tables aligned.tables fresh, ?_, creates.rActive ▸ room⟩
  rw [creates.queue, creates.rList]
  intro t ht i hi r found
  rw [creates.arrays] at found
  by_cases here : t = k.curr ∧ i = k.rActive
  · rw [if_pos here] at found
    obtain ⟨category, record⟩ := creates.record
    cases found
    exact ⟨by simp, by rw [record, here.2]⟩
  · rw [if_neg here] at found
    obtain ⟨live, rid⟩ := aligned.slots t ht i hi r found
    rw [creates.others r (fun same => fresh (same ▸ live))]
    exact ⟨mem_append_left _ live, rid⟩

theorem misaligned_creates (creates : Creates k k' new i) (aligned : Aligned k)
    (queued : k.curr ∈ k.queue) (inArray : i < taskResourceMaxAmount) (other : i ≠ k.rActive)
    (g : Garbage) : ¬ MaxIndexed k' := by
  rintro ⟨columns, reads⟩
  have last : k.rActive < k'.rActive := creates.rActive ▸ Nat.lt_succ_self _
  have room : k.rActive < taskResourceMaxAmount := reads k.rActive (mem_range.mpr last)
  obtain ⟨category, record⟩ := creates.record
  obtain ⟨t, position⟩ := getElem?_of_mem (creates.queue ▸ queued)
  have active : k'.numActive = k'.queue.length := by
    rw [creates.numActive, creates.queue, aligned.tables.queueActive]
  have column := columns g t k.curr new position (by simp [creates.rList])
  have member : new ∈ resourcesOf k' k.curr :=
    mem_resourcesOf.mpr ⟨i, inArray, by simp [creates.arrays]⟩
  have free : (k'.tasks k.curr).resources k.rActive = none := by
    rw [creates.arrays, if_neg (fun h => other h.2.symm)]
    exact aligned.next_free queued room
  rw [record, if_pos member, max_slot active g position last, resourceSlot, if_pos room, free]
    at column
  cases column

theorem aligned_curr (aligned : Aligned k) (task : Addr) : Aligned { k with curr := task } :=
  ⟨aligned.tables.at_task task, aligned.slots, aligned.room⟩

theorem aligned_step (aligned : Aligned k) (step : SharingStep prevention k e k')
    (inSlot : AlignedCreate k e) : Aligned k' := by
  obtain ⟨task, call⟩ := e
  obtain ⟨shared, step⟩ := step
  have here := aligned_curr aligned task
  cases call with
  | semCreate new =>
    obtain ⟨queued, fresh, rfl⟩ := step_semCreate step
    rcases sysSemCreate_cases { k with curr := task } new with
      ⟨-, -, touches, -⟩ | ⟨id, i, free, slot, -, creates, -⟩
    · exact aligned_touches (touches task) here
    · have next : i = k.rActive := by
        rcases inSlot with full | full | slot'
        · exact absurd (free.symm.trans full) (by simp)
        · exact absurd (slot.symm.trans full) (by simp)
        · exact Option.some.inj (slot.symm.trans slot')
      subst next
      exact aligned_creates creates here fresh (freeSlot_spec slot).1
  | vfork new =>
    obtain ⟨queued, fresh, rfl⟩ := step_vfork step
    exact aligned_vfork here fresh queued
  | semInit | semTryAcquire | semRelease => exact aligned_touches (step_touches step rfl) aligned
  | semDestroy | exit => exact shared.elim

theorem misaligned_step (g : Garbage) (aligned : Aligned k) (step : SharingStep prevention k e k')
    (outOfSlot : ¬ AlignedCreate k e) : ¬ MaxIndexed k' := by
  obtain ⟨task, call⟩ := e
  cases call with
  | semCreate new =>
    obtain ⟨queued, fresh, rfl⟩ := step_semCreate step.2
    simp only [AlignedCreate, not_or] at outOfSlot
    obtain ⟨free, notFull, notNext⟩ := outOfSlot
    rcases sysSemCreate_cases { k with curr := task } new with
      ⟨full | full, -⟩ | ⟨id, i, -, slot, -, creates, -⟩
    · exact absurd full free
    · exact absurd full notFull
    · exact misaligned_creates creates (aligned_curr aligned task) queued (freeSlot_spec slot).1
        (fun same => notNext (same ▸ slot)) g
  | semDestroy | semInit | semTryAcquire | semRelease | vfork | exit =>
    exact absurd True.intro outOfSlot

structure Owns (k : Kernel) (task : Addr) (id : Nat) (r : Addr) : Prop where
  queued : task ∈ k.queue
  inTable : id < semMax
  used : (k.semaphores id).used = true
  resource : (k.semaphores id).semResource = some r
  live : r ∈ k.rList
  inArray : r ∈ resourcesOf k task

theorem owns_touches {other : Addr} (touches : Touches other k k') (owns : Owns k task id r) :
    Owns k' task id r := by
  obtain ⟨used, resource⟩ := touches.semaphores id
  refine ⟨touches.queue ▸ owns.queued, owns.inTable, used.trans owns.used,
    (resource owns.used).trans owns.resource, touches.rList ▸ owns.live, ?_⟩
  simpa [touches.tasks] using owns.inArray

theorem owns_create (owns : Owns k task id r) : Owns (sysSemCreate k new).2 task id r := by
  rcases sysSemCreate_cases k new with
    ⟨-, -, touches, -⟩ | ⟨id', i, free, slot, -, creates, semaphores⟩
  · exact owns_touches (touches task) owns
  · have other : id ≠ id' := by
      intro same
      have used := owns.used
      rw [same, (freeSem_spec free).2] at used
      cases used
    have same : (sysSemCreate k new).2.semaphores id = k.semaphores id := by
      rw [semaphores, update_of_ne other]
    obtain ⟨j, hj, found⟩ := mem_resourcesOf.mp owns.inArray
    refine ⟨creates.queue ▸ owns.queued, owns.inTable, same ▸ owns.used, same ▸ owns.resource, ?_,
      mem_resourcesOf.mpr ⟨j, hj, ?_⟩⟩
    · rw [creates.rList]
      exact mem_append_left _ owns.live
    · rw [creates.arrays, if_neg, found]
      rintro ⟨rfl, rfl⟩
      rw [(freeSlot_spec slot).2.1] at found
      cases found

theorem owns_created (queued : k.curr ∈ k.queue) (created : (sysSemCreate k new).1 = (id : Int)) :
    Owns (sysSemCreate k new).2 k.curr id new := by
  rcases sysSemCreate_cases k new with
    ⟨-, failed, -⟩ | ⟨id', i, free, slot, answer, creates, semaphores⟩
  · rw [failed] at created
    omega
  · have same : id' = id := by
      rw [answer] at created
      omega
    subst same
    refine ⟨creates.queue ▸ queued, (freeSem_spec free).1, by simp [semaphores],
      by simp [semaphores], by simp [creates.rList], ?_⟩
    exact mem_resourcesOf.mpr ⟨i, (freeSlot_spec slot).1, by simp [creates.arrays]⟩

theorem owns_step (owns : Owns k task id r) (step : SharingStep prevention k e k') :
    Owns k' task id r := by
  obtain ⟨other, call⟩ := e
  obtain ⟨shared, step⟩ := step
  have here : Owns { k with curr := other } task id r :=
    ⟨owns.queued, owns.inTable, owns.used, owns.resource, owns.live, owns.inArray⟩
  cases call with
  | semCreate new =>
    obtain ⟨-, -, rfl⟩ := step_semCreate step
    exact owns_create here
  | vfork new =>
    obtain ⟨-, fresh, rfl⟩ := step_vfork step
    have apart : task ≠ new := fun same => fresh (same ▸ owns.queued)
    refine ⟨mem_append_left _ owns.queued, owns.inTable, owns.used, owns.resource, owns.live, ?_⟩
    simpa [sysVfork, enqueueTask, apart] using owns.inArray
  | semInit | semTryAcquire | semRelease => exact owns_touches (step_touches step rfl) owns
  | semDestroy | exit => exact shared.elim

theorem sysSemTryAcquire_not_deadlockError (tables : Tables k) (indexed : MaxIndexed k)
    (owns : Owns k k.curr id r) (notHeld : (k.resources r).assignedTask ≠ some k.curr)
    (g : Garbage) : sysSemTryAcquire true k id g ≠ .error .deadlockError := by
  obtain ⟨t, position⟩ := getElem?_of_mem owns.queued
  have ht : t < k.numActive := tables.queueActive ▸ (List.getElem?_eq_some_iff.mp position).1
  have column := tables.rid_lt owns.live
  have need : (bankerOf k g).matNeed t (k.resources r).rid = 1 := by
    have max := indexed.1 g t k.curr r position owns.live
    have alloc := alloc_rid tables g ht owns.live
    rw [position, if_neg (Ne.symm notHeld)] at alloc
    rw [if_pos owns.inArray, tables.instances r owns.live] at max
    rw [show (bankerOf k g).matNeed t = (initDeadlockStructures k g).matNeed t from rfl,
      need_slot g ht column, max, alloc]
    rfl
  have fits : val k.rActive (requestVec k g r) ≤ val k.rActive ((bankerOf k g).matNeed t) := by
    rw [requestVec_le_iff g column, need]
    decide
  have answered := semRequest_apply tables g position owns.live owns.resource
  rw [sysSemTryAcquire_status owns.inTable owns.used answered]
  rcases request_cases (requestVec k g r) t (bankerOf k g) k.numActive k.rActive with
    ⟨-, beyond⟩ | ⟨-, ⟨status, -⟩ | ⟨-, ⟨status, -⟩ | ⟨status, -⟩⟩⟩
  · exact absurd fits beyond
  · simp [status, acquireOn]
  · simp [status, acquireOn]
  · rw [status, acquireOn]
    split <;> simp

/-- The columns are those of the identifiers exactly when creations take the slot of theirs. -/
theorem maxIndexed_run_iff (fresh : Fresh start)
    (run : Exec (SharingStep prevention) start trace k) :
    (Always MaxIndexed trace k ↔ ∀ e ∈ trace, AlignedCreate e.1 e.2) ∧
    (Always MaxIndexed trace k → ∀ (task r : Addr) (id : Nat) (g : Garbage),
      CreatedBy trace task id r → (k.resources r).assignedTask ≠ some task →
      sysSemTryAcquire true { k with curr := task } id g ≠ .error .deadlockError) := by
  have stays : ∀ k e k', Aligned k → SharingStep prevention k e k' → AlignedCreate k e →
      Aligned k' := fun _ _ _ aligned step inSlot => aligned_step aligned step inSlot
  have inPlace := exec_always_iff (fresh_aligned fresh) (fun _ => aligned_maxIndexed) stays
    (fun _ _ _ aligned step outOfSlot => misaligned_step zeroGarbage aligned step outOfSlot) run
  refine ⟨inPlace, ?_⟩
  intro always task r id g created notHeld
  have aligned := (exec_invariant (fresh_aligned fresh) stays run (inPlace.mp always)).2
  have creation : ∀ (k : Kernel) (e : Event) (k' : Kernel), SharingStep prevention k e k' →
      (e.task = task ∧ e.call = .semCreate r ∧
        (sysSemCreate { k with curr := task } r).1 = (id : Int)) → Owns k' task id r := by
    rintro k ⟨creator, call⟩ k' ⟨-, step⟩ ⟨rfl, rfl, answer⟩
    obtain ⟨queued, -, rfl⟩ := step_semCreate step
    exact owns_created queued answer
  have owns := exec_since (fun k => Owns k task id r) creation
    (fun _ _ _ owns step => owns_step owns step) run created
  exact sysSemTryAcquire_not_deadlockError (aligned_curr aligned task).tables
    (aligned_maxIndexed (aligned_curr aligned task))
    ⟨owns.queued, owns.inTable, owns.used, owns.resource, owns.live, owns.inArray⟩ notHeld g

def forkedCreators : Kernel :=
  let forked := (sysVfork initKernel 2).2
  let first := (sysSemCreate { forked with curr := 1 } 10).2
  (sysSemCreate { first with curr := 2 } 11).2

theorem forkedCreators_run : ∃ trace, Exec (SharingStep true) initKernel trace forkedCreators := by
  have fork : SharingStep true initKernel ⟨1, .vfork 2⟩ (sysVfork initKernel 2).2 :=
    ⟨True.intro, ⟨by decide, by decide⟩, _, rfl⟩
  have first : SharingStep true (sysVfork initKernel 2).2 ⟨1, .semCreate 10⟩
      (sysSemCreate { (sysVfork initKernel 2).2 with curr := 1 } 10).2 :=
    ⟨True.intro, ⟨by decide, by decide⟩, _, rfl⟩
  have second : SharingStep true
      (sysSemCreate { (sysVfork initKernel 2).2 with curr := 1 } 10).2 ⟨2, .semCreate 11⟩
      forkedCreators :=
    ⟨True.intro, ⟨by decide, by decide⟩, _, rfl⟩
  exact ⟨_, ((Exec.refl.next fork).next first).next second⟩

theorem forkedCreators_deadlockError :
    ∃ trace, Exec (SharingStep true) initKernel trace forkedCreators ∧
      forkedCreators.queue[1]? = some 2 ∧ 11 ∈ resourcesOf forkedCreators 2 ∧
      (forkedCreators.resources 11).rid = 1 ∧
      (initDeadlockStructures forkedCreators zeroGarbage).matMax 1 1 = 0 ∧
      ¬ MaxIndexed forkedCreators ∧
      sysSemTryAcquire true { forkedCreators with curr := 2 } 1 zeroGarbage =
        .error .deadlockError := by
  obtain ⟨trace, run⟩ := forkedCreators_run
  refine ⟨trace, run, by decide, by decide, by decide, by decide, ?_, rfl⟩
  intro indexed
  have column := indexed.1 zeroGarbage 1 2 11 (by decide) (by decide)
  exact absurd column (by decide)

theorem maxIndexed_run_initKernel :
    Fresh initKernel ∧ MaxIndexed (sysSemCreate { initKernel with curr := 1 } 10).2 ∧
      sysSemTryAcquire true { (sysSemCreate { initKernel with curr := 1 } 10).2 with curr := 1 } 0
        zeroGarbage ≠ .error .deadlockError := by
  have create : SharingStep true initKernel ⟨1, .semCreate 10⟩
      (sysSemCreate { initKernel with curr := 1 } 10).2 :=
    ⟨True.intro, ⟨by decide, by decide⟩, _, rfl⟩
  obtain ⟨inPlace, noError⟩ := maxIndexed_run_iff initKernel_fresh (Exec.refl.next create)
  have always := inPlace.mpr (by
    intro e he
    rw [mem_singleton.mp he]
    exact .inr (.inr (by decide)))
  refine ⟨initKernel_fresh, always.2, ?_⟩
  exact noError always 1 10 0 zeroGarbage ⟨_, mem_singleton.mpr rfl, rfl, rfl, by decide⟩
    (by decide)

end Elaborato.Mentos
