import Elaborato.Mentos.DeadlockMatrices
import Elaborato.Mentos.SmartSem

/-!
What each system call does to the tables of tasks, resources and semaphores.
-/
namespace Elaborato.Mentos
open Foundation List Function

structure Fresh (k : Kernel) : Prop where
  queueNodup : k.queue.Nodup
  queueActive : k.numActive = k.queue.length
  empty : k.rList = []
  inactive : k.rActive = 0
  arrays : ∀ t ∈ k.queue, ∀ i < taskResourceMaxAmount, (k.tasks t).resources i = none
  unused : ∀ id < semMax, (k.semaphores id).used = false

theorem Fresh.tables {k : Kernel} (fresh : Fresh k) : Tables k := by
  refine ⟨fresh.queueNodup, fresh.queueActive, ?_, ?_⟩
  · simp [RidsContiguous, liveRids, fresh.empty, fresh.inactive]
  · simp [fresh.empty]

theorem initKernel_fresh : Fresh initKernel :=
  ⟨by decide, rfl, rfl, rfl, fun _ _ _ _ => rfl, fun _ _ => rfl⟩

variable {k k' : Kernel} {new task r : Addr} {i id : Nat}

theorem freeSlot_spec (slot : freeSlot k = some i) :
    i < taskResourceMaxAmount ∧ (k.tasks k.curr).resources i = none ∧
      ∀ j < i, (k.tasks k.curr).resources j ≠ none := by
  rw [freeSlot, find?_range_eq_some] at slot
  obtain ⟨free, inArray, before⟩ := slot
  refine ⟨by simpa using inArray, by simpa using free, ?_⟩
  intro j hj
  simpa [← Option.isSome_iff_ne_none] using before j hj

theorem freeSem_spec (free : freeSem k = some id) :
    id < semMax ∧ (k.semaphores id).used = false := by
  rw [freeSem, find?_range_eq_some] at free
  exact ⟨by simpa using free.2.1, by simpa using free.1⟩

structure Touches (task : Addr) (k k' : Kernel) : Prop where
  queue : k'.queue = k.queue
  numActive : k'.numActive = k.numActive
  tasks : k'.tasks = k.tasks
  rList : k'.rList = k.rList
  rActive : k'.rActive = k.rActive
  resources : ∀ r, k'.resources r = k.resources r ∨
    k'.resources r = { k.resources r with assignedTask := none, assignedInstances := 0 } ∨
    k'.resources r = { k.resources r with assignedTask := some task, assignedInstances := 1 }
  semaphores : ∀ id, (k'.semaphores id).used = (k.semaphores id).used ∧
    ((k.semaphores id).used = true →
      (k'.semaphores id).semResource = (k.semaphores id).semResource)

theorem Touches.rid (touches : Touches task k k') (r : Addr) :
    (k'.resources r).rid = (k.resources r).rid ∧
      (k'.resources r).nInstances = (k.resources r).nInstances := by
  rcases touches.resources r with h | h | h <;> simp [h]

theorem touches_refl (task : Addr) (k : Kernel) : Touches task k k :=
  ⟨rfl, rfl, rfl, rfl, rfl, fun _ => .inl rfl, fun _ => ⟨rfl, fun _ => rfl⟩⟩

theorem touches_resourceInit (task : Addr) (k : Kernel) (r : Option Addr) :
    Touches task k (resourceInit k r) := by
  cases r with
  | none => exact touches_refl task k
  | some r =>
    refine ⟨rfl, rfl, rfl, rfl, rfl, ?_, fun _ => ⟨rfl, fun _ => rfl⟩⟩
    intro r'
    by_cases same : r' = r
    · subst same
      exact .inr (.inl (by simp [resourceInit]))
    · exact .inl (by simp [resourceInit, same])

theorem touches_resourceAssign (k : Kernel) (r : Option Addr) :
    Touches k.curr k (resourceAssign k r) := by
  cases r with
  | none => exact touches_refl k.curr k
  | some r =>
    refine ⟨rfl, rfl, rfl, rfl, rfl, ?_, fun _ => ⟨rfl, fun _ => rfl⟩⟩
    intro r'
    by_cases same : r' = r
    · subst same
      exact .inr (.inr (by simp [resourceAssign]))
    · exact .inl (by simp [resourceAssign, same])

attribute [local simp] setSem resourceCreate sysSemCreate atomicSetAndTest atomicSet sysSemInit
  sysSemTryAcquire

theorem sysSemCreate_cases (k : Kernel) (new : Addr) :
    ((freeSem k = none ∨ freeSlot k = none) ∧ (sysSemCreate k new).1 = -1 ∧
      (∀ task, Touches task k (sysSemCreate k new).2) ∧
      (sysSemCreate k new).2.resources = k.resources ∧
      ∀ id, ((sysSemCreate k new).2.semaphores id).value = (k.semaphores id).value ∧
        ((sysSemCreate k new).2.semaphores id).used = (k.semaphores id).used ∧
        ((k.semaphores id).used = true → (sysSemCreate k new).2.semaphores id = k.semaphores id)) ∨
    ∃ (id : Nat) (i : Nat), freeSem k = some id ∧ freeSlot k = some i ∧
      (sysSemCreate k new).1 = id ∧ Creates k (sysSemCreate k new).2 new i ∧
      (sysSemCreate k new).2.semaphores = update k.semaphores id
        { k.semaphores id with semResource := some new, used := true } := by
  cases free : freeSem k with
  | none =>
    have failed : sysSemCreate k new = (-1, k) := by simp [free]
    rw [failed]
    exact .inl ⟨.inl rfl, rfl, fun task => touches_refl task k, rfl,
      fun _ => ⟨rfl, rfl, fun _ => rfl⟩⟩
  | some id =>
    obtain ⟨-, unused⟩ := freeSem_spec free
    cases slot : freeSlot k with
    | none =>
      have failed : sysSemCreate k new =
          (-1, setSem k id { k.semaphores id with semResource := none }) := by
        simp [free, slot]
      rw [failed]
      have semaphores : ∀ id', (update k.semaphores id
          { k.semaphores id with semResource := none } id').value = (k.semaphores id').value ∧
          (update k.semaphores id
            { k.semaphores id with semResource := none } id').used = (k.semaphores id').used ∧
          ((k.semaphores id').used = true → update k.semaphores id
            { k.semaphores id with semResource := none } id' = k.semaphores id') := by
        intro id'
        by_cases same : id' = id
        · subst same
          simp [unused]
        · simp [same]
      refine .inl ⟨.inr rfl, rfl,
        fun task => ⟨rfl, rfl, rfl, rfl, rfl, fun _ => .inl rfl, ?_⟩, rfl, semaphores⟩
      exact fun id' =>
        ⟨(semaphores id').2.1, fun used => congrArg _ ((semaphores id').2.2 used)⟩
    | some i =>
      have creates := resourceCreate_creates "sem" new slot
      have done : sysSemCreate k new = ((id : Int), setSem (resourceCreate k "sem" new).2 id
          { k.semaphores id with semResource := some new, used := true }) := by
        simp [free, slot]
      rw [done]
      refine .inr ⟨id, i, rfl, rfl, rfl, ?_, ?_⟩
      · exact ⟨creates.queue, creates.numActive, creates.rList, creates.rActive,
          creates.record, creates.others, creates.arrays⟩
      · simp [slot]

theorem Creates.tables (creates : Creates k k' new i) (tables : Tables k)
    (fresh : new ∉ k.rList) : Tables k' := by
  refine ⟨?_, ?_, creates.ridsContiguous tables.rids fresh, ?_⟩
  · rw [creates.queue]
    exact tables.queueNodup
  · rw [creates.queue, creates.numActive]
    exact tables.queueActive
  · intro r live
    by_cases same : r = new
    · obtain ⟨category, record⟩ := creates.record
      rw [same, record]
    · rw [creates.others r same]
      exact tables.instances r (by simpa [creates.rList, same] using live)

theorem touches_of_atomicSet {value : UInt32} (h : Touches task (atomicSet k id value) k') :
    Touches task k k' := by
  refine ⟨h.queue, h.numActive, h.tasks, h.rList, h.rActive, h.resources, ?_⟩
  intro id'
  have word : ((atomicSet k id value).semaphores id').used = (k.semaphores id').used ∧
      ((atomicSet k id value).semaphores id').semResource = (k.semaphores id').semResource := by
    by_cases same : id' = id <;> simp [same]
  rw [← word.1, ← word.2]
  exact h.semaphores id'

theorem toNat_lt_semMax {id : Int} (good : badId id = false) (inTable : id ≠ semMax) :
    id.toNat < semMax := by
  simp only [badId, Bool.or_eq_false_iff, decide_eq_false_iff_not] at good
  omega

theorem badId_of_lt (inTable : id < semMax) : badId (id : Int) = false := by
  simp only [badId, Bool.or_eq_false_iff, decide_eq_false_iff_not]
  omega

theorem sysSemInit_cases (k : Kernel) (id : Int) :
    (sysSemInit k id).2 = k ∨
    (badId id = false ∧ (k.semaphores id.toNat).used = true ∧
      (sysSemInit k id).2 =
        resourceInit (atomicSet k id.toNat 0) (k.semaphores id.toNat).semResource) := by
  cases good : badId id with
  | true => exact .inl (by simp [good])
  | false =>
    cases used : (k.semaphores id.toNat).used with
    | false => exact .inl (by simp [good, used])
    | true =>
      refine .inr ⟨rfl, rfl, ?_⟩
      simp [good, used]

theorem sysSemInit_used (inTable : id < semMax) (used : (k.semaphores id).used = true)
    (resource : (k.semaphores id).semResource = some r) :
    sysSemInit k id = (0, resourceInit (atomicSet k id 0) (some r)) := by
  simp [badId_of_lt inTable, used, resource]

theorem sysSemRelease_eq (k : Kernel) (id : Int) : sysSemRelease k id = sysSemInit k id := rfl

theorem touches_sysSemInit (k : Kernel) (id : Int) : Touches k.curr k (sysSemInit k id).2 := by
  rcases sysSemInit_cases k id with same | ⟨-, -, done⟩
  · rw [same]
    exact touches_refl k.curr k
  · rw [done]
    exact touches_of_atomicSet (touches_resourceInit k.curr _ _)

variable {prevention : Bool} {g : Garbage}

theorem sysSemTry_cases {taken : Bool} (h : sysSemTry prevention k id g = .ok (taken, k')) :
    (taken = true ∧ (k.semaphores id).value = 0 ∧ k' = atomicSet k id 1 ∧
      (prevention = true → semRequest k id g = .ok .safe)) ∨
    (taken = false ∧ prevention = true ∧ k' = k) ∨
    (taken = false ∧ prevention = false ∧ (k.semaphores id).value ≠ 0 ∧ k' = atomicSet k id 1) := by
  cases prevention with
  | true =>
    simp only [sysSemTry, if_true] at h
    cases status : semRequest k id g with
    | error halt => simp [status] at h
    | ok answer =>
      cases answer with
      | safe =>
        by_cases free : (k.semaphores id).value = 0
        · simp only [status, atomicSetAndTest, free, if_true, Except.ok.injEq,
            Prod.mk.injEq] at h
          obtain ⟨rfl, rfl⟩ := h
          exact .inl ⟨rfl, free, rfl, fun _ => rfl⟩
        · simp [status, free] at h
      | wait | waitUnsafe =>
        simp only [status, Except.ok.injEq, Prod.mk.injEq] at h
        exact .inr (.inl ⟨h.1.symm, rfl, h.2.symm⟩)
      | error => simp [status] at h
  | false =>
    simp only [sysSemTry, Bool.false_eq_true, if_false, atomicSetAndTest, Except.ok.injEq,
      Prod.mk.injEq] at h
    obtain ⟨rfl, rfl⟩ := h
    by_cases free : (k.semaphores id).value = 0
    · exact .inl ⟨by simpa using free, free, rfl, by simp⟩
    · exact .inr (.inr ⟨by simpa using free, rfl, free, rfl⟩)

variable {answer : Int}

section
variable {id : Int} (h : sysSemTryAcquire prevention k id g = .ok (answer, k'))
include h

theorem sysSemTryAcquire_cases :
    (answer ≠ 1 ∧ k' = k) ∨
    (badId id = false ∧ (k.semaphores id.toNat).used = true ∧
      ((answer = 1 ∧ (k.semaphores id.toNat).value = 0 ∧
          k' = resourceAssign (atomicSet k id.toNat 1) (k.semaphores id.toNat).semResource) ∨
        (answer = 0 ∧ (k.semaphores id.toNat).value ≠ 0 ∧ k' = atomicSet k id.toNat 1))) := by
  cases good : badId id with
  | true =>
    simp only [sysSemTryAcquire, good, if_true] at h
    cases h
    exact .inl ⟨by decide, rfl⟩
  | false =>
    cases used : (k.semaphores id.toNat).used with
    | false =>
      simp only [sysSemTryAcquire, good, used] at h
      cases h
      exact .inl ⟨by decide, rfl⟩
    | true =>
      simp only [sysSemTryAcquire, good, used] at h
      cases tried : sysSemTry prevention k id.toNat g with
      | error halt => simp [tried] at h
      | ok result =>
        obtain ⟨taken, k₁⟩ := result
        rcases sysSemTry_cases tried with
          ⟨rfl, free, rfl, -⟩ | ⟨rfl, -, rfl⟩ | ⟨rfl, -, set, rfl⟩
        · simp only [tried] at h
          cases h
          exact .inr
            ⟨rfl, rfl, .inl ⟨rfl, free, by simp⟩⟩
        · simp only [tried] at h
          cases h
          exact .inl ⟨by decide, rfl⟩
        · simp only [tried] at h
          cases h
          exact .inr ⟨rfl, rfl, .inr ⟨rfl, set, rfl⟩⟩

theorem touches_sysSemTryAcquire : Touches k.curr k k' := by
  rcases sysSemTryAcquire_cases h with ⟨-, rfl⟩ | ⟨-, -, ⟨-, -, rfl⟩ | ⟨-, -, rfl⟩⟩
  · exact touches_refl _ _
  · exact touches_of_atomicSet (touches_resourceAssign (atomicSet k id.toNat 1) _)
  · exact touches_of_atomicSet (touches_refl k.curr _)

end

theorem Touches.tables (touches : Touches task k k') (tables : Tables k) : Tables k' := by
  refine ⟨?_, ?_, ⟨?_, ?_⟩, ?_⟩
  · rw [touches.queue]
    exact tables.queueNodup
  · rw [touches.queue, touches.numActive]
    exact tables.queueActive
  all_goals simp only [liveRids, touches.rList, touches.rActive, touches.rid]
  · exact tables.rids.1
  · exact tables.rids.2
  · exact tables.instances

theorem tables_destroy (tables : Tables k) (live : r ∈ k.rList) (few : k.rActive ≤ 2) :
    Tables (resourceDestroy k (some r)) := by
  refine ⟨tables.queueNodup, tables.queueActive,
    (resourceDestroy_contiguous_iff tables.rids live).mpr few, ?_⟩
  intro r' live'
  simp only [resourceDestroy, normalizeIds_apply]
  split <;> exact tables.instances r' (mem_of_mem_erase live')

theorem tables_vfork (tables : Tables k) (fresh : new ∉ k.queue) : Tables (sysVfork k new).2 := by
  refine ⟨?_, ?_, tables.rids, tables.instances⟩
  · simpa [sysVfork, enqueueTask] using tables.queueNodup.concat fresh
  · simp [sysVfork, enqueueTask, tables.queueActive]

def bankerOf (k : Kernel) (g : Garbage) : Banker :=
  { arrAvailable := (initDeadlockStructures k g).arrAvailable
    matAlloc := (initDeadlockStructures k g).matAlloc
    matNeed := (initDeadlockStructures k g).matNeed }

def requestVec (k : Kernel) (g : Garbage) (r : Addr) : Vec :=
  update (all g.reqVec 0 k.rActive) (k.resources r).rid 1

theorem requestVec_apply (g : Garbage) (hi : i < k.rActive) :
    requestVec k g r i = if i = (k.resources r).rid then 1 else 0 := by
  simp [requestVec, update_apply, hi]

theorem requestVec_le_iff (g : Garbage) (column : (k.resources r).rid < k.rActive) (v : Vec) :
    val k.rActive (requestVec k g r) ≤ val k.rActive v ↔ v (k.resources r).rid ≠ 0 := by
  rw [Pi.le_def]
  constructor
  · intro fits zero
    have one := fits ⟨_, column⟩
    simp [requestVec_apply g column, zero] at one
  · intro some j
    rw [val_apply, requestVec_apply g j.isLt]
    by_cases here : (j : Nat) = (k.resources r).rid
    · have pos : (v j).toNat ≠ 0 := by
        rw [here]
        exact fun h => some (UInt32.toNat_inj.mp h)
      rw [if_pos here, val_apply]
      simpa [Nat.one_le_iff_ne_zero] using pos
    · simp [here]

theorem semRequest_apply (tables : Tables k) (g : Garbage) {t : Nat}
    (position : k.queue[t]? = some k.curr) (live : r ∈ k.rList)
    (resource : (k.semaphores id).semResource = some r) :
    semRequest k id g =
      .ok (request (requestVec k g r) t (bankerOf k g) k.numActive k.rActive).1 := by
  have allocated : (kmalloc (k.rActive * 4) && kmalloc (k.numActive * 4)) = true := by
    have column := tables.rid_lt live
    have inQueue := (List.getElem?_eq_some_iff.mp position).1
    have active := tables.queueActive
    simp only [kmalloc, Bool.and_eq_true, bne_iff_ne]
    omega
  have found := getCurrentTaskIdxFrom_apply tables.queueNodup tables.queueActive g position
  simp [semRequest, kernelGetActiveProcesses, kernelGetActiveResources, allocated, resource, found,
    requestVec, bankerOf]

def acquireOn (k : Kernel) (id : Nat) : DeadlockStatus → Except Halt (Int × Kernel)
  | .safe =>
    if (k.semaphores id).value = 0 then
      .ok (1, resourceAssign (atomicSet k id 1) (k.semaphores id).semResource)
    else .error .badSafeStatus
  | .wait | .waitUnsafe => .ok (0, k)
  | .error => .error .deadlockError

theorem sysSemTryAcquire_status {status : DeadlockStatus} (inTable : id < semMax)
    (used : (k.semaphores id).used = true) (answered : semRequest k id g = .ok status) :
    sysSemTryAcquire true k id g = acquireOn k id status := by
  have good := badId_of_lt inTable
  cases status with
  | safe =>
    by_cases free : (k.semaphores id).value = 0
    · simp [acquireOn, good, used, sysSemTry, answered, free]
    · simp [acquireOn, good, used, sysSemTry, answered, free]
  | wait | waitUnsafe | error =>
    simp [acquireOn, good, used, sysSemTry, answered]

def SysCall.isLocking : SysCall → Bool
  | .semInit _ | .semTryAcquire _ _ | .semRelease _ => true
  | _ => false

variable {call : SysCall}

theorem step_semCreate (step : Step prevention k ⟨task, .semCreate new⟩ k') :
    task ∈ k.queue ∧ new ∉ k.rList ∧ k' = (sysSemCreate { k with curr := task } new).2 := by
  obtain ⟨⟨queued, fresh⟩, answer, run⟩ := step
  exact ⟨queued, fresh, (congrArg Prod.snd (Except.ok.inj run)).symm⟩

theorem step_vfork (step : Step prevention k ⟨task, .vfork new⟩ k') :
    task ∈ k.queue ∧ new ∉ k.queue ∧ k' = (sysVfork { k with curr := task } new).2 := by
  obtain ⟨⟨queued, fresh⟩, answer, run⟩ := step
  exact ⟨queued, fresh, (congrArg Prod.snd (Except.ok.inj run)).symm⟩

theorem step_semDestroy {id : Int} (step : Step prevention k ⟨task, .semDestroy id⟩ k') :
    ValidId k id ∧ k' = (sysSemDestroy { k with curr := task } id).2 := by
  obtain ⟨⟨-, valid⟩, answer, run⟩ := step
  exact ⟨valid, (congrArg Prod.snd (Except.ok.inj run)).symm⟩

theorem step_semInit {id : Int} (step : Step prevention k ⟨task, .semInit id⟩ k') :
    id ≠ semMax ∧ k' = (sysSemInit { k with curr := task } id).2 := by
  obtain ⟨⟨-, inTable⟩, answer, run⟩ := step
  exact ⟨inTable, (congrArg Prod.snd (Except.ok.inj run)).symm⟩

theorem step_semRelease {id : Int} (step : Step prevention k ⟨task, .semRelease id⟩ k') :
    id ≠ semMax ∧ k' = (sysSemInit { k with curr := task } id).2 := by
  obtain ⟨⟨-, inTable⟩, answer, run⟩ := step
  exact ⟨inTable, (congrArg Prod.snd (Except.ok.inj run)).symm⟩

theorem step_touches (step : Step prevention k ⟨task, call⟩ k') (locking : call.isLocking) :
    Touches task k k' := by
  have touches : Touches task { k with curr := task } k' := by
    cases call with
    | semInit id =>
      obtain ⟨-, rfl⟩ := step_semInit step
      exact touches_sysSemInit { k with curr := task } id
    | semTryAcquire id g =>
      obtain ⟨-, answer, run⟩ := step
      exact touches_sysSemTryAcquire run
    | semRelease id =>
      obtain ⟨-, rfl⟩ := step_semRelease step
      exact touches_sysSemInit { k with curr := task } id
    | semCreate _ | semDestroy _ | vfork _ | exit _ => cases locking
  exact ⟨touches.queue, touches.numActive, touches.tasks, touches.rList, touches.rActive,
    touches.resources, touches.semaphores⟩

structure Exits (k k' : Kernel) (task : Addr) : Prop where
  queue : k'.queue = k.queue.erase task
  numActive : k'.numActive = k.numActive - 1
  rList : k'.rList = k.rList
  rActive : k'.rActive = k.rActive
  resources : k'.resources = k.resources
  semaphores : k'.semaphores = k.semaphores

theorem step_exit {code : UInt32} (step : Step prevention k ⟨task, .exit code⟩ k') :
    task ∈ k.queue ∧ Exits k k' task := by
  obtain ⟨⟨queued, -⟩, answer, run⟩ := step
  refine ⟨queued, ?_⟩
  simp only [runCall, sysExit] at run
  split at run
  case h_1 => cases run
  case h_2 exited =>
      split at exited
      case isTrue => cases exited
      case isFalse =>
          cases exited
          cases run
          simp only [kernelSchedule, update_self, if_true, dequeueTask]
          exact ⟨rfl, rfl, rfl, rfl, rfl, rfl⟩

theorem Exits.tables (exits : Exits k k' task) (tables : Tables k) (queued : task ∈ k.queue) :
    Tables k' := by
  refine ⟨?_, ?_, ⟨?_, ?_⟩, ?_⟩
  · rw [exits.queue]
    exact tables.queueNodup.erase task
  · rw [exits.queue, exits.numActive, tables.queueActive, length_erase_of_mem queued]
  all_goals simp only [liveRids, exits.rList, exits.rActive, exits.resources]
  · exact tables.rids.1
  · exact tables.rids.2
  · exact tables.instances

end Elaborato.Mentos
