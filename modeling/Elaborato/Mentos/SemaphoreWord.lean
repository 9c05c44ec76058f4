import Elaborato.Mentos.KernelCalls

/-!
The word of a semaphore and the record of its resource: a slot created again keeps its word.
-/
namespace Elaborato.Mentos
open Foundation List Function

def SemAgree (k : Kernel) : Prop :=
  ∀ id < semMax, (k.semaphores id).used = true →
    ∃ r, (k.semaphores id).semResource = some r ∧
      ((k.semaphores id).value = 1 ↔ (k.resources r).assignedInstances = 1)

def SafeMeansFree (k : Kernel) : Prop :=
  ∀ task ∈ k.queue, ∀ (id : Nat) (g : Garbage), id < semMax → (k.semaphores id).used = true →
    (semRequest { k with curr := task } id g = .ok .safe → (k.semaphores id).value = 0) ∧
    sysSemTryAcquire true { k with curr := task } id g ≠ .error .badSafeStatus

def CreatesClear (k : Kernel) (e : Event) : Prop :=
  match e.call with
  | .semCreate _ => ∀ id, freeSem k = some id → freeSlot { k with curr := e.task } ≠ none →
      (k.semaphores id).value = 0
  | _ => True

def LeavesOne (k : Kernel) (e : Event) : Prop :=
  match e.call with
  | .semDestroy _ => k.rActive ≤ 2
  | _ => True

def Paired (sem : SmartSem) (r : Resource) : Prop :=
  (sem.value = 0 ∧ r.assignedInstances = 0) ∨ (sem.value = 1 ∧ r.assignedInstances = 1)

structure Worded (k : Kernel) : Prop where
  words : ∀ id < semMax, (k.semaphores id).value = 0 ∨ (k.semaphores id).value = 1
  paired : ∀ id < semMax, (k.semaphores id).used = true →
    ∃ r ∈ k.rList, (k.semaphores id).semResource = some r ∧ Paired (k.semaphores id) (k.resources r)
  distinct : ∀ id < semMax, ∀ id' < semMax, (k.semaphores id).used = true →
    (k.semaphores id').used = true →
    (k.semaphores id).semResource = (k.semaphores id').semResource → id = id'

variable {prevention : Bool} {start k k' : Kernel} {e : Event} {task r new : Addr} {i id : Nat}
  {trace : List (Kernel × Event)}

theorem paired_agree {sem : SmartSem} {r : Resource} (paired : Paired sem r) :
    sem.value = 1 ↔ r.assignedInstances = 1 := by
  rcases paired with ⟨word, record⟩ | ⟨word, record⟩ <;> simp [word, record]

section
variable (worded : Worded k)
include worded

theorem worded_semAgree : SemAgree k := by
  intro id inTable used
  obtain ⟨r, -, resource, paired⟩ := worded.paired id inTable used
  exact ⟨r, resource, paired_agree paired⟩

omit worded in
theorem worded_congr (semaphores : ∀ id < semMax,
      (k'.semaphores id).value = (k.semaphores id).value ∧
      (k'.semaphores id).used = (k.semaphores id).used ∧
      ((k.semaphores id).used = true → k'.semaphores id = k.semaphores id))
    (rList : k'.rList = k.rList)
    (resources : ∀ r, (k'.resources r).assignedInstances = (k.resources r).assignedInstances)
    (worded : Worded k) : Worded k' := by
  refine ⟨?_, ?_, ?_⟩
  · intro id inTable
    rw [(semaphores id inTable).1]
    exact worded.words id inTable
  · intro id inTable used
    have old := (semaphores id inTable).2.1 ▸ used
    obtain ⟨r, live, resource, paired⟩ := worded.paired id inTable old
    rw [(semaphores id inTable).2.2 old, rList]
    exact ⟨r, live, resource, by rwa [Paired, resources]⟩
  · intro id inTable id' inTable' used used' same
    have old := (semaphores id inTable).2.1 ▸ used
    have old' := (semaphores id' inTable').2.1 ▸ used'
    rw [(semaphores id inTable).2.2 old, (semaphores id' inTable').2.2 old'] at same
    exact worded.distinct id inTable id' inTable' old old' same

theorem worded_create (fresh : new ∉ k.rList)
    (clear : ∀ id, freeSem k = some id → freeSlot k ≠ none → (k.semaphores id).value = 0) :
    Worded (sysSemCreate k new).2 := by
  rcases sysSemCreate_cases k new with
    ⟨-, -, touches, resources, semaphores⟩ | ⟨id, i, free, slot, -, creates, semaphores⟩
  · exact worded_congr (fun id _ => semaphores id) (touches 0).rList (fun r => by rw [resources])
      worded
  · have zero := clear id free (by simp [slot])
    have other : ∀ id' < semMax, ((sysSemCreate k new).2.semaphores id').used = true → id' ≠ id →
        ∃ r ∈ k.rList, (k.semaphores id').used = true ∧
          (sysSemCreate k new).2.semaphores id' = k.semaphores id' ∧
          (k.semaphores id').semResource = some r ∧ Paired (k.semaphores id') (k.resources r) := by
      intro id' inTable used apart
      have same : (sysSemCreate k new).2.semaphores id' = k.semaphores id' := by
        rw [semaphores, update_of_ne apart]
      obtain ⟨r, live, resource, paired⟩ := worded.paired id' inTable (same ▸ used)
      exact ⟨r, live, same ▸ used, same, resource, paired⟩
    have here : (sysSemCreate k new).2.semaphores id =
        { k.semaphores id with semResource := some new, used := true } := by
      rw [semaphores, update_self]
    refine ⟨?_, ?_, ?_⟩
    · intro id' inTable
      by_cases same : id' = id
      · rw [same, here]
        exact .inl zero
      · rw [semaphores, update_of_ne same]
        exact worded.words id' inTable
    · intro id' inTable used
      by_cases same : id' = id
      · obtain ⟨category, record⟩ := creates.record
        refine ⟨new, by simp [creates.rList], by rw [same, here], ?_⟩
        rw [same, here, record]
        exact .inl ⟨zero, rfl⟩
      · obtain ⟨r, live, -, unchanged, resource, paired⟩ := other id' inTable used same
        refine ⟨r, by simp [creates.rList, live], by rw [unchanged, resource], ?_⟩
        rw [unchanged, creates.others r (fun same => fresh (same ▸ live))]
        exact paired
    · have apart : ∀ id' < semMax, ((sysSemCreate k new).2.semaphores id').used = true →
          id' ≠ id → ((sysSemCreate k new).2.semaphores id').semResource ≠ some new := by
        intro id' inTable used same equal
        obtain ⟨r, live, -, unchanged, resource, -⟩ := other id' inTable used same
        rw [unchanged, resource] at equal
        exact fresh (Option.some.inj equal ▸ live)
      intro id₁ inTable₁ id₂ inTable₂ used₁ used₂ equal
      by_cases same₁ : id₁ = id
      · by_cases same₂ : id₂ = id
        · rw [same₁, same₂]
        · rw [same₁, here] at equal
          exact absurd equal.symm (apart id₂ inTable₂ used₂ same₂)
      · by_cases same₂ : id₂ = id
        · rw [same₂, here] at equal
          exact absurd equal (apart id₁ inTable₁ used₁ same₁)
        · obtain ⟨r₁, -, old₁, unchanged₁, -⟩ := other id₁ inTable₁ used₁ same₁
          obtain ⟨r₂, -, old₂, unchanged₂, -⟩ := other id₂ inTable₂ used₂ same₂
          rw [unchanged₁, unchanged₂] at equal
          exact worded.distinct id₁ inTable₁ id₂ inTable₂ old₁ old₂ equal

theorem worded_write {v : UInt32} (inTable : id < semMax) (used : (k.semaphores id).used = true)
    (resource : (k.semaphores id).semResource = some r) (semaphores : k'.semaphores =
      update k.semaphores id { k.semaphores id with value := v })
    (rList : k'.rList = k.rList) (others : ∀ r', r' ≠ r → k'.resources r' = k.resources r')
    (now : (v = 0 ∧ (k'.resources r).assignedInstances = 0) ∨
      (v = 1 ∧ (k'.resources r).assignedInstances = 1)) : Worded k' := by
  have kept : ∀ id', (k'.semaphores id').used = (k.semaphores id').used ∧
      (k'.semaphores id').semResource = (k.semaphores id').semResource := by
    intro id'
    by_cases same : id' = id <;> simp [semaphores, same]
  refine ⟨?_, ?_, ?_⟩
  · intro id' inTable'
    by_cases same : id' = id
    · simp only [semaphores, same, update_self]
      exact now.imp And.left And.left
    · rw [semaphores, update_of_ne same]
      exact worded.words id' inTable'
  · intro id' inTable' used'
    obtain ⟨r', live, resource', paired⟩ := worded.paired id' inTable' ((kept id').1 ▸ used')
    rw [rList]
    refine ⟨r', live, (kept id').2.trans resource', ?_⟩
    by_cases same : id' = id
    · subst same
      have this : r' = r := Option.some.inj (resource'.symm.trans resource)
      subst this
      simpa [Paired, semaphores] using now
    · have apart : r' ≠ r := by
        intro equal
        exact same (worded.distinct id' inTable' id inTable ((kept id').1 ▸ used') used
          (by rw [resource', resource, equal]))
      rw [semaphores, update_of_ne same, others r' apart]
      exact paired
  · intro id₁ inTable₁ id₂ inTable₂ used₁ used₂ equal
    rw [(kept id₁).1] at used₁
    rw [(kept id₂).1] at used₂
    rw [(kept id₁).2, (kept id₂).2] at equal
    exact worded.distinct id₁ inTable₁ id₂ inTable₂ used₁ used₂ equal

theorem worded_sysSemInit {id : Int} (inTable : id ≠ semMax) : Worded (sysSemInit k id).2 := by
  rcases sysSemInit_cases k id with same | ⟨good, used, done⟩
  · rw [same]
    exact worded
  · have lt := toNat_lt_semMax good inTable
    obtain ⟨r, -, resource, -⟩ := worded.paired id.toNat lt used
    rw [done, resource]
    refine worded_write (v := 0) worded lt used resource rfl rfl ?_ (.inl ⟨rfl, ?_⟩)
    · intro r' apart
      simp [resourceInit, atomicSet, atomicSetAndTest, setSem, apart]
    · simp [resourceInit]

theorem worded_sysSemTryAcquire {id answer : Int} {g : Garbage} (inTable : id ≠ semMax)
    (h : sysSemTryAcquire prevention k id g = .ok (answer, k')) : Worded k' := by
  rcases sysSemTryAcquire_cases h with ⟨-, rfl⟩ | ⟨good, used, ⟨-, -, rfl⟩ | ⟨-, set, rfl⟩⟩
  · exact worded
  · have lt := toNat_lt_semMax good inTable
    obtain ⟨r, -, resource, -⟩ := worded.paired id.toNat lt used
    rw [resource]
    refine worded_write (v := 1) worded lt used resource rfl rfl ?_ (.inr ⟨rfl, ?_⟩)
    · intro r' apart
      simp [resourceAssign, atomicSet, atomicSetAndTest, setSem, apart]
    · simp [resourceAssign]
  · have lt := toNat_lt_semMax good inTable
    have one := (worded.words id.toNat lt).resolve_left set
    obtain ⟨r, -, resource, paired⟩ := worded.paired id.toNat lt used
    have taken := (paired_agree paired).mp one
    exact worded_write (v := 1) worded lt used resource rfl rfl (fun _ _ => rfl)
      (.inr ⟨rfl, taken⟩)

theorem sysSemDestroy_resource {id : Int} (valid : ValidId k id) :
    ∃ r ∈ k.rList, (k.semaphores id.toNat).semResource = some r ∧
      (sysSemDestroy k id).2 = resourceDestroy
        (setSem k id.toNat { k.semaphores id.toNat with used := false }) (some r) := by
  obtain ⟨nonneg, inTable, used⟩ := valid
  have good : badId id = false := by
    simp only [badId, Bool.or_eq_false_iff, decide_eq_false_iff_not]
    omega
  obtain ⟨r, live, resource, -⟩ := worded.paired id.toNat (by omega) used
  exact ⟨r, live, resource, by simp [sysSemDestroy, good, resource]⟩

theorem worded_sysSemDestroy {id : Int} (valid : ValidId k id) : Worded (sysSemDestroy k id).2 := by
  obtain ⟨r, live, resource, done⟩ := sysSemDestroy_resource worded valid
  obtain ⟨nonneg, inTable, used⟩ := valid
  have lt : id.toNat < semMax := by omega
  have semaphores : (sysSemDestroy k id).2.semaphores = update k.semaphores id.toNat
      { k.semaphores id.toNat with used := false } := by
    rw [done]
    rfl
  have instances : ∀ r', ((sysSemDestroy k id).2.resources r').assignedInstances =
      (k.resources r').assignedInstances := by
    intro r'
    rw [done]
    simp only [resourceDestroy, normalizeIds_apply]
    split <;> rfl
  have kept : ∀ id', ((sysSemDestroy k id).2.semaphores id').used = true →
      id' ≠ id.toNat ∧ (sysSemDestroy k id).2.semaphores id' = k.semaphores id' := by
    intro id' used'
    by_cases same : id' = id.toNat
    · simp [semaphores, same] at used'
    · exact ⟨same, by rw [semaphores, update_of_ne same]⟩
  refine ⟨?_, ?_, ?_⟩
  · intro id' inTable'
    by_cases same : id' = id.toNat
    · simp only [semaphores, same, update_self]
      exact worded.words id.toNat lt
    · rw [semaphores, update_of_ne same]
      exact worded.words id' inTable'
  · intro id' inTable' used'
    obtain ⟨other, unchanged⟩ := kept id' used'
    obtain ⟨r', live', resource', paired⟩ := worded.paired id' inTable' (unchanged ▸ used')
    have apart : r' ≠ r := by
      intro equal
      exact other (worded.distinct id' inTable' id.toNat lt (unchanged ▸ used') used
        (by rw [resource', resource, equal]))
    refine ⟨r', ?_, by rw [unchanged, resource'], ?_⟩
    · rw [done]
      exact (mem_erase_of_ne apart).mpr live'
    · rw [Paired, unchanged, instances]
      exact paired
  · intro id₁ inTable₁ id₂ inTable₂ used₁ used₂ equal
    have same₁ := (kept id₁ used₁).2
    have same₂ := (kept id₂ used₂).2
    rw [same₁] at used₁ equal
    rw [same₂] at used₂ equal
    exact worded.distinct id₁ inTable₁ id₂ inTable₂ used₁ used₂ equal

omit worded in
theorem fresh_worded (fresh : Fresh k) (clear : ∀ id < semMax, (k.semaphores id).value = 0) :
    Worded k := by
  refine ⟨fun id inTable => .inl (clear id inTable), ?_, ?_⟩
  · intro id inTable used
    rw [fresh.unused id inTable] at used
    cases used
  · intro id inTable _ _ used
    rw [fresh.unused id inTable] at used
    cases used

theorem worded_step (step : Step prevention k e k') (clear : CreatesClear k e) : Worded k' := by
  obtain ⟨task, call⟩ := e
  have here : Worded { k with curr := task } := ⟨worded.words, worded.paired, worded.distinct⟩
  cases call with
  | semCreate new =>
    obtain ⟨-, fresh, rfl⟩ := step_semCreate step
    exact worded_create here fresh clear
  | semDestroy id =>
    obtain ⟨valid, rfl⟩ := step_semDestroy step
    exact worded_sysSemDestroy here valid
  | semInit id =>
    obtain ⟨inTable, rfl⟩ := step_semInit step
    exact worded_sysSemInit here inTable
  | semRelease id =>
    obtain ⟨inTable, rfl⟩ := step_semRelease step
    exact worded_sysSemInit here inTable
  | semTryAcquire id g =>
    obtain ⟨⟨-, inTable⟩, answer, run⟩ := step
    exact worded_sysSemTryAcquire here inTable run
  | vfork new =>
    obtain ⟨-, -, rfl⟩ := step_vfork step
    exact ⟨worded.words, worded.paired, worded.distinct⟩
  | exit code =>
    obtain ⟨-, exits⟩ := step_exit step
    refine worded_congr ?_ exits.rList (fun r => by rw [exits.resources]) worded
    intro id _
    simp [exits.semaphores]

theorem stale_step (step : Step prevention k e k') (stale : ¬ CreatesClear k e) :
    ¬ SemAgree k' := by
  obtain ⟨task, call⟩ := e
  cases call with
  | semCreate new =>
    obtain ⟨-, -, rfl⟩ := step_semCreate step
    simp only [CreatesClear, not_forall] at stale
    obtain ⟨id, free, slot, set⟩ := stale
    rcases sysSemCreate_cases { k with curr := task } new with
      ⟨full | full, -⟩ | ⟨id', i, free', -, -, creates, semaphores⟩
    · exact absurd (free.symm.trans full) (by simp)
    · exact absurd full slot
    · have same : id' = id := Option.some.inj (free'.symm.trans free)
      subst same
      have inTable := (freeSem_spec free).1
      have one := (worded.words id' inTable).resolve_left set
      obtain ⟨category, record⟩ := creates.record
      intro agree
      obtain ⟨r, resource, iff⟩ := agree id' inTable (by rw [semaphores, update_self])
      rw [semaphores, update_self] at resource iff
      have this : new = r := Option.some.inj resource
      subst this
      rw [record] at iff
      exact Nat.zero_ne_one (iff.mp one)
  | semDestroy | semInit | semTryAcquire | semRelease | vfork | exit =>
    exact absurd True.intro stale

theorem tables_step (tables : Tables k) (step : Step prevention k e k') (few : LeavesOne k e) :
    Tables k' := by
  obtain ⟨task, call⟩ := e
  have here := tables.at_task task
  cases call with
  | semCreate new =>
    obtain ⟨-, fresh, rfl⟩ := step_semCreate step
    rcases sysSemCreate_cases { k with curr := task } new with
      ⟨-, -, touches, -⟩ | ⟨id, i, -, -, -, creates, -⟩
    · exact (touches task).tables here
    · exact creates.tables here fresh
  | semDestroy id =>
    obtain ⟨valid, rfl⟩ := step_semDestroy step
    obtain ⟨r, live, -, done⟩ := sysSemDestroy_resource
      (k := { k with curr := task }) ⟨worded.words, worded.paired, worded.distinct⟩ valid
    rw [done]
    exact tables_destroy ⟨tables.queueNodup, tables.queueActive, tables.rids, tables.instances⟩
      live few
  | semInit | semTryAcquire | semRelease => exact (step_touches step rfl).tables tables
  | vfork new =>
    obtain ⟨-, fresh, rfl⟩ := step_vfork step
    exact tables_vfork here fresh
  | exit code =>
    obtain ⟨queued, exits⟩ := step_exit step
    exact exits.tables tables queued

theorem safe_word_clear (tables : Tables k) (queued : k.curr ∈ k.queue) (inTable : id < semMax)
    (used : (k.semaphores id).used = true) (g : Garbage) :
    (semRequest k id g = .ok .safe → (k.semaphores id).value = 0) ∧
      sysSemTryAcquire true k id g ≠ .error .badSafeStatus := by
  obtain ⟨r, live, resource, paired⟩ := worded.paired id inTable used
  obtain ⟨t, position⟩ := getElem?_of_mem queued
  have answered := semRequest_apply tables g position live resource
  have available : (bankerOf k g).arrAvailable (k.resources r).rid = _ :=
    available_rid tables g live
  have clear : semRequest k id g = .ok .safe → (k.semaphores id).value = 0 := by
    intro safe
    rw [answered] at safe
    rcases request_cases (requestVec k g r) t (bankerOf k g) k.numActive k.rActive with
      ⟨status, -⟩ | ⟨-, ⟨status, -⟩ | ⟨fits, -⟩⟩
    · rw [status] at safe
      cases safe
    · rw [status] at safe
      cases safe
    · have some := (requestVec_le_iff g (tables.rid_lt live) _).mp fits
      rcases paired with ⟨zero, -⟩ | ⟨-, taken⟩
      · exact zero
      · rw [available, taken] at some
        exact absurd rfl some
  refine ⟨clear, ?_⟩
  generalize (request (requestVec k g r) t (bankerOf k g) k.numActive k.rActive).1 = status
    at answered
  rw [sysSemTryAcquire_status inTable used answered]
  cases status with
  | safe =>
    rw [acquireOn, if_pos (clear answered)]
    simp
  | wait | waitUnsafe | error => simp [acquireOn]

theorem worded_safeMeansFree (tables : Tables k) : SafeMeansFree k := by
  intro task queued id g inTable used
  exact safe_word_clear (k := { k with curr := task })
    ⟨worded.words, worded.paired, worded.distinct⟩
    (tables.at_task task) queued inTable used g

end

/-- Words and resources agree exactly when no creation takes a slot whose word was left set. -/
theorem semAgree_run_iff (fresh : Fresh start)
    (clear : ∀ id < semMax, (start.semaphores id).value = 0)
    (run : Exec (Step prevention) start trace k) :
    (Always SemAgree trace k ↔ ∀ e ∈ trace, CreatesClear e.1 e.2) ∧
    ((∀ e ∈ trace, CreatesClear e.1 e.2 ∧ LeavesOne e.1 e.2) → Always SafeMeansFree trace k) := by
  refine ⟨?_, ?_⟩
  · have stays : ∀ k e k', Worded k → Step prevention k e k' → CreatesClear k e → Worded k' :=
      fun _ _ _ worded step clear => worded_step worded step clear
    exact exec_always_iff (fresh_worded fresh clear) (fun _ => worded_semAgree) stays
      (fun _ _ _ worded step stale => stale_step worded step stale) run
  · intro allowed
    have stays : ∀ k e k', Worded k ∧ Tables k → Step prevention k e k' →
        CreatesClear k e ∧ LeavesOne k e → Worded k' ∧ Tables k' :=
      fun _ _ _ inv step ok =>
        ⟨worded_step inv.1 step ok.1, tables_step inv.1 inv.2 step ok.2⟩
    have always := exec_invariant ⟨fresh_worded fresh clear, fresh.tables⟩ stays run allowed
    exact ⟨fun e he => worded_safeMeansFree (always.1 e he).1 (always.1 e he).2,
      worded_safeMeansFree always.2.1 always.2.2⟩

def takenByOne : Kernel := resourceAssign (atomicSet (sysSemCreate initKernel 10).2 0 1) (some 10)

def recreated : Kernel := (sysSemCreate (sysSemDestroy takenByOne 0).2 10).2

def twoCreators : Kernel :=
  (sysSemCreate { (sysSemCreate (sysVfork initKernel 2).2 10).2 with curr := 2 } 11).2

def firstHeld : Kernel :=
  resourceAssign (atomicSet (sysSemCreate { twoCreators with curr := 1 } 12).2 0 1) (some 10)

def mergedColumns : Kernel := (sysSemDestroy firstHeld 2).2

theorem createsClear_of (free : freeSem k = some id) (zero : (k.semaphores id).value = 0) :
    CreatesClear k ⟨task, .semCreate new⟩ := by
  intro id' free' _
  rw [← Option.some.inj (free.symm.trans free')]
  exact zero

theorem takenByOne_run : ∃ trace, Exec (Step true) initKernel trace takenByOne ∧
    ∀ e ∈ trace, CreatesClear e.1 e.2 ∧ LeavesOne e.1 e.2 := by
  have create : Step true initKernel ⟨1, .semCreate 10⟩ (sysSemCreate initKernel 10).2 :=
    ⟨⟨by decide, by decide⟩, 0, rfl⟩
  have acquire : Step true (sysSemCreate initKernel 10).2 ⟨1, .semTryAcquire 0 zeroGarbage⟩
      takenByOne := ⟨⟨by decide, by decide⟩, 1, rfl⟩
  refine ⟨_, (Exec.refl.next create).next acquire, ?_⟩
  simp [CreatesClear, LeavesOne, initKernel]

theorem mergedColumns_run : ∃ trace, Exec (Step true) initKernel trace mergedColumns ∧
    ∀ e ∈ trace, CreatesClear e.1 e.2 := by
  have fork : Step true initKernel ⟨1, .vfork 2⟩ (sysVfork initKernel 2).2 :=
    ⟨⟨by decide, by decide⟩, 2, rfl⟩
  have first : Step true (sysVfork initKernel 2).2 ⟨1, .semCreate 10⟩
      (sysSemCreate (sysVfork initKernel 2).2 10).2 := ⟨⟨by decide, by decide⟩, 0, rfl⟩
  have second : Step true (sysSemCreate (sysVfork initKernel 2).2 10).2 ⟨2, .semCreate 11⟩
      twoCreators := ⟨⟨by decide, by decide⟩, 1, rfl⟩
  have third : Step true twoCreators ⟨1, .semCreate 12⟩
      (sysSemCreate { twoCreators with curr := 1 } 12).2 := ⟨⟨by decide, by decide⟩, 2, rfl⟩
  have acquire : Step true (sysSemCreate { twoCreators with curr := 1 } 12).2
      ⟨1, .semTryAcquire 0 zeroGarbage⟩ firstHeld := ⟨⟨by decide, by decide⟩, 1, rfl⟩
  have destroy : Step true firstHeld ⟨1, .semDestroy 2⟩ mergedColumns :=
    ⟨⟨by decide, by decide, by decide, by decide⟩, 0, rfl⟩
  refine ⟨_, (((((Exec.refl.next fork).next first).next second).next third).next acquire).next
    destroy, ?_⟩
  intro e he
  simp only [nil_append, cons_append, mem_cons, not_mem_nil, or_false] at he
  rcases he with rfl | rfl | rfl | rfl | rfl | rfl
  · exact True.intro
  · exact createsClear_of (show freeSem _ = some 0 by decide) (by decide)
  · exact createsClear_of (show freeSem _ = some 1 by decide) (by decide)
  · exact createsClear_of (show freeSem _ = some 2 by decide) (by decide)
  · exact True.intro
  · exact True.intro

theorem recreated_badSafeStatus :
    (∃ trace, Exec (Step true) initKernel trace recreated ∧
      (recreated.semaphores 0).value = 1 ∧ (recreated.resources 10).assignedInstances = 0 ∧
      ¬ SemAgree recreated ∧
      sysSemTryAcquire true recreated 0 zeroGarbage = .error .badSafeStatus) ∧
    ∃ trace, Exec (Step true) initKernel trace mergedColumns ∧
      (∀ e ∈ trace, CreatesClear e.1 e.2) ∧ liveRids mergedColumns = [0, 0] ∧
      sysSemTryAcquire true { mergedColumns with curr := 2 } 0 zeroGarbage =
        .error .badSafeStatus := by
  obtain ⟨trace, run, -⟩ := takenByOne_run
  have destroy : Step true takenByOne ⟨1, .semDestroy 0⟩ (sysSemDestroy takenByOne 0).2 :=
    ⟨⟨by decide, by decide, by decide, by decide⟩, 0, rfl⟩
  have create : Step true (sysSemDestroy takenByOne 0).2 ⟨1, .semCreate 10⟩ recreated :=
    ⟨⟨by decide, by decide⟩, 0, rfl⟩
  refine ⟨⟨_, (run.next destroy).next create, by decide, by decide, ?_, rfl⟩, ?_⟩
  · intro agree
    obtain ⟨r, resource, iff⟩ := agree 0 (by decide) (by decide)
    have this : r = 10 := (Option.some.inj (resource.symm.trans (show _ = some 10 by decide)))
    subst this
    exact absurd (iff.mp (by decide)) (by decide)
  · obtain ⟨trace, run, clear⟩ := mergedColumns_run
    exact ⟨trace, run, clear, by decide, rfl⟩

theorem semAgree_run_takenByOne : Fresh initKernel ∧
    (∀ id < semMax, (initKernel.semaphores id).value = 0) ∧
    ∃ trace, Exec (Step true) initKernel trace takenByOne ∧ Always SemAgree trace takenByOne ∧
      Always SafeMeansFree trace takenByOne := by
  obtain ⟨trace, run, allowed⟩ := takenByOne_run
  have zero : ∀ id < semMax, (initKernel.semaphores id).value = 0 := fun _ _ => rfl
  obtain ⟨agree, safe⟩ := semAgree_run_iff initKernel_fresh zero run
  exact ⟨initKernel_fresh, zero, trace, run, agree.mpr fun e he => (allowed e he).1, safe allowed⟩

end Elaborato.Mentos
