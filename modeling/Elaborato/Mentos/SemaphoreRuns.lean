import Elaborato.Mentos.SharedSemaphores

/-!
Runs of tasks that share semaphores: no panic, and from every state a schedule for each task.
-/
namespace Elaborato.Mentos
open Foundation List

def Legal (news : List Addr) (k : Kernel) (e : Event) : Prop :=
  match e.call with
  | .semTryAcquire id _ => ∃ (i : Nat) (r : Addr), id = i ∧ news[i]? = some r ∧
      HasCopy k news e.task ∧ (k.resources r).assignedTask ≠ some e.task
  | .semRelease id => ∃ (i : Nat) (r : Addr), id = i ∧ news[i]? = some r ∧
      (k.resources r).assignedTask = some e.task
  | _ => False

def AcquireStep (news : List Addr) (k : Kernel) (e : Event) (k' : Kernel) : Prop :=
  Legal news k e ∧ Step true k e k'

/-- The call of the event answers 1. -/
def acquires (k : Kernel) (e : Event) : Bool :=
  match runCall true k e with
  | .ok (answer, _) => answer == 1
  | .error _ => false

def holdersAfter (id : Nat) (trace : List (Kernel × Event)) : List Addr :=
  trace.foldl (fun holders e =>
    match e.2.call with
    | .semTryAcquire i _ => if i = id ∧ acquires e.1 e.2 then e.2.task :: holders else holders
    | .semRelease i => if i = id then holders.erase e.2.task else holders
    | _ => holders) []

variable {k k' : Kernel} {news rs : List Addr} {task r : Addr} {i : Nat} {e : Event}
  {trace : List (Kernel × Event)}

theorem Shared.at_task (shared : Shared k news) (task : Addr) :
    Shared { k with curr := task } news :=
  ⟨shared.tables.at_task task, shared.rList, shared.rids, shared.room, shared.semaphores,
    shared.arrays, shared.holders, shared.sole⟩

theorem taken_assigned (k : Kernel) (i : Nat) (r r' : Addr) :
    ((taken k i r).resources r').assignedTask =
      if r' = r then some k.curr else (k.resources r').assignedTask := by
  by_cases same : r' = r <;> simp [taken, resourceAssign, atomicSet, atomicSetAndTest, setSem, same]

theorem released_assigned (k : Kernel) (i : Nat) (r r' : Addr) :
    ((released k i r).resources r').assignedTask =
      if r' = r then none else (k.resources r').assignedTask := by
  by_cases same : r' = r
  · simp [released, resourceInit, same]
  · simp [released, resourceInit, atomicSet, atomicSetAndTest, setSem, same]

section
variable (shared : Shared k news)
include shared

theorem Shared.release (found : news[i]? = some r) : sysSemRelease k i = (0, released k i r) := by
  obtain ⟨used, resource, -⟩ := shared.semaphores i r found
  rw [sysSemRelease_eq, sysSemInit_used (shared.inTable found) used resource, released]

theorem Shared.runCall_try (found : news[i]? = some r) (queued : task ∈ k.queue)
    (copy : HasCopy k news task) (notHeld : (k.resources r).assignedTask ≠ some task) :
    ((k.resources r).assignedTask = none ∧ OnlyHolder k news task ∧ ∀ g,
      runCall true k ⟨task, .semTryAcquire i g⟩ = .ok (1, taken { k with curr := task } i r)) ∨
    (∀ g, runCall true k ⟨task, .semTryAcquire i g⟩ = .ok (0, { k with curr := task })) := by
  have here := shared.at_task task
  by_cases granted : (k.resources r).assignedTask = none ∧ OnlyHolder k news task
  · exact .inl ⟨granted.1, granted.2, fun g =>
      here.tryAcquire_granted found queued copy granted.1 granted.2 g⟩
  · exact .inr fun g => here.tryAcquire_refused found queued copy notHeld granted g

theorem acquireStep_cases (step : AcquireStep news k e k') :
    ∃ (i : Nat) (r : Addr), news[i]? = some r ∧ e.task ∈ k.queue ∧ HasCopy k news e.task ∧
      ((∃ g, e.call = .semTryAcquire i g ∧ (k.resources r).assignedTask = none ∧
          OnlyHolder k news e.task ∧ acquires k e = true ∧
          k' = taken { k with curr := e.task } i r) ∨
        (∃ g, e.call = .semTryAcquire i g ∧ acquires k e = false ∧ k' = { k with curr := e.task }) ∨
        (e.call = .semRelease i ∧ (k.resources r).assignedTask = some e.task ∧
          k' = released { k with curr := e.task } i r)) := by
  obtain ⟨task, call⟩ := e
  obtain ⟨legal, ⟨queued, -⟩, answer, run⟩ := step
  cases call with
  | semTryAcquire id g =>
    obtain ⟨i, r, rfl, found, copy, notHeld⟩ := legal
    refine ⟨i, r, found, queued, copy, ?_⟩
    rcases shared.runCall_try found queued copy notHeld with ⟨free, mine, granted⟩ | refused
    · refine .inl ⟨g, rfl, free, mine, by simp [acquires, granted g], ?_⟩
      exact (congrArg Prod.snd (Except.ok.inj ((granted g).symm.trans run))).symm
    · refine .inr (.inl ⟨g, rfl, by simp [acquires, refused g], ?_⟩)
      exact (congrArg Prod.snd (Except.ok.inj ((refused g).symm.trans run))).symm
  | semRelease id =>
    obtain ⟨i, r, rfl, found, held⟩ := legal
    have copy := (shared.holders r (mem_of_getElem? found) task held).2
    refine ⟨i, r, found, queued, copy, .inr (.inr ⟨rfl, held, ?_⟩)⟩
    have done : (sysSemRelease { k with curr := task } i).2 = k' :=
      congrArg Prod.snd (Except.ok.inj run)
    rw [← done, (shared.at_task task).release found]
  | semCreate | semDestroy | semInit | vfork | exit => exact legal.elim

theorem Shared.step (step : AcquireStep news k e k') : Shared k' news := by
  have here := shared.at_task e.task
  obtain ⟨i, r, found, queued, copy, ⟨g, -, -, mine, -, rfl⟩ | ⟨g, -, -, rfl⟩ | ⟨-, -, rfl⟩⟩ :=
    acquireStep_cases shared step
  · exact here.keeps_taken found queued copy mine
  · exact here
  · exact here.keeps_released found

theorem holdersAfter_step (step : AcquireStep news k e k') (before : ∀ i r, news[i]? = some r →
      holdersAfter i trace = (k.resources r).assignedTask.toList) :
    ∀ i r, news[i]? = some r →
      holdersAfter i (trace ++ [(k, e)]) = (k'.resources r).assignedTask.toList := by
  intro j r' found'
  have history := before j r' found'
  obtain ⟨i, r, found, -, -, cases⟩ := acquireStep_cases shared step
  have same_iff : (i : Int) = j ↔ r' = r := by
    constructor
    · intro same
      have : i = j := by exact_mod_cast same
      exact Option.some.inj (found'.symm.trans (this ▸ found))
    · intro same
      have rid := shared.rids i r found
      rw [← same, shared.rids j r' found'] at rid
      rw [rid]
  simp only [holdersAfter, foldl_append, foldl_cons, foldl_nil] at history ⊢
  rw [history]
  rcases cases with ⟨g, call, free, -, acquired, rfl⟩ | ⟨g, call, refused, rfl⟩ | ⟨call, held, rfl⟩
  · rw [taken_assigned]
    by_cases same : r' = r
    · simp [call, acquired, same_iff, same, free]
    · simp [call, same_iff, same]
  · simp [call, refused]
  · rw [released_assigned]
    by_cases same : r' = r
    · simp [call, same_iff, same, held]
    · simp [call, same_iff, same]

end

theorem holdersAfter_run {start : Kernel} (shared : Shared start news)
    (free : ∀ r ∈ news, (start.resources r).assignedTask = none)
    (run : Exec (AcquireStep news) start trace k) :
    Shared k news ∧ ∀ i r, news[i]? = some r →
      holdersAfter i trace = (k.resources r).assignedTask.toList := by
  induction run with
  | refl =>
    refine ⟨shared, ?_⟩
    intro i r found
    rw [free r (mem_of_getElem? found)]
    rfl
  | next run step ih => exact ⟨ih.1.step step, holdersAfter_step ih.1 step ih.2⟩

def Granted (k : Kernel) (e : Event) : Prop :=
  match e.call with
  | .semTryAcquire id _ => ∃ k', ∀ g, runCall true k ⟨e.task, .semTryAcquire id g⟩ = .ok (1, k')
  | _ => True

def HoldsAll (k : Kernel) (news : List Addr) (task : Addr) : Prop :=
  ∀ r ∈ news, (k.resources r).assignedTask = some task

/-- A run in which every try is granted. -/
structure Schedule (news : List Addr) (k : Kernel) (trace : List (Kernel × Event)) (k' : Kernel) :
    Prop where
  run : Exec (AcquireStep news) k trace k'
  granted : ∀ e ∈ trace, Granted e.1 e.2
  shared : Shared k' news
  queue : k'.queue = k.queue
  tasks : k'.tasks = k.tasks

variable {k₁ k₂ : Kernel} {trace₁ trace₂ : List (Kernel × Event)}

theorem Schedule.refl (shared : Shared k news) : Schedule news k [] k :=
  ⟨.refl, fun _ he => absurd he not_mem_nil, shared, rfl, rfl⟩

theorem Schedule.trans (first : Schedule news k trace₁ k₁) (second : Schedule news k₁ trace₂ k₂) :
    Schedule news k (trace₁ ++ trace₂) k₂ := by
  refine ⟨exec_trans first.run second.run, ?_, second.shared, second.queue.trans first.queue,
    second.tasks.trans first.tasks⟩
  intro e he
  rcases mem_append.mp he with he | he
  · exact first.granted e he
  · exact second.granted e he

theorem Schedule.copy (schedule : Schedule news k trace k') (copy : HasCopy k news task) :
    HasCopy k' news task := by
  rw [HasCopy, schedule.tasks]
  exact copy

theorem schedule_acquire (shared : Shared k news) (member : r ∈ news) (queued : task ∈ k.queue)
    (copy : HasCopy k news task) (free : (k.resources r).assignedTask = none)
    (mine : OnlyHolder k news task) : ∃ trace k', Schedule news k trace k' ∧
      ∀ r', (k'.resources r').assignedTask =
        if r' = r then some task else (k.resources r').assignedTask := by
  obtain ⟨i, found⟩ := getElem?_of_mem member
  have here := shared.at_task task
  have granted : ∀ g, runCall true k ⟨task, .semTryAcquire i g⟩ =
      .ok (1, taken { k with curr := task } i r) :=
    fun g => here.tryAcquire_granted found queued copy free mine g
  have inTable := shared.inTable found
  have step : AcquireStep news k ⟨task, .semTryAcquire i zeroGarbage⟩
      (taken { k with curr := task } i r) := by
    refine ⟨⟨i, r, rfl, found, copy, by simp [free]⟩, ⟨queued, ?_⟩, 1, granted zeroGarbage⟩
    show (i : Int) ≠ semMax
    omega
  refine ⟨_, _, ⟨Exec.refl.next step, ?_, here.keeps_taken found queued copy mine, rfl, rfl⟩, ?_⟩
  · intro e he
    rw [mem_singleton.mp he]
    exact ⟨_, granted⟩
  · exact taken_assigned { k with curr := task } i r

theorem schedule_release (shared : Shared k news) (member : r ∈ news)
    (held : (k.resources r).assignedTask = some task) : ∃ trace k', Schedule news k trace k' ∧
      ∀ r', (k'.resources r').assignedTask =
        if r' = r then none else (k.resources r').assignedTask := by
  obtain ⟨i, found⟩ := getElem?_of_mem member
  have here := shared.at_task task
  have queued := (shared.holders r member task held).1
  have inTable := shared.inTable found
  have step : AcquireStep news k ⟨task, .semRelease i⟩ (released { k with curr := task } i r) := by
    refine ⟨⟨i, r, rfl, found, held⟩, ⟨queued, ?_⟩, 0, ?_⟩
    · show (i : Int) ≠ semMax
      omega
    · exact congrArg Except.ok (here.release found)
  refine ⟨_, _, ⟨Exec.refl.next step, ?_, here.keeps_released found, rfl, rfl⟩, ?_⟩
  · intro e he
    rw [mem_singleton.mp he]
    exact True.intro
  · exact released_assigned { k with curr := task } i r

theorem schedule_setAll {goal : Option Addr} (Inv : Kernel → Prop)
    (step : ∀ k r, Shared k news → Inv k → r ∈ news → (k.resources r).assignedTask ≠ goal →
      ∃ trace k', Schedule news k trace k' ∧ Inv k' ∧ ∀ r', (k'.resources r').assignedTask =
        if r' = r then goal else (k.resources r').assignedTask)
    (sub : ∀ r ∈ rs, r ∈ news) (shared : Shared k news) (inv : Inv k) :
    ∃ trace k', Schedule news k trace k' ∧
      (∀ r ∈ rs, (k'.resources r).assignedTask = goal) ∧
      ∀ r, (k.resources r).assignedTask = goal → (k'.resources r).assignedTask = goal := by
  induction rs generalizing k with
  | nil => exact ⟨[], k, .refl shared, fun _ h => absurd h not_mem_nil, fun _ h => h⟩
  | cons r rs ih =>
    have rest : ∀ r ∈ rs, r ∈ news := fun r' h => sub r' (mem_cons_of_mem _ h)
    by_cases already : (k.resources r).assignedTask = goal
    · obtain ⟨trace, k', schedule, all, kept⟩ := ih rest shared inv
      exact ⟨trace, k', schedule, forall_mem_cons.mpr ⟨kept r already, all⟩, kept⟩
    · obtain ⟨trace₁, k₁, first, inv₁, now⟩ := step k r shared inv (sub r mem_cons_self) already
      obtain ⟨trace₂, k₂, second, all, kept⟩ := ih rest first.shared inv₁
      refine ⟨_, k₂, first.trans second, forall_mem_cons.mpr ⟨?_, all⟩, fun r' held => ?_⟩
      · exact kept r (by rw [now, if_pos rfl])
      · exact kept r' (by rw [now, held, ite_self])

theorem schedule_acquireAll (shared : Shared k news) (queued : task ∈ k.queue)
    (copy : HasCopy k news task) (mine : OnlyHolder k news task) :
    ∃ trace k', Schedule news k trace k' ∧
      (∀ r ∈ news, (k'.resources r).assignedTask = some task) ∧
      ∀ r, (k.resources r).assignedTask = some task →
        (k'.resources r).assignedTask = some task := by
  refine schedule_setAll
    (fun k => task ∈ k.queue ∧ HasCopy k news task ∧ OnlyHolder k news task)
    (fun k r shared inv member away => ?_) (fun _ h => h) shared
    ⟨queued, copy, mine⟩
  obtain ⟨queued, copy, mine⟩ := inv
  have free : (k.resources r).assignedTask = none := by
    cases holder : (k.resources r).assignedTask with
    | none => rfl
    | some task' => exact absurd (mine r member task' holder ▸ holder) away
  obtain ⟨trace, k₁, first, now⟩ := schedule_acquire shared member queued copy free mine
  refine ⟨trace, k₁, first, ⟨first.queue ▸ queued, first.copy copy, ?_⟩, now⟩
  intro r' member' task' held
  rw [now] at held
  split at held
  · exact (Option.some.inj held).symm
  · exact mine r' member' task' held

theorem schedule_releaseAll (shared : Shared k news) :
    ∃ trace k', Schedule news k trace k' ∧ (∀ r ∈ news, (k'.resources r).assignedTask = none) ∧
      ∀ r, (k.resources r).assignedTask = none → (k'.resources r).assignedTask = none := by
  refine schedule_setAll (fun _ => True) (fun k r shared _ member held => ?_) (fun _ h => h) shared
    True.intro
  obtain ⟨task, holder⟩ := Option.ne_none_iff_exists'.mp held
  obtain ⟨trace, k₁, first, now⟩ := schedule_release shared member holder
  exact ⟨trace, k₁, first, True.intro, now⟩

theorem schedule_serve (shared : Shared k news) (queued : task ∈ k.queue)
    (copy : HasCopy k news task) (mine : OnlyHolder k news task) :
    ∃ trace k', Schedule news k trace k' ∧ Sometimes (fun k => HoldsAll k news task) trace k' ∧
      ∀ r ∈ news, (k'.resources r).assignedTask = none := by
  obtain ⟨trace₁, k₁, first, all, -⟩ := schedule_acquireAll shared queued copy mine
  obtain ⟨trace₂, k₂, second, none, -⟩ := schedule_releaseAll first.shared
  exact ⟨_, k₂, first.trans second,
    sometimes_append_right (exec_sometimes_start second.run all), none⟩

theorem schedule_serveAll (tasks : List Addr) (shared : Shared k news)
    (sharers : ∀ task ∈ tasks, task ∈ k.queue ∧ HasCopy k news task)
    (free : ∀ r ∈ news, (k.resources r).assignedTask = none) :
    ∃ trace k', Schedule news k trace k' ∧
      ∀ task ∈ tasks, Sometimes (fun k => HoldsAll k news task) trace k' := by
  induction tasks generalizing k with
  | nil => exact ⟨[], k, .refl shared, fun _ h => absurd h not_mem_nil⟩
  | cons task tasks ih =>
    obtain ⟨queued, copy⟩ := sharers task mem_cons_self
    have mine : OnlyHolder k news task := by
      intro r member task' held
      rw [free r member] at held
      cases held
    obtain ⟨trace₁, k₁, first, served, free₁⟩ := schedule_serve shared queued copy mine
    have sharers₁ : ∀ task ∈ tasks, task ∈ k₁.queue ∧ HasCopy k₁ news task := by
      intro task' h
      obtain ⟨queued', copy'⟩ := sharers task' (mem_cons_of_mem _ h)
      exact ⟨first.queue ▸ queued', first.copy copy'⟩
    obtain ⟨trace₂, k₂, second, others⟩ := ih first.shared sharers₁ free₁
    refine ⟨_, k₂, first.trans second, ?_⟩
    intro task' h
    rcases mem_cons.mp h with rfl | h
    · exact sometimes_append_left second.run served
    · exact sometimes_append_right (others task' h)

theorem schedule_exists (shared : Shared k news) :
    ∃ trace k', Schedule news k trace k' ∧
      ∀ task ∈ k.queue, HasCopy k news task →
        Sometimes (fun k => HoldsAll k news task) trace k' := by
  have everyone : ∀ k : Kernel, Shared k news → (∀ r ∈ news, (k.resources r).assignedTask = none) →
      ∃ trace k', Schedule news k trace k' ∧ ∀ task ∈ k.queue, HasCopy k news task →
        Sometimes (fun k => HoldsAll k news task) trace k' := by
    intro k shared free
    obtain ⟨trace, k', schedule, served⟩ := schedule_serveAll
      (k.queue.filter fun task => HasCopy k news task) shared (fun task h => by simpa using h) free
    exact ⟨trace, k', schedule, fun task queued copy => served task (by simp [queued, copy])⟩
  by_cases held : ∃ r ∈ news, ∃ task, (k.resources r).assignedTask = some task
  · obtain ⟨r, member, task, holder⟩ := held
    obtain ⟨queued, copy⟩ := shared.holders r member task holder
    have mine : OnlyHolder k news task :=
      fun r' member' task' held' => shared.sole r' member' r member task' task held' holder
    obtain ⟨trace₁, k₁, first, -, free⟩ := schedule_serve shared queued copy mine
    obtain ⟨trace₂, k₂, second, served⟩ := everyone k₁ first.shared free
    refine ⟨_, k₂, first.trans second, ?_⟩
    intro task' queued' copy'
    exact sometimes_append_right (served task' (first.queue ▸ queued') (first.copy copy'))
  · refine everyone k shared ?_
    intro r member
    cases holder : (k.resources r).assignedTask with
    | none => rfl
    | some task => exact absurd ⟨r, member, task, holder⟩ held

end Elaborato.Mentos
