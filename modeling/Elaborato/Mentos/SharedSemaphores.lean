import Elaborato.Foundation.UnitClaims
import Elaborato.Mentos.DeadlockSimulation
import Elaborato.Mentos.TaskExit

/-!
Shared semaphores: a request is granted exactly when nobody else holds one.
-/
namespace Elaborato.Mentos
open Foundation List Function

def HasCopy (k : Kernel) (news : List Addr) (task : Addr) : Prop :=
  ∀ i < taskResourceMaxAmount, (k.tasks task).resources i = news[i]?

instance (k : Kernel) (news : List Addr) (task : Addr) : Decidable (HasCopy k news task) :=
  inferInstanceAs (Decidable (∀ i < taskResourceMaxAmount, _))

structure InStep (sem : SmartSem) (r : Resource) : Prop where
  value : sem.value = if r.assignedTask = none then 0 else 1
  instances : r.assignedInstances = if r.assignedTask = none then 0 else 1

structure Shared (k : Kernel) (news : List Addr) : Prop where
  tables : Tables k
  rList : k.rList = news
  rids : ∀ i r, news[i]? = some r → (k.resources r).rid = i
  room : news.length ≤ taskResourceMaxAmount
  semaphores : ∀ i r, news[i]? = some r → (k.semaphores i).used = true ∧
    (k.semaphores i).semResource = some r ∧ InStep (k.semaphores i) (k.resources r)
  arrays : ∀ t ∈ k.queue, HasCopy k news t ∨ HasCopy k [] t
  holders : ∀ r ∈ news, ∀ t, (k.resources r).assignedTask = some t → t ∈ k.queue ∧ HasCopy k news t
  sole : ∀ r ∈ news, ∀ r' ∈ news, ∀ t t', (k.resources r).assignedTask = some t →
    (k.resources r').assignedTask = some t' → t = t'

variable {k k' : Kernel} {news : List Addr} {task r : Addr} {i id t : Nat}

def owner (k : Kernel) (news : List Addr) : Fin k.rActive → Option Addr :=
  fun j => (k.resources (news.getD j 0)).assignedTask

/-- The task of each row of the matrices. -/
def rowTask (k : Kernel) (t : Nat) : Addr := k.queue.getD t 0

def RowClaims (k : Kernel) (news : List Addr) (t : Nat) : Prop := HasCopy k news (rowTask k t)

instance (k : Kernel) (news : List Addr) : DecidablePred (RowClaims k news) :=
  fun t => inferInstanceAs (Decidable (HasCopy k news (rowTask k t)))

theorem rowTask_eq (position : k.queue[t]? = some task) : rowTask k t = task := by
  simp [rowTask, getD_eq_getElem?_getD, position]

theorem rowClaims_iff (position : k.queue[t]? = some task) :
    RowClaims k news t ↔ HasCopy k news task := by
  rw [← rowTask_eq position]
  exact Iff.rfl

namespace Shared

section
variable (shared : Shared k news)
include shared

theorem rActive : k.rActive = news.length := by
  rw [← ridsContiguous_length shared.tables.rids, shared.rList]

theorem inTable (found : news[i]? = some r) : i < semMax := by
  have inList := (List.getElem?_eq_some_iff.mp found).1
  have room := shared.room
  simp only [taskResourceMaxAmount] at room
  simp only [semMax]
  omega

theorem live (found : news[i]? = some r) : r ∈ k.rList := shared.rList ▸ mem_of_getElem? found

theorem found_of_mem (member : r ∈ news) : news[(k.resources r).rid]? = some r := by
  obtain ⟨i, found⟩ := getElem?_of_mem member
  rw [shared.rids i r found]
  exact found

theorem accounted : Accounted k := by
  refine ⟨shared.tables, ?_⟩
  intro r live
  have member : r ∈ news := shared.rList ▸ live
  have records := (shared.semaphores _ r (shared.found_of_mem member)).2.2.instances
  cases holder : (k.resources r).assignedTask with
  | none => exact .inl ⟨holder, by simp [records, holder]⟩
  | some t =>
    exact .inr ⟨t, (shared.holders r member t holder).1, holder, by simp [records, holder]⟩

theorem column (j : Fin k.rActive) : ∃ r ∈ k.rList,
    news[(j : Nat)]? = some r ∧ (k.resources r).rid = j ∧
      owner k news j = (k.resources r).assignedTask := by
  have inList : (j : Nat) < news.length := shared.rActive ▸ j.isLt
  have found : news[(j : Nat)]? = some news[(j : Nat)] := getElem?_eq_getElem inList
  refine ⟨news[(j : Nat)], shared.live found, found, shared.rids j _ found, ?_⟩
  simp [owner, getD_eq_getElem?_getD, found]

section
variable (g : Garbage)
include g

theorem val_available : val k.rActive (bankerOf k g).arrAvailable = unitFree (owner k news) := by
  funext j
  obtain ⟨r, live, found, rid, own⟩ := shared.column j
  have available := available_rid shared.tables g live
  have records := (shared.semaphores j r found).2.2.instances
  rw [rid] at available
  rw [val_apply, unitFree, own, show (bankerOf k g).arrAvailable j = _ from available, records]
  cases (k.resources r).assignedTask <;> simp

theorem val_alloc (position : k.queue[t]? = some task) :
    val k.rActive ((bankerOf k g).matAlloc t) = unitAlloc (owner k news) (rowTask k) t := by
  funext j
  obtain ⟨r, live, found, rid, own⟩ := shared.column j
  have ht : t < k.numActive := shared.tables.queueActive ▸ (List.getElem?_eq_some_iff.mp position).1
  have alloc := alloc_rid shared.tables g ht live
  have records := (shared.semaphores j r found).2.2.instances
  rw [rid, position] at alloc
  rw [val_apply, unitAlloc, own, rowTask_eq position,
    show (bankerOf k g).matAlloc t j = _ from alloc, records]
  cases holder : (k.resources r).assignedTask with
  | none => rfl
  | some owner =>
    by_cases mine : owner = task
    · simp [mine]
    · simp [mine, Ne.symm mine]

theorem val_need (position : k.queue[t]? = some task) :
    val k.rActive ((bankerOf k g).matNeed t) =
      unitNeed (owner k news) (rowTask k) (RowClaims k news) t := by
  funext j
  obtain ⟨r, live, found, rid, own⟩ := shared.column j
  have member : r ∈ news := mem_of_getElem? found
  have queued : task ∈ k.queue := mem_of_getElem? position
  have ht : t < k.numActive := shared.tables.queueActive ▸ (List.getElem?_eq_some_iff.mp position).1
  have inArray : (j : Nat) < taskResourceMaxAmount :=
    (shared.rActive ▸ j.isLt : (j : Nat) < news.length).trans_le shared.room
  have alloc := congrFun (shared.val_alloc g position) j
  have max : (initDeadlockStructures k g).matMax t j = if HasCopy k news task then 1 else 0 := by
    rw [max_slot shared.tables.queueActive g position j.isLt, resourceSlot, if_pos inArray]
    by_cases copy : HasCopy k news task
    · rw [copy j inArray, found, if_pos copy, Option.map_some, shared.tables.instances r live]
      rfl
    · have empty := (shared.arrays task queued).resolve_left copy
      rw [empty j inArray, if_neg copy]
      rfl
  have need : (bankerOf k g).matNeed t j =
      (initDeadlockStructures k g).matMax t j - (bankerOf k g).matAlloc t j :=
    need_slot g ht j.isLt
  have entry : (bankerOf k g).matAlloc t j = if owner k news j = some task then 1 else 0 := by
    apply UInt32.toNat_inj.mp
    rw [val_apply, unitAlloc, rowTask_eq position] at alloc
    rw [alloc]
    split <;> rfl
  rw [val_apply, need, max, entry, unitNeed, rowTask_eq position]
  simp only [rowClaims_iff position]
  by_cases copy : HasCopy k news task
  · by_cases mine : owner k news j = some task <;> simp [copy, mine]
  · have other : owner k news j ≠ some task := by
      intro holder
      exact copy (shared.holders r member task (own ▸ holder)).2
    simp [copy, other]

theorem total_one (j : Fin k.rActive) : total k.numActive k.rActive (bankerOf k g) j = 1 := by
  obtain ⟨r, live, -, rid, -⟩ := shared.column j
  have conserved := (accounted_noneLost shared.accounted r live).2 g
  rw [rid, shared.tables.instances r live] at conserved
  simpa [total, bankerOf] using conserved

theorem bounded : TotalBounded k.numActive k.rActive (bankerOf k g) := by
  intro j
  rw [shared.total_one g j]
  decide

end

theorem rowTask_inj : ∀ x ∈ List.range k.numActive,
    ∀ y ∈ List.range k.numActive, rowTask k x = rowTask k y → x = y := by
  intro x hx y hy same
  have hx' : x < k.queue.length := shared.tables.queueActive ▸ mem_range.mp hx
  have hy' : y < k.queue.length := shared.tables.queueActive ▸ mem_range.mp hy
  have atX : k.queue[x]? = some (rowTask k x) := by
    simp [rowTask, getD_eq_getElem?_getD, hx']
  have atY : k.queue[y]? = some (rowTask k y) := by
    simp [rowTask, getD_eq_getElem?_getD, hy']
  exact (getElem?_inj hx' shared.tables.queueNodup).mp (by rw [atX, atY, same])

theorem row_of_queued (queued : task ∈ k.queue) :
    ∃ t ∈ List.range k.numActive, k.queue[t]? = some task := by
  obtain ⟨t, position⟩ := getElem?_of_mem queued
  have inQueue := (List.getElem?_eq_some_iff.mp position).1
  exact ⟨t, mem_range.mpr (shared.tables.queueActive ▸ inQueue), position⟩

theorem stateSafe_iff_sole {s : Banker} (own : Fin k.rActive → Option Addr)
    (bounded : TotalBounded k.numActive k.rActive s)
    (available : val k.rActive s.arrAvailable = unitFree own)
    (alloc : ∀ t < k.numActive, val k.rActive (s.matAlloc t) = unitAlloc own (rowTask k) t)
    (need : ∀ t < k.numActive, val k.rActive (s.matNeed t) =
      unitNeed own (rowTask k) (RowClaims k news) t)
    (owners : ∀ j task, own j = some task → task ∈ k.queue ∧ HasCopy k news task) :
    stateSafe s k.numActive k.rActive = true ↔ Sole own := by
  rw [stateSafe_iff bounded, available,
    completable_congr (fun t ht => need t (mem_range.mp ht))
      (fun t ht => alloc t (mem_range.mp ht))]
  refine unit_completable_iff shared.rowTask_inj ?_
  intro j task holder
  obtain ⟨queued, copy⟩ := owners j task holder
  obtain ⟨t, ht, position⟩ := shared.row_of_queued queued
  exact ⟨t, ht, (rowClaims_iff position).mpr copy, rowTask_eq position⟩

theorem position_of_lt (ht : t < k.numActive) : k.queue[t]? = some (rowTask k t) := by
  have inQueue : t < k.queue.length := shared.tables.queueActive ▸ ht
  simp [rowTask, getD_eq_getElem?_getD, inQueue]

theorem owner_holder {j : Fin k.rActive} (holder : owner k news j = some task) :
    task ∈ k.queue ∧ HasCopy k news task := by
  obtain ⟨r, -, found, -, own⟩ := shared.column j
  exact shared.holders r (mem_of_getElem? found) task (own ▸ holder)

theorem sole_owner : Sole (owner k news) := by
  intro j j' task task' holder holder'
  obtain ⟨r, -, found, -, own⟩ := shared.column j
  obtain ⟨r', -, found', -, own'⟩ := shared.column j'
  exact shared.sole r (mem_of_getElem? found) r' (mem_of_getElem? found') task task'
    (own ▸ holder) (own' ▸ holder')

theorem accepted (g : Garbage) : stateSafe (bankerOf k g) k.numActive k.rActive = true :=
  (shared.stateSafe_iff_sole (owner k news) (shared.bounded g) (shared.val_available g)
    (fun _ ht => shared.val_alloc g (shared.position_of_lt ht))
    (fun _ ht => shared.val_need g (shared.position_of_lt ht))
    (fun _ _ => shared.owner_holder)).mpr shared.sole_owner

end

variable {g : Garbage}

variable (shared : Shared k news) (found : news[id]? = some r)
include shared found

theorem val_requestVec (column : id < k.rActive) :
    val k.rActive (requestVec k g r) = unit ⟨id, column⟩ := by
  funext j
  rw [val_apply, requestVec_apply g j.isLt, shared.rids id r found, unit]
  simp only [Fin.ext_iff]
  split <;> rfl

theorem column_lt : id < k.rActive := shared.rActive ▸ (List.getElem?_eq_some_iff.mp found).1

omit shared found in
theorem owner_eq (found : news[id]? = some r) (column : id < k.rActive) :
    owner k news ⟨id, column⟩ = (k.resources r).assignedTask := by
  simp [owner, getD_eq_getElem?_getD, found]

theorem stateSafe_grant_iff (position : k.queue[t]? = some task) (copy : HasCopy k news task)
    (free : (k.resources r).assignedTask = none) :
    stateSafe (grant (requestVec k g r) t (bankerOf k g) k.rActive) k.numActive k.rActive =
      true ↔ ∀ r' ∈ news, ∀ task', (k.resources r').assignedTask = some task' → task' = task := by
  have column := shared.column_lt found
  have ht : t < k.numActive := shared.tables.queueActive ▸ (List.getElem?_eq_some_iff.mp position).1
  have row := rowTask_eq position
  have claims : RowClaims k news t := (rowClaims_iff position).mpr copy
  have freeColumn : owner k news ⟨id, column⟩ = none := by rw [owner_eq found column, free]
  have request := shared.val_requestVec (g := g) found column
  have fits : val k.rActive (requestVec k g r) ≤ val k.rActive (bankerOf k g).arrAvailable := by
    rw [request, shared.val_available g, ← unitFree_take (t := task) freeColumn]
    exact le_add_self
  have claimed : val k.rActive (requestVec k g r) ≤ val k.rActive ((bankerOf k g).matNeed t) := by
    rw [request, shared.val_need g position, ← unitNeed_take freeColumn claims]
    exact le_add_self
  have bounded : TotalBounded k.numActive k.rActive
      (grant (requestVec k g r) t (bankerOf k g) k.rActive) := by
    intro j
    rw [total_grant (shared.bounded g) ht fits]
    exact shared.bounded g j
  have other : ∀ t' < k.numActive, t' ≠ t → rowTask k t' ≠ task := by
    intro t' ht' apart same
    exact apart (shared.rowTask_inj t' (mem_range.mpr ht') t (mem_range.mpr ht)
      (same.trans row.symm))
  rw [shared.stateSafe_iff_sole (update (owner k news) ⟨id, column⟩ (some task)) bounded,
    sole_take freeColumn]
  · constructor
    · intro mine r' member task' holder
      have found' := shared.found_of_mem member
      have column' := shared.column_lt found'
      exact mine ⟨_, column'⟩ task' (by rw [owner_eq found' column', holder])
    · intro mine j task' holder
      obtain ⟨r', -, found', -, own⟩ := shared.column j
      exact mine r' (mem_of_getElem? found') task' (own ▸ holder)
  · apply add_right_cancel (b := unit ⟨id, column⟩)
    rw [unitFree_take freeColumn, ← request, grant_available fits, shared.val_available g]
  · intro t' ht'
    by_cases same : t' = t
    · subst same
      rw [grant_alloc (shared.bounded g) ht fits, shared.val_alloc g position, request, ← row,
        unitAlloc_take freeColumn]
    · rw [(grant_else same).1, shared.val_alloc g (shared.position_of_lt ht'),
        unitAlloc_take_else freeColumn (other t' ht' same)]
  · intro t' ht'
    by_cases same : t' = t
    · subst same
      apply add_right_cancel (b := unit ⟨id, column⟩)
      rw [← row, unitNeed_take freeColumn claims, ← request, grant_need claimed,
        shared.val_need g position]
    · rw [(grant_else same).2, shared.val_need g (shared.position_of_lt ht'),
        unitNeed_take_else freeColumn (other t' ht' same)]
  · intro j task' holder
    by_cases same : j = ⟨id, column⟩
    · rw [same, update_self] at holder
      cases holder
      exact ⟨mem_of_getElem? position, copy⟩
    · rw [update_of_ne same] at holder
      exact shared.owner_holder holder

end Shared

def OnlyHolder (k : Kernel) (news : List Addr) (task : Addr) : Prop :=
  ∀ r ∈ news, ∀ task', (k.resources r).assignedTask = some task' → task' = task

def taken (k : Kernel) (id : Nat) (r : Addr) : Kernel := resourceAssign (atomicSet k id 1) (some r)

def released (k : Kernel) (id : Nat) (r : Addr) : Kernel := resourceInit (atomicSet k id 0) (some r)

namespace Shared

variable (shared : Shared k news) (found : news[id]? = some r)
include shared found

section
variable (queued : k.curr ∈ k.queue) (copy : HasCopy k news k.curr)
include queued copy

theorem request_status (notHeld : (k.resources r).assignedTask ≠ some k.curr) (g : Garbage) :
    ∃ status, semRequest k id g = .ok status ∧ status ≠ .error ∧
      (status = .safe ↔ (k.resources r).assignedTask = none ∧ OnlyHolder k news k.curr) := by
  obtain ⟨t, -, position⟩ := shared.row_of_queued queued
  have column := shared.column_lt found
  have live := shared.live found
  have rid := shared.rids id r found
  have claimed : val k.rActive (requestVec k g r) ≤ val k.rActive ((bankerOf k g).matNeed t) := by
    rw [shared.val_requestVec found column, shared.val_need g position]
    intro j
    by_cases here : j = ⟨id, column⟩
    · subst here
      simp [unit, unitNeed, rowClaims_iff position, copy, rowTask_eq position,
        Shared.owner_eq found column, notHeld]
    · simp [unit, here]
  have available : val k.rActive (requestVec k g r) ≤ val k.rActive (bankerOf k g).arrAvailable ↔
      (k.resources r).assignedTask = none := by
    have entry : (bankerOf k g).arrAvailable (k.resources r).rid = _ :=
      available_rid shared.tables g live
    rw [requestVec_le_iff g (rid ▸ column), entry, (shared.semaphores id r found).2.2.instances]
    cases (k.resources r).assignedTask <;> simp
  have answered := semRequest_apply shared.tables g position live (shared.semaphores id r found).2.1
  refine ⟨_, answered, ?_⟩
  rcases request_cases (requestVec k g r) t (bankerOf k g) k.numActive k.rActive with
    ⟨-, beyond⟩ | ⟨-, ⟨status, taken⟩ | ⟨fits, ⟨status, rejected⟩ | ⟨status, safe⟩⟩⟩
  · exact absurd claimed beyond
  · rw [available] at taken
    simp [status, taken]
  · have free := available.mp fits
    have others := (shared.stateSafe_grant_iff (g := g) found position copy free).not.mp
      (by simp [rejected])
    rw [status]
    exact ⟨by simp, by simp, fun h => absurd h.2 others⟩
  · have free := available.mp fits
    have mine := (shared.stateSafe_grant_iff found position copy free).mp safe
    rw [status]
    exact ⟨by simp, fun _ => ⟨free, mine⟩, fun _ => rfl⟩

theorem tryAcquire_granted (free : (k.resources r).assignedTask = none)
    (mine : OnlyHolder k news k.curr) (g : Garbage) :
    sysSemTryAcquire true k id g = .ok (1, taken k id r) := by
  obtain ⟨status, answered, -, safe⟩ := shared.request_status found queued copy (by simp [free]) g
  rw [safe.mpr ⟨free, mine⟩] at answered
  obtain ⟨used, resource, inStep⟩ := shared.semaphores id r found
  have clear : (k.semaphores id).value = 0 := by simp [inStep.value, free]
  rw [sysSemTryAcquire_status (shared.inTable found) used answered, acquireOn, if_pos clear,
    resource]
  rfl

theorem tryAcquire_refused (notHeld : (k.resources r).assignedTask ≠ some k.curr)
    (refused : ¬ ((k.resources r).assignedTask = none ∧ OnlyHolder k news k.curr)) (g : Garbage) :
    sysSemTryAcquire true k id g = .ok (0, k) := by
  obtain ⟨status, answered, noError, safe⟩ := shared.request_status found queued copy notHeld g
  have used := (shared.semaphores id r found).1
  rw [sysSemTryAcquire_status (shared.inTable found) used answered]
  cases status with
  | safe => exact absurd (safe.mp rfl) refused
  | wait | waitUnsafe => rfl
  | error => exact absurd rfl noError

omit queued copy in
theorem write (holder : Option Addr) {v : UInt32} {n : Nat} (touches : Touches task k k')
    (words : k'.semaphores = update k.semaphores id { k.semaphores id with value := v })
    (records : k'.resources = update k.resources r
      { k.resources r with assignedTask := holder, assignedInstances := n })
    (value : v = if holder = none then 0 else 1) (instances : n = if holder = none then 0 else 1)
    (mine : ∀ task', holder = some task' →
      task' ∈ k.queue ∧ HasCopy k news task' ∧ OnlyHolder k news task') : Shared k' news := by
  have own : ∀ r', (k'.resources r').assignedTask =
      if r' = r then holder else (k.resources r').assignedTask := by
    intro r'
    by_cases same : r' = r <;> simp [records, same]
  have copies : ∀ list t, HasCopy k' list t ↔ HasCopy k list t := by
    intro list t
    rw [HasCopy, HasCopy, touches.tasks]
  refine ⟨touches.tables shared.tables, touches.rList.trans shared.rList, ?_, shared.room, ?_, ?_,
    ?_, ?_⟩
  · intro i r' found'
    rw [(touches.rid r').1]
    exact shared.rids i r' found'
  · intro i r' found'
    obtain ⟨used, resource, inStep⟩ := shared.semaphores i r' found'
    by_cases same : i = id
    · subst same
      have this : r' = r := Option.some.inj (found'.symm.trans found)
      subst this
      rw [words, records, update_self, update_self]
      exact ⟨used, resource, value, instances⟩
    · have apart : r' ≠ r := by
        intro equal
        rw [equal] at found'
        exact same ((shared.rids i r found').symm.trans (shared.rids id r found))
      rw [words, records, update_of_ne same, update_of_ne apart]
      exact ⟨used, resource, inStep⟩
  · rw [touches.queue]
    intro t queued
    rw [copies, copies]
    exact shared.arrays t queued
  · intro r' member t held
    rw [touches.queue, copies]
    rw [own] at held
    split at held
    · exact ⟨(mine t held).1, (mine t held).2.1⟩
    · exact shared.holders r' member t held
  · intro r₁ member₁ r₂ member₂ t₁ t₂ held₁ held₂
    rw [own] at held₁ held₂
    split at held₁
    · split at held₂
      · exact Option.some.inj (held₁.symm.trans held₂)
      · exact ((mine t₁ held₁).2.2 r₂ member₂ t₂ held₂).symm
    · split at held₂
      · exact (mine t₂ held₂).2.2 r₁ member₁ t₁ held₁
      · exact shared.sole r₁ member₁ r₂ member₂ t₁ t₂ held₁ held₂

theorem keeps_taken (mine : OnlyHolder k news k.curr) : Shared (taken k id r) news := by
  refine shared.write found (some k.curr)
    (touches_of_atomicSet (touches_resourceAssign (atomicSet k id 1) (some r))) rfl rfl rfl rfl ?_
  intro task' holder
  cases holder
  exact ⟨queued, copy, mine⟩

end

theorem keeps_released : Shared (released k id r) news :=
  shared.write found none
    (touches_of_atomicSet (touches_resourceInit k.curr (atomicSet k id 0) (some r))) rfl rfl rfl rfl
    nofun

end Shared

end Elaborato.Mentos
