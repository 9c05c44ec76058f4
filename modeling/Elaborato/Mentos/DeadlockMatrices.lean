import Elaborato.Foundation.Updates
import Elaborato.Mentos.ResourceIds

/-!
What `init_deadlock_structures` computes when each live resource has its own column.
-/
namespace Elaborato.Mentos
open Foundation List

structure Tables (k : Kernel) : Prop where
  queueNodup : k.queue.Nodup
  queueActive : k.numActive = k.queue.length
  rids : RidsContiguous k
  instances : ∀ r ∈ k.rList, (k.resources r).nInstances = 1

variable {k : Kernel} {t i : Nat} {r task : Addr}

theorem Tables.at_task (tables : Tables k) (task : Addr) : Tables { k with curr := task } :=
  ⟨tables.queueNodup, tables.queueActive, tables.rids, tables.instances⟩

theorem Tables.rid_lt (tables : Tables k) (live : r ∈ k.rList) : (k.resources r).rid < k.rActive :=
  (tables.rids.2 _).mp (mem_map.mpr ⟨r, live, rfl⟩)

theorem Tables.rid_inj (tables : Tables k) {r' : Addr} (live : r ∈ k.rList) (live' : r' ∈ k.rList)
    (same : (k.resources r).rid = (k.resources r').rid) : r = r' :=
  inj_on_of_nodup_map tables.rids.1 live live' same

theorem idxMap_apply (active : k.numActive = k.queue.length) (g : Garbage)
    (ht : t < k.numActive) : (initDeadlockStructures k g).idxMapTaskStruct t = k.queue[t]? := by
  have inQueue : t < k.queue.length := active ▸ ht
  simp [initDeadlockStructures, computeIndexMapTaskStruct, inQueue]

theorem available_rid (tables : Tables k) (g : Garbage) (live : r ∈ k.rList) :
    (initDeadlockStructures k g).arrAvailable (k.resources r).rid =
      1 - UInt32.ofNat (k.resources r).assignedInstances := by
  have distinct : (k.rList.map fun r => (k.resources r).rid).Nodup := tables.rids.1
  refine (writeAll_of_mem distinct live).trans ?_
  rw [tables.instances r live]
  rfl

theorem fillAlloc_row (mat : Mat) (idx : Nat → Option Addr) (ht : t < k.numActive) :
    fillAlloc k mat idx t =
      writeAll (fun r => (k.resources r).rid)
        (fun r => UInt32.ofNat (k.resources r).assignedInstances) (mat t)
        (k.rList.filter fun r => idx t = (k.resources r).assignedTask) := by
  simp only [fillAlloc, kernelGetActiveProcesses]
  generalize k.rList = nodes
  induction nodes generalizing mat with
  | nil => rfl
  | cons node nodes ih =>
    rw [foldl_cons, ih]
    by_cases mine : idx t = (k.resources node).assignedTask
    · simp [mine, ht, writeAll_cons]
    · simp [mine]

attribute [local simp] kernelGetActiveResources kernelGetActiveProcesses

theorem alloc_rid (tables : Tables k) (g : Garbage) (ht : t < k.numActive)
    (live : r ∈ k.rList) :
    (initDeadlockStructures k g).matAlloc t (k.resources r).rid =
      if k.queue[t]? = (k.resources r).assignedTask then
        UInt32.ofNat (k.resources r).assignedInstances else 0 := by
  have idx := idxMap_apply tables.queueActive g ht
  have row := fillAlloc_row (k := k) (resetDeadlockStructures k g.blocks).matAlloc
    (initDeadlockStructures k g).idxMapTaskStruct ht
  rw [idx] at row
  have distinct : ((k.rList.filter fun r => k.queue[t]? = (k.resources r).assignedTask).map
      fun r => (k.resources r).rid).Nodup :=
    tables.rids.1.sublist (filter_sublist.map _)
  rw [show (initDeadlockStructures k g).matAlloc t = _ from row]
  by_cases mine : k.queue[t]? = (k.resources r).assignedTask
  · rw [if_pos mine, writeAll_of_mem distinct (mem_filter.mpr ⟨live, by simpa using mine⟩)]
  · rw [if_neg mine, writeAll_of_not_mem]
    · simp [resetDeadlockStructures, ht, tables.rid_lt live]
    · intro h
      obtain ⟨r', hr', same⟩ := mem_map.mp h
      obtain ⟨live', mine'⟩ := mem_filter.mp hr'
      rw [tables.rid_inj live' live same] at mine'
      exact mine (by simpa using mine')

theorem fillMax_row (g : Garbage) (mat : Mat) {idx : Nat → Option Addr} (ht : t < k.numActive)
    (found : idx t = some task) :
    fillMax k g mat idx t =
      writeAll id (fun i => (resourceSlot k g task i).getD 0) (mat t)
        ((List.range k.rActive).filter fun i => (resourceSlot k g task i).isSome) := by
  simp only [fillMax, kernelGetActiveProcesses, kernelGetActiveResources, if_pos ht, found]
  generalize List.range k.rActive = slots
  generalize mat t = row
  induction slots generalizing row with
  | nil => rfl
  | cons slot slots ih =>
    rw [foldl_cons, ih]
    cases entry : resourceSlot k g task slot <;> simp [entry, writeAll_cons]

theorem max_slot (active : k.numActive = k.queue.length) (g : Garbage)
    (position : k.queue[t]? = some task) (hi : i < k.rActive) :
    (initDeadlockStructures k g).matMax t i = (resourceSlot k g task i).getD 0 := by
  have ht : t < k.numActive := active ▸ (List.getElem?_eq_some_iff.mp position).1
  have found := (idxMap_apply active g ht).trans position
  have row := fillMax_row g (resetDeadlockStructures k g.blocks).matMax ht found
  rw [show (initDeadlockStructures k g).matMax t = _ from row]
  cases entry : resourceSlot k g task i with
  | none =>
    rw [writeAll_of_not_mem (by simp [entry])]
    simp [resetDeadlockStructures, ht, hi]
  | some instances =>
    have distinct : (((List.range k.rActive).filter fun i =>
        (resourceSlot k g task i).isSome).map id).Nodup := by
      simpa using nodup_range.filter _
    rw [← entry]
    exact writeAll_of_mem distinct
      (mem_filter.mpr ⟨mem_range.mpr hi, by simp [entry]⟩)

theorem need_slot (g : Garbage) (ht : t < k.numActive) (hi : i < k.rActive) :
    (initDeadlockStructures k g).matNeed t i =
      (initDeadlockStructures k g).matMax t i - (initDeadlockStructures k g).matAlloc t i := by
  simp [initDeadlockStructures, fillNeed, arrSub, ht, hi]

theorem getCurrentTaskIdxFrom_apply (nodup : k.queue.Nodup)
    (active : k.numActive = k.queue.length) (g : Garbage) (position : k.queue[t]? = some k.curr) :
    getCurrentTaskIdxFrom k (initDeadlockStructures k g).idxMapTaskStruct = some t := by
  have ht : t < k.numActive := active ▸ (List.getElem?_eq_some_iff.mp position).1
  rw [getCurrentTaskIdxFrom, kernelGetActiveProcesses, find?_range_eq_some]
  refine ⟨by simp [idxMap_apply active g ht, position, kernelGetCurrentProcess],
    by simpa using ht, ?_⟩
  intro j hj
  have hjn : j < k.numActive := hj.trans ht
  rw [idxMap_apply active g hjn]
  simp only [kernelGetCurrentProcess, Bool.not_eq_true', beq_eq_false_iff_ne, ne_eq]
  intro same
  exact hj.ne ((getElem?_inj (active ▸ hjn) nodup).mp (same.trans position.symm))

end Elaborato.Mentos
