import Elaborato.Mentos.Kernel

/-!
Resources and the matrices built from them (resource.c), over arbitrary old contents.
-/
namespace Elaborato.Mentos
open Function

structure DeadlockStructures where
  arrAvailable : Vec
  matMax : Mat
  matAlloc : Mat
  matNeed : Mat
  idxMapTaskStruct : Nat → Option Addr

structure Garbage where
  blocks : DeadlockStructures
  reqVec : Vec
  pastEnd : Addr → Nat → Option UInt32

/-- Memory full of zeros. -/
def zeroGarbage : Garbage :=
  { blocks :=
      { arrAvailable := fun _ => 0, matMax := fun _ _ => 0, matAlloc := fun _ _ => 0,
        matNeed := fun _ _ => 0, idxMapTaskStruct := fun _ => none }
    reqVec := fun _ => 0
    pastEnd := fun _ _ => none }

def cleanResourceReference (k : Kernel) (r : Addr) : Kernel :=
  { k with
    tasks := fun t =>
      let entry := k.tasks t
      if t ∈ k.queue then
        { entry with
          resources := fun i =>
            if i < taskResourceMaxAmount ∧ entry.resources i = some r then none
            else entry.resources i }
      else entry }

def freeSlot (k : Kernel) : Option Nat :=
  (List.range taskResourceMaxAmount).find? fun i => ((k.tasks k.curr).resources i).isNone

def resourceCreate (k : Kernel) (category : String) (new : Addr) : Option Addr × Kernel :=
  match freeSlot k with
  | none => (none, k)
  | some i =>
    let task := k.tasks k.curr
    (some new,
      { k with
        resources := update k.resources new
          { rid := k.rActive, nInstances := 1, category, assignedTask := none,
            assignedInstances := 0 }
        rActive := k.rActive + 1
        tasks := update k.tasks k.curr
          { task with resources := update task.resources i (some new) }
        rList := k.rList ++ [new] })

def resourceInit (k : Kernel) : Option Addr → Kernel
  | none => k
  | some r =>
    { k with
      resources := update k.resources r
        { k.resources r with assignedTask := none, assignedInstances := 0 } }

def normalizeIds (resources : Addr → Resource) (nodes : List Addr) : Addr → Resource :=
  let rid := 0
  nodes.foldl (fun res r => update res r { res r with rid }) resources

def resourceDestroy (k : Kernel) : Option Addr → Kernel
  | none => k
  | some r =>
    let k := cleanResourceReference k r
    let nodes := k.rList.erase r
    { k with
      rList := nodes
      rActive := k.rActive - 1
      resources := normalizeIds k.resources nodes }

def resourceAssign (k : Kernel) : Option Addr → Kernel
  | none => k
  | some r =>
    { k with
      resources := update k.resources r
        { k.resources r with assignedTask := some k.curr, assignedInstances := 1 } }

def resourceDeassign (k : Kernel) (r : Option Addr) : Kernel := resourceInit k r

def resetDeadlockStructures (k : Kernel) (d : DeadlockStructures) : DeadlockStructures :=
  let n := kernelGetActiveProcesses k
  let m := kernelGetActiveResources k
  { d with
    idxMapTaskStruct := fun t => if t < n then none else d.idxMapTaskStruct t
    matAlloc := fun t => if t < n then all (d.matAlloc t) 0 m else d.matAlloc t
    matMax := fun t => if t < n then all (d.matMax t) 0 m else d.matMax t
    arrAvailable := all d.arrAvailable 0 m }

def computeIndexMapTaskStruct (k : Kernel) (idx : Nat → Option Addr) : Nat → Option Addr :=
  fun t => (k.queue[t]?).or (idx t)

def fillAvailable (k : Kernel) (arrAvailable : Vec) : Vec :=
  k.rList.foldl (fun arr r =>
    let resource := k.resources r
    update arr resource.rid
      (UInt32.ofNat resource.nInstances - UInt32.ofNat resource.assignedInstances)) arrAvailable

def resourceSlot (k : Kernel) (g : Garbage) (task : Addr) (i : Nat) : Option UInt32 :=
  if i < taskResourceMaxAmount then
    ((k.tasks task).resources i).map fun r => UInt32.ofNat (k.resources r).nInstances
  else g.pastEnd task i

def fillMax (k : Kernel) (g : Garbage) (matMax : Mat) (idx : Nat → Option Addr) : Mat :=
  let n := kernelGetActiveProcesses k
  let m := kernelGetActiveResources k
  fun t =>
    if t < n then
      match idx t with
      | none => matMax t
      | some task =>
        (List.range m).foldl (fun row i =>
          match resourceSlot k g task i with
          | none => row
          | some instances => update row i instances) (matMax t)
    else matMax t

def fillMaxReads (k : Kernel) : List Nat := List.range (kernelGetActiveResources k)

def fillAlloc (k : Kernel) (matAlloc : Mat) (idx : Nat → Option Addr) : Mat :=
  let n := kernelGetActiveProcesses k
  k.rList.foldl (fun mat r =>
    let resource := k.resources r
    fun t =>
      if t < n ∧ idx t = resource.assignedTask then
        update (mat t) resource.rid (UInt32.ofNat resource.assignedInstances)
      else mat t) matAlloc

def fillNeed (k : Kernel) (matNeed matMax matAlloc : Mat) : Mat :=
  let n := kernelGetActiveProcesses k
  let m := kernelGetActiveResources k
  fun t =>
    if t < n then arrSub (arrZip (fun _ word => word) (matNeed t) (matMax t) m) (matAlloc t) m
    else matNeed t

def initDeadlockStructures (k : Kernel) (g : Garbage) : DeadlockStructures :=
  let d := resetDeadlockStructures k g.blocks
  let idx := computeIndexMapTaskStruct k d.idxMapTaskStruct
  let matAlloc := fillAlloc k d.matAlloc idx
  let matMax := fillMax k g d.matMax idx
  { idxMapTaskStruct := idx
    matAlloc
    matMax
    arrAvailable := fillAvailable k d.arrAvailable
    matNeed := fillNeed k d.matNeed matMax matAlloc }

def getCurrentTaskIdxFrom (k : Kernel) (idx : Nat → Option Addr) : Option Nat :=
  (List.range (kernelGetActiveProcesses k)).find? fun t =>
    idx t == some (kernelGetCurrentProcess k)

end Elaborato.Mentos
