import Elaborato.Mentos.DeadlockPrevention
import Elaborato.Mentos.Resource

/-!
The system calls on smart semaphores (smart_sem_kernel.c), for both values of
`ENABLE_DEADLOCK_PREVENTION`.
-/
namespace Elaborato.Mentos
open Function

def setSem (k : Kernel) (id : Nat) (sem : SmartSem) : Kernel :=
  { k with semaphores := update k.semaphores id sem }

def atomicSetAndTest (k : Kernel) (id : Nat) (value : UInt32) : UInt32 × Kernel :=
  ((k.semaphores id).value, setSem k id { k.semaphores id with value })

def atomicSet (k : Kernel) (id : Nat) (value : UInt32) : Kernel := (atomicSetAndTest k id value).2

def semRequest (k : Kernel) (id : Nat) (g : Garbage) : Except Halt DeadlockStatus :=
  let n := kernelGetActiveProcesses k
  let m := kernelGetActiveResources k
  -- The arrays of m words, and the arrays of n pointers; the rows are not checked.
  if !(kmalloc (m * 4) && kmalloc (n * 4)) then .error .allocation
  else
    let d := initDeadlockStructures k g
    match (k.semaphores id).semResource with
    | none => .error .nullDereference
    | some r =>
      let reqVec := update (all g.reqVec 0 m) (k.resources r).rid 1
      match getCurrentTaskIdxFrom k d.idxMapTaskStruct with
      | none => .error .taskIndex
      | some i =>
        .ok (request reqVec i
          { arrAvailable := d.arrAvailable, matAlloc := d.matAlloc, matNeed := d.matNeed }
          n m).1

def sysSemTry (prevention : Bool) (k : Kernel) (id : Nat) (g : Garbage) :
    Except Halt (Bool × Kernel) :=
  if prevention then
    match semRequest k id g with
    | .error halt => .error halt
    | .ok .wait => .ok (false, k)
    | .ok .waitUnsafe => .ok (false, k)
    | .ok .safe =>
      let (old, k') := atomicSetAndTest k id 1
      if old = 0 then .ok (true, k') else .error .badSafeStatus
    | .ok .error => .error .deadlockError
  else
    let (old, k') := atomicSetAndTest k id 1
    .ok (old == 0, k')

/-- The first semaphore that is not used. -/
def freeSem (k : Kernel) : Option Nat :=
  (List.range semMax).find? fun i => !(k.semaphores i).used

def sysSemCreate (k : Kernel) (new : Addr) : Int × Kernel :=
  match freeSem k with
  | none => (-1, k)
  | some i =>
    match resourceCreate k "sem" new with
    | (none, k') => (-1, setSem k' i { k'.semaphores i with semResource := none })
    | (some r, k') =>
      (i, setSem k' i { k'.semaphores i with semResource := some r, used := true })

def badId (id : Int) : Bool := id < 0 || id > semMax

def sysSemDestroy (k : Kernel) (id : Int) : Int × Kernel :=
  if badId id then (-1, k)
  else
    let sem := k.semaphores id.toNat
    (0, resourceDestroy (setSem k id.toNat { sem with used := false }) sem.semResource)

def sysSemInit (k : Kernel) (id : Int) : Int × Kernel :=
  if badId id then (-1, k)
  else if !(k.semaphores id.toNat).used then (-1, k)
  else
    let k := atomicSet k id.toNat 0
    (0, resourceInit k (k.semaphores id.toNat).semResource)

def sysSemTryAcquire (prevention : Bool) (k : Kernel) (id : Int) (g : Garbage) :
    Except Halt (Int × Kernel) :=
  if badId id then .ok (-1, k)
  else if !(k.semaphores id.toNat).used then .ok (-1, k)
  else
    match sysSemTry prevention k id.toNat g with
    | .error halt => .error halt
    | .ok (true, k') => .ok (1, resourceAssign k' (k'.semaphores id.toNat).semResource)
    | .ok (false, k') => .ok (0, k')

def sysSemRelease (k : Kernel) (id : Int) : Int × Kernel :=
  if badId id then (-1, k)
  else if !(k.semaphores id.toNat).used then (-1, k)
  else
    let k := atomicSet k id.toNat 0
    (0, resourceDeassign k (k.semaphores id.toNat).semResource)

inductive SysCall
  | semCreate (new : Addr)
  | semDestroy (id : Int)
  | semInit (id : Int)
  | semTryAcquire (id : Int) (g : Garbage)
  | semRelease (id : Int)
  | vfork (new : Addr)
  | exit (code : UInt32)

structure Event where
  task : Addr
  call : SysCall

def runCall (prevention : Bool) (k : Kernel) (e : Event) : Except Halt (Int × Kernel) :=
  let k := { k with curr := e.task }
  match e.call with
  | .semCreate new => .ok (sysSemCreate k new)
  | .semDestroy id => .ok (sysSemDestroy k id)
  | .semInit id => .ok (sysSemInit k id)
  | .semTryAcquire id g => sysSemTryAcquire prevention k id g
  | .semRelease id => .ok (sysSemRelease k id)
  | .vfork new => .ok (sysVfork k new)
  | .exit code =>
    match sysExit k code with
    | .error halt => .error halt
    | .ok k' => .ok (0, kernelSchedule k')

def ValidId (k : Kernel) (id : Int) : Prop :=
  0 ≤ id ∧ id < semMax ∧ (k.semaphores id.toNat).used = true

def Allowed (k : Kernel) (e : Event) : Prop :=
  e.task ∈ k.queue ∧
    match e.call with
    | .semCreate new => new ∉ k.rList
    | .vfork new => new ∉ k.queue
    | .semDestroy id => ValidId k id
    | .semInit id | .semTryAcquire id _ | .semRelease id => id ≠ semMax
    | .exit _ => True

def Step (prevention : Bool) (k : Kernel) (e : Event) (k' : Kernel) : Prop :=
  Allowed k e ∧ ∃ answer, runCall prevention k e = .ok (answer, k')

end Elaborato.Mentos
