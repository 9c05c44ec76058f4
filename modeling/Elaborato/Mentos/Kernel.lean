import Elaborato.Mentos.ArrMath

/-!
The kernel data that the deadlock modules share (process.h, resource.h, scheduler.c, process.c,
smart_sem_kernel.c). Intrusive lists are given by the sequence of their nodes.
-/
namespace Elaborato.Mentos
open Function

abbrev Addr := UInt32

def taskResourceMaxAmount : Nat := 32

def semMax : Nat := 356

structure Resource where
  rid : Nat
  nInstances : Nat
  category : String
  assignedTask : Option Addr
  assignedInstances : Nat
  deriving DecidableEq, Repr

inductive TaskState
  | running
  | zombie
  deriving DecidableEq, Repr

structure TaskStruct where
  pid : Nat
  state : TaskState
  exitCode : UInt32
  resources : Nat → Option Addr

structure SmartSem where
  value : UInt32
  used : Bool
  semResource : Option Addr
  deriving DecidableEq, Repr

structure Kernel where
  resources : Addr → Resource
  rList : List Addr
  rActive : Nat
  tasks : Addr → TaskStruct
  queue : List Addr
  numActive : Nat
  curr : Addr
  nextPid : Nat
  semaphores : Nat → SmartSem

inductive Halt
  | allocation
  | taskIndex
  | badSafeStatus
  | deadlockError
  | initExit
  | nullDereference
  deriving DecidableEq, Repr

/-- The text given to `kernel_panic`. -/
def Halt.message : Halt → Option String
  | .allocation => some "not able to perform allocation for deadlock prevention"
  | .taskIndex => some "did't find current task in idx_map_task_struct array"
  | .badSafeStatus => some "allocation request return bad safe status"
  | .deadlockError => some "deadlock prevention error"
  | .initExit => some "Init process cannot call sys_exit!"
  | .nullDereference => none

def kmalloc (size : Nat) : Bool := size != 0

def kernelGetCurrentProcess (k : Kernel) : Addr := k.curr

def kernelGetActiveProcesses (k : Kernel) : Nat := k.numActive

def kernelGetActiveResources (k : Kernel) : Nat := k.rActive

def kernelGetRunningProcess (k : Kernel) (pid : Nat) : Option Addr :=
  k.queue.find? fun t => (k.tasks t).pid == pid

def enqueueTask (k : Kernel) (process : Addr) : Kernel :=
  { k with queue := k.queue ++ [process], numActive := k.numActive + 1 }

def dequeueTask (k : Kernel) (process : Addr) : Kernel :=
  { k with queue := k.queue.erase process, numActive := k.numActive - 1 }

def nextTask (k : Kernel) : Addr :=
  ((k.queue.dropWhile (· != k.curr)).tail ++ k.queue).headD k.curr

def kernelSchedule (k : Kernel) : Kernel :=
  let next := nextTask k
  if (k.tasks k.curr).state = .zombie then { dequeueTask k k.curr with curr := next }
  else { k with curr := next }

def sysVfork (k : Kernel) (new : Addr) : Int × Kernel :=
  let child := { k.tasks k.curr with pid := k.nextPid, state := .running }
  (k.nextPid,
    enqueueTask { k with tasks := update k.tasks new child, nextPid := k.nextPid + 1 } new)

def sysExit (k : Kernel) (exitCode : UInt32) : Except Halt Kernel :=
  if kernelGetRunningProcess k 1 = some k.curr then .error .initExit
  else
    let task := k.tasks k.curr
    .ok { k with
      tasks := update k.tasks k.curr
        { task with
          exitCode := (exitCode <<< 8) &&& 0xFF00
          state := .zombie
          resources := fun i => if i < taskResourceMaxAmount then none else task.resources i } }

def initKernel : Kernel :=
  { resources := fun _ =>
      { rid := 0, nInstances := 0, category := "", assignedTask := none, assignedInstances := 0 }
    rList := []
    rActive := 0
    tasks := fun _ =>
      { pid := 1, state := .running, exitCode := 0, resources := fun _ => none }
    queue := [1]
    numActive := 1
    curr := 1
    nextPid := 2
    semaphores := fun _ => { value := 0, used := false, semResource := none } }

end Elaborato.Mentos
