import Elaborato.Foundation.Records
import Elaborato.Mentos.ResourceLinks

/-!
Processes (process.c, scheduler.c, syscall.c, scheduler_algorithm.c with SCHEDULER_RR). List
nodes are nodes of pointer maps, saved registers words of byte memory.
-/
namespace Elaborato.Mentos.Process
open Foundation Function

inductive Reg
  | gs | fs | es | ds | edi | esi | ebp | ebx | edx | ecx | eax | eip | eflags | useresp
  deriving DecidableEq, Repr

abbrev Regs := Reg → UInt32

def Reg.offset : Reg → Nat
  | .ebp => 0
  | .useresp => 4
  | .ebx => 8
  | .edx => 12
  | .ecx => 16
  | .eax => 20
  | .eip => 24
  | .eflags => 28
  | .gs => 32
  | .fs => 36
  | .es => 40
  | .ds => 44
  | .edi => 48
  | .esi => 52

/-- Why a call does not return. -/
inductive ProcHalt
  | panic (text : String)
  | assertion (text : String)
  | endless
  deriving DecidableEq, Repr

structure Task where
  pid : UInt32
  state : TaskState
  parent : Addr
  exitCode : UInt32
  errorNo : UInt32
  startStack : Addr

def taskSize : Nat := 4992

def defaultStackSize : Nat := 0x100000

def eflagIF : UInt32 := 0x200

def runList (task : Addr) : Addr := task + 12

def children (task : Addr) : Addr := task + 20

def sibling (task : Addr) : Addr := task + 28

def runListEntry (node : Addr) : Addr := node - 12

def siblingEntry (node : Addr) : Addr := node - 28

/-- The address of a saved register. -/
def threadWord (task : Addr) (r : Reg) : Nat := task.toNat + 48 + r.offset

def getReg (m : ByteMem) (task : Addr) (r : Reg) : UInt32 :=
  UInt32.ofNat (readWord m (threadWord task r))

def setReg (m : ByteMem) (task : Addr) (r : Reg) (value : UInt32) : ByteMem :=
  writeWord m (threadWord task r) value.toNat

def memcpy (m : ByteMem) (dst src n : Nat) : ByteMem := fun x =>
  if dst ≤ x ∧ x < dst + n then m (src + (x - dst)) else m x

structure Proc where
  tasks : Addr → Task
  links : Links Addr
  mem : ByteMem
  numActive : Nat
  curr : Addr
  nextPid : UInt32

def forEachFind (l : Links Addr) (head : Addr) (wanted : Addr → Bool) :
    Nat → Addr → Option (Option Addr)
  | 0, _ => none
  | fuel + 1, it =>
    if it = head then some none
    else if wanted it then some (some it)
    else forEachFind l head wanted fuel (l.next it)

section Scheduler
variable (queue : Addr)

def kernelGetRunningProcess (fuel : Nat) (s : Proc) (pid : UInt32) :
    Except ProcHalt (Option Addr) :=
  let wanted it := runListEntry it != 0 && (s.tasks (runListEntry it)).pid == pid
  match forEachFind s.links queue wanted fuel (s.links.next queue) with
  | none => .error .endless
  | some found => .ok (found.map runListEntry)

def enqueueTask (s : Proc) (process : Addr) : Proc :=
  { s with
    curr := if s.curr = 0 then process else s.curr
    links := listHeadAddTail s.links (runList process) queue
    numActive := s.numActive + 1 }

def dequeueTask (s : Proc) (process : Addr) : Proc :=
  { s with links := listHeadDel s.links (runList process), numActive := s.numActive - 1 }

def nextNode (s : Proc) : Addr :=
  let node := s.links.next (runList s.curr)
  if node = queue then s.links.next node else node

def pickNextTask (s : Proc) : Except ProcHalt Addr :=
  let next := runListEntry (nextNode queue s)
  if next = 0 then
    .error (.assertion
      "No valid task selected. Have you implemented a scheduling algorithm?")
  else .ok next

def storedRegs : List Reg :=
  [.gs, .fs, .es, .ds, .edi, .esi, .ebp, .ebx, .edx, .ecx, .eax, .eip, .eflags, .useresp]

def updateContext (m : ByteMem) (f : Regs) (process : Addr) : ByteMem :=
  storedRegs.foldl (fun m r => setReg m process r (f r)) m

def restoredRegs : List Reg :=
  [.gs, .fs, .es, .ds, .edi, .esi, .ebp, .ebx, .edx, .ecx, .eax, .eip, .eflags, .useresp]

def doSwitch (s : Proc) (process : Addr) (f : Regs) : Proc × Regs :=
  ({ s with curr := process },
    restoredRegs.foldl (fun f r => update f r (getReg s.mem process r)) f)

def kernelSchedule (s : Proc) (f : Regs) : Except ProcHalt (Proc × Regs) :=
  if s.curr = 0 then .ok (s, f)
  else
    let chosen :=
      if (s.tasks s.curr).state = .zombie then
        .ok (runListEntry (nextNode queue s), dequeueTask s s.curr)
      else (pickNextTask queue s).map fun next => (next, s)
    chosen.map fun (nextProcess, s) =>
      let s := { s with mem := updateContext s.mem f s.curr }
      if nextProcess ≠ s.curr then doSwitch s nextProcess f else (s, f)

/-- The list is empty and there is no task. -/
def kernelInitializeScheduler (s : Proc) : Proc :=
  { s with links := listHeadInit s.links queue, curr := 0, numActive := 0 }

def initLists (l : Links Addr) (process : Addr) : Links Addr :=
  listHeadInit (listHeadInit (listHeadInit l (runList process)) (children process))
    (sibling process)

def createInitProcess (s : Proc) (initProc stack : Addr) (handler main : UInt32) : Proc :=
  let m : ByteMem := fun x =>
    if initProc.toNat ≤ x ∧ x < initProc.toNat + taskSize then 0 else s.mem x
  let m : ByteMem := fun x =>
    if stack.toNat ≤ x ∧ x < stack.toNat + defaultStackSize then 0 else m x
  let ebp := stack + UInt32.ofNat defaultStackSize
  let esp := ebp - 4
  let m := writeWord m esp.toNat handler.toNat
  let m := setReg m initProc .useresp esp
  let m := setReg m initProc .ebp ebp
  let m := setReg m initProc .eip main
  let m := setReg m initProc .eflags (getReg m initProc .eflags ||| eflagIF)
  let task : Task :=
    { pid := s.nextPid
      state := .running
      parent := 0
      exitCode := 0
      errorNo := 0
      startStack := stack }
  enqueueTask queue
    { s with
      tasks := update s.tasks initProc task
      links := initLists s.links initProc
      mem := m
      nextPid := s.nextPid + 1 } initProc

def sysVfork (s : Proc) (r : Regs) (newProcess stack : Addr) : Except ProcHalt (UInt32 × Proc) :=
  if s.curr = 0 then .error (.panic "There is no current process!")
  else
    let current := s.tasks s.curr
    let m := memcpy s.mem newProcess.toNat s.curr.toNat taskSize
    let m := memcpy m stack.toNat current.startStack.toNat defaultStackSize
    let m := setReg m newProcess .useresp (stack + (r .useresp - current.startStack))
    let m := setReg m newProcess .ebp (stack + UInt32.ofNat defaultStackSize)
    let m := setReg m newProcess .eip (r .eip)
    let m := setReg m newProcess .eax 0
    let m := setReg m newProcess .ebx (r .ebx)
    let m := setReg m newProcess .ecx (r .ecx)
    let m := setReg m newProcess .edx (r .edx)
    let m := setReg m newProcess .eflags (getReg m newProcess .eflags ||| eflagIF)
    let task : Task :=
      { current with
        pid := s.nextPid
        state := .running
        parent := s.curr
        startStack := stack }
    let links := initLists s.links newProcess
    let links := listHeadAddTail links (children s.curr) (sibling newProcess)
    .ok (s.nextPid, enqueueTask queue
      { s with
        tasks := update s.tasks newProcess task
        links
        mem := m
        nextPid := s.nextPid + 1 } newProcess)

def moveChildren (head initProc : Addr) :
    Nat → Addr → (Addr → Task) × Links Addr → Option ((Addr → Task) × Links Addr)
  | 0, _, _ => none
  | fuel + 1, it, (tasks, links) =>
    if it = head then some (tasks, links)
    else
      let entry := siblingEntry it
      let back := links.prev (sibling entry)
      let links := listHeadDel links (sibling entry)
      let links := listHeadAddTail links (children initProc) (sibling entry)
      let tasks := update tasks entry { tasks entry with parent := initProc }
      moveChildren head initProc fuel (links.next back) (tasks, links)

def reparent (fuel : Nat) (s : Proc) (initProc : Addr) : Except ProcHalt Proc :=
  if s.links.next (children s.curr) = children s.curr then .ok s
  else
    match moveChildren (children s.curr) initProc fuel (s.links.next (children s.curr))
        (s.tasks, s.links) with
    | none => .error .endless
    | some (tasks, links) =>
      match listForEach links (children initProc) fuel with
      | none => .error .endless
      | some _ => .ok { s with tasks, links }

def sysExit (fuel : Nat) (s : Proc) (exitCode : UInt32) : Except ProcHalt Proc :=
  if s.curr = 0 then .error (.panic "There is no current process!")
  else
    (kernelGetRunningProcess queue fuel s 1).bind fun initProc =>
      if initProc = some s.curr then .error (.panic "Init process cannot call sys_exit!")
      else
        let task := { s.tasks s.curr with
          exitCode := (exitCode <<< 8) &&& 0xFF00
          state := .zombie }
        reparent fuel { s with tasks := update s.tasks s.curr task } (initProc.getD 0)

end Scheduler

def esrch : UInt32 := 3

def echild : UInt32 := 10

def efault : UInt32 := 14

def einval : UInt32 := 22

def wnohang : UInt32 := 1

def exitZombie : Nat := 0x20

/-- The value of a word as an `int`. -/
def signed (w : UInt32) : Int := w.toBitVec.toInt

def failWith (s : Proc) (errno : UInt32) : UInt32 × Proc × Option Addr :=
  (0 - 1, { s with
    tasks := update s.tasks s.curr { s.tasks s.curr with errorNo := errno } }, none)

def reapable (s : Proc) (pid : UInt32) (it : Addr) : Bool :=
  let entry := siblingEntry it
  entry != 0 && (s.tasks entry).state == .zombie &&
    !(decide (signed pid > 1) && (s.tasks entry).pid != pid)

def sysWaitpid (fuel : Nat) (s : Proc) (pid : UInt32) (status : Addr) (options : UInt32) :
    Except ProcHalt (UInt32 × Proc × Option Addr) :=
  if s.curr = 0 then .error (.panic "There is no current process!")
  else if signed pid < -1 ∨ pid = 0 then .ok (failWith s esrch)
  else if pid = (s.tasks s.curr).pid then .ok (failWith s echild)
  else if options ≠ 0 ∧ options ≠ wnohang then .ok (failWith s einval)
  else if status = 0 then .ok (failWith s efault)
  else
    match forEachFind s.links (children s.curr) (reapable s pid) fuel
        (s.links.next (children s.curr)) with
    | none => .error .endless
    | some none => .ok (0, s, none)
    | some (some it) =>
      .ok ((s.tasks (siblingEntry it)).pid,
        { s with
          mem := writeWord s.mem status.toNat exitZombie
          links := listHeadDel s.links (sibling (siblingEntry it)) },
        some (siblingEntry it))

def pushWord (m : ByteMem) (sp item : Nat) : ByteMem :=
  let esp := (readWord m sp + 2 ^ 32 - 4) % 2 ^ 32
  writeWord (writeWord m sp esp) esp item

def pushByte (m : ByteMem) (sp : Nat) (item : UInt8) : ByteMem :=
  let esp := (readWord m sp + 2 ^ 32 - 1) % 2 ^ 32
  update (writeWord m sp esp) esp item

def strlen (m : ByteMem) (text : Nat) : Nat → Nat → Option Nat
  | 0, _ => none
  | fuel + 1, n => if m (text + n) = 0 then some n else strlen m text fuel (n + 1)

def countArgs (m : ByteMem) (args : Nat) : Nat → Nat → Option Nat
  | 0, _ => none
  | fuel + 1, argc =>
    if readWord m (args + 4 * argc) = 0 then some argc else countArgs m args fuel (argc + 1)

def pushBytes (sp args i : Nat) (m : ByteMem) : Nat → ByteMem
  | 0 => pushByte m sp (m (readWord m (args + 4 * i)))
  | j + 1 => pushBytes sp args i (pushByte m sp (m (readWord m (args + 4 * i) + (j + 1)))) j

def pushStrings (fuel sp args : Nat) : Nat → ByteMem × List Nat → Option (ByteMem × List Nat)
  | 0, done => some done
  | i + 1, (m, ptrs) =>
    (strlen m (readWord m (args + 4 * i)) fuel 0).bind fun length =>
      let m := pushBytes sp args i m length
      pushStrings fuel sp args i (m, readWord m sp :: ptrs)

def pushArgsOnStack (fuel : Nat) (m : ByteMem) (sp args : Nat) : Option (ByteMem × Nat × Nat) :=
  (countArgs m args fuel 0).bind fun argc =>
    (pushStrings fuel sp args argc (pushWord m sp 0, [])).map fun (m, ptrs) =>
      let m := ptrs.reverse.foldl (pushWord · sp ·) (pushWord m sp 0)
      (m, argc, readWord m sp)

def nameOffset : Nat := 648

def taskNameMaxLength : Nat := 100

def strcpy (m : ByteMem) (dst src length : Nat) : ByteMem := memcpy m dst src (length + 1)

def setProgram (s : Proc) (r : Regs) (length : Nat) : ByteMem :=
  let m := strcpy s.mem (s.curr.toNat + nameOffset) (readWord s.mem (r .ecx).toNat) length
  let m := setReg m s.curr .useresp (getReg m s.curr .ebp)
  setReg m s.curr .eip (r .ebx)

def sysExecve (fuel : Nat) (s : Proc) (r : Regs) (handler : UInt32) :
    Except ProcHalt (UInt32 × Proc × Regs) :=
  if s.curr = 0 then .error (.panic "There is no current process!")
  else
    let filename := r .ebx
    let argv := (r .ecx).toNat
    let envp := (r .edx).toNat
    if filename = 0 then .ok (0 - 1, s, r)
    else if argv = 0 ∨ readWord s.mem argv = 0 then .ok (0 - 1, s, r)
    else if envp = 0 then
      .error (.panic "You must provide at least an empty list for envp!")
    else
      let sp := threadWord s.curr .useresp
      let result := (strlen s.mem (readWord s.mem argv) fuel 0).bind fun length =>
        (pushArgsOnStack fuel (setProgram s r length) sp argv).bind fun (m, argc, argvCopy) =>
          (pushArgsOnStack fuel m sp envp).map fun (m, _, envpCopy) =>
            pushWord (pushWord (pushWord (pushWord m sp envpCopy) sp argvCopy) sp argc) sp
              handler.toNat
      match result with
      | none => .error .endless
      | some m =>
        let (s, r) := doSwitch { s with mem := m } s.curr r
        .ok (0, s, r)

end Elaborato.Mentos.Process
