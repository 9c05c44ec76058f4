import Elaborato.Mentos.Process

/-!
Runs of traps of the current task, each with its handler and `kernel_schedule`; what was
created, has exited and was freed is recorded beside the state.
-/
namespace Elaborato.Mentos.Process
open Foundation Function

inductive Call
  | tick
  | vfork (newProcess stack : Addr)
  | exit (exitCode : UInt32)
  | waitpid (pid : UInt32) (status : Addr) (options : UInt32)
  | execve (handler : UInt32)

structure Event where
  mem : ByteMem
  frame : Regs
  call : Call

structure ProcRun where
  proc : Proc
  frame : Regs
  alive : List Addr
  zombies : List Addr
  held : Addr → Option Regs

def ProcRun.structs (s : ProcRun) : List Addr := s.alive ++ s.zombies

/-- The bytes of a task structure. -/
def InTask (task : Addr) (x : Nat) : Prop := task.toNat ≤ x ∧ x < task.toNat + taskSize

def Placed (queue task : Addr) : Prop :=
  0 < task.toNat ∧ task.toNat + taskSize ≤ 2 ^ 32 ∧
    (queue.toNat + 8 ≤ task.toNat ∨ task.toNat + taskSize ≤ queue.toNat)

def Apart (t u : Addr) : Prop :=
  t.toNat + taskSize ≤ u.toNat ∨ u.toNat + taskSize ≤ t.toNat

def Clear (s : ProcRun) (first n : Nat) : Prop :=
  ∀ t ∈ s.structs, ∀ x, first ≤ x → x < first + n → ¬ InTask t x

def stringsSize (fuel sp args : Nat) : Nat → ByteMem → Nat
  | 0, _ => 0
  | i + 1, m =>
    match strlen m (readWord m (args + 4 * i)) fuel 0 with
    | none => 0
    | some length => length + 1 + stringsSize fuel sp args i (pushBytes sp args i m length)

def argsSize (fuel : Nat) (m : ByteMem) (sp args : Nat) : Nat :=
  match countArgs m args fuel 0 with
  | none => 0
  | some argc => 4 + stringsSize fuel sp args argc (pushWord m sp 0) + (4 + 4 * argc)

def execveSize (fuel : Nat) (s : Proc) (r : Regs) : Nat :=
  let sp := threadWord s.curr .useresp
  match strlen s.mem (readWord s.mem (r .ecx).toNat) fuel 0 with
  | none => 0
  | some length =>
    match pushArgsOnStack fuel (setProgram s r length) sp (r .ecx).toNat with
    | none => 0
    | some (m, _, _) =>
      argsSize fuel (setProgram s r length) sp (r .ecx).toNat +
        argsSize fuel m sp (r .edx).toNat + 16

def ExecveFits (s : ProcRun) (fuel : Nat) (mem : ByteMem) (r : Regs) : Prop :=
  let size := execveSize fuel { s.proc with mem } r
  let top := (getReg mem s.proc.curr .ebp).toNat
  r .ebx ≠ 0 → ¬ ((r .ecx).toNat = 0 ∨ readWord mem (r .ecx).toNat = 0) →
    (∀ length, strlen mem (readWord mem (r .ecx).toNat) fuel 0 = some length →
      length < taskNameMaxLength) ∧ size ≤ top ∧ Clear s (top - size) size

def ProcRun.returned (s : ProcRun) (proc : Proc) (frame : Regs) (ret : UInt32) : ProcRun :=
  { s with proc, frame := update frame .eax ret }

def Handled (queue : Addr) (s : ProcRun) (e : Event) (s' : ProcRun) : Prop :=
  let proc := { s.proc with mem := e.mem }
  (∀ t ∈ s.structs, ∀ x, InTask t x → e.mem x = s.proc.mem x) ∧
  match e.call with
  | .tick => s' = { s with proc, frame := e.frame }
  | .vfork newProcess stack =>
    Placed queue newProcess ∧ (∀ t ∈ s.structs, Apart newProcess t) ∧
      Clear s stack.toNat defaultStackSize ∧
      ∃ pid p, sysVfork queue proc e.frame newProcess stack = .ok (pid, p) ∧
        s' = { s.returned p e.frame pid with
          alive := s.alive ++ [newProcess]
          held := update s.held newProcess none }
  | .exit exitCode =>
    ∃ fuel p ret, sysExit queue fuel proc exitCode = .ok p ∧
      s' = { s.returned p e.frame ret with
        alive := s.alive.erase s.proc.curr
        zombies := s.zombies ++ [s.proc.curr] }
  | .waitpid pid status options =>
    Clear s status.toNat 4 ∧ ∃ fuel ret p freed,
      sysWaitpid fuel proc pid status options = .ok (ret, p, freed) ∧
        s' = { s.returned p e.frame ret with
          zombies := freed.elim s.zombies fun t => s.zombies.erase t }
  | .execve handler =>
    ∃ fuel ret p f, sysExecve fuel proc e.frame handler = .ok (ret, p, f) ∧
      ExecveFits s fuel e.mem e.frame ∧ s' = s.returned p f ret

def Scheduled (queue : Addr) (s s' : ProcRun) : Prop :=
  ∃ p f, kernelSchedule queue s.proc s.frame = .ok (p, f) ∧
    s' = { s with
      proc := p
      frame := f
      held := update s.held s.proc.curr (some s.frame) }

def ProcStep (queue : Addr) (s : ProcRun) (e : Event) (s' : ProcRun) : Prop :=
  ∃ entry, Handled queue s e entry ∧ Scheduled queue entry s'

structure Booted (queue : Addr) (s : ProcRun) : Prop where
  placed : ∀ t ∈ s.alive, Placed queue t
  room : queue.toNat + 8 ≤ 2 ^ 32
  created : ∃ boot initProc stack handler main, boot.nextPid = 1 ∧
    s.proc = createInitProcess queue (kernelInitializeScheduler queue boot) initProc stack
      handler main ∧ s.alive = [initProc]
  zombies : s.zombies = []
  held : s.held = fun _ => none

end Elaborato.Mentos.Process
