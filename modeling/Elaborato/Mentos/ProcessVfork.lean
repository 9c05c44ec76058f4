import Elaborato.Mentos.ProcessContexts

/-!
The registers of a new task: eight come from the trap frame, the others from the last switch.
-/
namespace Elaborato.Mentos.Process
open Foundation List Function

def vforkContext (saved r : Regs) (stack startStack : Addr) : Regs :=
  let f := update saved .useresp (stack + (r .useresp - startStack))
  let f := update f .ebp (stack + UInt32.ofNat defaultStackSize)
  let f := update f .eip (r .eip)
  let f := update f .eax 0
  let f := update f .ebx (r .ebx)
  let f := update f .ecx (r .ecx)
  let f := update f .edx (r .edx)
  update f .eflags (f .eflags ||| eflagIF)

def StackApart (n stack : Addr) : Prop :=
  stack.toNat + defaultStackSize ≤ n.toNat ∨ n.toNat + taskSize ≤ stack.toNat

variable {queue initProc n stack : Addr} {child : Addr → Option Addr}
  {s s' entry start : ProcRun} {e : Event} {f : Regs} {trace : List (ProcRun × Event)}

theorem getReg_memcpy (m : ByteMem) (t u : Addr) :
    getReg (memcpy m t.toNat u.toNat taskSize) t = getReg m u := by
  funext r
  have fits := r.offset_lt
  have bytes : ∀ k < taskSize,
      memcpy m t.toNat u.toNat taskSize (t.toNat + k) = m (u.toNat + k) := by
    intro k hk
    rw [memcpy, if_pos (by omega), Nat.add_sub_cancel_left]
  have word : ∀ i < 4, memcpy m t.toNat u.toNat taskSize (threadWord t r + i) =
      m (threadWord u r + i) := by
    intro i hi
    have := bytes (48 + r.offset + i) (by simp only [taskSize]; omega)
    simpa only [threadWord, Nat.add_assoc] using this
  have first := word 0 (by decide)
  simp only [Nat.add_zero] at first
  simp only [getReg, readWord, first, word 1 (by decide), word 2 (by decide), word 3 (by decide)]

theorem sysVfork_getReg {q p : Proc} {r : Regs} {pid : UInt32} (apart : StackApart n stack)
    (done : sysVfork queue q r n stack = .ok (pid, p)) :
    getReg p.mem n = vforkContext (getReg q.mem q.curr) r stack (q.tasks q.curr).startStack := by
  by_cases notNull : q.curr = 0
  · simp [sysVfork, notNull] at done
  simp only [sysVfork, if_neg notNull, Except.ok.injEq, Prod.mk.injEq] at done
  obtain ⟨-, rfl⟩ := done
  have copied : getReg (memcpy (memcpy q.mem n.toNat q.curr.toNat taskSize) stack.toNat
      (q.tasks q.curr).startStack.toNat defaultStackSize) n = getReg q.mem q.curr := by
    rw [← getReg_memcpy q.mem n q.curr]
    funext r
    refine getReg_congr fun x inside => memcpy_outside ?_
    simp only [StackApart, InTask] at apart inside ⊢
    omega
  simp only [enqueueTask, getReg_setReg, copied, vforkContext]

theorem Linked.handled_alive {t : Addr} (linked : Linked queue initProc s.alive child s)
    (handled : Handled queue s e entry) (ht : t ∈ s.alive) (other : t ≠ s.proc.curr) :
    t ∈ entry.alive := by
  obtain ⟨mem, frame, call⟩ := e
  obtain ⟨-, outcome⟩ := linked.handled handled
  cases outcome with
  | kept _ _ alive => exact alive ▸ ht
  | forked _ _ _ alive => exact alive ▸ mem_append_left _ ht
  | exited _ _ alive => exact alive ▸ (mem_erase_of_ne other).mpr ht
  | reaped _ _ _ alive => exact alive ▸ ht

structure Waiting (n : Addr) (f : Regs) (s : ProcRun) : Prop where
  alive : n ∈ s.alive
  saved : getReg s.proc.mem n = f
  loaded : s.proc.curr = n → s.frame = f

theorem waiting_scheduled {order : List Addr} (linked : Linked queue initProc order child entry)
    (sched : Scheduled queue entry s') (alive : n ∈ entry.alive) (other : n ≠ entry.proc.curr)
    (saved : getReg entry.proc.mem n = f) : Waiting n f s' := by
  obtain ⟨kept, loaded⟩ := linked.scheduled_getReg sched alive other
  exact ⟨(linked.switched sched).alive ▸ alive, kept.trans saved,
    fun switched => (loaded switched).trans saved⟩

theorem waiting_step (settled : Settled queue s) (waiting : Waiting n f s)
    (out : s.proc.curr ≠ n) (step : ProcStep queue s e s') : Waiting n f s' := by
  obtain ⟨initProc, child, linked⟩ := settled
  obtain ⟨entry, handled, sched⟩ := step
  obtain ⟨curr, outcome⟩ := linked.handled handled
  obtain ⟨child', linked'⟩ := outcome.linked
  have other : n ≠ s.proc.curr := Ne.symm out
  refine waiting_scheduled linked' sched (linked.handled_alive handled waiting.alive other)
    (by rwa [curr]) ?_
  rw [linked.handled_getReg handled waiting.alive other, waiting.saved]

theorem waiting_run (settled : Settled queue s) (waiting : Waiting n f s)
    (run : Exec (ProcStep queue) s trace s') (out : ∀ e ∈ trace, e.1.proc.curr ≠ n) :
    Waiting n f s' := by
  have preserved : ∀ s e s', Settled queue s ∧ Waiting n f s → ProcStep queue s e s' →
      (fun (s : ProcRun) (_ : Event) => s.proc.curr ≠ n) s e → Settled queue s' ∧ Waiting n f s' :=
    fun s e s' inv step out =>
      ⟨(settled_step inv.1 step).1, waiting_step inv.1 inv.2 out step⟩
  exact (exec_invariant ⟨settled, waiting⟩ preserved run out).2.2

theorem vfork_first_frame (settled : Settled queue s) (call : e.call = .vfork n stack)
    (apart : StackApart n stack) (step : ProcStep queue s e start)
    (run : Exec (ProcStep queue) start trace s') (out : ∀ e ∈ trace, e.1.proc.curr ≠ n)
    (switched : s'.proc.curr = n) : s'.frame = vforkContext (getReg s.proc.mem s.proc.curr)
      e.frame stack (s.proc.tasks s.proc.curr).startStack := by
  have settled' := (settled_step settled step).1
  obtain ⟨initProc, child, linked⟩ := settled
  obtain ⟨entry, handled, sched⟩ := step
  obtain ⟨mem, frame, _⟩ := e
  obtain rfl := call
  obtain ⟨curr, outcome⟩ := linked.handled handled
  obtain ⟨child', linked'⟩ := outcome.linked
  obtain ⟨user, placed, fresh, clear, pid, p, done, same⟩ := handled
  have hcurr := linked.lists.among linked.curr
  have parent : getReg mem s.proc.curr = getReg s.proc.mem s.proc.curr :=
    funext fun r => getReg_congr (user _ hcurr)
  have proc : entry.proc = p := same ▸ rfl
  have saved : getReg p.mem n = vforkContext (getReg mem s.proc.curr) frame stack
      (s.proc.tasks s.proc.curr).startStack :=
    sysVfork_getReg (q := { s.proc with mem }) apart done
  rw [← proc, parent] at saved
  have alive : entry.alive = s.alive ++ [n] := same ▸ rfl
  have other : n ≠ s.proc.curr := by
    rintro rfl
    have := fresh _ hcurr
    simp only [Apart, taskSize] at this
    omega
  have waiting : Waiting n _ start := waiting_scheduled linked' sched (by simp [alive])
    (by rwa [curr]) saved
  exact (waiting_run settled' waiting run out).loaded switched

def liveRegs : List Reg := [.eip, .ebx, .ecx, .edx]

def savedRegs : List Reg := [.esi, .edi, .ds, .es, .fs, .gs]

structure Duplicated (r child : Regs) (stack startStack : Addr) : Prop where
  eax : child .eax = 0
  useresp : child .useresp = stack + (r .useresp - startStack)
  same : ∀ x ∈ liveRegs ++ savedRegs, child x = r x

attribute [local simp] vforkContext

theorem duplicated_iff (saved r : Regs) (stack startStack : Addr) :
    Duplicated r (vforkContext saved r stack startStack) stack startStack ↔
      ∀ x ∈ savedRegs, saved x = r x := by
  have kept : ∀ x ∈ savedRegs, vforkContext saved r stack startStack x = saved x := by
    simp [savedRegs]
  have set : ∀ x ∈ liveRegs, vforkContext saved r stack startStack x = r x := by
    simp [liveRegs]
  constructor
  · intro same x hx
    rw [← kept x hx]
    exact same.same x (mem_append_right _ hx)
  · intro same
    refine ⟨by simp, by simp, fun x hx => ?_⟩
    rcases mem_append.mp hx with live | old
    · exact set x live
    · rw [kept x old, same x old]

/-- Exactly when `esi`, `edi` and the segment registers are those saved at the last switch. -/
theorem vfork_duplicated_iff {queue n stack : Addr} {boot s forked s' : ProcRun} {e : Event}
    {before after : List (ProcRun × Event)} (booted : Booted queue boot)
    (run : Exec (ProcStep queue) boot before s) (call : e.call = .vfork n stack)
    (apart : StackApart n stack) (step : ProcStep queue s e forked)
    (later : Exec (ProcStep queue) forked after s') (out : ∀ e ∈ after, e.1.proc.curr ≠ n)
    (switched : s'.proc.curr = n) :
    Duplicated e.frame s'.frame stack (s.proc.tasks s.proc.curr).startStack ↔
      ∀ x ∈ savedRegs, getReg s.proc.mem s.proc.curr x = e.frame x := by
  rw [vfork_first_frame (settled_run booted run) call apart step later out switched]
  exact duplicated_iff ..

theorem bootRun_stackApart : StackApart 0x20000 0x2000000 := by
  unfold StackApart
  decide

theorem vfork_lost_register : ∃ s, ProcStep 0x1000 (bootRun 0x1000 0x10000 0x1000000)
      ⟨(bootRun 0x1000 0x10000 0x1000000).proc.mem, fun _ => 1, .vfork 0x20000 0x2000000⟩ s ∧
    s.proc.curr = 0x20000 ∧ s.frame .esi = 0 ∧
    ¬ Duplicated (fun _ => 1) s.frame 0x2000000
      ((bootRun 0x1000 0x10000 0x1000000).proc.tasks 0x10000).startStack := by
  obtain ⟨s, step, -, -, -, curr, -⟩ := bootRun_vfork fun _ => 1
  have frame := vfork_first_frame (settled_boot bootRun_booted) rfl bootRun_stackApart step .refl
    (by simp) curr
  have esi : s.frame .esi = 0 := by
    rw [frame]
    decide +kernel
  refine ⟨s, step, curr, esi, fun same => ?_⟩
  have := same.same .esi (by decide)
  rw [esi] at this
  exact absurd this (by decide)

theorem vfork_duplicated_bootRun : ∃ s, ProcStep 0x1000 (bootRun 0x1000 0x10000 0x1000000)
      ⟨(bootRun 0x1000 0x10000 0x1000000).proc.mem, fun _ => 0, .vfork 0x20000 0x2000000⟩ s ∧
    s.proc.curr = 0x20000 ∧
    Duplicated (fun _ => 0) s.frame 0x2000000
      ((bootRun 0x1000 0x10000 0x1000000).proc.tasks 0x10000).startStack := by
  obtain ⟨s, step, -, -, -, curr, -⟩ := bootRun_vfork fun _ => 0
  have same := vfork_duplicated_iff bootRun_booted .refl rfl bootRun_stackApart step .refl
    (by simp) curr
  exact ⟨s, step, curr, same.mpr (by decide +kernel)⟩

end Elaborato.Mentos.Process
