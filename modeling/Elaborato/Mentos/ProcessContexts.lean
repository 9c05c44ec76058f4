import Elaborato.Mentos.ProcessMemory
import Elaborato.Mentos.ProcessTurns

/-!
The saved registers: each task finds again the registers it had.
-/
namespace Elaborato.Mentos.Process
open Foundation List Function

variable {m : ByteMem} {t : Addr} {x : Nat} {f : Regs} {r : Reg}

theorem storedRegs_mem (r : Reg) : r ∈ storedRegs := by
  cases r <;> decide

theorem restoredRegs_mem (r : Reg) : r ∈ restoredRegs := by
  cases r <;> decide

theorem storeRegs_outside (rs : List Reg) (out : ¬ InTask t x) :
    rs.foldl (fun m r => setReg m t r (f r)) m x = m x := by
  induction rs generalizing m with
  | nil => rfl
  | cons r rs ih =>
    rw [foldl_cons, ih, setReg_outside out]

theorem storeRegs_get (rs : List Reg) :
    getReg (rs.foldl (fun m r => setReg m t r (f r)) m) t =
      rs.foldl (fun g r => update g r (f r)) (getReg m t) := by
  induction rs generalizing m with
  | nil => rfl
  | cons r rs ih => rw [foldl_cons, ih, getReg_setReg, foldl_cons]

theorem copyRegs_get (f g : Regs) (rs : List Reg) :
    rs.foldl (fun g r => update g r (f r)) g r = if r ∈ rs then f r else g r := by
  induction rs generalizing g with
  | nil => rfl
  | cons r' rs ih =>
    rw [foldl_cons, ih, update_apply]
    by_cases later : r ∈ rs
    · rw [if_pos later, if_pos (mem_cons_of_mem _ later)]
    · rw [if_neg later]
      by_cases now : r = r'
      · rw [if_pos now, if_pos (now ▸ mem_cons_self), now]
      · rw [if_neg now, if_neg (by simp [now, later])]

theorem updateContext_get (m : ByteMem) (f : Regs) (t : Addr) :
    getReg (updateContext m f t) t = f := by
  funext r
  rw [updateContext, storeRegs_get, copyRegs_get, if_pos (storedRegs_mem r)]

theorem updateContext_other {u : Addr} (apart : Apart t u) :
    getReg (updateContext m f t) u = getReg m u :=
  funext fun _ => getReg_congr fun _ inside =>
    storeRegs_outside storedRegs (apart.not_inTask inside)

theorem doSwitch_frame (p : Proc) (h : Addr) (f : Regs) : (doSwitch p h f).2 = getReg p.mem h := by
  funext r
  exact (copyRegs_get (getReg p.mem h) f restoredRegs).trans (if_pos (restoredRegs_mem r))

variable {queue initProc : Addr} {child : Addr → Option Addr} {s s' entry start : ProcRun}
  {e : Event} {trace : List (ProcRun × Event)}

def ContextsSaved (s : ProcRun) : Prop :=
  ∀ t ∈ s.alive, t ≠ s.proc.curr → ∀ f, s.held t = some f → getReg s.proc.mem t = f

theorem handled_held (handled : Handled queue s e entry) (ht : t ∈ entry.alive)
    (held : entry.held t = some f) : t ∈ s.alive ∧ s.held t = some f := by
  obtain ⟨mem, frame, call⟩ := e
  obtain ⟨-, handled⟩ := handled
  cases call with
  | tick =>
    obtain rfl := handled
    exact ⟨ht, held⟩
  | vfork n stack =>
    obtain ⟨-, -, -, pid, p, -, rfl⟩ := handled
    have other : t ≠ n := by
      rintro rfl
      have none : update s.held t none t = some f := held
      rw [update_self] at none
      cases none
    have was : update s.held n none t = some f := held
    rw [update_of_ne other] at was
    refine ⟨?_, was⟩
    exact (mem_append.mp ht).resolve_right fun h => other (mem_singleton.mp h)
  | exit code =>
    obtain ⟨fuel, p, ret, -, rfl⟩ := handled
    exact ⟨mem_of_mem_erase ht, held⟩
  | waitpid pid status options =>
    obtain ⟨-, fuel, ret, p, freed, -, rfl⟩ := handled
    exact ⟨ht, held⟩
  | execve handler =>
    obtain ⟨fuel, ret, p, f, -, -, rfl⟩ := handled
    exact ⟨ht, held⟩

section
variable (linked : Linked queue initProc s.alive child s)
include linked

theorem Linked.handled_getReg (handled : Handled queue s e entry) (ht : t ∈ s.alive)
    (other : t ≠ s.proc.curr) : getReg entry.proc.mem t = getReg s.proc.mem t := by
  funext r
  exact getReg_congr fun x inside => handled_outside linked.lists.arena
    (linked.lists.among linked.curr) handled (mem_append_left _ ht) other inside

theorem contextsSaved_handled (saved : ContextsSaved s) (handled : Handled queue s e entry) :
    ContextsSaved entry := by
  intro t ht other f held
  obtain ⟨curr, -⟩ := linked.handled handled
  obtain ⟨alive, was⟩ := handled_held handled ht held
  have notCurr : t ≠ s.proc.curr := curr ▸ other
  rw [linked.handled_getReg handled alive notCurr, saved t alive notCurr f was]

omit linked in
theorem Linked.scheduled_getReg {order : List Addr}
    (linked : Linked queue initProc order child entry) (sched : Scheduled queue entry s')
    (ht : t ∈ entry.alive) (other : t ≠ entry.proc.curr) :
    getReg s'.proc.mem t = getReg entry.proc.mem t ∧
      (s'.proc.curr = t → s'.frame = getReg entry.proc.mem t) := by
  have lists := linked.lists
  have apart : Apart entry.proc.curr t := (lists.arena.apart _ (lists.among linked.curr) _
    (mem_append_left _ ht)).resolve_left (Ne.symm other)
  obtain ⟨h, rest, -, rfl⟩ := linked.scheduled_eq sched
  refine ⟨updateContext_other apart, fun same => ?_⟩
  obtain rfl : h = t := same
  show (if h = entry.proc.curr then entry.frame else _) = _
  rw [if_neg other, doSwitch_frame]
  exact updateContext_other apart

omit linked in
theorem contextsSaved_schedule {order : List Addr}
    (linked : Linked queue initProc order child entry) (saved : ContextsSaved entry)
    (sched : Scheduled queue entry s') (next : s'.proc.curr ∈ entry.alive) :
    ContextsSaved s' ∧ (s'.proc.curr ≠ entry.proc.curr →
      ∀ f, entry.held s'.proc.curr = some f → s'.frame = f) := by
  constructor
  · intro t ht _ f held
    have alive : t ∈ entry.alive := (linked.switched sched).alive ▸ ht
    by_cases same : t = entry.proc.curr
    · obtain ⟨h, rest, -, rfl⟩ := linked.scheduled_eq sched
      have held' : update entry.held entry.proc.curr (some entry.frame) t = some f := held
      rw [same, update_self] at held'
      rw [same]
      exact (updateContext_get ..).trans (Option.some.inj held')
    · rw [(linked.scheduled_getReg sched alive same).1]
      obtain ⟨p, g, -, rfl⟩ := sched
      have held' : update entry.held entry.proc.curr (some entry.frame) t = some f := held
      rw [update_of_ne same] at held'
      exact saved t alive same f held'
  · intro other f held
    exact ((linked.scheduled_getReg sched next other).2 rfl).trans (saved _ next other f held)

theorem contextsSaved_step (saved : ContextsSaved s) (handled : Handled queue s e entry)
    (sched : Scheduled queue entry s') : ContextsSaved s' ∧
      (s'.proc.curr ≠ entry.proc.curr → ∀ f, entry.held s'.proc.curr = some f → s'.frame = f) := by
  obtain ⟨child', linked'⟩ := (linked.handled handled).2.linked
  obtain ⟨child'', linked''⟩ := (linked.step ⟨entry, handled, sched⟩).1.linked
  refine contextsSaved_schedule linked' (contextsSaved_handled linked saved handled) sched ?_
  exact (linked'.switched sched).alive ▸ linked''.curr

end

def Restorable (queue : Addr) (s : ProcRun) : Prop := Settled queue s ∧ ContextsSaved s

theorem restorable_boot (boot : Booted queue start) : Restorable queue start := by
  refine ⟨settled_boot boot, fun t ht other f held => ?_⟩
  rw [boot.held] at held
  cases held

theorem restorable_step (restorable : Restorable queue s) (step : ProcStep queue s e s') :
    Restorable queue s' := by
  obtain ⟨settled, saved⟩ := restorable
  refine ⟨(settled_step settled step).1, ?_⟩
  obtain ⟨initProc, child, linked⟩ := settled
  obtain ⟨entry, handled, sched⟩ := step
  exact (contextsSaved_step linked saved handled sched).1

/-- The registers loaded are those of the last entry to `kernel_schedule` as current task. -/
theorem context_restored (boot : Booted queue start) (run : Exec (ProcStep queue) start trace s)
    (handled : Handled queue s e entry) (sched : Scheduled queue entry s')
    (switched : s'.proc.curr ≠ entry.proc.curr) (out : entry.held s'.proc.curr = some f) :
    s'.frame = f := by
  have kept := exec_keeps (restorable_boot boot)
    (fun _ _ _ restorable step => restorable_step restorable step) run
  obtain ⟨⟨initProc, child, linked⟩, saved⟩ := kept.2
  exact (contextsSaved_step linked saved handled sched).2 switched f out

theorem context_restored_init : ∃ e first s entry s',
    Handled 0x1000 (bootRun 0x1000 0x10000 0x1000000) e first ∧
    Scheduled 0x1000 first s ∧ s.proc.curr = 0x20000 ∧ Handled 0x1000 s (tickOf s) entry ∧
    Scheduled 0x1000 entry s' ∧ s'.proc.curr = 0x10000 ∧ s'.frame = first.frame := by
  obtain ⟨e, s, step, linked, alive, -, curr, -⟩ := bootRun_forks
  obtain ⟨first, handled, sched⟩ := id step
  obtain ⟨s', step', linked', after⟩ := linked.ticks
  obtain ⟨entry, handled', sched'⟩ := id step'
  have next : upcoming [(0x10000 : Addr), 0x20000] 0x20000 = [0x10000, 0x20000] := by decide
  have curr' : s'.proc.curr = 0x10000 := after.curr_eq (by rw [alive, curr, next])
  have entryCurr : entry.proc.curr = 0x20000 := (linked.handled handled').1.trans curr
  have firstCurr : first.proc.curr = 0x10000 := (linked_bootRun.handled handled).1
  have held : s.held 0x10000 = some first.frame := by
    obtain ⟨p, f, -, rfl⟩ := sched
    show update first.held first.proc.curr (some first.frame) 0x10000 = _
    rw [firstCurr, update_self]
  have out : entry.held s'.proc.curr = some first.frame := by
    obtain ⟨-, rfl⟩ := handled'
    rw [curr']
    exact held
  have switched : s'.proc.curr ≠ entry.proc.curr := by
    rw [curr', entryCurr]
    decide
  exact ⟨e, first, s, entry, s', handled, sched, curr, handled', sched', curr',
    context_restored bootRun_booted (Exec.refl.next step) handled' sched' switched out⟩

end Elaborato.Mentos.Process
