import Elaborato.Mentos.ProcessCalls

/-!
The traps: each keeps the lists, with one of four outcomes, and picks the next task.
-/
namespace Elaborato.Mentos.Process
open Foundation List Function

def Call.Quiet : Call → Prop
  | .vfork _ _ | .exit _ => False
  | .tick | .waitpid _ _ _ | .execve _ => True

variable {queue initProc t : Addr} {child : Addr → Option Addr} {s s' entry start : ProcRun}
  {e : Event}

theorem linked_boot (boot : Booted queue start) :
    ∃ initProc, Linked queue initProc start.alive (fun _ => none) start := by
  obtain ⟨placed, room, ⟨boot, initProc, stack, handler, main, pid, proc, alive⟩, zombies, -⟩ :=
    boot
  have empty : Lists queue (listHeadInit boot.links queue) start.proc.parent [] []
      (fun _ => none) :=
    ⟨⟨room, nofun, nofun⟩, nodup_nil, nil_subset _, ring_init _ _, nofun, nofun⟩
  have hn : initProc ∈ start.alive := by simp [alive]
  have more : ∀ t, t ∈ start.structs ↔ t = initProc ∨ t ∈ [] := by
    simp [ProcRun.structs, alive, zombies]
  have queued := (empty.create (placed _ hn) nofun more).enqueue (mem_append_left _ hn)
    not_mem_nil
  have task : (start.proc.tasks initProc).pid = 1 ∧
      (start.proc.tasks initProc).state = .running := by
    rw [proc]
    simp [createInitProcess, enqueueTask, kernelInitializeScheduler, pid]
  refine ⟨initProc, ?_, ?_, ?_, ⟨[], alive⟩, ⟨hn, task.1⟩, ?_, ?_, ?_, ?_⟩
  · rw [update_eq_self_iff.mpr rfl] at queued
    have links : start.proc.links = listHeadAddTail
        (initLists (listHeadInit boot.links queue) initProc) (runList initProc) queue := by
      rw [proc]
      rfl
    rw [links, alive]
    exact queued
  · simp [ProcRun.structs, alive, zombies]
  · rw [proc, alive]
    rfl
  · rw [proc, alive]
    exact mem_singleton.mpr rfl
  · intro t ht
    rw [alive] at ht
    rw [mem_singleton.mp ht]
    exact task.2
  · simp [zombies]
  · simp [zombies]

inductive Outcome (queue initProc : Addr) (child : Addr → Option Addr) (s s' : ProcRun)
    (order : List Addr) : Call → Prop
  | kept {call : Call} (quiet : call.Quiet) (linked : Linked queue initProc order child s')
      (alive : s'.alive = s.alive) (zombies : s'.zombies = s.zombies)
      (parents : s'.proc.parent = s.proc.parent) : Outcome queue initProc child s s' order call
  | forked {n stack : Addr} (placed : Placed queue n) (fresh : ∀ t ∈ s.structs, Apart n t)
      (linked : Linked queue initProc order (childForked child s.proc.curr n) s')
      (alive : s'.alive = s.alive ++ [n]) (zombies : s'.zombies = s.zombies)
      (owned : s'.proc.parent n = s.proc.curr)
      (parents : ∀ t, t ≠ n → s'.proc.parent t = s.proc.parent t) :
      Outcome queue initProc child s s' order (.vfork n stack)
  | exited {code : UInt32} (notInit : s.proc.curr ≠ initProc)
      (linked : Linked queue initProc order (childExited child s.proc.curr initProc) s')
      (alive : s'.alive = s.alive.erase s.proc.curr)
      (zombies : s'.zombies = s.zombies ++ [s.proc.curr])
      (parents : ∀ t, s'.proc.parent t =
        if child s.proc.curr = some t then initProc else s.proc.parent t) :
      Outcome queue initProc child s s' order (.exit code)
  | reaped {pid options : UInt32} {status c : Addr} (hc : child s.proc.curr = some c)
      (exited : c ∈ s.zombies)
      (linked : Linked queue initProc order (update child s.proc.curr none) s')
      (alive : s'.alive = s.alive) (zombies : s'.zombies = s.zombies.erase c)
      (parents : s'.proc.parent = s.proc.parent) :
      Outcome queue initProc child s s' order (.waitpid pid status options)

theorem Outcome.linked {order : List Addr} {call : Call}
    (outcome : Outcome queue initProc child s s' order call) :
    ∃ child', Linked queue initProc order child' s' := by
  cases outcome with
  | kept _ linked | forked _ _ linked | exited _ linked | reaped _ _ linked => exact ⟨_, linked⟩

def Call.queued (s entry : ProcRun) : Call → List Addr
  | .exit _ => s.alive
  | .tick | .vfork _ _ | .waitpid _ _ _ | .execve _ => entry.alive

section
variable (linked : Linked queue initProc s.alive child s)
include linked

theorem Linked.handled (handled : Handled queue s e entry) : entry.proc.curr = s.proc.curr ∧
      Outcome queue initProc child s entry (e.call.queued s entry) e.call := by
  obtain ⟨mem, frame, call⟩ := e
  obtain ⟨-, handled⟩ := handled
  cases call with
  | tick =>
    obtain rfl := handled
    exact ⟨rfl, .kept trivial (linked.transfer rfl rfl rfl rfl rfl fun t => ⟨rfl, rfl, rfl⟩)
      rfl rfl rfl⟩
  | vfork n stack =>
    obtain ⟨placed, fresh, -, pid, p, done, same⟩ := handled
    have forked := sysVfork_forked done
    have proc : entry.proc = p := same ▸ rfl
    have alive : entry.alive = s.alive ++ [n] := same ▸ rfl
    have zombies : entry.zombies = s.zombies := same ▸ rfl
    have linked' := linked.vfork placed fresh forked proc alive zombies
    refine ⟨by rw [proc, forked.curr], .forked placed fresh linked' alive zombies ?_ ?_⟩
    · rw [proc]
      exact forked.parent
    · intro t ht
      rw [proc]
      exact congrArg Task.parent (forked.tasks t ht)
  | exit code =>
    obtain ⟨fuel, p, ret, done, same⟩ := handled
    have proc : entry.proc = p := same ▸ rfl
    have alive : entry.alive = s.alive.erase s.proc.curr := same ▸ rfl
    have zombies : entry.zombies = s.zombies ++ [s.proc.curr] := same ▸ rfl
    obtain ⟨notInit, curr, parents, linked'⟩ := linked.exit done proc alive zombies
    exact ⟨by rw [proc, curr], .exited notInit linked' alive zombies fun t => by
      rw [proc, parents t]⟩
  | waitpid pid status options =>
    obtain ⟨-, fuel, ret, p, freed, done, same⟩ := handled
    have proc : entry.proc = p := same ▸ rfl
    have alive : entry.alive = s.alive := same ▸ rfl
    have zombies : entry.zombies = freed.elim s.zombies fun t => s.zombies.erase t := same ▸ rfl
    obtain ⟨curr, cases⟩ := linked.waitpid done proc alive zombies
    refine ⟨by rw [proc, curr], ?_⟩
    rw [← alive] at cases
    rcases cases with ⟨rfl, parents, linked'⟩ | ⟨c, hc, rfl, exited, parents, linked'⟩
    · exact .kept trivial linked' alive zombies (by rw [proc, parents])
    · exact .reaped hc exited linked' alive zombies (by rw [proc, parents])
  | execve handler =>
    obtain ⟨fuel, ret, p, f, done, -, same⟩ := handled
    have only := sysExecve_mem done
    have proc : entry.proc = { s.proc with mem := p.mem } := by
      rw [same]
      exact only
    have alive : entry.alive = s.alive := same ▸ rfl
    have zombies : entry.zombies = s.zombies := same ▸ rfl
    have parents : entry.proc.parent = s.proc.parent := by
      rw [proc]
      rfl
    refine ⟨by rw [proc], .kept trivial ?_ alive zombies parents⟩
    rw [Call.queued, alive]
    exact linked.transfer (by rw [proc]) (by rw [proc]) (by rw [proc]) alive zombies
      fun t => by rw [proc]; exact ⟨rfl, rfl, rfl⟩

omit linked in
theorem Call.queued_quiet {call : Call} (quiet : call.Quiet) (s s' : ProcRun) :
    call.queued s s' = s'.alive := by
  cases call with
  | exit code => exact absurd quiet id
  | tick | vfork n stack | waitpid pid status options | execve handler => rfl

theorem Linked.step (step : ProcStep queue s e s') :
    Outcome queue initProc child s s' s'.alive e.call ∧
      ∃ rest, upcoming (e.call.queued s s') s.proc.curr = s'.proc.curr :: rest := by
  obtain ⟨mem, frame, call⟩ := e
  obtain ⟨entry, handled, sched⟩ := step
  obtain ⟨curr, outcome⟩ := linked.handled handled
  cases outcome with
  | kept quiet linked' alive zombies parents =>
    rw [Call.queued_quiet quiet] at linked'
    obtain ⟨alive', zombies', parents', comes⟩ := linked'.switched sched
    refine ⟨.kept quiet (linked'.schedule_keep sched) (alive'.trans alive)
      (zombies'.trans zombies) (parents'.trans parents), ?_⟩
    rw [Call.queued_quiet quiet, alive', ← curr]
    exact comes
  | forked placed fresh linked' alive zombies owned parents =>
    obtain ⟨alive', zombies', parents', comes⟩ := linked'.switched sched
    refine ⟨.forked placed fresh (linked'.schedule_keep sched) (alive'.trans alive)
      (zombies'.trans zombies) (by rw [parents', owned])
      (fun t ht => by rw [parents', parents t ht]), ?_⟩
    rw [Call.queued, alive', ← curr]
    exact comes
  | exited notInit linked' alive zombies parents =>
    obtain ⟨alive', zombies', parents', comes⟩ := linked'.switched sched
    have gone : entry.proc.curr ∈ entry.zombies := by simp [zombies, curr]
    have linked'' := linked'.schedule_drop (by rw [curr]; exact alive) gone (by rwa [curr]) sched
    refine ⟨.exited notInit linked'' (alive'.trans alive) (zombies'.trans zombies)
      fun t => by rw [parents', parents t], ?_⟩
    rw [← curr]
    exact comes
  | reaped hc exited linked' alive zombies parents =>
    obtain ⟨alive', zombies', parents', comes⟩ := linked'.switched sched
    refine ⟨.reaped hc exited (linked'.schedule_keep sched) (alive'.trans alive)
      (zombies'.trans zombies) (parents'.trans parents), ?_⟩
    rw [Call.queued, alive', ← curr]
    exact comes

theorem Linked.turn (step : ProcStep queue s e s') :
    Turn (upcoming s.alive s.proc.curr) (upcoming s'.alive s'.proc.curr) s'.proc.curr := by
  obtain ⟨mem, frame, call⟩ := e
  obtain ⟨outcome, rest, comes⟩ := linked.step step
  have nodup := linked.lists.once
  cases outcome with
  | kept quiet _ alive =>
    rw [Call.queued_quiet quiet, alive] at comes
    rw [alive]
    exact turn_keep linked.curr nodup comes
  | forked _ _ linked' alive =>
    have nodup' := linked'.lists.once
    rw [Call.queued, alive] at comes
    rw [alive] at nodup' ⊢
    exact turn_join linked.curr nodup' comes
  | exited _ linked' alive =>
    have stays := linked'.curr
    rw [alive] at stays ⊢
    exact turn_leave linked.curr nodup comes fun h => nodup.not_mem_erase (h ▸ stays)
  | reaped _ _ _ alive =>
    rw [Call.queued, alive] at comes
    rw [alive]
    exact turn_keep linked.curr nodup comes

end

def Allowed (queue : Addr) (s : ProcRun) (e : Event) : Prop :=
  (∀ t ∈ s.structs, ∀ x, InTask t x → e.mem x = s.proc.mem x) ∧
  match e.call with
  | .tick => True
  | .vfork newProcess stack =>
    Placed queue newProcess ∧ (∀ t ∈ s.structs, Apart newProcess t) ∧
      Clear s stack.toNat defaultStackSize
  | .exit _ => s.alive.head? ≠ some s.proc.curr
  | .waitpid _ status _ => Clear s status.toNat 4
  | .execve _ => False

section
variable (linked : Linked queue initProc s.alive child s) (allowed : Allowed queue s e)
include linked allowed

theorem Linked.handler_returns : ∃ entry, Handled queue s e entry := by
  obtain ⟨mem, frame, call⟩ := e
  obtain ⟨same, allowed⟩ := allowed
  have hp := linked.lists.among linked.curr
  have notNull := linked.lists.arena.ne_null hp
  cases call with
  | tick => exact ⟨_, same, rfl⟩
  | vfork n stack =>
    obtain ⟨placed, fresh, clear⟩ := allowed
    obtain ⟨pid, p, done⟩ := sysVfork_returns (s := { s.proc with mem }) queue frame n stack
      notNull
    exact ⟨_, same, placed, fresh, clear, pid, p, done, rfl⟩
  | exit code =>
    obtain ⟨rest, first⟩ := linked.first
    have other : s.proc.curr ≠ initProc := by
      intro h
      rw [first, h] at allowed
      exact allowed rfl
    obtain ⟨p, done⟩ := linked.exit_returns mem code other
    exact ⟨_, same, 2, p, 0, done, rfl⟩
  | waitpid pid status options =>
    have away : ∀ c ∈ child s.proc.curr, sibling c ≠ children s.proc.curr := fun c hc =>
      (linked.lists.arena.children_ne_sibling hp (linked.lists.owner _ hp c hc).1).symm
    obtain ⟨ret, p, freed, done⟩ := sysWaitpid_returns (s := { s.proc with mem })
      (linked.lists.family _ hp) away notNull pid status options
    exact ⟨_, same, allowed, 2, ret, p, freed, done, rfl⟩
  | execve handler => exact absurd allowed id

theorem Linked.enabled : ∃ s', ProcStep queue s e s' := by
  obtain ⟨entry, handled⟩ := linked.handler_returns allowed
  obtain ⟨child', linked'⟩ := (linked.handled handled).2.linked
  obtain ⟨h, rest, -, returns⟩ := linked'.kernelSchedule
  exact ⟨_, entry, handled, _, _, returns, rfl⟩

end

def tickOf (s : ProcRun) : Event := ⟨s.proc.mem, s.frame, .tick⟩

theorem Linked.ticks (linked : Linked queue initProc s.alive child s) :
    ∃ s', ProcStep queue s (tickOf s) s' ∧ Linked queue initProc s'.alive child s' ∧
      Switched s.alive s s' := by
  obtain ⟨s', step⟩ := linked.enabled (e := tickOf s) ⟨fun _ _ _ _ => rfl, trivial⟩
  obtain ⟨outcome, comes⟩ := linked.step step
  cases outcome with
  | kept _ linked' alive zombies parents =>
    exact ⟨s', step, linked', alive, zombies, parents, alive ▸ comes⟩

theorem Linked.forks (linked : Linked queue initProc s.alive child s) {n stack : Addr}
    (frame : Regs) (placed : Placed queue n) (fresh : ∀ t ∈ s.structs, Apart n t)
    (clear : Clear s stack.toNat defaultStackSize) :
    ∃ s', ProcStep queue s ⟨s.proc.mem, frame, .vfork n stack⟩ s' ∧
      Linked queue initProc s'.alive (childForked child s.proc.curr n) s' ∧
      s'.alive = s.alive ++ [n] ∧ s'.zombies = s.zombies ∧ s'.proc.parent n = s.proc.curr ∧
      (∀ t, t ≠ n → s'.proc.parent t = s.proc.parent t) ∧
      ∃ rest, upcoming (s.alive ++ [n]) s.proc.curr = s'.proc.curr :: rest := by
  obtain ⟨s', step⟩ := linked.enabled (e := ⟨s.proc.mem, frame, .vfork n stack⟩)
    ⟨fun _ _ _ _ => rfl, placed, fresh, clear⟩
  obtain ⟨outcome, comes⟩ := linked.step step
  cases outcome with
  | kept quiet => exact absurd quiet id
  | forked _ _ linked' alive zombies owned parents =>
    exact ⟨s', step, linked', alive, zombies, owned, parents, alive ▸ comes⟩

end Elaborato.Mentos.Process
