import Elaborato.Mentos.ProcessSteps

/-!
Runs of the scheduler: the run queue is well formed, and the tasks take turns.
-/
namespace Elaborato.Mentos.Process
open Foundation List

variable {queue initProc t u : Addr} {child : Addr → Option Addr} {s s' start : ProcRun}
  {trace trace' : List (ProcRun × Event)}

/-- The invariant of every run. -/
def Settled (queue : Addr) (s : ProcRun) : Prop :=
  ∃ initProc child, Linked queue initProc s.alive child s

theorem settled_boot (boot : Booted queue start) : Settled queue start := by
  obtain ⟨initProc, linked⟩ := linked_boot boot
  exact ⟨initProc, _, linked⟩

theorem settled_step {e : Event} (settled : Settled queue s) (step : ProcStep queue s e s') :
    Settled queue s' ∧
      Turn (upcoming s.alive s.proc.curr) (upcoming s'.alive s'.proc.curr) s'.proc.curr := by
  obtain ⟨initProc, child, linked⟩ := settled
  obtain ⟨child', linked'⟩ := (linked.step step).1.linked
  exact ⟨⟨initProc, child', linked'⟩, linked.turn step⟩

theorem settled_always (settled : Settled queue start)
    (run : Exec (ProcStep queue) start trace s) : Always (Settled queue) trace s :=
  exec_keeps settled (fun _ _ _ settled step => (settled_step settled step).1) run

theorem settled_run (boot : Booted queue start) (run : Exec (ProcStep queue) start trace s) :
    Settled queue s :=
  (settled_always (settled_boot boot) run).2

def Queued (queue t : Addr) (s : ProcRun) : Prop :=
  ∃ fuel nodes, listForEach s.proc.links queue fuel = some nodes ∧ runList t ∈ nodes

theorem Lists.walk {l : Links Addr} {parent : Addr → Addr} {order structs : List Addr}
    (lists : Lists queue l parent order structs child) :
    listForEach l queue (order.length + 1) = some (order.map runList) := by
  have walked := walk_ring lists.ring lists.queue_out
  rwa [length_map] at walked

theorem queued_iff (settled : Settled queue s) : Queued queue t s ↔ t ∈ s.alive := by
  obtain ⟨initProc, child, linked⟩ := settled
  have walked := linked.lists.walk
  constructor
  · rintro ⟨fuel, nodes, walked', mem⟩
    rw [← walk_unique walked walked'] at mem
    exact (mem_map_of_injective runList_injective).mp mem
  · exact fun mem => ⟨_, _, walked, mem_map_of_mem mem⟩

structure RunQueue (queue : Addr) (s : ProcRun) : Prop where
  circular : Ring s.proc.links queue (s.alive.map runList)
  once : (queue :: s.alive.map runList).Nodup
  walked : ∃ fuel, listForEach s.proc.links queue fuel = some (s.alive.map runList)
  active : s.proc.numActive = s.alive.length
  current : s.proc.curr ∈ s.alive
  running : (s.proc.tasks s.proc.curr).state ≠ .zombie

def FreesUnlinked (queue : Addr) (s : ProcRun) : Prop :=
  ∀ mem fuel pid status options ret p t,
    sysWaitpid fuel { s.proc with mem } pid status options = .ok (ret, p, some t) →
      ¬ Queued queue t s ∧ ¬ Queued queue t { s with proc := p }

theorem Settled.runQueue (settled : Settled queue s) : RunQueue queue s := by
  obtain ⟨initProc, child, linked⟩ := settled
  have lists := linked.lists
  refine ⟨lists.ring, nodup_cons.mpr ⟨lists.queue_out, lists.ring_nodup⟩,
    ⟨_, lists.walk⟩, linked.active, linked.curr, ?_⟩
  rw [linked.running _ linked.curr]
  exact fun h => nomatch h

theorem Settled.freesUnlinked (settled : Settled queue s) : FreesUnlinked queue s := by
  intro mem fuel pid status options ret p t done
  obtain ⟨initProc, child, linked⟩ := settled
  have proc : ({ s with proc := p, zombies := s.zombies.erase t } : ProcRun).proc = p := rfl
  obtain ⟨-, ⟨none, -, -⟩ | ⟨c, -, same, exited, -, linked'⟩⟩ := linked.waitpid done proc rfl rfl
  · cases none
  · obtain rfl := Option.some.inj same
    have left : t ∉ s.alive := fun h => linked.alive_ne_zombie h exited rfl
    refine ⟨fun h => left ((queued_iff ⟨initProc, child, linked⟩).mp h), fun h => left ?_⟩
    exact (queued_iff (s := { s with proc := p, zombies := s.zombies.erase t })
      ⟨initProc, _, linked'⟩).mp h

def bootRun (queue initProc stack : Addr) : ProcRun :=
  { proc := createInitProcess queue (kernelInitializeScheduler queue
      { tasks := fun _ => ⟨0, .running, 0, 0, 0, 0⟩
        links := ⟨id, id⟩
        mem := fun _ => 0
        numActive := 0
        curr := 0
        nextPid := 1 }) initProc stack 0 0
    frame := fun _ => 0
    alive := [initProc]
    zombies := []
    held := fun _ => none }

theorem booted_bootRun {initProc : Addr} (stack : Addr) (room : queue.toNat + 8 ≤ 2 ^ 32)
    (placed : Placed queue initProc) : Booted queue (bootRun queue initProc stack) := by
  refine ⟨fun t ht => ?_, room, ⟨_, initProc, stack, 0, 0, rfl, rfl, rfl⟩, rfl, rfl⟩
  rw [mem_singleton.mp ht]
  exact placed

theorem clear_above {first n : Nat} (low : ∀ t ∈ s.structs, t.toNat + taskSize ≤ first) :
    Clear s first n :=
  fun t ht _ above _ inside => absurd inside.2 (Nat.not_lt.mpr ((low t ht).trans above))

theorem bootRun_booted : Booted 0x1000 (bootRun 0x1000 0x10000 0x1000000) :=
  booted_bootRun 0x1000000 (by decide) (by unfold Placed; decide)

theorem linked_bootRun : Linked 0x1000 0x10000 [0x10000] (fun _ => none)
    (bootRun 0x1000 0x10000 0x1000000) := by
  obtain ⟨initProc, linked⟩ := linked_boot bootRun_booted
  obtain ⟨rest, first⟩ := linked.first
  obtain rfl : 0x10000 = initProc := (List.cons.inj first).1
  exact linked

theorem bootRun_vfork (frame : Regs) : ∃ s, ProcStep 0x1000 (bootRun 0x1000 0x10000 0x1000000)
      ⟨(bootRun 0x1000 0x10000 0x1000000).proc.mem, frame, .vfork 0x20000 0x2000000⟩ s ∧
    Linked 0x1000 0x10000 s.alive (childForked (fun _ => none) 0x10000 0x20000) s ∧
    s.alive = [0x10000, 0x20000] ∧ s.zombies = [] ∧ s.proc.curr = 0x20000 ∧
    s.proc.parent 0x10000 = 0 ∧ s.proc.parent 0x20000 = 0x10000 := by
  have structs : ∀ t ∈ (bootRun 0x1000 0x10000 0x1000000).structs, t = 0x10000 := by
    simp [ProcRun.structs, bootRun]
  have fresh : ∀ t ∈ (bootRun 0x1000 0x10000 0x1000000).structs, Apart 0x20000 t := by
    intro t ht
    rw [structs t ht]
    unfold Apart
    decide
  have clear : Clear (bootRun 0x1000 0x10000 0x1000000) (0x2000000 : Addr).toNat
      defaultStackSize := by
    refine clear_above fun t ht => ?_
    rw [structs t ht]
    decide
  obtain ⟨s, step, linked, alive, zombies, owned, parents, rest, comes⟩ :=
    linked_bootRun.forks frame (by unfold Placed; decide) fresh clear
  refine ⟨s, step, linked, alive, zombies, ?_, ?_, owned⟩
  · have next : upcoming [(0x10000 : Addr), 0x20000] 0x10000 = [0x20000, 0x10000] := by decide
    exact (List.cons.inj (next.symm.trans comes)).1.symm
  · rw [parents _ (by decide)]
    rfl

theorem bootRun_forks : ∃ e s, ProcStep 0x1000 (bootRun 0x1000 0x10000 0x1000000) e s ∧
    Linked 0x1000 0x10000 s.alive (childForked (fun _ => none) 0x10000 0x20000) s ∧
    s.alive = [0x10000, 0x20000] ∧ s.zombies = [] ∧ s.proc.curr = 0x20000 ∧
    s.proc.parent 0x10000 = 0 ∧ s.proc.parent 0x20000 = 0x10000 :=
  ⟨_, bootRun_vfork fun _ => 0⟩

/-- In every state the run queue is well formed and each event can happen. -/
theorem runQueue_run (boot : Booted queue start) (run : Exec (ProcStep queue) start trace s) :
    RunQueue queue s ∧ FreesUnlinked queue s ∧
      ∀ e, Allowed queue s e → ∃ s', ProcStep queue s e s' := by
  have settled := settled_run boot run
  refine ⟨settled.runQueue, settled.freesUnlinked, fun e allowed => ?_⟩
  obtain ⟨initProc, child, linked⟩ := settled
  exact linked.enabled allowed

theorem runQueue_run_forked : ∃ e s,
    Exec (ProcStep 0x1000) (bootRun 0x1000 0x10000 0x1000000)
      [(bootRun 0x1000 0x10000 0x1000000, e)] s ∧
    s.alive = [0x10000, 0x20000] ∧ RunQueue 0x1000 s ∧ FreesUnlinked 0x1000 s ∧
    ∀ e, Allowed 0x1000 s e → ∃ s', ProcStep 0x1000 s e s' := by
  obtain ⟨e, s, step, -, alive, -⟩ := bootRun_forks
  have run := Exec.refl.next step
  exact ⟨e, s, run, alive, runQueue_run bootRun_booted run⟩

theorem alive_before {e : Event} (step : ProcStep queue s e s')
    (same : ∀ stack, e.call ≠ .vfork t stack) (now : t ∈ s'.alive) : t ∈ s.alive := by
  obtain ⟨mem, frame, call⟩ := e
  obtain ⟨entry, ⟨-, handled⟩, p, f, -, rfl⟩ := step
  cases call with
  | tick =>
    obtain rfl := handled
    exact now
  | vfork n stack =>
    obtain ⟨-, -, -, pid, p, -, rfl⟩ := handled
    rcases mem_append.mp now with old | new
    · exact old
    · exact absurd (congrArg (Call.vfork · stack) (mem_singleton.mp new).symm) (same stack)
  | exit code =>
    obtain ⟨fuel, p, ret, -, rfl⟩ := handled
    exact mem_of_mem_erase now
  | waitpid pid status options =>
    obtain ⟨-, fuel, ret, p, freed, -, rfl⟩ := handled
    exact now
  | execve handler =>
    obtain ⟨fuel, ret, p, f, -, -, rfl⟩ := handled
    exact now

theorem Settled.mem_upcoming (settled : Settled queue s) :
    t ∈ upcoming s.alive s.proc.curr ↔ t ∈ s.alive := by
  obtain ⟨initProc, child, linked⟩ := settled
  exact (upcoming_perm linked.curr linked.lists.once).mem_iff

/-- Between two picks of a task every other one that stays is picked exactly once. -/
theorem roundRobin_run (boot : Booted queue start) (before : Exec (ProcStep queue) start trace s)
    (picked : s.proc.curr = t) (run : Exec (ProcStep queue) s trace' s') {between : List Addr}
    (again : picks (·.proc.curr) trace' s' = between ++ [t]) (notYet : t ∉ between)
    (same : ∀ e ∈ trace', ∀ stack, e.2.call ≠ .vfork t stack) (other : u ≠ t)
    (stays : Always (Queued queue u) trace' s') : between.count u = 1 := by
  have settled := settled_run boot before
  obtain ⟨settledAt, settledLast⟩ := settled_always settled run
  have now : s'.proc.curr = t := by
    cases run with
    | refl => simp [picks] at again
    | next run step =>
      rw [picks_next] at again
      exact singleton_inj.mp (append_inj' again rfl).2
  have back : ∀ s e s', ProcStep queue s e s' →
      (fun e : Event => ∀ stack, e.call ≠ .vfork t stack) e → t ∈ s'.alive → t ∈ s.alive :=
    fun s e s' => alive_before
  have aliveT := always_backward back run same (now ▸ settledLast.runQueue.current)
  have lineT : Always (fun s => t ∈ upcoming s.alive s.proc.curr) trace' s' :=
    ⟨fun e he => (settledAt e he).mem_upcoming.mpr (aliveT.1 e he),
      settledLast.mem_upcoming.mpr aliveT.2⟩
  have lineU : Always (fun s => u ∈ upcoming s.alive s.proc.curr) trace' s' :=
    ⟨fun e he => (settledAt e he).mem_upcoming.mpr
        ((queued_iff (settledAt e he)).mp (stays.1 e he)),
      settledLast.mem_upcoming.mpr ((queued_iff settledLast).mp stays.2)⟩
  have aliveU : u ∈ s.alive := (queued_iff settled).mp (always_start run stays)
  have first : Before u t (upcoming s.alive s.proc.curr) := by
    obtain ⟨initProc, child, linked⟩ := settled
    subst picked
    exact before_current linked.curr linked.lists.once aliveU other
  exact picks_between settled (fun s e s' => settled_step) run lineT lineU other first again notYet

theorem roundRobin_run_pair : ∃ trace s trace' s',
    Exec (ProcStep 0x1000) (bootRun 0x1000 0x10000 0x1000000) trace s ∧
    s.proc.curr = 0x10000 ∧ Exec (ProcStep 0x1000) s trace' s' ∧
    picks (·.proc.curr) trace' s' = [0x20000] ++ [0x10000] ∧
    [(0x20000 : Addr)].count 0x20000 = 1 := by
  obtain ⟨e, s₁, step, linked₁, alive₁, -, curr₁, -⟩ := bootRun_forks
  obtain ⟨s₂, step₂, linked₂, after₂⟩ := linked₁.ticks
  obtain ⟨s₃, step₃, linked₃, after₃⟩ := linked₂.ticks
  obtain ⟨s₄, step₄, linked₄, after₄⟩ := linked₃.ticks
  have next : upcoming [(0x10000 : Addr), 0x20000] 0x10000 = [0x20000, 0x10000] := by decide
  have next' : upcoming [(0x10000 : Addr), 0x20000] 0x20000 = [0x10000, 0x20000] := by decide
  have alive₂ := after₂.alive.trans alive₁
  have alive₃ := after₃.alive.trans alive₂
  have alive₄ := after₄.alive.trans alive₃
  have curr₂ : s₂.proc.curr = 0x10000 := after₂.curr_eq (by rw [alive₁, curr₁, next'])
  have curr₃ : s₃.proc.curr = 0x20000 := after₃.curr_eq (by rw [alive₂, curr₂, next])
  have curr₄ : s₄.proc.curr = 0x10000 := after₄.curr_eq (by rw [alive₃, curr₃, next'])
  have before := (Exec.refl.next step).next step₂
  have run : Exec (ProcStep 0x1000) s₂ [(s₂, tickOf s₂), (s₃, tickOf s₃)] s₄ :=
    (Exec.refl.next step₃).next step₄
  have picked : picks (·.proc.curr) [(s₂, tickOf s₂), (s₃, tickOf s₃)] s₄ =
      [0x20000] ++ [0x10000] := by
    simp [picks, curr₃, curr₄]
  have same : ∀ e ∈ [(s₂, tickOf s₂), (s₃, tickOf s₃)], ∀ stack,
      e.2.call ≠ .vfork 0x10000 stack := by
    simp [tickOf]
  have stays : Always (Queued 0x1000 0x20000) [(s₂, tickOf s₂), (s₃, tickOf s₃)] s₄ := by
    refine ⟨fun e he => ?_, (queued_iff ⟨_, _, linked₄⟩).mpr (by simp [alive₄])⟩
    rcases mem_pair.mp he with rfl | rfl
    · exact (queued_iff ⟨_, _, linked₂⟩).mpr (by simp [alive₂])
    · exact (queued_iff ⟨_, _, linked₃⟩).mpr (by simp [alive₃])
  exact ⟨_, s₂, _, s₄, before, curr₂, run, picked,
    roundRobin_run bootRun_booted before curr₂ run picked (by decide) same (by decide) stays⟩

end Elaborato.Mentos.Process
