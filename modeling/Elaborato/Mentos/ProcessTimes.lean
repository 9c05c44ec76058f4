import Elaborato.Mentos.ProcessTurns

/-!
The statistics of `kernel_schedule`, and the time in which each task was current.
-/
namespace Elaborato.Mentos.Process
open Foundation List Function

structure SchedEntity where
  startRuntime : UInt32
  execStart : UInt32
  sumExecRuntime : UInt32
  deriving DecidableEq, Repr

structure Readings where
  first : UInt32
  second : UInt32
  third : UInt32
  fourth : UInt32

/-- The clock does not go back. -/
structure Readings.Ordered (last : UInt32) (now : Readings) : Prop where
  first : last ≤ now.first
  second : now.first ≤ now.second
  third : now.second ≤ now.third
  fourth : now.third ≤ now.fourth

def newEntity : SchedEntity := ⟨0, 0, 0⟩

def enterUserJmp (se : Addr → SchedEntity) (curr : Addr) (first second : UInt32) :
    Addr → SchedEntity :=
  update se curr { se curr with startRuntime := first, execStart := second }

def scheduleStatistics (se : Addr → SchedEntity) (curr nextProcess : Addr) (now : Readings) :
    Addr → SchedEntity :=
  let deltaExec := now.first - (se curr).execStart
  let se := update se curr
    { se curr with sumExecRuntime := (se curr).sumExecRuntime + deltaExec }
  let se :=
    if nextProcess ≠ curr then
      update se nextProcess
        { se nextProcess with sumExecRuntime := now.second, execStart := now.third }
    else se
  if (se nextProcess).startRuntime = 0 then
    update se nextProcess { se nextProcess with startRuntime := now.fourth }
  else se

def kernelScheduleTimed (queue : Addr) (s : Proc) (se : Addr → SchedEntity) (f : Regs)
    (now : Readings) : Except ProcHalt (Proc × Regs × (Addr → SchedEntity)) :=
  (kernelSchedule queue s f).map fun (p, f) =>
    (p, f, if s.curr = 0 then se else scheduleStatistics se s.curr p.curr now)

def Call.entities (se : Addr → SchedEntity) : Call → Addr → SchedEntity
  | .vfork n _ => update se n newEntity
  | .tick | .exit _ | .waitpid _ _ _ | .execve _ => se

def Call.line (s : ProcRun) : Call → List Addr
  | .vfork n _ => s.alive ++ [n]
  | .tick | .exit _ | .waitpid _ _ _ | .execve _ => s.alive

structure TimedRun where
  run : ProcRun
  se : Addr → SchedEntity
  cpu : Addr → Nat
  mark : UInt32
  last : UInt32

/-- A new task has not been current. -/
def Call.times (cpu : Addr → Nat) : Call → Addr → Nat
  | .vfork n _ => update cpu n 0
  | .tick | .exit _ | .waitpid _ _ _ | .execve _ => cpu

def TimedStep (queue : Addr) (s : TimedRun) (e : Event × Readings) (s' : TimedRun) : Prop :=
  let (event, now) := e
  ∃ entry p f se, Handled queue s.run event entry ∧ now.Ordered s.last ∧
    kernelScheduleTimed queue entry.proc (event.call.entities s.se) entry.frame now =
      .ok (p, f, se) ∧
    s' =
      { run := { entry with
          proc := p
          frame := f
          held := update entry.held entry.proc.curr (some entry.frame) }
        se
        cpu := update (event.call.times s.cpu) entry.proc.curr
          (event.call.times s.cpu entry.proc.curr + (now.first.toNat - s.mark.toNat))
        mark := if p.curr = entry.proc.curr then now.first else now.third
        last := now.fourth }

structure TimedStart (queue : Addr) (s : TimedRun) : Prop where
  boot : Booted queue s.run
  entered : ∃ se first second, se s.run.proc.curr = newEntity ∧
    s.se = enterUserJmp se s.run.proc.curr first second ∧ s.mark = second ∧ s.last = second
  cpu : s.cpu = fun _ => 0

def Accounted (s : TimedRun) : Prop :=
  ∀ t ∈ s.run.structs, (s.se t).sumExecRuntime.toNat = s.cpu t

def Countable (s : TimedRun) (e : Event × Readings) : Prop :=
  (s.se s.run.proc.curr).execStart = s.mark ∧
    ∀ next, (upcoming (e.1.call.line s.run) s.run.proc.curr).head? = some next →
      next ≠ s.run.proc.curr → e.2.second = (e.1.call.entities s.se next).sumExecRuntime

variable {se : Addr → SchedEntity} {c n t : Addr} {now : Readings}

theorem scheduleStatistics_sum (se : Addr → SchedEntity) (c n : Addr) (now : Readings) (t : Addr) :
    (scheduleStatistics se c n now t).sumExecRuntime =
      if t = n ∧ n ≠ c then now.second
      else if t = c then (se c).sumExecRuntime + (now.first - (se c).execStart)
      else (se t).sumExecRuntime := by
  by_cases next : t = n
  · subst next
    by_cases same : t = c
    · subst same
      simp only [scheduleStatistics, ne_eq, not_true_eq_false, if_false, and_false, if_true]
      split <;> simp
    · simp only [scheduleStatistics, ne_eq, same, not_false_eq_true, if_true, and_self]
      split <;> simp
  · have other : ¬ (t = n ∧ n ≠ c) := fun h => next h.1
    rw [if_neg other]
    by_cases same : t = c
    · subst same
      simp only [scheduleStatistics, ne_eq, Ne.symm next, not_false_eq_true, if_true]
      split <;> simp [next]
    · simp only [scheduleStatistics, if_neg same]
      split <;> split <;> simp [next, same]

theorem scheduleStatistics_execStart (se : Addr → SchedEntity) (c n : Addr) (now : Readings) :
    (scheduleStatistics se c n now n).execStart =
      if n = c then (se c).execStart else now.third := by
  by_cases same : n = c
  · subst same
    simp only [scheduleStatistics, ne_eq, not_true_eq_false, if_false, if_true]
    split <;> simp
  · simp only [scheduleStatistics, ne_eq, same, not_false_eq_true, if_true, if_false]
    split <;> simp

variable {queue : Addr} {s s' : TimedRun} {event : Event}

/-- The task that a call makes. -/
def Call.made : Call → Option Addr
  | .vfork n _ => some n
  | .tick | .exit _ | .waitpid _ _ _ | .execve _ => none

theorem Call.entities_apply (se : Addr → SchedEntity) (call : Call) (t : Addr) :
    call.entities se t = if call.made = some t then newEntity else se t := by
  cases call with
  | vfork n stack =>
    simp only [Call.entities, Call.made, Option.some.injEq, update_apply, eq_comm]
  | tick | exit code | waitpid pid status options | execve handler => rfl

theorem Call.times_apply (cpu : Addr → Nat) (call : Call) (t : Addr) :
    call.times cpu t = if call.made = some t then 0 else cpu t := by
  cases call with
  | vfork n stack =>
    simp only [Call.times, Call.made, Option.some.injEq, update_apply, eq_comm]
  | tick | exit code | waitpid pid status options | execve handler => rfl

structure Passed (queue : Addr) (s s' : ProcRun) (call : Call) : Prop where
  settled : Settled queue s'
  next : (upcoming (call.line s) s.proc.curr).head? = some s'.proc.curr
  curr : s.proc.curr ∈ s.structs
  stays : s.proc.curr ∈ s'.structs
  known : ∀ t ∈ s'.structs, t ∈ s.structs ∨ call.made = some t
  fresh : ∀ t ∈ s.structs, call.made ≠ some t

theorem Settled.passed {s s' : ProcRun} {e : Event} (settled : Settled queue s)
    (step : ProcStep queue s e s') : Passed queue s s' e.call := by
  have settled' := (settled_step settled step).1
  obtain ⟨initProc, child, linked⟩ := settled
  obtain ⟨mem, frame, call⟩ := e
  obtain ⟨outcome, rest, comes⟩ := linked.step step
  have hcurr := linked.lists.among linked.curr
  have alive := linked.curr
  cases outcome with
  | kept quiet _ same zombies =>
    rw [Call.queued_quiet quiet, same] at comes
    have structs : s'.structs = s.structs := by rw [ProcRun.structs, same, zombies]; rfl
    have none : call.made = none ∧ call.line s = s.alive := by
      cases call with
      | vfork n stack | exit code => exact absurd quiet id
      | tick | waitpid pid status options | execve handler => exact ⟨rfl, rfl⟩
    refine ⟨settled', ?_, hcurr, structs ▸ hcurr, fun t ht => .inl (structs ▸ ht), ?_⟩
    · rw [none.2, comes]
      rfl
    · simp [none.1]
  | @forked n stack placed fresh _ grown zombies =>
    rw [Call.queued, grown] at comes
    have structs : ∀ t, t ∈ s'.structs ↔ t ∈ s.structs ∨ t = n := by
      intro t
      simp only [ProcRun.structs, grown, zombies, mem_append, mem_singleton]
      tauto
    refine ⟨settled', ?_, hcurr, (structs _).mpr (.inl hcurr), fun t ht => ?_, fun t ht => ?_⟩
    · rw [Call.line, comes]
      rfl
    · exact ((structs t).mp ht).imp_right fun h => by rw [h, Call.made]
    · rintro ⟨rfl⟩
      have := fresh _ ht
      simp only [Apart, taskSize] at this
      omega
  | exited _ _ left zombies =>
    rw [Call.queued] at comes
    have structs : ∀ t, t ∈ s'.structs → t ∈ s.structs := by
      intro t ht
      rw [ProcRun.structs, left, zombies, mem_append] at ht
      rcases ht with ht | ht
      · exact mem_append_left _ (mem_of_mem_erase ht)
      · rcases mem_append.mp ht with ht | ht
        · exact mem_append_right _ ht
        · exact mem_singleton.mp ht ▸ hcurr
    refine ⟨settled', ?_, hcurr, ?_, fun t ht => .inl (structs t ht), by simp [Call.made]⟩
    · rw [Call.line, comes]
      rfl
    · simp [ProcRun.structs, zombies]
  | reaped _ _ _ same zombies =>
    rw [Call.queued, same] at comes
    refine ⟨settled', ?_, hcurr, ?_, fun t ht => .inl ?_, by simp [Call.made]⟩
    · rw [Call.line, comes]
      rfl
    · rw [ProcRun.structs, same]
      exact mem_append_left _ alive
    · rw [ProcRun.structs, same, zombies, mem_append] at ht
      exact mem_append.mpr (ht.imp_right mem_of_mem_erase)

structure TimedOutcome (queue : Addr) (s s' : TimedRun) (event : Event) (now : Readings) :
    Prop where
  passed : Passed queue s.run s'.run event.call
  ordered : now.Ordered s.last
  se : s'.se = scheduleStatistics (event.call.entities s.se) s.run.proc.curr s'.run.proc.curr now
  cpu : s'.cpu = update (event.call.times s.cpu) s.run.proc.curr
    (s.cpu s.run.proc.curr + (now.first.toNat - s.mark.toNat))
  mark : s'.mark = if s'.run.proc.curr = s.run.proc.curr then now.first else now.third
  last : s'.last = now.fourth

theorem timedStep_step (step : TimedStep queue s (event, now) s') :
    ProcStep queue s.run event s'.run := by
  obtain ⟨entry, p, f, se, handled, -, done, rfl⟩ := step
  refine ⟨entry, handled, p, f, ?_, rfl⟩
  cases returned : kernelSchedule queue entry.proc entry.frame with
  | error halt =>
    rw [kernelScheduleTimed, returned] at done
    cases done
  | ok result =>
    rw [kernelScheduleTimed, returned] at done
    cases done
    rfl

theorem timedStep_outcome (settled : Settled queue s.run)
    (step : TimedStep queue s (event, now) s') : TimedOutcome queue s s' event now := by
  have passed := settled.passed (timedStep_step step)
  obtain ⟨initProc, child, linked⟩ := settled
  obtain ⟨entry, p, f, se, handled, ordered, done, rfl⟩ := step
  have curr : entry.proc.curr = s.run.proc.curr := (linked.handled handled).1
  have notNull : entry.proc.curr ≠ 0 := curr ▸ linked.lists.arena.ne_null passed.curr
  have old : event.call.times s.cpu s.run.proc.curr = s.cpu s.run.proc.curr := by
    rw [Call.times_apply, if_neg (passed.fresh _ passed.curr)]
  refine ⟨passed, ordered, ?_, ?_, ?_, rfl⟩
  · cases returned : kernelSchedule queue entry.proc entry.frame with
    | error halt =>
      rw [kernelScheduleTimed, returned] at done
      cases done
    | ok result =>
      rw [kernelScheduleTimed, returned] at done
      cases done
      rw [← curr]
      exact if_neg notNull
  · simp only [curr, old]
  · simp only [curr]

structure Clocked (s : TimedRun) : Prop where
  cpu : ∀ t ∈ s.run.structs, s.cpu t ≤ s.mark.toNat
  start : (s.se s.run.proc.curr).execStart ≤ s.mark
  mark : s.mark ≤ s.last

theorem clocked_step (clocked : Clocked s) (outcome : TimedOutcome queue s s' event now) :
    Clocked s' := by
  obtain ⟨passed, ⟨h1, h2, h3, h4⟩, se, cpu, mark, last⟩ := outcome
  have marked := clocked.mark
  simp only [UInt32.le_iff_toNat_le] at h1 h2 h3 h4 marked
  have later : s.mark.toNat ≤ s'.mark.toNat := by
    rw [mark]
    split <;> omega
  have reached : now.first.toNat ≤ s'.mark.toNat := by
    rw [mark]
    split <;> omega
  refine ⟨fun t ht => ?_, ?_, ?_⟩
  · rw [cpu, update_apply]
    split
    · have := clocked.cpu _ passed.curr
      omega
    · rw [Call.times_apply]
      split
      · exact Nat.zero_le _
      · next other =>
          exact Nat.le_trans (clocked.cpu t ((passed.known t ht).resolve_right other)) later
  · rw [se, scheduleStatistics_execStart, mark]
    split
    · next same =>
        have := clocked.start
        rw [Call.entities_apply, if_neg (passed.fresh _ passed.curr)]
        simp only [UInt32.le_iff_toNat_le] at this ⊢
        omega
    · exact UInt32.le_refl _
  · rw [mark, last, UInt32.le_iff_toNat_le]
    split <;> omega

theorem sum_eq_iff {sum first start mark : UInt32} (early : start ≤ mark) (later : mark ≤ first)
    (small : sum.toNat + (first.toNat - mark.toNat) < 2 ^ 32) :
    (sum + (first - start)).toNat = sum.toNat + (first.toNat - mark.toNat) ↔ start = mark := by
  have := start.toNat_lt
  have := first.toNat_lt
  rw [UInt32.le_iff_toNat_le] at early later
  rw [UInt32.toNat_add, UInt32.toNat_sub, ← UInt32.toNat_inj]
  omega

theorem accounted_iff (clocked : Clocked s) (accounted : Accounted s)
    (outcome : TimedOutcome queue s s' event now) :
    Accounted s' ↔ Countable s (event, now) := by
  obtain ⟨passed, ⟨h1, h2, h3, h4⟩, se, cpu, mark, last⟩ := outcome
  have before : ∀ t ∈ s'.run.structs,
      (event.call.entities s.se t).sumExecRuntime.toNat = event.call.times s.cpu t := by
    intro t ht
    rw [Call.entities_apply, Call.times_apply]
    split
    · rfl
    · next other => exact accounted t ((passed.known t ht).resolve_right other)
  have old : event.call.entities s.se s.run.proc.curr = s.se s.run.proc.curr := by
    rw [Call.entities_apply, if_neg (passed.fresh _ passed.curr)]
  have current : (s'.se s.run.proc.curr).sumExecRuntime.toNat = s'.cpu s.run.proc.curr ↔
      (s.se s.run.proc.curr).execStart = s.mark := by
    have most := clocked.cpu _ passed.curr
    have marked := clocked.mark
    have bound := now.first.toNat_lt
    rw [UInt32.le_iff_toNat_le] at marked h1
    have sum := accounted _ passed.curr
    rw [se, cpu, scheduleStatistics_sum, if_neg (fun h => h.2 h.1.symm), if_pos rfl, old,
      update_self, ← sum]
    exact sum_eq_iff clocked.start (by rw [UInt32.le_iff_toNat_le]; omega) (by omega)
  have switched : s'.run.proc.curr ≠ s.run.proc.curr →
      ((s'.se s'.run.proc.curr).sumExecRuntime.toNat = s'.cpu s'.run.proc.curr ↔
        now.second = (event.call.entities s.se s'.run.proc.curr).sumExecRuntime) := by
    intro other
    have mem : s'.run.proc.curr ∈ s'.run.structs :=
      mem_append_left _ passed.settled.runQueue.current
    rw [se, cpu, scheduleStatistics_sum, if_pos ⟨rfl, other⟩, update_of_ne other,
      ← before _ mem, UInt32.toNat_inj]
  constructor
  · intro after
    refine ⟨current.mp (after _ passed.stays), fun next comes other => ?_⟩
    obtain rfl := Option.some.inj (passed.next.symm.trans comes)
    exact (switched other).mp (after _ (mem_append_left _ passed.settled.runQueue.current))
  · intro countable t ht
    by_cases same : t = s.run.proc.curr
    · exact same ▸ current.mpr countable.1
    · by_cases next : t = s'.run.proc.curr
      · subst next
        exact (switched same).mpr (countable.2 _ passed.next same)
      · rw [se, cpu, scheduleStatistics_sum, if_neg (fun h => next h.1), if_neg same,
          update_of_ne same]
        exact before t ht

structure Timely (queue : Addr) (s : TimedRun) : Prop where
  settled : Settled queue s.run
  clocked : Clocked s
  accounted : Accounted s

theorem timely_start (start : TimedStart queue s) : Timely queue s := by
  obtain ⟨boot, ⟨se, first, second, new, entered, mark, last⟩, cpu⟩ := start
  have settled := settled_boot boot
  obtain ⟨-, -, ⟨machine, initProc, stack, handler, main, -, proc, alive⟩, zombies, -⟩ := boot
  have structs : s.run.structs = [s.run.proc.curr] := by
    have current := settled.runQueue.current
    rw [alive] at current
    rw [ProcRun.structs, alive, zombies, mem_singleton.mp current]
    rfl
  refine ⟨settled, ⟨fun t ht => ?_, ?_, ?_⟩, fun t ht => ?_⟩
  · rw [cpu]
    exact Nat.zero_le _
  · rw [entered, mark, enterUserJmp, update_self]
    exact UInt32.le_refl _
  · rw [mark, last]
    exact UInt32.le_refl _
  · rw [structs] at ht
    rw [mem_singleton.mp ht, entered, cpu, enterUserJmp, update_self, new]
    rfl

/-- Exactly when no interval is counted twice and no switch stores a wrong clock. -/
theorem accounted_run_iff {queue : Addr} {start s : TimedRun}
    {trace : List (TimedRun × Event × Readings)} (started : TimedStart queue start)
    (run : Exec (TimedStep queue) start trace s) :
    Always Accounted trace s ↔ ∀ e ∈ trace, Countable e.1 e.2 := by
  refine exec_always_iff (timely_start started) (fun _ timely => timely.accounted) ?_ ?_ run
  · intro s e s' timely step countable
    have outcome := timedStep_outcome timely.settled step
    exact ⟨outcome.passed.settled, clocked_step timely.clocked outcome,
      (accounted_iff timely.clocked timely.accounted outcome).mpr countable⟩
  · intro s e s' timely step refused after
    have outcome := timedStep_outcome timely.settled step
    exact refused ((accounted_iff timely.clocked timely.accounted outcome).mp after)

theorem timedStep_of_step {queue : Addr} {s : TimedRun} {event : Event} {now : Readings}
    {r : ProcRun} (step : ProcStep queue s.run event r) (ordered : now.Ordered s.last) :
    ∃ s', TimedStep queue s (event, now) s' ∧ s'.run = r := by
  obtain ⟨entry, handled, p, f, returned, rfl⟩ := step
  have done : ∃ se, kernelScheduleTimed queue entry.proc (event.call.entities s.se) entry.frame
      now = .ok (p, f, se) := by
    rw [kernelScheduleTimed, returned]
    exact ⟨_, rfl⟩
  obtain ⟨se, done⟩ := done
  exact ⟨_, ⟨entry, p, f, se, handled, ordered, done, rfl⟩, rfl⟩

def bootTimed : TimedRun where
  run := bootRun 0x1000 0x10000 0x1000000
  se := enterUserJmp (fun _ => newEntity) 0x10000 0 0
  cpu := fun _ => 0
  mark := 0
  last := 0

theorem bootTimed_start : TimedStart 0x1000 bootTimed :=
  ⟨bootRun_booted, ⟨fun _ => newEntity, 0, 0, rfl, rfl, rfl, rfl⟩, rfl⟩

def atTime (t : UInt32) : Readings := ⟨t, t, t, t⟩

theorem atTime_ordered {last t : UInt32} (later : last ≤ t) : (atTime t).Ordered last :=
  ⟨later, UInt32.le_refl _, UInt32.le_refl _, UInt32.le_refl _⟩

theorem tick_alone {s : TimedRun} {child : Addr → Option Addr} {t : UInt32}
    (linked : Linked 0x1000 0x10000 s.run.alive child s.run) (alone : s.run.alive = [0x10000])
    (current : s.run.proc.curr = 0x10000) (later : s.last ≤ t) :
    ∃ s' child', TimedStep 0x1000 s (tickOf s.run, atTime t) s' ∧
      Linked 0x1000 0x10000 s'.run.alive child' s'.run ∧ s'.run.alive = [0x10000] ∧
      s'.run.proc.curr = 0x10000 ∧ s'.last = t ∧ s'.mark = t ∧
      s'.cpu 0x10000 = s.cpu 0x10000 + (t.toNat - s.mark.toNat) ∧
      (s'.se 0x10000).execStart = (s.se 0x10000).execStart ∧
      (s'.se 0x10000).sumExecRuntime =
        (s.se 0x10000).sumExecRuntime + (t - (s.se 0x10000).execStart) := by
  obtain ⟨r, step, linked', after⟩ := linked.ticks
  obtain ⟨s', timed, rfl⟩ := timedStep_of_step step (atTime_ordered later)
  have next : upcoming [(0x10000 : Addr)] 0x10000 = [0x10000] := by decide
  have curr : s'.run.proc.curr = 0x10000 := after.curr_eq (by rw [alone, current, next])
  obtain ⟨-, -, se, cpu, mark, last⟩ := timedStep_outcome ⟨_, _, linked⟩ timed
  rw [current, curr] at se mark
  rw [current] at cpu
  refine ⟨s', child, timed, linked', after.alive.trans alone, curr, last, mark, ?_, ?_, ?_⟩
  · rw [cpu, update_self]
    rfl
  · rw [se, scheduleStatistics_execStart, if_pos rfl]
    rfl
  · rw [se, scheduleStatistics_sum, if_neg (by simp), if_pos rfl]
    rfl

theorem accounted_twice : ∃ s trace, Exec (TimedStep 0x1000) bootTimed trace s ∧
    (s.se 0x10000).sumExecRuntime = 30 ∧ s.cpu 0x10000 = 20 ∧ ¬ Accounted s := by
  obtain ⟨s₁, child₁, step₁, linked₁, alone₁, curr₁, last₁, mark₁, cpu₁, start₁, sum₁⟩ :=
    tick_alone (s := bootTimed) (t := 10) linked_bootRun rfl rfl (by decide)
  obtain ⟨s₂, child₂, step₂, linked₂, alone₂, -, -, -, cpu₂, -, sum₂⟩ :=
    tick_alone (t := 20) linked₁ alone₁ curr₁ (last₁ ▸ by decide)
  have sum : (s₂.se 0x10000).sumExecRuntime = 30 := by
    rw [sum₂, sum₁, start₁]
    decide
  have cpu : s₂.cpu 0x10000 = 20 := by
    rw [cpu₂, cpu₁, mark₁]
    decide
  refine ⟨s₂, _, (Exec.refl.next step₁).next step₂, sum, cpu, fun accounted => ?_⟩
  have mem : (0x10000 : Addr) ∈ s₂.run.structs := by simp [ProcRun.structs, alone₂]
  have := accounted _ mem
  rw [sum, cpu] at this
  exact absurd this (by decide)

theorem accounted_once : ∃ s, TimedStep 0x1000 bootTimed (tickOf bootTimed.run, atTime 10) s ∧
    Accounted s := by
  obtain ⟨s, child, step, -⟩ :=
    tick_alone (s := bootTimed) (t := 10) linked_bootRun rfl rfl (by decide)
  have always := (accounted_run_iff bootTimed_start (Exec.refl.next step)).mpr ?_
  · exact ⟨s, step, always.2⟩
  · simp only [nil_append, mem_singleton, forall_eq]
    refine ⟨rfl, fun next comes other => ?_⟩
    have alone : upcoming [(0x10000 : Addr)] 0x10000 = [0x10000] := by decide
    have comes : (upcoming [(0x10000 : Addr)] 0x10000).head? = some next := comes
    rw [alone] at comes
    exact absurd (Option.some.inj comes).symm other

end Elaborato.Mentos.Process
