import Elaborato.Foundation.RoundRobin
import Elaborato.Mentos.ProcessLists

/-!
The run queue is the ring of the tasks that have not exited, in order of creation.
-/
namespace Elaborato.Mentos.Process
open Foundation List

def Proc.parent (p : Proc) (t : Addr) : Addr := (p.tasks t).parent

structure Linked (queue initProc : Addr) (order : List Addr) (child : Addr → Option Addr)
    (s : ProcRun) : Prop where
  lists : Lists queue s.proc.links s.proc.parent order s.structs child
  nodup : s.structs.Nodup
  active : s.proc.numActive = order.length
  first : ∃ rest, order = initProc :: rest
  init : initProc ∈ s.alive ∧ (s.proc.tasks initProc).pid = 1
  curr : s.proc.curr ∈ order
  running : ∀ t ∈ s.alive, (s.proc.tasks t).state = .running
  zombie : ∀ t ∈ s.zombies, (s.proc.tasks t).state = .zombie
  childless : ∀ t ∈ s.zombies, child t = none

variable {queue initProc : Addr} {order : List Addr} {child : Addr → Option Addr} {s s' : ProcRun}

theorem nextNode_upcoming {p : Proc} (ring : Ring p.links queue (order.map runList))
    (nodup : order.Nodup) (mem : p.curr ∈ order) (away : ∀ t ∈ order, runList t ≠ queue) :
    ∃ h rest, upcoming order p.curr = h :: rest ∧ nextNode queue p = runList h := by
  obtain ⟨as, bs, split, out, upcoming_eq⟩ := queue_split mem nodup
  have nodes : order.map runList = as.map runList ++ runList p.curr :: bs.map runList := by
    rw [split, map_append, map_cons]
  have after : p.links.next (runList p.curr) = (bs.map runList).headD queue :=
    trail_next (nodes ▸ ring.1)
  rw [upcoming_eq]
  cases bs with
  | nil =>
    have node : nextNode queue p = p.links.next queue := by
      rw [nextNode, after]
      exact if_pos rfl
    rw [node, ring.2, split]
    cases as with
    | nil => exact ⟨p.curr, [], rfl, rfl⟩
    | cons a as => exact ⟨a, as ++ [p.curr], rfl, rfl⟩
  | cons b bs =>
    refine ⟨b, bs ++ (as ++ [p.curr]), rfl, ?_⟩
    have notHead : runList b ≠ queue := away b (by simp [split])
    rw [nextNode, after]
    exact if_neg notHead

def scheduled (p : Proc) (f : Regs) (h : Addr) : Proc :=
  { (if (p.tasks p.curr).state = .zombie then dequeueTask p p.curr else p) with
    mem := updateContext p.mem f p.curr
    curr := h }

theorem scheduled_parent (p : Proc) (f : Regs) (h : Addr) :
    (scheduled p f h).parent = p.parent := by
  unfold scheduled
  split_ifs <;> rfl

attribute [local simp] scheduled Except.map kernelSchedule

theorem kernelSchedule_eq {p : Proc} {h : Addr} (f : Regs) (notNull : p.curr ≠ 0)
    (next : nextNode queue p = runList h) (valid : h ≠ 0) :
    kernelSchedule queue p f = .ok (scheduled p f h, if h = p.curr then f
      else (doSwitch { p with mem := updateContext p.mem f p.curr } h f).2) := by
  by_cases zombie : (p.tasks p.curr).state = .zombie
  · by_cases same : h = p.curr
    · simp [notNull, zombie, next, dequeueTask, same]
    · simp [notNull, zombie, next, dequeueTask, same, doSwitch]
  · by_cases same : h = p.curr
    · simp [notNull, zombie, next, pickNextTask, same]
    · simp [notNull, zombie, next, pickNextTask, same, valid, doSwitch]

theorem Linked.kernelSchedule (linked : Linked queue initProc order child s) :
    ∃ h rest, upcoming order s.proc.curr = h :: rest ∧
      kernelSchedule queue s.proc s.frame = .ok (scheduled s.proc s.frame h,
        if h = s.proc.curr then s.frame
        else (doSwitch { s.proc with mem := updateContext s.proc.mem s.frame s.proc.curr } h
          s.frame).2) := by
  have arena := linked.lists.arena
  have among := linked.lists.among
  obtain ⟨h, rest, comes, next⟩ := nextNode_upcoming linked.lists.ring linked.lists.once linked.curr
    fun t ht => arena.runList_ne_queue (among ht)
  have hh := upcoming_mem linked.curr linked.lists.once comes
  exact ⟨h, rest, comes, kernelSchedule_eq s.frame (arena.ne_null (among linked.curr)) next
    (arena.ne_null (among hh))⟩

theorem Linked.scheduled_eq (linked : Linked queue initProc order child s)
    (sched : Scheduled queue s s') :
    ∃ h rest, upcoming order s.proc.curr = h :: rest ∧ s' = { s with
      proc := scheduled s.proc s.frame h
      frame := if h = s.proc.curr then s.frame
        else (doSwitch { s.proc with mem := updateContext s.proc.mem s.frame s.proc.curr } h
          s.frame).2
      held := Function.update s.held s.proc.curr (some s.frame) } := by
  obtain ⟨h, rest, comes, returns⟩ := linked.kernelSchedule
  obtain ⟨p, f, returned, rfl⟩ := sched
  rw [returns] at returned
  obtain ⟨rfl, rfl⟩ := Prod.mk.inj (Except.ok.inj returned)
  exact ⟨h, rest, comes, rfl⟩

structure Switched (order : List Addr) (s s' : ProcRun) : Prop where
  alive : s'.alive = s.alive
  zombies : s'.zombies = s.zombies
  parents : s'.proc.parent = s.proc.parent
  comes : ∃ rest, upcoming order s.proc.curr = s'.proc.curr :: rest

theorem Switched.curr_eq {h : Addr} {rest : List Addr} (after : Switched order s s')
    (next : upcoming order s.proc.curr = h :: rest) : s'.proc.curr = h := by
  obtain ⟨rest', comes⟩ := after.comes
  rw [next] at comes
  exact (List.cons.inj comes).1.symm

theorem Linked.switched (linked : Linked queue initProc order child s)
    (sched : Scheduled queue s s') : Switched order s s' := by
  obtain ⟨h, rest, comes, rfl⟩ := linked.scheduled_eq sched
  exact ⟨rfl, rfl, scheduled_parent s.proc s.frame h, rest, comes⟩

theorem Linked.schedule_keep (linked : Linked queue initProc s.alive child s)
    (sched : Scheduled queue s s') : Linked queue initProc s'.alive child s' := by
  obtain ⟨h, rest, comes, rfl⟩ := linked.scheduled_eq sched
  have running : scheduled s.proc s.frame h = { s.proc with
      mem := updateContext s.proc.mem s.frame s.proc.curr
      curr := h } := by
    simp [linked.running _ linked.curr]
  have hh := upcoming_mem linked.curr linked.lists.once comes
  rw [running]
  exact ⟨linked.lists, linked.nodup, linked.active, linked.first, linked.init, hh, linked.running,
    linked.zombie, linked.childless⟩

theorem Linked.schedule_drop (linked : Linked queue initProc order child s)
    (others : s.alive = order.erase s.proc.curr) (exited : s.proc.curr ∈ s.zombies)
    (notInit : s.proc.curr ≠ initProc) (sched : Scheduled queue s s') :
    Linked queue initProc s'.alive child s' := by
  obtain ⟨h, rest, comes, rfl⟩ := linked.scheduled_eq sched
  have zombie : scheduled s.proc s.frame h = { dequeueTask s.proc s.proc.curr with
      mem := updateContext s.proc.mem s.frame s.proc.curr
      curr := h } := by
    simp [linked.zombie _ exited]
  have left := linked.lists.leave linked.curr
  rw [← others] at left
  obtain ⟨tail, first⟩ := linked.first
  have other : h ≠ s.proc.curr :=
    upcoming_ne linked.curr linked.lists.once comes (first ▸ mem_cons_self) notInit.symm
  rw [zombie]
  refine ⟨left, linked.nodup, ?_, ?_, linked.init, ?_, linked.running, linked.zombie,
    linked.childless⟩
  · show s.proc.numActive - 1 = s.alive.length
    rw [others, length_erase_of_mem linked.curr, linked.active]
  · refine ⟨tail.erase s.proc.curr, ?_⟩
    rw [others, first, erase_cons_tail (by simpa using notInit.symm)]
  · rw [others]
    exact (mem_erase_of_ne other).mpr (upcoming_mem linked.curr linked.lists.once comes)

end Elaborato.Mentos.Process
