import Elaborato.Mentos.ProcessQueue

/-!
The system calls on the lists of the tasks, each an operation on the lists.
-/
namespace Elaborato.Mentos.Process
open Foundation List Function

variable {queue n stack : Addr} {s p : Proc} {r : Regs} {pid : UInt32}

structure Forked (queue n : Addr) (s p : Proc) : Prop where
  links : p.links = listHeadAddTail
    (listHeadAddTail (initLists s.links n) (children s.curr) (sibling n)) (runList n) queue
  active : p.numActive = s.numActive + 1
  curr : p.curr = s.curr
  state : (p.tasks n).state = .running
  parent : (p.tasks n).parent = s.curr
  tasks : ∀ t, t ≠ n → p.tasks t = s.tasks t

attribute [local simp] enqueueTask Proc.parent

theorem sysVfork_forked (done : sysVfork queue s r n stack = .ok (pid, p)) :
    Forked queue n s p := by
  by_cases notNull : s.curr = 0
  · simp [sysVfork, notNull] at done
  · simp only [sysVfork, if_neg notNull, Except.ok.injEq, Prod.mk.injEq] at done
    obtain ⟨-, rfl⟩ := done
    refine ⟨rfl, rfl, if_neg notNull, ?_, ?_, ?_⟩
    · simp
    · simp
    · intro t other
      simp [other]

theorem sysVfork_returns (queue : Addr) (r : Regs) (n stack : Addr) (notNull : s.curr ≠ 0) :
    ∃ pid p, sysVfork queue s r n stack = .ok (pid, p) := by
  rw [sysVfork, if_neg notNull]
  exact ⟨_, _, rfl⟩

variable {initProc c : Addr} {fuel : Nat} {code : UInt32}

variable {rest : List Addr}

section
variable (ring : Ring s.links queue ((initProc :: rest).map runList))
  (away : runList initProc ≠ queue) (valid : initProc ≠ 0)
include ring away valid

theorem kernelGetRunningProcess_returns (pid : (s.tasks initProc).pid = 1) :
    kernelGetRunningProcess queue (fuel + 1) s 1 = .ok (some initProc) := by
  have head : s.links.next queue = runList initProc := ring.2
  simp only [kernelGetRunningProcess, forEachFind, head, if_neg away, runListEntry_runList,
    pid, bne_iff_ne.mpr valid, beq_self_eq_true, Bool.and_self, if_true, Option.map_some]

theorem kernelGetRunningProcess_first {found : Option Addr} (pid : (s.tasks initProc).pid = 1)
    (done : kernelGetRunningProcess queue fuel s 1 = .ok found) : found = some initProc := by
  cases fuel with
  | zero => cases done
  | succ fuel =>
    rw [kernelGetRunningProcess_returns ring away valid pid] at done
    exact (Except.ok.inj done).symm

end

def marked (s : Proc) (code : UInt32) : Proc :=
  { s with tasks := update s.tasks s.curr { s.tasks s.curr with
      exitCode := (code <<< 8) &&& 0xFF00
      state := .zombie } }

section
variable (ring : Ring s.links queue ((initProc :: rest).map runList))
  (away : runList initProc ≠ queue) (valid : initProc ≠ 0)
include ring away valid

theorem sysExit_marked (pid : (s.tasks initProc).pid = 1)
    (done : sysExit queue fuel s code = .ok p) :
    s.curr ≠ initProc ∧ reparent fuel (marked s code) initProc = .ok p := by
  by_cases notNull : s.curr = 0
  · simp [sysExit, notNull] at done
  rw [sysExit, if_neg notNull] at done
  cases init : kernelGetRunningProcess queue fuel s 1 with
  | error e =>
    rw [init] at done
    cases done
  | ok found =>
    rw [init, kernelGetRunningProcess_first ring away valid pid init] at done
    by_cases same : some initProc = some s.curr
    · simp [Except.bind, same] at done
    · simp only [Except.bind, if_neg same] at done
      exact ⟨fun h => same (congrArg some h.symm), done⟩

theorem sysExit_returns (pid : (s.tasks initProc).pid = 1) (notNull : s.curr ≠ 0)
    (other : s.curr ≠ initProc) (code : UInt32) :
    sysExit queue (fuel + 1) s code = reparent (fuel + 1) (marked s code) initProc := by
  have notInit : ¬ some initProc = some s.curr := fun h => other (Option.some.inj h).symm
  rw [sysExit, if_neg notNull, kernelGetRunningProcess_returns ring away valid pid]
  exact if_neg notInit

end

theorem reparent_none (ring : Ring s.links (children s.curr) []) :
    reparent fuel s initProc = .ok s := by
  have empty : s.links.next (children s.curr) = children s.curr := ring.2
  rw [reparent, if_pos empty]

/-- The one child goes over to init. -/
def adopted (s : Proc) (initProc c : Addr) : Proc :=
  { s with
    tasks := update s.tasks c { s.tasks c with parent := initProc }
    links := listHeadAddTail (listHeadDel s.links (sibling c)) (children initProc) (sibling c) }

section
variable (ring : Ring s.links (children s.curr) [sibling c]) (away : sibling c ≠ children s.curr)
include ring away

theorem reparent_one (stays : (adopted s initProc c).links.next (children s.curr) = children s.curr)
    (ring' : Ring (adopted s initProc c).links (children initProc) [sibling c])
    (away' : sibling c ≠ children initProc) :
    reparent (fuel + 2) s initProc = .ok (adopted s initProc c) := by
  have first : s.links.next (children s.curr) = sibling c := ring.2
  have back : s.links.prev (sibling c) = children s.curr := ring.1.1
  have moved : moveChildren (children s.curr) initProc (fuel + 2) (sibling c) (s.tasks, s.links) =
      some ((adopted s initProc c).tasks, (adopted s initProc c).links) := by
    rw [moveChildren, if_neg away, moveChildren]
    simp only [siblingEntry_sibling, back]
    exact if_pos stays
  have head : (adopted s initProc c).links.next (children initProc) = sibling c := ring'.2
  have last : (adopted s initProc c).links.next (sibling c) = children initProc := ring'.1.2.1
  have listed : listForEach (adopted s initProc c).links (children initProc) (fuel + 2) =
      some [sibling c] := by
    rw [listForEach, head, walk, if_neg away', last, walk, if_pos rfl]
    rfl
  rw [reparent, first, if_neg away, moved]
  simp only [listed]
  rfl

theorem reparent_fuel (done : reparent fuel s initProc = .ok p) : ∃ k, fuel = k + 2 := by
  have first : s.links.next (children s.curr) = sibling c := ring.2
  rw [reparent, first, if_neg away] at done
  match fuel with
  | 0 => cases done
  | 1 => simp [moveChildren, away] at done
  | k + 2 => exact ⟨k, rfl⟩

end

variable {status : Addr} {options ret : UInt32} {freed child : Option Addr}

variable {l : Links Addr} {head node : Addr} {wanted : Addr → Bool}

theorem forEachFind_single (next : l.next node = head) (away : node ≠ head) :
    forEachFind l head wanted (fuel + 2) node = some (if wanted node then some node else none) := by
  rw [forEachFind, if_neg away]
  by_cases h : wanted node = true
  · rw [if_pos h, if_pos h]
  · rw [if_neg h, if_neg h, next, forEachFind, if_pos rfl]

theorem forEachFind_one {found : Option Addr} (next : l.next node = head) (away : node ≠ head)
    (done : forEachFind l head wanted fuel node = some found) :
    found = if wanted node then some node else none := by
  match fuel with
  | 0 => cases done
  | 1 =>
    rw [forEachFind, if_neg away] at done
    by_cases h : wanted node = true
    · rw [if_pos h] at done ⊢
      exact (Option.some.inj done).symm
    · rw [if_neg h] at done
      cases done
  | fuel + 2 =>
    rw [forEachFind_single next away] at done
    exact (Option.some.inj done).symm

theorem failWith_unset (s : Proc) : (failWith s (s.tasks s.curr).errorNo).2.1 = s := by
  simp [failWith]

section
variable (ring : Ring s.links (children s.curr) (child.toList.map sibling))
  (away : ∀ c ∈ child, sibling c ≠ children s.curr)
include ring away

theorem sysWaitpid_cases (done : sysWaitpid fuel s pid status options = .ok (ret, p, freed)) :
    (freed = none ∧ ∃ errno, p = (failWith s errno).2.1) ∨
    ∃ c, child = some c ∧ freed = some c ∧ (s.tasks c).state = .zombie ∧
      p = { s with
        mem := writeWord s.mem status.toNat exitZombie
        links := listHeadDel s.links (sibling c) } := by
  have failed : ∀ errno, failWith s errno = (ret, p, freed) →
      freed = none ∧ ∃ errno, p = (failWith s errno).2.1 := by
    intro errno h
    exact ⟨(congrArg (·.2.2) h).symm, errno, by rw [h]⟩
  unfold sysWaitpid at done
  split_ifs at done with h1 h2 h3 h4 h5
  · exact .inl (failed _ (Except.ok.inj done))
  · exact .inl (failed _ (Except.ok.inj done))
  · exact .inl (failed _ (Except.ok.inj done))
  · exact .inl (failed _ (Except.ok.inj done))
  · cases searched : forEachFind s.links (children s.curr) (reapable s pid) fuel
        (s.links.next (children s.curr)) with
    | none => simp [searched] at done
    | some found =>
      have first := ring.2
      simp only [searched] at done
      cases child with
      | none =>
        obtain rfl : found = none := by
          rw [first] at searched
          cases fuel with
          | zero => cases searched
          | succ fuel => simpa [forEachFind] using searched.symm
        obtain ⟨-, rfl, rfl⟩ : 0 = ret ∧ s = p ∧ none = freed := by simpa using done
        exact .inl ⟨rfl, _, (failWith_unset s).symm⟩
      | some c =>
        rw [first] at searched
        have one := forEachFind_one ring.1.2.1 (away c rfl) searched
        by_cases wanted : reapable s pid (sibling c) = true
        · rw [if_pos wanted] at one
          subst one
          have zombie : (s.tasks c).state = .zombie := by
            simp only [reapable, siblingEntry_sibling, Bool.and_eq_true, beq_iff_eq] at wanted
            exact wanted.1.2
          simp only [siblingEntry_sibling, Except.ok.injEq, Prod.mk.injEq] at done
          exact .inr ⟨c, rfl, done.2.2.symm, zombie, done.2.1.symm⟩
        · rw [if_neg wanted] at one
          subst one
          obtain ⟨-, rfl, rfl⟩ : 0 = ret ∧ s = p ∧ none = freed := by simpa using done
          exact .inl ⟨rfl, _, (failWith_unset s).symm⟩

theorem sysWaitpid_returns (notNull : s.curr ≠ 0) (pid : UInt32) (status : Addr)
    (options : UInt32) :
    ∃ ret p freed, sysWaitpid 2 s pid status options = .ok (ret, p, freed) := by
  obtain ⟨found, searched⟩ : ∃ found, forEachFind s.links (children s.curr) (reapable s pid) 2
      (s.links.next (children s.curr)) = some found := by
    rw [ring.2]
    cases child with
    | none => exact ⟨none, if_pos rfl⟩
    | some c => exact ⟨_, forEachFind_single ring.1.2.1 (away c rfl)⟩
  unfold sysWaitpid
  rw [if_neg notNull, searched]
  split_ifs
  · exact ⟨_, _, _, rfl⟩
  · exact ⟨_, _, _, rfl⟩
  · exact ⟨_, _, _, rfl⟩
  · exact ⟨_, _, _, rfl⟩
  · cases found with
    | none | some it => exact ⟨_, _, _, rfl⟩

end

variable {f : Regs} {handler : UInt32}

theorem sysExecve_mem (done : sysExecve fuel s r handler = .ok (ret, p, f)) :
    p = { s with mem := p.mem } := by
  by_cases notNull : s.curr = 0
  · simp [sysExecve, notNull] at done
  simp only [sysExecve, if_neg notNull] at done
  split_ifs at done
  · obtain ⟨-, rfl, -⟩ := by simpa only [Except.ok.injEq, Prod.mk.injEq] using done
    rfl
  · obtain ⟨-, rfl, -⟩ := by simpa only [Except.ok.injEq, Prod.mk.injEq] using done
    rfl
  · split at done
    · cases done
    · obtain ⟨-, rfl, -⟩ := by simpa only [Except.ok.injEq, Prod.mk.injEq] using done
      rfl

variable {order : List Addr} {child : Addr → Option Addr} {s s' : ProcRun} {mem : ByteMem}

variable {t : Addr}

theorem Linked.alive_ne_zombie (linked : Linked queue initProc order child s) {z : Addr}
    (ht : t ∈ s.alive) (hz : z ∈ s.zombies) : t ≠ z :=
  (nodup_append.mp linked.nodup).2.2 t ht z hz

theorem Linked.transfer (linked : Linked queue initProc order child s)
    (links : s'.proc.links = s.proc.links) (active : s'.proc.numActive = s.proc.numActive)
    (curr : s'.proc.curr = s.proc.curr) (alive : s'.alive = s.alive)
    (zombies : s'.zombies = s.zombies)
    (tasks : ∀ t, (s'.proc.tasks t).pid = (s.proc.tasks t).pid ∧
      (s'.proc.tasks t).state = (s.proc.tasks t).state ∧
      (s'.proc.tasks t).parent = (s.proc.tasks t).parent) :
    Linked queue initProc order child s' := by
  have structs : s'.structs = s.structs := by rw [ProcRun.structs, alive, zombies, ProcRun.structs]
  have parents : s'.proc.parent = s.proc.parent := funext fun t => (tasks t).2.2
  refine ⟨?_, ?_, active.trans linked.active, linked.first, ?_, curr ▸ linked.curr, ?_, ?_, ?_⟩
  · rw [links, parents, structs]
    exact linked.lists
  · rw [structs]
    exact linked.nodup
  · rw [alive, (tasks initProc).1]
    exact linked.init
  · intro t ht
    rw [(tasks t).2.1]
    exact linked.running t (alive ▸ ht)
  · intro t ht
    rw [(tasks t).2.1]
    exact linked.zombie t (zombies ▸ ht)
  · exact fun t ht => linked.childless t (zombies ▸ ht)

def childForked (child : Addr → Option Addr) (parent n : Addr) : Addr → Option Addr :=
  update (update child n none) parent (some n)

theorem Linked.vfork (linked : Linked queue initProc s.alive child s) (placed : Placed queue n)
    (fresh : ∀ t ∈ s.structs, Apart n t) (forked : Forked queue n { s.proc with mem } p)
    (proc : s'.proc = p) (alive : s'.alive = s.alive ++ [n]) (zombies : s'.zombies = s.zombies) :
    Linked queue initProc s'.alive (childForked child s.proc.curr n) s' := by
  have hcurr := linked.lists.among linked.curr
  have more : ∀ t, t ∈ s'.structs ↔ t = n ∨ t ∈ s.structs := by
    intro t
    simp only [ProcRun.structs, alive, zombies, mem_append, mem_singleton]
    tauto
  have old : ∀ t ∈ s.structs, t ≠ n := fun t ht => (fresh t ht).ne
  have tasks : ∀ t ∈ s.structs, p.tasks t = s.proc.tasks t := fun t ht => forked.tasks t (old t ht)
  have inStructs : ∀ t ∈ s.alive, t ∈ s.structs := fun t ht => mem_append_left _ ht
  have created := linked.lists.create placed fresh more
  have owned : p.parent n = s.proc.curr := forked.parent
  have parents : ∀ t, t ≠ n → p.parent t = s.proc.parent t :=
    fun t ht => congrArg Task.parent (forked.tasks t ht)
  have borne := created.bear ((more _).mpr (.inr hcurr)) ((more n).mpr (.inl rfl)) (ring_init _ _)
    (linked.lists.create_orphan fresh more) owned parents
  have queued := borne.enqueue ((more n).mpr (.inl rfl)) fun h => old n (inStructs n h) rfl
  refine ⟨?_, ?_, ?_, ?_, ?_, ?_, ?_, ?_, ?_⟩
  · rw [proc, forked.links, alive]
    exact queued
  · have whole : s'.structs = s.alive ++ n :: s.zombies := by simp [ProcRun.structs, alive, zombies]
    rw [whole]
    exact perm_middle.nodup_iff.mpr
      (nodup_cons.mpr ⟨fun h => old n h rfl, linked.nodup⟩)
  · rw [proc, forked.active, alive, length_append, linked.active]
    rfl
  · obtain ⟨rest, first⟩ := linked.first
    exact ⟨rest ++ [n], by rw [alive, first, cons_append]⟩
  · rw [proc, alive, tasks _ (inStructs _ linked.init.1)]
    exact ⟨mem_append_left _ linked.init.1, linked.init.2⟩
  · rw [proc, alive, forked.curr]
    exact mem_append_left _ linked.curr
  · intro t ht
    rw [alive] at ht
    rw [proc]
    rcases mem_append.mp ht with ht | ht
    · rw [tasks t (inStructs t ht)]
      exact linked.running t ht
    · rw [mem_singleton.mp ht]
      exact forked.state
  · intro t ht
    rw [zombies] at ht
    rw [proc, tasks t (mem_append_right _ ht)]
    exact linked.zombie t ht
  · intro t ht
    rw [zombies] at ht
    have hz : t ∈ s.structs := mem_append_right _ ht
    have notCurr := (linked.alive_ne_zombie linked.curr ht).symm
    rw [childForked, update_of_ne notCurr, update_of_ne (old t hz)]
    exact linked.childless t ht

def childExited (child : Addr → Option Addr) (p initProc : Addr) : Addr → Option Addr :=
  match child p with
  | none => child
  | some c => update (update child p none) initProc (some c)

variable {q : Addr}

theorem childExited_of_none (hq : child q = none) : childExited child q initProc = child := by
  rw [childExited, hq]

theorem childExited_of_some (hq : child q = some c) : childExited child q initProc =
    update (update child q none) initProc (some c) := by
  rw [childExited, hq]

theorem childExited_none (childless : child t = none) (other : t ≠ initProc) :
    childExited child q initProc t = none := by
  cases hq : child q with
  | none => rw [childExited_of_none hq, childless]
  | some c =>
    rw [childExited_of_some hq, update_of_ne other, update_apply, childless, ite_self]

theorem childExited_self (other : q ≠ initProc) : childExited child q initProc q = none := by
  cases hq : child q with
  | none => rw [childExited_of_none hq, hq]
  | some c => rw [childExited_of_some hq, update_of_ne other, update_self]

theorem Lists.reparent {q : Proc} {structs : List Addr}
    (lists : Lists queue q.links q.parent order structs child) (hq : q.curr ∈ structs)
    (hi : initProc ∈ structs) (other : q.curr ≠ initProc) : ∃ p,
      (∀ fuel, reparent (fuel + 2) q initProc = .ok p) ∧
      (∀ fuel p', reparent fuel q initProc = .ok p' → p' = p) ∧
      Lists queue p.links p.parent order structs (childExited child q.curr initProc) ∧
      p.numActive = q.numActive ∧ p.curr = q.curr ∧
      (∀ t, (p.tasks t).pid = (q.tasks t).pid ∧ (p.tasks t).state = (q.tasks t).state) ∧
      ∀ t, p.parent t = if child q.curr = some t then initProc else q.parent t := by
  cases hc : child q.curr with
  | none =>
    have ring := lists.family _ hq
    rw [hc] at ring
    refine ⟨q, fun fuel => reparent_none ring, fun fuel p' done => ?_, ?_, rfl, rfl,
      fun t => ⟨rfl, rfl⟩, fun t => rfl⟩
    · rw [reparent_none ring] at done
      exact (Except.ok.inj done).symm
    · rw [childExited_of_none hc]
      exact lists
  | some c =>
    have hcs := (lists.owner _ hq c hc).1
    have ring := lists.child_ring hq hc
    have away := (lists.arena.children_ne_sibling hq hcs).symm
    have away' := (lists.arena.children_ne_sibling hi hcs).symm
    obtain ⟨alone, orphan⟩ := lists.disown_alone hq hc
    have owned : (adopted q initProc c).parent c = initProc := by simp [adopted]
    have parents : ∀ t, t ≠ c → (adopted q initProc c).parent t = q.parent t := by
      intro t ht
      simp [adopted, ht]
    have borne := (lists.disown hq hc).bear hi hcs alone orphan owned parents
    have stays : (adopted q initProc c).links.next (children q.curr) = children q.curr := by
      have ring := borne.family q.curr hq
      rw [update_of_ne other, update_self] at ring
      exact ring.2
    have ring' := borne.child_ring hi (update_self _ _ _)
    refine ⟨adopted q initProc c, fun fuel => reparent_one ring away stays ring' away',
      fun fuel p' done => ?_, ?_, rfl, rfl, fun t => ?_, fun t => ?_⟩
    · obtain ⟨k, rfl⟩ := reparent_fuel ring away done
      rw [reparent_one ring away stays ring' away'] at done
      exact (Except.ok.inj done).symm
    · rw [childExited_of_some hc]
      exact borne
    · by_cases same : t = c <;> simp [adopted, same]
    · by_cases same : t = c
      · rw [same, owned, if_pos rfl]
      · rw [parents t same, if_neg fun h => same (Option.some.inj h).symm]

theorem marked_task (q : Proc) (code : UInt32) (t : Addr) :
    ((marked q code).tasks t).pid = (q.tasks t).pid ∧ (marked q code).parent t = q.parent t ∧
      ((marked q code).tasks t).state = if t = q.curr then .zombie else (q.tasks t).state := by
  by_cases same : t = q.curr <;> simp [marked, same]

theorem Linked.marked_lists (linked : Linked queue initProc order child s) (mem : ByteMem)
    (code : UInt32) : Lists queue (marked { s.proc with mem } code).links
      (marked { s.proc with mem } code).parent order s.structs child := by
  have parents : (marked { s.proc with mem } code).parent = s.proc.parent :=
    funext fun t => (marked_task _ code t).2.1
  rw [parents]
  exact linked.lists

variable (linked : Linked queue initProc s.alive child s)
include linked

theorem Linked.exit_returns (mem : ByteMem) (code : UInt32) (other : s.proc.curr ≠ initProc) :
    ∃ p, sysExit queue 2 { s.proc with mem } code = .ok p := by
  have lists := linked.lists
  have hi : initProc ∈ s.structs := mem_append_left _ linked.init.1
  have hp := lists.among linked.curr
  obtain ⟨rest, first⟩ := linked.first
  obtain ⟨p, returns, -⟩ := (linked.marked_lists mem code).reparent hp hi other
  refine ⟨p, ?_⟩
  rw [sysExit_returns (s := { s.proc with mem }) (first ▸ lists.ring)
    (lists.arena.runList_ne_queue hi) (lists.arena.ne_null hi) linked.init.2
    (lists.arena.ne_null hp) other]
  exact returns 0

theorem Linked.exit (done : sysExit queue fuel { s.proc with mem } code = .ok p)
    (proc : s'.proc = p) (alive : s'.alive = s.alive.erase s.proc.curr)
    (zombies : s'.zombies = s.zombies ++ [s.proc.curr]) :
    s.proc.curr ≠ initProc ∧ p.curr = s.proc.curr ∧
      (∀ t, p.parent t = if child s.proc.curr = some t then initProc else s.proc.parent t) ∧
      Linked queue initProc s.alive (childExited child s.proc.curr initProc) s' := by
  have lists := linked.lists
  have hi : initProc ∈ s.structs := mem_append_left _ linked.init.1
  obtain ⟨rest, first⟩ := linked.first
  obtain ⟨other, moved⟩ := sysExit_marked (s := { s.proc with mem }) (first ▸ lists.ring)
    (lists.arena.runList_ne_queue hi) (lists.arena.ne_null hi) linked.init.2 done
  have state := marked_task { s.proc with mem } code
  obtain ⟨q, -, only, exited, active, curr, tasks, parents⟩ :=
    (linked.marked_lists mem code).reparent (lists.among linked.curr) hi other
  obtain rfl := only fuel p moved
  have perm : s'.structs.Perm s.structs := by
    rw [ProcRun.structs, alive, zombies, ← append_assoc]
    exact (perm_append_singleton _ _).trans
      ((perm_cons_erase linked.curr).symm.append_right s.zombies)
  have notCurr : ∀ t ∈ s.alive.erase s.proc.curr, t ≠ s.proc.curr := by
    rintro t ht rfl
    exact lists.once.not_mem_erase ht
  refine ⟨other, curr, fun t => ?_, ?_, ?_, ?_, ⟨rest, first⟩, ?_, ?_, ?_, ?_, ?_⟩
  · rw [parents t, (state t).2.1]
    rfl
  · rw [proc]
    exact exited.members fun t => perm.mem_iff
  · exact perm.nodup_iff.mpr linked.nodup
  · rw [proc, active]
    exact linked.active
  · rw [proc, alive, (tasks initProc).1, (state initProc).1]
    exact ⟨(mem_erase_of_ne other.symm).mpr linked.init.1, linked.init.2⟩
  · rw [proc, curr]
    exact linked.curr
  · intro t ht
    rw [alive] at ht
    rw [proc, (tasks t).2, (state t).2.2, if_neg (notCurr t ht)]
    exact linked.running t (mem_of_mem_erase ht)
  · intro t ht
    rw [zombies] at ht
    rw [proc, (tasks t).2, (state t).2.2]
    rcases mem_append.mp ht with ht | ht
    · rw [linked.zombie t ht, ite_self]
    · rw [if_pos (mem_singleton.mp ht)]
  · intro t ht
    rw [zombies] at ht
    rcases mem_append.mp ht with ht | ht
    · exact childExited_none (linked.childless t ht) fun h =>
        linked.alive_ne_zombie linked.init.1 ht h.symm
    · rw [mem_singleton.mp ht]
      exact childExited_self other

theorem Linked.waitpid {pid options ret : UInt32} {status : Addr} {freed : Option Addr}
    (done : sysWaitpid fuel { s.proc with mem } pid status options = .ok (ret, p, freed))
    (proc : s'.proc = p) (alive : s'.alive = s.alive)
    (zombies : s'.zombies = freed.elim s.zombies fun t => s.zombies.erase t) :
    p.curr = s.proc.curr ∧
      ((freed = none ∧ p.parent = s.proc.parent ∧ Linked queue initProc s.alive child s') ∨
        ∃ c, child s.proc.curr = some c ∧ freed = some c ∧ c ∈ s.zombies ∧
          p.parent = s.proc.parent ∧
          Linked queue initProc s.alive (update child s.proc.curr none) s') := by
  have lists := linked.lists
  have hp := lists.among linked.curr
  have away : ∀ c ∈ child s.proc.curr, sibling c ≠ children s.proc.curr :=
    fun c hc => (lists.arena.children_ne_sibling hp (lists.owner _ hp c hc).1).symm
  rcases sysWaitpid_cases (s := { s.proc with mem }) (lists.family _ hp) away done with
    ⟨rfl, errno, rfl⟩ | ⟨c, hc, rfl, zombie, rfl⟩
  · have tasks : ∀ t, ((failWith { s.proc with mem } errno).2.1.tasks t).pid =
        (s.proc.tasks t).pid ∧
        ((failWith { s.proc with mem } errno).2.1.tasks t).state = (s.proc.tasks t).state ∧
        ((failWith { s.proc with mem } errno).2.1.tasks t).parent = (s.proc.tasks t).parent := by
      intro t
      by_cases same : t = s.proc.curr <;> simp [failWith, same]
    refine ⟨rfl, .inl ⟨rfl, funext fun t => (tasks t).2.2, ?_⟩⟩
    refine linked.transfer ?_ ?_ ?_ alive zombies fun t => ?_
    · rw [proc]
      rfl
    · rw [proc]
      rfl
    · rw [proc]
      rfl
    · rw [proc]
      exact tasks t
  · have hcs := (lists.owner _ hp c hc).1
    have exited : c ∈ s.zombies := by
      rcases mem_append.mp hcs with h | h
      · have running := linked.running c h
        rw [show (s.proc.tasks c).state = .zombie from zombie] at running
        cases running
      · exact h
    have perm : s.zombies.Nodup := (nodup_append.mp linked.nodup).2.1
    have zombies' : s'.zombies = s.zombies.erase c := zombies
    have left : ∀ t, t ∈ s'.structs ↔ t ∈ s.structs ∧ t ≠ c := by
      intro t
      rw [ProcRun.structs, alive, zombies', ProcRun.structs, mem_append, mem_append,
        perm.mem_erase_iff]
      constructor
      · rintro (h | h)
        · exact ⟨.inl h, linked.alive_ne_zombie h exited⟩
        · exact ⟨.inr h.2, h.1⟩
      · rintro ⟨h | h, other⟩
        · exact .inl h
        · exact .inr ⟨other, h⟩
    have freed := (lists.disown hp hc).free (lists.disown_alone hp hc).2 left fun t ht =>
      mem_append_left _ (alive ▸ ht)
    refine ⟨rfl, .inr ⟨c, hc, rfl, exited, rfl, ?_, ?_, ?_, linked.first, ?_, ?_, ?_, ?_, ?_⟩⟩
    · rw [proc]
      exact freed
    · rw [ProcRun.structs, alive, zombies']
      exact linked.nodup.sublist (erase_sublist.append_left s.alive)
    · rw [proc]
      exact linked.active
    · rw [proc, alive]
      exact linked.init
    · rw [proc]
      exact linked.curr
    · rw [proc, alive]
      exact linked.running
    · intro t ht
      rw [zombies'] at ht
      rw [proc]
      exact linked.zombie t (mem_of_mem_erase ht)
    · intro t ht
      rw [zombies'] at ht
      rw [update_apply, linked.childless t (mem_of_mem_erase ht), ite_self]

end Elaborato.Mentos.Process
