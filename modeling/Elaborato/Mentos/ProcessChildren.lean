import Elaborato.Mentos.ProcessTurns
import Mathlib.Data.List.Chain

/-!
The lists of children have room for one child: complete without second children and orphans.
-/
namespace Elaborato.Mentos.Process
open Foundation List Function

variable {parent parent' : Addr → Addr} {structs : List Addr} {initProc c : Addr}

def Line (parent : Addr → Addr) (structs : List Addr) : Prop :=
  structs.IsChain fun p t => parent t = p

theorem Line.congr (line : Line parent structs) (same : ∀ t ∈ structs, parent' t = parent t) :
    Line parent' structs :=
  List.IsChain.imp_of_mem_imp (fun _ t _ ht h => (same t ht).trans h) line

theorem Line.last (line : Line parent structs) (hc : c ∈ structs)
    (childless : ∀ t ∈ structs, parent t ≠ c) : ∃ ts, structs = ts ++ [c] := by
  obtain ⟨as, bs, rfl⟩ := append_of_mem hc
  cases bs with
  | nil => exact ⟨as, rfl⟩
  | cons b bs =>
    exact absurd (isChain_append_cons_cons.mp line).2.1 (childless b (by simp))

theorem Line.parent_mem {rest : List Addr} (line : Line parent (initProc :: rest)) :
    ∀ t ∈ rest, parent t ∈ initProc :: rest := by
  intro t ht
  obtain ⟨as, bs, rfl⟩ := append_of_mem ht
  rcases eq_nil_or_concat as with rfl | ⟨as, a, rfl⟩
  · rw [(isChain_cons_cons.mp line).1]
    exact mem_cons_self
  · have whole : initProc :: (as.concat a ++ t :: bs) = (initProc :: as) ++ a :: t :: bs := by simp
    rw [Line, whole] at line
    rw [(isChain_append_cons_cons.mp line).2.1]
    simp

theorem Line.concat (line : Line parent (structs ++ [c])) {n : Addr} (next : parent n = c) :
    Line parent (structs ++ [c] ++ [n]) := by
  rw [append_assoc]
  exact isChain_append_cons_cons.mpr ⟨line, next, isChain_singleton n⟩

variable {queue p t : Addr} {order : List Addr} {child : Addr → Option Addr} {s s' start : ProcRun}
  {e : Event} {trace : List (ProcRun × Event)}

def ChildrenComplete (s : ProcRun) : Prop :=
  ∀ p ∈ s.structs, ∃ fuel nodes, listForEach s.proc.links (children p) fuel = some nodes ∧
    nodes.Nodup ∧ ∀ t, sibling t ∈ nodes ↔ t ∈ s.structs ∧ (s.proc.tasks t).parent = p

theorem Linked.walk_children (linked : Linked queue initProc order child s)
    (hp : p ∈ s.structs) : listForEach s.proc.links (children p)
      (((child p).toList.map sibling).length + 1) = some ((child p).toList.map sibling) := by
  have lists := linked.lists
  refine walk_ring (lists.family p hp) fun h => ?_
  obtain ⟨c, hc, same⟩ := mem_map.mp h
  have hcs := (lists.owner p hp c (Option.mem_toList.mp hc)).1
  exact lists.arena.children_ne_sibling hp hcs same.symm

theorem sibling_mem_child : sibling t ∈ (child p).toList.map sibling ↔ child p = some t := by
  rw [mem_map_of_injective sibling_injective, Option.mem_toList]

theorem Linked.childrenComplete_iff (linked : Linked queue initProc order child s) :
    ChildrenComplete s ↔
      ∀ p ∈ s.structs, ∀ t ∈ s.structs, s.proc.parent t = p → child p = some t := by
  constructor
  · intro complete p hp t ht owned
    obtain ⟨fuel, nodes, walked, -, listed⟩ := complete p hp
    have found := (listed t).mpr ⟨ht, owned⟩
    rw [← walk_unique (linked.walk_children hp) walked] at found
    exact sibling_mem_child.mp found
  · intro complete p hp
    refine ⟨_, _, linked.walk_children hp, ?_, fun t => ?_⟩
    · refine List.Nodup.map sibling_injective ?_
      cases child p with
      | none => exact nodup_nil
      | some c => exact nodup_singleton c
    · rw [sibling_mem_child]
      constructor
      · exact fun hc => linked.lists.owner p hp t hc
      · exact fun ⟨ht, owned⟩ => complete p hp t ht owned

structure Descent (initProc : Addr) (child : Addr → Option Addr) (s : ProcRun) : Prop where
  root : s.proc.parent initProc = 0
  line : Line s.proc.parent s.structs
  complete : ∀ p ∈ s.structs, ∀ t ∈ s.structs, s.proc.parent t = p → child p = some t

def CallerChildless (s : ProcRun) (e : Event) : Prop :=
  e.call.Quiet ∨ ∀ t ∈ s.structs, (s.proc.tasks t).parent ≠ s.proc.curr

section
variable (descent : Descent initProc child s) (linked : Linked queue initProc s.alive child s)
include descent linked

section
variable (childless : ∀ t ∈ s.structs, s.proc.parent t ≠ s.proc.curr)
include childless

theorem Descent.caller_last :
    s.zombies = [] ∧ ∃ ts, s.alive = ts ++ [s.proc.curr] ∧ s.proc.curr ∉ ts := by
  obtain ⟨ts, whole⟩ := descent.line.last (mem_append_left _ linked.curr) childless
  have none : s.zombies = [] := by
    rcases eq_nil_or_concat s.zombies with none | ⟨zs, z, some⟩
    · exact none
    · rw [ProcRun.structs, some, concat_eq_append, ← append_assoc] at whole
      have same := (append_inj' whole rfl).2
      have hz : s.proc.curr ∈ s.zombies := by simp [some, singleton_inj.mp same]
      exact absurd rfl (linked.alive_ne_zombie linked.curr hz)
  rw [ProcRun.structs, none, append_nil] at whole
  refine ⟨none, ts, whole, fun h => ?_⟩
  have nodup := linked.lists.once
  rw [whole] at nodup
  exact (nodup_append.mp nodup).2.2 _ h _ (mem_singleton.mpr rfl) rfl

omit childless in
theorem Descent.zombie_last {z : Addr} (hz : z ∈ s.zombies) : s.structs.getLast? = some z := by
  have mem : z ∈ s.structs := mem_append_right _ hz
  obtain ⟨ts, whole⟩ := descent.line.last mem fun t ht owned => by
    have listed := descent.complete z mem t ht owned
    rw [linked.childless z hz] at listed
    cases listed
  rw [whole, getLast?_concat]

omit childless in
theorem Descent.one_zombie {c : Addr} (hc : c ∈ s.zombies) : s.zombies = [c] := by
  have same : ∀ z ∈ s.zombies, z = c := fun z hz =>
    Option.some.inj ((descent.zombie_last linked hz).symm.trans (descent.zombie_last linked hc))
  have nodup : s.zombies.Nodup := (nodup_append.mp linked.nodup).2.1
  refine perm_singleton.mp
    ((perm_ext_iff_of_nodup nodup (nodup_singleton c)).mpr fun z => ?_)
  rw [mem_singleton]
  exact ⟨same z, fun h => h ▸ hc⟩

omit childless in
theorem Descent.parent_mem (ht : t ∈ s.structs) :
    s.proc.parent t = 0 ∨ s.proc.parent t ∈ s.structs := by
  obtain ⟨rest, first⟩ := linked.first
  have whole : s.structs = initProc :: (rest ++ s.zombies) := by
    rw [ProcRun.structs, first, cons_append]
  have line := descent.line
  rw [whole] at line ht ⊢
  rcases mem_cons.mp ht with rfl | ht
  · exact .inl descent.root
  · exact .inr (line.parent_mem t ht)

theorem Descent.vfork {n : Addr} (placed : Placed queue n) (fresh : ∀ t ∈ s.structs, Apart n t)
    (alive : s'.alive = s.alive ++ [n]) (zombies : s'.zombies = s.zombies)
    (owned : s'.proc.parent n = s.proc.curr)
    (parents : ∀ t, t ≠ n → s'.proc.parent t = s.proc.parent t) :
    Descent initProc (childForked child s.proc.curr n) s' := by
  obtain ⟨none, ts, whole, -⟩ := descent.caller_last linked childless
  have structs : s.structs = ts ++ [s.proc.curr] := by
    rw [ProcRun.structs, none, append_nil, whole]
  have structs' : s'.structs = s.structs ++ [n] := by
    rw [ProcRun.structs, alive, zombies, none, append_nil, ProcRun.structs, none, append_nil]
  have old : ∀ t ∈ s.structs, t ≠ n := fun t ht => (fresh t ht).ne
  have kept : ∀ t ∈ s.structs, s'.proc.parent t = s.proc.parent t :=
    fun t ht => parents t (old t ht)
  refine ⟨?_, ?_, ?_⟩
  · rw [kept initProc (mem_append_left _ linked.init.1)]
    exact descent.root
  · have line := descent.line.congr kept
    rw [structs']
    rw [structs] at line ⊢
    exact line.concat owned
  · intro p hp t ht listed
    rw [structs'] at hp ht
    rcases mem_append.mp ht with was | new
    · rw [kept t was] at listed
      have notCurr : p ≠ s.proc.curr := fun h => childless t was (listed.trans h)
      have notNew : p ≠ n := by
        rintro rfl
        rcases descent.parent_mem linked was with null | mem
        · rw [← listed, null] at placed
          exact absurd placed.1 (by decide)
        · exact old p (listed ▸ mem) rfl
      have mem : p ∈ s.structs :=
        (mem_append.mp hp).resolve_right fun h => notNew (mem_singleton.mp h)
      rw [childForked, update_of_ne notCurr, update_of_ne notNew]
      exact descent.complete p mem t was listed
    · rw [mem_singleton.mp new] at listed ⊢
      rw [← listed, owned, childForked, update_self]

theorem Descent.exit (alive : s'.alive = s.alive.erase s.proc.curr)
    (zombies : s'.zombies = s.zombies ++ [s.proc.curr]) (parents : ∀ t, s'.proc.parent t =
      if child s.proc.curr = some t then initProc else s.proc.parent t) :
    Descent initProc (childExited child s.proc.curr initProc) s' := by
  have lists := linked.lists
  have alone : child s.proc.curr = none := by
    cases hc : child s.proc.curr with
    | none => rfl
    | some c =>
      obtain ⟨mem, owned⟩ := lists.owner _ (lists.among linked.curr) c hc
      exact absurd owned (childless c mem)
  obtain ⟨none, ts, whole, out⟩ := descent.caller_last linked childless
  have structs : s'.structs = s.structs := by
    rw [ProcRun.structs, alive, zombies, none, ProcRun.structs, none, whole,
      erase_append_right _ out, erase_cons_head]
    simp
  have kept : s'.proc.parent = s.proc.parent := by
    funext t
    rw [parents t, alone, if_neg (by simp)]
  rw [childExited_of_none alone]
  exact ⟨by rw [kept]; exact descent.root, by rw [kept, structs]; exact descent.line,
    by rw [kept, structs]; exact descent.complete⟩

end

theorem Descent.reap {c : Addr} (hc : child s.proc.curr = some c) (exited : c ∈ s.zombies)
    (alive : s'.alive = s.alive) (zombies : s'.zombies = s.zombies.erase c)
    (parents : s'.proc.parent = s.proc.parent) :
    Descent initProc (update child s.proc.curr none) s' := by
  have one := descent.one_zombie linked exited
  have structs : s'.structs = s.alive := by
    rw [ProcRun.structs, alive, zombies, one]
    simp
  refine ⟨by rw [parents]; exact descent.root, ?_, ?_⟩
  · rw [parents, structs]
    exact List.IsChain.left_of_append descent.line
  · intro p hp t ht listed
    rw [structs] at hp ht
    rw [parents] at listed
    have found := descent.complete p (mem_append_left _ hp) t (mem_append_left _ ht)
      listed
    have notCurr : p ≠ s.proc.curr := by
      rintro rfl
      rw [hc] at found
      exact linked.alive_ne_zombie ht exited (Option.some.inj found).symm
    rw [update_of_ne notCurr]
    exact found

omit descent linked in
theorem Linked.vfork_loses (linked : Linked queue initProc s.alive child s) {n : Addr}
    (ht : t ∈ s.structs) (owned : s.proc.parent t = s.proc.curr)
    (fresh : ∀ t ∈ s.structs, Apart n t)
    (linked' : Linked queue initProc s'.alive (childForked child s.proc.curr n) s')
    (alive : s'.alive = s.alive ++ [n]) (zombies : s'.zombies = s.zombies)
    (parents : ∀ t, t ≠ n → s'.proc.parent t = s.proc.parent t) : ¬ ChildrenComplete s' := by
  intro complete
  have still : ∀ x ∈ s.structs, x ∈ s'.structs := by
    intro x hx
    rw [ProcRun.structs, alive, zombies]
    rcases mem_append.mp hx with h | h
    · exact mem_append_left _ (mem_append_left _ h)
    · exact mem_append_right _ h
  have other := (fresh t ht).ne
  have listed := linked'.childrenComplete_iff.mp complete _
    (still _ (linked.lists.among linked.curr)) t (still t ht) ((parents t other).trans owned)
  rw [childForked, update_self] at listed
  exact other (Option.some.inj listed).symm

theorem Descent.exit_loses (ht : t ∈ s.structs) (owned : s.proc.parent t = s.proc.curr)
    (notInit : s.proc.curr ≠ initProc)
    (linked' : Linked queue initProc s'.alive (childExited child s.proc.curr initProc) s')
    (alive : s'.alive = s.alive.erase s.proc.curr)
    (zombies : s'.zombies = s.zombies ++ [s.proc.curr]) (parents : ∀ t, s'.proc.parent t =
      if child s.proc.curr = some t then initProc else s.proc.parent t) :
    ¬ ChildrenComplete s' := by
  intro complete
  have hcurr := linked.lists.among linked.curr
  have hchild := descent.complete _ hcurr t ht owned
  have still : ∀ x ∈ s.structs, x ∈ s'.structs := by
    intro x hx
    rw [ProcRun.structs, alive, zombies]
    by_cases same : x = s.proc.curr
    · simp [same]
    · rcases mem_append.mp hx with h | h
      · exact mem_append_left _ ((mem_erase_of_ne same).mpr h)
      · exact mem_append_right _ (mem_append_left _ h)
  obtain ⟨d, hd, firstborn⟩ : ∃ d ∈ s.structs, s.proc.parent d = initProc := by
    obtain ⟨rest, first⟩ := linked.first
    have line := descent.line
    rw [ProcRun.structs, first] at hcurr line ⊢
    cases more : rest ++ s.zombies with
    | nil =>
      rw [cons_append, more] at hcurr
      exact absurd (mem_singleton.mp hcurr) notInit
    | cons d ds =>
      rw [cons_append, more] at line ⊢
      exact ⟨d, by simp, (isChain_cons_cons.mp line).1⟩
  have other : d ≠ t := by
    rintro rfl
    exact notInit (owned.symm.trans firstborn)
  have owned' : s'.proc.parent d = initProc := by
    rw [parents d, firstborn, ite_self]
  have listed := linked'.childrenComplete_iff.mp complete initProc
    (mem_append_left _ linked'.init.1) d (still d hd) owned'
  rw [childExited_of_some hchild, update_self] at listed
  exact other (Option.some.inj listed).symm

end

def Descending (queue : Addr) (s : ProcRun) : Prop :=
  ∃ initProc child, Linked queue initProc s.alive child s ∧ Descent initProc child s

theorem descending_boot (boot : Booted queue start) : Descending queue start := by
  obtain ⟨initProc, linked⟩ := linked_boot boot
  obtain ⟨-, -, ⟨boot, initProc', stack, handler, main, -, proc, alive⟩, zombies, -⟩ := boot
  obtain rfl : initProc' = initProc := by
    obtain ⟨rest, first⟩ := linked.first
    exact (List.cons.inj (alive.symm.trans first)).1
  have structs : start.structs = [initProc'] := by
    rw [ProcRun.structs, alive, zombies, append_nil]
  have root : start.proc.parent initProc' = 0 := by
    rw [proc]
    simp [Proc.parent, createInitProcess, enqueueTask]
  refine ⟨initProc', _, linked, root, ?_, ?_⟩
  · rw [structs]
    exact isChain_singleton _
  · intro p hp t ht owned
    rw [structs] at hp ht
    rw [mem_singleton.mp ht, root, mem_singleton.mp hp] at owned
    exact absurd owned.symm (linked.lists.arena.ne_null (mem_append_left _ linked.init.1))

theorem descending_step (descending : Descending queue s) (step : ProcStep queue s e s')
    (ok : CallerChildless s e) : Descending queue s' := by
  obtain ⟨mem, frame, call⟩ := e
  obtain ⟨initProc, child, linked, descent⟩ := descending
  obtain ⟨outcome, -⟩ := linked.step step
  cases outcome with
  | kept quiet linked' alive zombies parents =>
    have structs : s'.structs = s.structs := by
      rw [ProcRun.structs, alive, zombies, ProcRun.structs]
    refine ⟨initProc, child, linked', ?_, ?_, ?_⟩
    · rw [parents]
      exact descent.root
    · rw [parents, structs]
      exact descent.line
    · rw [parents, structs]
      exact descent.complete
  | forked placed fresh linked' alive zombies owned parents =>
    have childless := ok.resolve_left id
    exact ⟨initProc, _, linked',
      descent.vfork linked childless placed fresh alive zombies owned parents⟩
  | exited notInit linked' alive zombies parents =>
    have childless := ok.resolve_left id
    exact ⟨initProc, _, linked', descent.exit linked childless alive zombies parents⟩
  | reaped hc exited linked' alive zombies parents =>
    exact ⟨initProc, _, linked', descent.reap linked hc exited alive zombies parents⟩

theorem descending_broken (descending : Descending queue s) (step : ProcStep queue s e s')
    (bad : ¬ CallerChildless s e) : ¬ ChildrenComplete s' := by
  obtain ⟨mem, frame, call⟩ := e
  obtain ⟨initProc, child, linked, descent⟩ := descending
  obtain ⟨loud, some⟩ := not_or.mp bad
  obtain ⟨t, ht, owned⟩ : ∃ t ∈ s.structs, s.proc.parent t = s.proc.curr := by
    by_contra none
    exact some fun t ht owned => none ⟨t, ht, owned⟩
  obtain ⟨outcome, -⟩ := linked.step step
  cases outcome with
  | kept quiet => exact absurd quiet loud
  | forked _ fresh linked' alive zombies _ parents =>
    exact linked.vfork_loses ht owned fresh linked' alive zombies parents
  | exited notInit linked' alive zombies parents =>
    exact descent.exit_loses linked ht owned notInit linked' alive zombies parents
  | reaped => exact absurd trivial loud

/-- The lists are complete exactly when no task with a child makes another or exits. -/
theorem childrenComplete_run_iff (boot : Booted queue start)
    (run : Exec (ProcStep queue) start trace s) :
    Always ChildrenComplete trace s ↔ ∀ e ∈ trace, CallerChildless e.1 e.2 := by
  refine exec_always_iff (descending_boot boot) ?_ (fun s e s' => descending_step)
    (fun s e s' => descending_broken) run
  rintro s ⟨initProc, child, linked, descent⟩
  exact linked.childrenComplete_iff.mpr descent.complete

theorem childrenComplete_run_iff_forked : ∃ e s,
    Exec (ProcStep 0x1000) (bootRun 0x1000 0x10000 0x1000000)
      [(bootRun 0x1000 0x10000 0x1000000, e)] s ∧ s.alive = [0x10000, 0x20000] ∧
    Always ChildrenComplete [(bootRun 0x1000 0x10000 0x1000000, e)] s := by
  obtain ⟨e, s, step, -, alive, -⟩ := bootRun_forks
  have run := Exec.refl.next step
  refine ⟨e, s, run, alive, (childrenComplete_run_iff bootRun_booted run).mpr ?_⟩
  intro e he
  obtain rfl := mem_singleton.mp he
  refine .inr fun t ht => ?_
  obtain rfl : t = 0x10000 := by simpa [ProcRun.structs, bootRun] using ht
  show ((bootRun 0x1000 0x10000 0x1000000).proc.tasks 0x10000).parent ≠
    (bootRun 0x1000 0x10000 0x1000000).proc.curr
  decide

theorem childrenComplete_second_vfork : ∃ trace s,
    Exec (ProcStep 0x1000) (bootRun 0x1000 0x10000 0x1000000) trace s ∧
    0x20000 ∈ s.alive ∧ (s.proc.tasks 0x20000).parent = 0x10000 ∧
    (∃ fuel, listForEach s.proc.links (children 0x10000) fuel = some [sibling 0x30000]) ∧
    ¬ ChildrenComplete s := by
  obtain ⟨e, s₁, step₁, linked₁, alive₁, zombies₁, curr₁, -, owned₁⟩ := bootRun_forks
  obtain ⟨s₂, step₂, linked₂, after₂⟩ := linked₁.ticks
  have alive₂ := after₂.alive.trans alive₁
  have structs : s₂.structs = [0x10000, 0x20000] := by
    rw [ProcRun.structs, alive₂, after₂.zombies, zombies₁, append_nil]
  have curr₂ : s₂.proc.curr = 0x10000 := by
    have next : upcoming [(0x10000 : Addr), 0x20000] 0x20000 = [0x10000, 0x20000] := by decide
    exact after₂.curr_eq (by rw [alive₁, curr₁, next])
  have fresh : ∀ t ∈ s₂.structs, Apart 0x30000 t := by
    intro t ht
    unfold Apart
    rcases mem_pair.mp (structs ▸ ht) with rfl | rfl <;> decide
  have clear : Clear s₂ (0x3000000 : Addr).toNat defaultStackSize := by
    refine clear_above fun t ht => ?_
    rcases mem_pair.mp (structs ▸ ht) with rfl | rfl <;> decide
  obtain ⟨s₃, step₃, linked₃, alive₃, zombies₃, -, parents₃, -⟩ :=
    linked₂.forks s₂.frame (by unfold Placed; decide) fresh clear
  have owned₃ : s₃.proc.parent 0x20000 = 0x10000 := by
    rw [parents₃ _ (by decide), after₂.parents, owned₁]
  have mem₃ : 0x10000 ∈ s₃.structs := by simp [ProcRun.structs, alive₃, alive₂]
  have walked := linked₃.walk_children mem₃
  rw [curr₂, childForked, update_self] at walked
  refine ⟨_, s₃, ((Exec.refl.next step₁).next step₂).next step₃, by simp [alive₃, alive₂], owned₃,
    ⟨_, walked⟩, ?_⟩
  refine linked₂.vfork_loses (t := 0x20000) ?_ ?_ fresh linked₃ alive₃ zombies₃ parents₃
  · rw [structs]
    decide
  · rw [after₂.parents, owned₁, curr₂]

end Elaborato.Mentos.Process
