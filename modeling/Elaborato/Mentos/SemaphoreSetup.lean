import Elaborato.Mentos.SemaphoreRuns

/-!
One task creates semaphores and shares them by forking, and what follows for all runs.
-/
namespace Elaborato.Mentos
open Foundation List Function

def createAll (k : Kernel) (creator : Addr) (news : List Addr) : Kernel :=
  news.foldl (fun k new => (sysSemCreate { k with curr := creator } new).2) k

def initAll (k : Kernel) (creator : Addr) (count : Nat) : Kernel :=
  (List.range count).foldl (fun k (i : Nat) => (sysSemInit { k with curr := creator } i).2) k

def forkAll (k : Kernel) (forks : List (Addr × Addr)) : Kernel :=
  forks.foldl (fun k fork => (sysVfork { k with curr := fork.1 } fork.2).2) k

def prepared (start : Kernel) (creator : Addr) (news : List Addr) (forks : List (Addr × Addr)) :
    Kernel :=
  forkAll (initAll (createAll start creator news) creator news.length) forks

def ForkOrder : List Addr → List (Addr × Addr) → Prop
  | _, [] => True
  | queue, (parent, child) :: forks =>
    parent ∈ queue ∧ child ∉ queue ∧ ForkOrder (queue ++ [child]) forks

structure Created (k : Kernel) (creator : Addr) (news : List Addr) : Prop where
  tables : Tables k
  queued : creator ∈ k.queue
  rList : k.rList = news
  rids : ∀ i r, news[i]? = some r → (k.resources r).rid = i
  free : ∀ r ∈ news, (k.resources r).assignedTask = none ∧ (k.resources r).assignedInstances = 0
  semaphores : ∀ i r, news[i]? = some r →
    (k.semaphores i).used = true ∧ (k.semaphores i).semResource = some r
  unused : ∀ i < semMax, news.length ≤ i → (k.semaphores i).used = false
  array : HasCopy k news creator
  others : ∀ t ∈ k.queue, t ≠ creator → HasCopy k [] t

variable {k k' start : Kernel} {creator new : Addr} {news news' : List Addr}
  {forks : List (Addr × Addr)}

theorem fresh_created (fresh : Fresh k) (queued : creator ∈ k.queue) : Created k creator [] := by
  refine ⟨fresh.tables, queued, fresh.empty, by simp, by simp, by simp, ?_, ?_, ?_⟩
  · exact fun i hi _ => fresh.unused i hi
  · exact fun i hi => fresh.arrays creator queued i hi
  · exact fun t ht _ i hi => fresh.arrays t ht i hi

theorem getElem?_snoc {l : List Addr} {a b : Addr} {i : Nat} (h : (l ++ [a])[i]? = some b) :
    l[i]? = some b ∨ (i = l.length ∧ b = a) := by
  rcases Nat.lt_trichotomy i l.length with lt | eq | gt
  · exact .inl (by rwa [getElem?_append_left lt] at h)
  · subst eq
    exact .inr ⟨rfl, by simpa using h.symm⟩
  · have beyond : (l ++ [a]).length ≤ i := by
      rw [length_append, length_singleton]
      omega
    rw [getElem?_eq_none beyond] at h
    cases h

section
variable (created : Created k creator news)
include created

theorem Created.freeSlot (room : news.length < taskResourceMaxAmount) :
    freeSlot { k with curr := creator } = some news.length := by
  rw [Mentos.freeSlot, find?_range_eq_some]
  refine ⟨?_, by simpa using room, ?_⟩
  · simp [created.array news.length room]
  · intro j hj
    simp [created.array j (hj.trans room), hj]

theorem Created.freeSem (room : news.length < semMax) :
    freeSem { k with curr := creator } = some news.length := by
  rw [Mentos.freeSem, find?_range_eq_some]
  refine ⟨?_, by simpa using room, ?_⟩
  · simp [created.unused news.length room le_rfl]
  · intro j hj
    have found : news[j]? = some news[j] := getElem?_eq_getElem hj
    simp [(created.semaphores j _ found).1]

theorem created_snoc (fresh : new ∉ news) (room : news.length < taskResourceMaxAmount) :
    Created (sysSemCreate { k with curr := creator } new).2 creator (news ++ [new]) := by
  have slot := created.freeSlot room
  have inTable : news.length < semMax := room.trans (by decide)
  have free := created.freeSem inTable
  rcases sysSemCreate_cases { k with curr := creator } new with
    ⟨full | full, -⟩ | ⟨id, i, free', slot', -, creates, semaphores⟩
  · exact absurd (free.symm.trans full) (by simp)
  · exact absurd (slot.symm.trans full) (by simp)
  · have hid : id = news.length := Option.some.inj (free'.symm.trans free)
    have hi : i = news.length := Option.some.inj (slot'.symm.trans slot)
    subst hid hi
    generalize (sysSemCreate { k with curr := creator } new).2 = k' at creates semaphores
    have here := created.tables.at_task creator
    obtain ⟨category, record⟩ := creates.record
    have old : ∀ r ∈ news, k'.resources r = k.resources r :=
      fun r member => creates.others r (fun same => fresh (same ▸ member))
    refine ⟨creates.tables here (created.rList ▸ fresh), creates.queue ▸ created.queued,
      by rw [creates.rList, created.rList], ?_, ?_, ?_, ?_, ?_, ?_⟩
    · intro i r found
      rcases getElem?_snoc found with found | ⟨rfl, rfl⟩
      · rw [old r (mem_of_getElem? found)]
        exact created.rids i r found
      · rw [record]
        exact (ridsContiguous_length created.tables.rids).symm.trans (by rw [created.rList])
    · intro r member
      rcases mem_append.mp member with member | member
      · rw [old r member]
        exact created.free r member
      · rw [mem_singleton.mp member, record]
        exact ⟨rfl, rfl⟩
    · intro i r found
      rcases getElem?_snoc found with found | ⟨rfl, rfl⟩
      · have apart : i ≠ news.length := ((List.getElem?_eq_some_iff.mp found).1).ne
        rw [semaphores, update_of_ne apart]
        exact created.semaphores i r found
      · rw [semaphores, update_self]
        exact ⟨rfl, rfl⟩
    · intro i hi beyond
      rw [length_append, length_singleton] at beyond
      rw [semaphores, update_of_ne (by omega)]
      exact created.unused i hi (by omega)
    · intro i hi
      rw [creates.arrays]
      by_cases last : i = news.length
      · subst last
        simp
      · rw [if_neg (fun h => last h.2), show (k.tasks creator).resources i = news[i]? from
          created.array i hi]
        rcases Nat.lt_or_gt_of_ne last with lt | gt
        · rw [getElem?_append_left lt]
        · have beyond : (news ++ [new]).length ≤ i := by
            rw [length_append, length_singleton]
            omega
          rw [getElem?_eq_none gt.le, getElem?_eq_none beyond]
    · rw [creates.queue]
      intro t ht apart i hi
      rw [creates.arrays, if_neg (fun h => apart h.1)]
      exact created.others t ht apart i hi

theorem createAll_created (distinct : (news ++ news').Nodup)
    (room : (news ++ news').length ≤ taskResourceMaxAmount) :
    Created (createAll k creator news') creator (news ++ news') := by
  induction news' generalizing k news with
  | nil => simpa [createAll] using created
  | cons new rest ih =>
    have fresh : new ∉ news := by
      intro member
      exact (nodup_append.mp distinct).2.2 new member new mem_cons_self rfl
    have space : news.length < taskResourceMaxAmount := by
      rw [length_append, length_cons] at room
      omega
    have one := created_snoc created fresh space
    have all := ih one (by simpa using distinct) (by simpa using room)
    simpa [createAll] using all

theorem created_sysSemInit {i : Nat} (hi : i < news.length)
    (room : news.length ≤ taskResourceMaxAmount) :
    Created (sysSemInit { k with curr := creator } i).2 creator news ∧
      ∀ j, ((sysSemInit { k with curr := creator } i).2.semaphores j).value =
        if j = i then 0 else (k.semaphores j).value := by
  have found : news[i]? = some news[i] := getElem?_eq_getElem hi
  obtain ⟨used, resource⟩ := created.semaphores i _ found
  have inTable : i < semMax := hi.trans_le (room.trans (by decide))
  have done := congrArg Prod.snd
    (sysSemInit_used (k := { k with curr := creator }) inTable used resource)
  have touches := touches_sysSemInit { k with curr := creator } i
  have records : ∀ r ∈ news, (sysSemInit { k with curr := creator } i).2.resources r =
      k.resources r := by
    intro r member
    obtain ⟨task, instances⟩ := created.free r member
    rw [done]
    by_cases same : r = news[i]
    · subst same
      simp only [resourceInit, update_self, ← task, ← instances]
      rfl
    · simp only [resourceInit, update_of_ne same]
      rfl
  have word : (sysSemInit { k with curr := creator } i).2.semaphores =
      update k.semaphores i { k.semaphores i with value := 0 } := by
    rw [done]
    rfl
  refine ⟨?_, ?_⟩
  · refine ⟨touches.tables (created.tables.at_task creator),
      by rw [touches.queue]; exact created.queued, touches.rList.trans created.rList,
      ?_, ?_, ?_, ?_, ?_, ?_⟩
    · intro j r found'
      rw [records r (mem_of_getElem? found')]
      exact created.rids j r found'
    · intro r member
      rw [records r member]
      exact created.free r member
    · intro j r found'
      obtain ⟨used', resource'⟩ := created.semaphores j r found'
      obtain ⟨same, kept⟩ := touches.semaphores j
      exact ⟨same.trans used', (kept used').trans resource'⟩
    · intro j hj beyond
      exact (touches.semaphores j).1.trans (created.unused j hj beyond)
    · intro j hj
      rw [touches.tasks]
      exact created.array j hj
    · rw [touches.queue]
      intro t ht apart j hj
      rw [touches.tasks]
      exact created.others t ht apart j hj
  · intro j
    rw [word]
    by_cases same : j = i <;> simp [same]

omit created in
theorem initAll_succ (k : Kernel) (creator : Addr) (count : Nat) :
    initAll k creator (count + 1) =
      (sysSemInit { initAll k creator count with curr := creator } count).2 := by
  simp [initAll, range_succ]

theorem initAll_created (room : news.length ≤ taskResourceMaxAmount) (count : Nat)
    (few : count ≤ news.length) :
    Created (initAll k creator count) creator news ∧
      ∀ i < count, ((initAll k creator count).semaphores i).value = 0 := by
  induction count with
  | zero => exact ⟨created, fun _ h => absurd h (Nat.not_lt_zero _)⟩
  | succ count ih =>
    obtain ⟨before, zero⟩ := ih (Nat.le_of_succ_le few)
    obtain ⟨after, words⟩ := created_sysSemInit before few room
    rw [initAll_succ]
    refine ⟨after, ?_⟩
    intro i hi
    rw [words]
    split
    · rfl
    · exact zero i (by omega)

theorem created_shared (room : news.length ≤ taskResourceMaxAmount)
    (zero : ∀ i < news.length, (k.semaphores i).value = 0) : Shared k news := by
  refine ⟨created.tables, created.rList, created.rids, room, ?_, ?_, ?_, ?_⟩
  · intro i r found
    obtain ⟨used, resource⟩ := created.semaphores i r found
    obtain ⟨task, instances⟩ := created.free r (mem_of_getElem? found)
    refine ⟨used, resource, ?_, ?_⟩
    · simp [task, zero i (List.getElem?_eq_some_iff.mp found).1]
    · simp [task, instances]
  · intro t queued
    by_cases same : t = creator
    · exact .inl (same ▸ created.array)
    · exact .inr (created.others t queued same)
  · intro r member t held
    rw [(created.free r member).1] at held
    cases held
  · intro r member r' member' t t' held
    rw [(created.free r member).1] at held
    cases held

end

attribute [local simp] enqueueTask sysVfork

theorem shared_vfork {parent child : Addr} (shared : Shared k news) (queued : parent ∈ k.queue)
    (fresh : child ∉ k.queue) : Shared (sysVfork { k with curr := parent } child).2 news := by
  have here := shared.at_task parent
  have old : ∀ list t, t ≠ child →
      (HasCopy (sysVfork { k with curr := parent } child).2 list t ↔ HasCopy k list t) := by
    intro list t apart
    simp [HasCopy, apart]
  have new : ∀ list,
      (HasCopy (sysVfork { k with curr := parent } child).2 list child ↔
        HasCopy k list parent) := by
    intro list
    simp [HasCopy]
  refine ⟨tables_vfork here.tables fresh, shared.rList, shared.rids, shared.room,
    shared.semaphores, ?_, ?_, shared.sole⟩
  · intro t inQueue
    by_cases same : t = child
    · rw [same, new, new]
      exact shared.arrays parent queued
    · have before : t ∈ k.queue := by simpa [same] using inQueue
      rw [old news t same, old [] t same]
      exact shared.arrays t before
  · intro r member t held
    obtain ⟨inQueue, copy⟩ := shared.holders r member t held
    have apart : t ≠ child := fun same => fresh (same ▸ inQueue)
    exact ⟨mem_append_left _ inQueue, (old news t apart).mpr copy⟩

theorem forkAll_shared (shared : Shared k news) (order : ForkOrder k.queue forks) :
    Shared (forkAll k forks) news ∧ (forkAll k forks).resources = k.resources := by
  induction forks generalizing k with
  | nil => exact ⟨shared, rfl⟩
  | cons fork forks ih =>
    obtain ⟨parent, child⟩ := fork
    obtain ⟨queued, fresh, rest⟩ := order
    exact ih (shared_vfork shared queued fresh) rest

theorem createAll_queue (k : Kernel) (creator : Addr) (news : List Addr) :
    (createAll k creator news).queue = k.queue := by
  induction news generalizing k with
  | nil => rfl
  | cons new news ih =>
    refine (ih _).trans ?_
    rcases sysSemCreate_cases { k with curr := creator } new with
      ⟨-, -, touches, -⟩ | ⟨id, i, -, -, -, creates, -⟩
    · exact (touches creator).queue
    · exact creates.queue

theorem initAll_queue (k : Kernel) (creator : Addr) (count : Nat) :
    (initAll k creator count).queue = k.queue := by
  induction count with
  | zero => rfl
  | succ count ih =>
    rw [initAll_succ]
    exact (touches_sysSemInit _ _).queue.trans ih

theorem prepared_shared (fresh : Fresh start) (queued : creator ∈ start.queue)
    (distinct : news.Nodup) (room : news.length ≤ taskResourceMaxAmount)
    (order : ForkOrder start.queue forks) :
    Shared (prepared start creator news forks) news ∧
      ∀ r ∈ news, ((prepared start creator news forks).resources r).assignedTask = none := by
  have created := createAll_created (fresh_created fresh queued) distinct room
  obtain ⟨ready, zero⟩ := initAll_created created room news.length le_rfl
  have order' : ForkOrder (initAll (createAll start creator news) creator news.length).queue
      forks := by
    rw [initAll_queue, createAll_queue]
    exact order
  obtain ⟨shared, records⟩ := forkAll_shared (created_shared ready room zero) order'
  refine ⟨shared, ?_⟩
  intro r member
  rw [prepared, records]
  exact (ready.free r member).1

/-- In every interleaving words, resources and matrices agree, and all tasks can be served. -/
theorem smartSem_interleavings (fresh : Fresh start) (queued : creator ∈ start.queue)
    (distinct : news.Nodup) (room : news.length ≤ taskResourceMaxAmount)
    (order : ForkOrder start.queue forks) {trace : List (Kernel × Event)}
    (run : Exec (AcquireStep news) (prepared start creator news forks) trace k) :
    (∀ (task : Addr) (i : Nat) (g : Garbage), task ∈ k.queue →
      Legal news k ⟨task, .semTryAcquire i g⟩ → ∃ answer k',
        runCall true k ⟨task, .semTryAcquire i g⟩ = .ok (answer, k') ∧
          (answer = 0 ∨ answer = 1)) ∧
    (∀ (i : Nat) (r : Addr), news[i]? = some r →
      ((k.semaphores i).value = 1 ↔ (k.resources r).assignedTask ≠ none) ∧
      holdersAfter i trace = (k.resources r).assignedTask.toList ∧
      (holdersAfter i trace).length ≤ 1) ∧
    (∀ g : Garbage, stateSafe (bankerOf k g) k.numActive k.rActive = true ∧
      ∀ j : Fin k.rActive, total k.numActive k.rActive (bankerOf k g) j = 1) ∧
    ∃ (schedule : List (Kernel × Event)) (k' : Kernel), Exec (AcquireStep news) k schedule k' ∧
      (∀ e ∈ schedule, Granted e.1 e.2) ∧
      ∀ task ∈ k.queue, HasCopy k news task →
        Sometimes (fun k => HoldsAll k news task) schedule k' := by
  obtain ⟨ready, free⟩ := prepared_shared fresh queued distinct room order
  obtain ⟨shared, holders⟩ := holdersAfter_run ready free run
  refine ⟨?_, ?_, ?_, ?_⟩
  · rintro task i g inQueue ⟨j, r, same, found, copy, notHeld⟩
    have hij : i = j := by exact_mod_cast same
    subst hij
    rcases shared.runCall_try found inQueue copy notHeld with ⟨-, -, granted⟩ | refused
    · exact ⟨1, _, granted g, .inr rfl⟩
    · exact ⟨0, _, refused g, .inl rfl⟩
  · intro i r found
    have inStep := (shared.semaphores i r found).2.2
    refine ⟨?_, holders i r found, ?_⟩
    · rw [inStep.value]
      split <;> simp_all
    · rw [holders i r found]
      cases (k.resources r).assignedTask <;> simp
  · exact fun g => ⟨shared.accepted g, fun j => shared.total_one g j⟩
  · obtain ⟨schedule, k', whole, served⟩ := schedule_exists shared
    exact ⟨schedule, k', whole.run, whole.granted, served⟩

def preparedPair : Kernel := prepared initKernel 1 [10, 11] [(1, 2)]

theorem smartSem_interleavings_pair : Fresh initKernel ∧ ForkOrder initKernel.queue [(1, 2)] ∧
    ∃ trace k, Exec (AcquireStep [10, 11]) preparedPair trace k ∧ holdersAfter 0 trace = [2] ∧
      ∃ schedule k', Exec (AcquireStep [10, 11]) k schedule k' ∧
        (∀ e ∈ schedule, Granted e.1 e.2) ∧
        Sometimes (fun k => HoldsAll k [10, 11] 1) schedule k' := by
  have order : ForkOrder initKernel.queue [(1, 2)] := ⟨by decide, by decide, True.intro⟩
  have acquire : AcquireStep [10, 11] preparedPair ⟨2, .semTryAcquire 0 zeroGarbage⟩
      (taken { preparedPair with curr := 2 } 0 10) :=
    ⟨⟨0, 10, rfl, rfl, by decide, by decide⟩, ⟨by decide, by decide⟩, 1, rfl⟩
  have run : Exec (AcquireStep [10, 11]) preparedPair
      [(preparedPair, ⟨2, .semTryAcquire 0 zeroGarbage⟩)]
      (taken { preparedPair with curr := 2 } 0 10) := Exec.refl.next acquire
  obtain ⟨-, holders, -, schedule, k', legal, granted, served⟩ :=
    smartSem_interleavings initKernel_fresh (show (1 : Addr) ∈ initKernel.queue by decide)
      (by decide) (by decide) order run
  refine ⟨initKernel_fresh, order, _, _, run, ?_, schedule, k', legal, granted, ?_⟩
  · rw [(holders 0 10 rfl).2.1]
    decide
  · exact served 1 (by decide) (by decide)

end Elaborato.Mentos
