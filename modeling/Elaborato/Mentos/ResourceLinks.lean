import Elaborato.Foundation.Links
import Elaborato.Mentos.ResourceIds

/-!
The resource list by its pointers (list_head.h, resource.c), well formed from a head that
`list_head_init` has set and never from the zeroed head of the boot state.
-/
namespace Elaborato.Mentos
open Foundation List

def listHeadInit (l : Links Addr) (head : Addr) : Links Addr :=
  (l.setPrev head head).setNext head head

/-- The function `__list_add`. -/
def listAdd (l : Links Addr) (new prev next : Addr) : Links Addr :=
  (((l.setPrev next new).setNext new next).setPrev new prev).setNext prev new

def listHeadAddTail (l : Links Addr) (new head : Addr) : Links Addr :=
  listAdd l new (l.prev head) head

def listHeadDel (l : Links Addr) (node : Addr) : Links Addr :=
  let l := l.setNext (l.prev node) (l.next node)
  let l := l.setPrev (l.next node) (l.prev node)
  (l.setPrev node node).setNext node node

def listForEach (l : Links Addr) (head : Addr) (fuel : Nat) : Option (List Addr) :=
  walk l.next head fuel (l.next head)

def nodeOf (r : Addr) : Addr := r + 4

def listEntry (node : Addr) : Addr := node - 4

structure LinkedKernel where
  kernel : Kernel
  links : Links Addr

def linkedCreate (head : Addr) (s : LinkedKernel) (category : String) (new : Addr) :
    LinkedKernel :=
  match resourceCreate s.kernel category new with
  | (none, k) => { s with kernel := k }
  | (some r, k) =>
    { kernel := k
      links := listHeadAddTail (listHeadInit s.links (nodeOf r)) (nodeOf r) head }

def linkedDestroy (head : Addr) (fuel : Nat) (s : LinkedKernel) :
    Option Addr → Option LinkedKernel
  | none => some s
  | some r =>
    let k := cleanResourceReference s.kernel r
    let links := listHeadDel s.links (nodeOf r)
    (listForEach links head fuel).map fun nodes =>
      { kernel := { k with
          rList := k.rList.erase r
          rActive := k.rActive - 1
          resources := normalizeIds k.resources ((nodes.map listEntry).filter (· != 0)) }
        links }

def LinkedStep (head : Addr) (s : LinkedKernel) (e : ResourceEvent) (s' : LinkedKernel) : Prop :=
  e.task ∈ s.kernel.queue ∧
    let s := { s with kernel := { s.kernel with curr := e.task } }
    match e.call with
    | .create category new =>
      new ∉ s.kernel.rList ∧ new ≠ 0 ∧ nodeOf new ≠ 0 ∧ nodeOf new ≠ head ∧
        s' = linkedCreate head s category new
    | .destroy r =>
      (∀ a, r = some a → a ∈ s.kernel.rList) ∧ ∃ fuel, linkedDestroy head fuel s r = some s'

def liveNodes (s : LinkedKernel) : List Addr := s.kernel.rList.map nodeOf

def ListWellFormed (head : Addr) (s : LinkedKernel) : Prop :=
  ∃ fuel nodes, listForEach s.links head fuel = some nodes ∧ nodes.Perm (liveNodes s) ∧ 0 ∉ nodes

theorem nodeOf_injective : Function.Injective nodeOf := fun a b h => by
  simpa [nodeOf] using h

@[simp] theorem listEntry_nodeOf (r : Addr) : listEntry (nodeOf r) = r := by
  simp [listEntry, nodeOf]

variable {l : Links Addr} {new head : Addr}

attribute [local simp] listHeadAddTail listAdd listHeadInit listHeadDel resourceCreate

theorem addTail_inserted (away : new ≠ head) (notLast : l.prev head ≠ new) :
    Inserted l (listHeadAddTail l new head) new head := by
  refine ⟨?_, ?_, ?_, ?_, ?_, ?_⟩
  · simp [Ne.symm away]
  · simp
  · simp [Ne.symm notLast]
  · simp
  · intro x notEnd notNew
    simp [notEnd, notNew]
  · intro x notPrev notNew
    simp [notPrev, notNew]

theorem listHeadAddTail_inserted (away : new ≠ head) (notLast : l.prev head ≠ new) :
    Inserted l (listHeadAddTail (listHeadInit l new) new head) new head := by
  have last : (listHeadInit l new).prev head = l.prev head := by
    simp [Ne.symm away]
  rw [← last] at notLast
  have ins := addTail_inserted away notLast
  refine ⟨ins.prevEnd, ins.prevNew.trans last, ins.nextNew, ?_, ?_, ?_⟩
  · rw [← last]
    exact ins.nextLast
  · intro x notEnd notNew
    rw [ins.prevElse x notEnd notNew]
    simp [notNew]
  · intro x notPrev notNew
    rw [← last] at notPrev
    rw [ins.nextElse x notPrev notNew]
    simp [notNew]

variable {node : Addr}

theorem listHeadDel_removed (notPrev : l.prev node ≠ node) (notNext : l.next node ≠ node) :
    Removed l (listHeadDel l node) node := by
  refine ⟨?_, ?_, ?_, ?_⟩
  · simp [notNext, Ne.symm notPrev]
  · simp [notPrev]
  · intro x hx hnode
    simp [hx, hnode, Ne.symm notPrev]
  · intro x hx hnode
    simp [hx, hnode]

theorem listHeadDel_trail {a b : Addr} {xs ys : List Addr} (trail : Trail l b a (xs ++ node :: ys))
    (nodup : (xs ++ node :: ys).Nodup) (left : a ∉ xs ++ node :: ys) (out : b ∉ xs ++ node :: ys) :
    Removed l (listHeadDel l node) node := by
  have member : node ∈ xs ++ node :: ys := by simp
  obtain ⟨-, right, apart⟩ := nodup_append.mp nodup
  apply listHeadDel_removed
  · rcases trail_prev trail with h | h
    · exact h ▸ fun he => left (he ▸ member)
    · exact apart _ h _ mem_cons_self
  · rw [trail_next trail]
    rcases headD_cases b ys with h | h
    · rw [h]
      exact fun he => out (he ▸ member)
    · exact fun he => (nodup_cons.mp right).1 (he ▸ h)

structure Chained (head left : Addr) (s : LinkedKernel) : Prop where
  trail : Trail s.links head left (liveNodes s)
  nodup : (liveNodes s).Nodup
  notHead : head ∉ liveNodes s
  notLeft : left ∉ liveNodes s
  notNull : 0 ∉ s.kernel.rList
  nodeNotNull : 0 ∉ liveNodes s

variable {left r : Addr} {s s' : LinkedKernel} {fuel : Nat}

variable {i : Nat}

section
variable (category : String)
include category

theorem linkedCreate_kernel : (linkedCreate head s category new).kernel =
    (resourceCreate s.kernel category new).2 := by
  cases slot : freeSlot s.kernel <;> simp [linkedCreate, slot]

theorem linkedCreate_full (full : freeSlot s.kernel = none) :
    linkedCreate head s category new = s := by
  simp [linkedCreate, full]

theorem linkedCreate_nodes (slot : freeSlot s.kernel = some i) :
    liveNodes (linkedCreate head s category new) = liveNodes s ++ [nodeOf new] := by
  simp [liveNodes, linkedCreate_kernel, slot]

theorem linkedCreate_inserted (chained : Chained head left s) (slot : freeSlot s.kernel = some i)
    (fresh : new ∉ s.kernel.rList) (notHead : nodeOf new ≠ head) (notLeft : nodeOf new ≠ left) :
    Inserted s.links (linkedCreate head s category new).links (nodeOf new) head := by
  have notLive : nodeOf new ∉ liveNodes s := by
    simpa [liveNodes, nodeOf_injective.eq_iff] using fresh
  have notLast : s.links.prev head ≠ nodeOf new := by
    rcases trail_prev_end chained.trail with h | h
    · exact h ▸ Ne.symm notLeft
    · exact fun he => notLive (he ▸ h)
  simpa [linkedCreate, slot] using listHeadAddTail_inserted notHead notLast

theorem chained_create (chained : Chained head left s) (fresh : new ∉ s.kernel.rList)
    (notNull : new ≠ 0) (nodeNotNull : nodeOf new ≠ 0) (notHead : nodeOf new ≠ head)
    (notLeft : nodeOf new ≠ left) : Chained head left (linkedCreate head s category new) := by
  cases slot : freeSlot s.kernel with
  | none =>
    rw [linkedCreate_full category slot]
    exact chained
  | some i =>
    have ins := linkedCreate_inserted category chained slot fresh notHead notLeft
    have notLive : nodeOf new ∉ liveNodes s := by
      simpa [liveNodes, nodeOf_injective.eq_iff] using fresh
    refine ⟨?_, ?_, ?_, ?_, ?_, ?_⟩
    · rw [linkedCreate_nodes category slot]
      exact trail_inserted ins chained.trail chained.nodup chained.notHead notLive
    · rw [linkedCreate_nodes category slot, ← concat_eq_append]
      exact chained.nodup.concat notLive
    · simpa [linkedCreate_nodes category slot, Ne.symm notHead] using chained.notHead
    · simpa [linkedCreate_nodes category slot, Ne.symm notLeft] using chained.notLeft
    · simpa [linkedCreate_kernel, slot, Ne.symm notNull] using chained.notNull
    · simpa [linkedCreate_nodes category slot, Ne.symm nodeNotNull] using chained.nodeNotNull

end

theorem liveNodes_split (live : r ∈ s.kernel.rList) : ∃ xs ys,
    liveNodes s = xs ++ nodeOf r :: ys ∧ (s.kernel.rList.erase r).map nodeOf = xs ++ ys := by
  obtain ⟨xs, ys, -, whole, erased⟩ := exists_erase_eq live
  exact ⟨xs.map nodeOf, ys.map nodeOf, by simp [liveNodes, whole], by simp [erased]⟩

theorem listHeadDel_chained (chained : Chained head left s) (live : r ∈ s.kernel.rList) :
    Removed s.links (listHeadDel s.links (nodeOf r)) (nodeOf r) := by
  obtain ⟨xs, ys, whole, -⟩ := liveNodes_split live
  exact listHeadDel_trail (whole ▸ chained.trail) (whole ▸ chained.nodup)
    (whole ▸ chained.notLeft) (whole ▸ chained.notHead)

theorem linkedDestroy_some (h : linkedDestroy head fuel s (some r) = some s') :
    ∃ nodes, listForEach s'.links head fuel = some nodes ∧
      s'.links = listHeadDel s.links (nodeOf r) ∧
      s'.kernel = { resourceDestroy s.kernel (some r) with
        resources := normalizeIds s.kernel.resources
          ((nodes.map listEntry).filter (· != 0)) } := by
  obtain ⟨nodes, walked, rfl⟩ := Option.map_eq_some_iff.mp h
  exact ⟨nodes, walked, rfl, rfl⟩

theorem linkedDestroy_nodes (h : linkedDestroy head fuel s (some r) = some s') :
    liveNodes s' = (s.kernel.rList.erase r).map nodeOf := by
  obtain ⟨nodes, -, -, kernel⟩ := linkedDestroy_some h
  rw [liveNodes, kernel]
  rfl

theorem chained_destroy (chained : Chained head left s) (live : r ∈ s.kernel.rList)
    (h : linkedDestroy head fuel s (some r) = some s') : Chained head left s' := by
  obtain ⟨xs, ys, whole, erased⟩ := liveNodes_split live
  obtain ⟨nodes, -, links, kernel⟩ := linkedDestroy_some h
  have rem := links ▸ listHeadDel_chained chained live
  have sub : (liveNodes s').Sublist (liveNodes s) := by
    rw [linkedDestroy_nodes h]
    exact erase_sublist.map nodeOf
  refine ⟨?_, chained.nodup.sublist sub, fun hm => chained.notHead (sub.subset hm),
    fun hm => chained.notLeft (sub.subset hm), ?_, fun hm => chained.nodeNotNull (sub.subset hm)⟩
  · rw [linkedDestroy_nodes h, erased]
    exact trail_removed rem (whole ▸ chained.trail) (whole ▸ chained.nodup)
      (whole ▸ chained.notLeft) (whole ▸ chained.notHead)
  · rw [kernel]
    exact fun hm => chained.notNull (mem_of_mem_erase hm)

theorem chained_curr (chained : Chained head left s) (task : Addr) :
    Chained head left { s with kernel := { s.kernel with curr := task } } :=
  ⟨chained.trail, chained.nodup, chained.notHead, chained.notLeft, chained.notNull,
    chained.nodeNotNull⟩

def Initialised (head : Addr) (s : LinkedKernel) : Prop :=
  Chained head head s ∧ s.links.next head = (liveNodes s).headD head

variable {t : LinkedKernel} {e : ResourceEvent} {trace : List (LinkedKernel × ResourceEvent)}

section
variable (inv : Initialised head s)
include inv

theorem listForEach_initialised :
    listForEach s.links head ((liveNodes s).length + 1) = some (liveNodes s) :=
  walk_ring ⟨inv.1.trail, inv.2⟩ inv.1.notHead

omit inv in
theorem initialised_create (category : String) {new : Addr} (inv : Initialised head s)
    (fresh : new ∉ s.kernel.rList) (notNull : new ≠ 0) (nodeNotNull : nodeOf new ≠ 0)
    (notHead : nodeOf new ≠ head) : Initialised head (linkedCreate head s category new) := by
  refine ⟨chained_create category inv.1 fresh notNull nodeNotNull notHead notHead, ?_⟩
  cases slot : freeSlot s.kernel with
  | none =>
    rw [linkedCreate_full category slot]
    exact inv.2
  | some i =>
    have notLive : nodeOf new ∉ liveNodes s := by
      simpa [liveNodes, nodeOf_injective.eq_iff] using fresh
    rw [linkedCreate_nodes category slot]
    exact (ring_inserted (linkedCreate_inserted category inv.1 slot fresh notHead notHead)
      ⟨inv.1.trail, inv.2⟩ inv.1.nodup inv.1.notHead notLive notHead).2

section
variable (live : r ∈ s.kernel.rList)
include live

theorem ring_listHeadDel :
    Ring (listHeadDel s.links (nodeOf r)) head ((s.kernel.rList.erase r).map nodeOf) := by
  obtain ⟨xs, ys, whole, erased⟩ := liveNodes_split live
  rw [erased]
  exact ring_removed (listHeadDel_chained inv.1 live) (whole ▸ ⟨inv.1.trail, inv.2⟩)
    (whole ▸ inv.1.nodup) (whole ▸ inv.1.notHead)

theorem linkedDestroy_returns : ∃ fuel s', linkedDestroy head fuel s (some r) = some s' := by
  have notHead : head ∉ (s.kernel.rList.erase r).map nodeOf :=
    fun hm => inv.1.notHead ((erase_sublist.map nodeOf).subset hm)
  have walked := walk_ring (ring_listHeadDel inv live) notHead
  exact ⟨_, _, Option.map_eq_some_iff.mpr ⟨_, walked, rfl⟩⟩

theorem initialised_destroy (h : linkedDestroy head fuel s (some r) = some s') :
    Initialised head s' ∧ s'.kernel = resourceDestroy s.kernel (some r) := by
  obtain ⟨nodes, walked, links, kernel⟩ := linkedDestroy_some h
  have inv' : Initialised head s' := by
    refine ⟨chained_destroy inv.1 live h, ?_⟩
    rw [links, linkedDestroy_nodes h]
    exact (ring_listHeadDel inv live).2
  have visited : nodes = (s.kernel.rList.erase r).map nodeOf := by
    rw [← linkedDestroy_nodes h]
    exact walk_unique walked (listForEach_initialised inv')
  have entries : (nodes.map listEntry).filter (· != 0) = s.kernel.rList.erase r := by
    have plain : nodes.map listEntry = s.kernel.rList.erase r := by
      simp [visited, Function.comp_def]
    rw [plain, filter_eq_self]
    intro a ha
    exact bne_iff_ne.mpr fun h => inv.1.notNull (h ▸ mem_of_mem_erase ha)
  refine ⟨inv', ?_⟩
  rw [kernel, entries]
  rfl

end

theorem linkedStep_refines (step : LinkedStep head s e s') :
    ResourceStep s.kernel e s'.kernel ∧ Initialised head s' := by
  obtain ⟨task, call⟩ := e
  obtain ⟨queued, step⟩ := step
  have inv' : Initialised head { s with kernel := { s.kernel with curr := task } } :=
    ⟨chained_curr inv.1 task, inv.2⟩
  cases call with
  | create category new =>
    obtain ⟨fresh, notNull, nodeNotNull, notHead, rfl⟩ := step
    exact ⟨⟨queued, fresh, linkedCreate_kernel category⟩,
      initialised_create category inv' fresh notNull nodeNotNull notHead⟩
  | destroy r =>
    obtain ⟨live, fuel, step⟩ := step
    cases r with
    | none =>
      cases step
      exact ⟨⟨queued, live, rfl⟩, inv'⟩
    | some r =>
      obtain ⟨done, kernel⟩ := initialised_destroy inv' (live r rfl) step
      exact ⟨⟨queued, live, kernel⟩, done⟩

end

theorem initialised_listHeadInit (empty : s.kernel.rList = []) :
    Initialised head { s with links := listHeadInit s.links head } := by
  refine ⟨⟨?_, ?_, ?_, ?_, ?_, ?_⟩, ?_⟩ <;> simp [liveNodes, empty, Trail, listHeadInit]

/-- A run on the pointers of an initialised list is a run on the sequence of live
resources. -/
theorem linked_run_refines (empty : s.kernel.rList = [])
    (run : Exec (LinkedStep head) { s with links := listHeadInit s.links head } trace t) :
    Exec ResourceStep s.kernel (trace.map fun e => (e.1.kernel, e.2)) t.kernel ∧
      listForEach t.links head ((liveNodes t).length + 1) = some (liveNodes t) ∧
      ∀ r ∈ t.kernel.rList, ∃ fuel t', linkedDestroy head fuel t (some r) = some t' := by
  obtain ⟨abstract, inv⟩ := exec_simulation LinkedKernel.kernel (initialised_listHeadInit empty)
    (fun _ _ _ inv step => linkedStep_refines inv step) run
  exact ⟨abstract, listForEach_initialised inv, fun r live => linkedDestroy_returns inv live⟩

structure Booted (head : Addr) (s : LinkedKernel) : Prop where
  notNull : head ≠ 0
  empty : s.kernel.rList = []
  prev : s.links.prev head = 0
  next : s.links.next head = 0

structure NullChained (head : Addr) (s : LinkedKernel) : Prop where
  notNull : head ≠ 0
  chained : Chained head 0 s
  next : s.links.next head = 0

theorem booted_nullChained (boot : Booted head s) : NullChained head s := by
  have none : liveNodes s = [] := by simp [liveNodes, boot.empty]
  refine ⟨boot.notNull, ⟨?_, ?_, ?_, ?_, ?_, ?_⟩, boot.next⟩
  · rw [none]
    exact boot.prev
  all_goals simp [none, boot.empty]

theorem not_listWellFormed (null : head ≠ 0) (next : s.links.next head = 0) :
    ¬ ListWellFormed head s := by
  rintro ⟨fuel, nodes, walked, -, notNull⟩
  rw [listForEach, next] at walked
  exact notNull (walk_first (Ne.symm null) walked)

theorem nullChained_create (category : String) {new : Addr} (inv : NullChained head s)
    (fresh : new ∉ s.kernel.rList) (notNull : new ≠ 0) (nodeNotNull : nodeOf new ≠ 0)
    (notHead : nodeOf new ≠ head) : NullChained head (linkedCreate head s category new) := by
  refine ⟨inv.notNull,
    chained_create category inv.chained fresh notNull nodeNotNull notHead nodeNotNull, ?_⟩
  cases slot : freeSlot s.kernel with
  | none =>
    rw [linkedCreate_full category slot]
    exact inv.next
  | some i =>
    have ins := linkedCreate_inserted category inv.chained slot fresh notHead nodeNotNull
    have notLast : head ≠ s.links.prev head := by
      rcases trail_prev_end inv.chained.trail with h | h
      · exact h ▸ inv.notNull
      · exact fun he => inv.chained.notHead (he ▸ h)
    exact (ins.nextElse head notLast (Ne.symm notHead)).trans inv.next

theorem nullChained_destroy (inv : NullChained head s) (live : r ∈ s.kernel.rList)
    (h : linkedDestroy head fuel s (some r) = some s') : NullChained head s' := by
  obtain ⟨xs, ys, whole, -⟩ := liveNodes_split live
  obtain ⟨nodes, -, links, -⟩ := linkedDestroy_some h
  have rem := listHeadDel_chained inv.chained live
  have notHead := whole ▸ inv.chained.notHead
  have notPrev : head ≠ s.links.prev (nodeOf r) := by
    rcases trail_prev (whole ▸ inv.chained.trail) with h | h
    · exact h ▸ inv.notNull
    · exact fun he => notHead (mem_append_left _ (he ▸ h))
  have notNode : head ≠ nodeOf r := fun he => notHead (by simp [he])
  refine ⟨inv.notNull, chained_destroy inv.chained live h, ?_⟩
  rw [links]
  exact (rem.nextElse head notPrev notNode).trans inv.next

theorem nullChained_step (inv : NullChained head s) (step : LinkedStep head s e s') :
    NullChained head s' := by
  obtain ⟨task, call⟩ := e
  have inv' : NullChained head { s with kernel := { s.kernel with curr := task } } :=
    ⟨inv.notNull, chained_curr inv.chained task, inv.next⟩
  cases call with
  | create category new =>
    obtain ⟨-, fresh, notNull, nodeNotNull, notHead, rfl⟩ := step
    exact nullChained_create category inv' fresh notNull nodeNotNull notHead
  | destroy r =>
    obtain ⟨-, live, fuel, step⟩ := step
    cases r with
    | none =>
      cases step
      exact inv'
    | some r => exact nullChained_destroy inv' (live r rfl) step

/-- From the boot state the loop over the list starts at NULL. -/
theorem listWellFormed_never_from_boot (boot : Booted head s)
    (run : Exec (LinkedStep head) s trace t) :
    Always (fun s => ¬ ListWellFormed head s) trace t := by
  have always := exec_keeps (booted_nullChained boot)
    (fun _ _ _ inv step => nullChained_step inv step) run
  have broken : ∀ s, NullChained head s → ¬ ListWellFormed head s :=
    fun s inv => not_listWellFormed inv.notNull inv.next
  exact ⟨fun e he => broken _ (always.1 e he), broken _ always.2⟩

def bootKernel : LinkedKernel :=
  { kernel := initKernel, links := { prev := fun _ => 0, next := fun _ => 0 } }

theorem linked_run_refines_created : ∃ t, listForEach t.links 100 2 = some [12] ∧
    t.kernel.rList = [8] ∧ ∃ fuel t', linkedDestroy 100 fuel t (some 8) = some t' := by
  have step : LinkedStep 100 { bootKernel with links := listHeadInit bootKernel.links 100 }
      ⟨1, .create "sem" 8⟩ _ := ⟨by decide, by decide, by decide, by decide, by decide, rfl⟩
  obtain ⟨-, visited, destroyed⟩ := linked_run_refines rfl (Exec.refl.next step)
  exact ⟨_, visited, rfl, destroyed 8 (by decide)⟩

def bootCreated : LinkedKernel := linkedCreate 100 bootKernel "sem" 8

theorem bootCreated_step : LinkedStep 100 bootKernel ⟨1, .create "sem" 8⟩ bootCreated :=
  ⟨by decide, by decide, by decide, by decide, by decide, rfl⟩

theorem listForEach_boot_null :
    Exec (LinkedStep 100) bootKernel [(bootKernel, ⟨1, .create "sem" 8⟩)] bootCreated ∧
      listForEach bootCreated.links 100 3 = some [0, 12] ∧ liveNodes bootCreated = [12] ∧
      ¬ ListWellFormed 100 bootCreated :=
  ⟨Exec.refl.next bootCreated_step, by decide, by decide,
    not_listWellFormed (by decide) (by decide)⟩

theorem listWellFormed_never_bootCreated :
    Booted 100 bootKernel ∧ ¬ ListWellFormed 100 bootKernel ∧ ¬ ListWellFormed 100 bootCreated := by
  have boot : Booted 100 bootKernel := ⟨by decide, rfl, rfl, rfl⟩
  have always := listWellFormed_never_from_boot boot (Exec.refl.next bootCreated_step)
  exact ⟨boot, always.1 (bootKernel, ⟨1, .create "sem" 8⟩) (by simp), always.2⟩

end Elaborato.Mentos
