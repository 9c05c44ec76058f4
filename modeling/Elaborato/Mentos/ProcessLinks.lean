import Elaborato.Mentos.ProcessRuns

/-!
The nodes of the task structures, and what an operation on a list leaves unchanged.
-/
namespace Elaborato.Mentos.Process
open Foundation List

/-- Task structures in their places. -/
structure Arena (queue : Addr) (ts : List Addr) : Prop where
  room : queue.toNat + 8 ≤ 2 ^ 32
  placed : ∀ t ∈ ts, Placed queue t
  apart : ∀ t ∈ ts, ∀ u ∈ ts, t = u ∨ Apart t u

variable {queue t u : Addr} {ts : List Addr}

theorem node_toNat (placed : Placed queue t) {k : UInt32} (small : k.toNat < taskSize) :
    (t + k).toNat = t.toNat + k.toNat := by
  have high := placed.2.1
  rw [UInt32.toNat_add, Nat.mod_eq_of_lt (by omega)]

section
variable (arena : Arena queue ts) (ht : t ∈ ts)
include arena ht

theorem Arena.node_ne (hu : u ∈ ts) {k k' : UInt32} (small : k.toNat < taskSize)
    (small' : k'.toNat < taskSize) (other : k.toNat ≠ k'.toNat) : t + k ≠ u + k' := by
  intro same
  have place := congrArg UInt32.toNat same
  rw [node_toNat (arena.placed t ht) small, node_toNat (arena.placed u hu) small'] at place
  rcases arena.apart t ht u hu with rfl | apart | apart
  all_goals omega

theorem Arena.runList_ne_children (hu : u ∈ ts) :
    runList t ≠ children u := arena.node_ne ht hu (by decide) (by decide) (by decide)

theorem Arena.runList_ne_sibling (hu : u ∈ ts) :
    runList t ≠ sibling u := arena.node_ne ht hu (by decide) (by decide) (by decide)

theorem Arena.children_ne_sibling (hu : u ∈ ts) :
    children t ≠ sibling u := arena.node_ne ht hu (by decide) (by decide) (by decide)

theorem Arena.node_ne_queue {k : UInt32} (small : k.toNat < taskSize) : t + k ≠ queue := by
  intro same
  have place := congrArg UInt32.toNat same
  have placed := arena.placed t ht
  rw [node_toNat placed small] at place
  have away := placed.2.2
  omega

theorem Arena.runList_ne_queue : runList t ≠ queue := arena.node_ne_queue ht (by decide)

theorem Arena.children_ne_queue : children t ≠ queue := arena.node_ne_queue ht (by decide)

theorem Arena.sibling_ne_queue : sibling t ≠ queue := arena.node_ne_queue ht (by decide)

theorem Arena.ne_null : t ≠ 0 := by
  rintro rfl
  exact absurd (arena.placed 0 ht).1 (by decide)

end

theorem Arena.mono {us : List Addr} (arena : Arena queue ts) (fewer : us ⊆ ts) : Arena queue us :=
  ⟨arena.room, fun t ht => arena.placed t (fewer ht),
    fun t ht u hu => arena.apart t (fewer ht) u (fewer hu)⟩

theorem Arena.add (arena : Arena queue ts) (placed : Placed queue t)
    (fresh : ∀ u ∈ ts, Apart t u) : Arena queue (t :: ts) := by
  refine ⟨arena.room, ?_, ?_⟩
  · intro u hu
    rcases mem_cons.mp hu with rfl | hu
    · exact placed
    · exact arena.placed u hu
  · intro u hu w hw
    rcases mem_cons.mp hu with rfl | old
    · rcases mem_cons.mp hw with rfl | old'
      · exact .inl rfl
      · exact .inr (fresh w old')
    · rcases mem_cons.mp hw with rfl | old'
      · exact .inr (fresh u old).symm
      · exact arena.apart u old w old'

theorem runList_injective : Function.Injective runList := fun a b h => by
  simpa [runList] using h

theorem children_injective : Function.Injective children := fun a b h => by
  simpa [children] using h

theorem sibling_injective : Function.Injective sibling := fun a b h => by
  simpa [sibling] using h

@[simp] theorem runListEntry_runList (t : Addr) : runListEntry (runList t) = t := by
  simp [runListEntry, runList]

@[simp] theorem siblingEntry_sibling (t : Addr) : siblingEntry (sibling t) = t := by
  simp [siblingEntry, sibling]

/-- The links of a node are the same. -/
def Agree (l l' : Links Addr) (x : Addr) : Prop := l'.prev x = l.prev x ∧ l'.next x = l.next x

variable {l l' l'' : Links Addr} {x node new head : Addr} {xs : List Addr}

theorem Agree.trans (first : Agree l l' x) (second : Agree l' l'' x) : Agree l l'' x :=
  ⟨second.1.trans first.1, second.2.trans first.2⟩

theorem agree_init (away : x ≠ node) : Agree l (listHeadInit l node) x := by
  simp [Agree, listHeadInit, away]

theorem agree_addTail (notNew : x ≠ new) (notHead : x ≠ head) (notLast : x ≠ l.prev head) :
    Agree l (listHeadAddTail l new head) x := by
  simp [Agree, listHeadAddTail, listAdd, notNew, notHead, notLast]

theorem ring_agree (ring : Ring l head xs) (atHead : Agree l l' head)
    (same : ∀ x ∈ xs, Agree l l' x) : Ring l' head xs :=
  ⟨trail_congr ring.1 atHead.1 (fun x hx => (same x hx).1) (fun x hx => (same x hx).2),
    atHead.2.trans ring.2⟩

attribute [local simp] Foundation.Ring Trail

theorem ring_init (l : Links Addr) (head : Addr) : Ring (listHeadInit l head) head [] := by
  simp [listHeadInit]

theorem ring_addTail_single (ring : Ring l head []) (away : new ≠ head) :
    Ring (listHeadAddTail l new head) new [head] := by
  have alone : l.prev head = head := ring.1
  simp [listHeadAddTail, listAdd, alone, away, Ne.symm away]

theorem ring_del_single (ring : Ring l head [node]) (away : node ≠ head) :
    Ring (listHeadDel l node) head [] ∧ Ring (listHeadDel l node) node [] := by
  obtain ⟨⟨back, forth, -⟩, -⟩ := ring
  simp only [headD_nil] at forth
  constructor
  · simp [listHeadDel, back, forth, away, Ne.symm away]
  · simp [listHeadDel, back, forth, away]

theorem agree_del_single (ring : Ring l head [node]) (notNode : x ≠ node) (notHead : x ≠ head) :
    Agree l (listHeadDel l node) x := by
  obtain ⟨⟨back, forth, -⟩, -⟩ := ring
  simp only [headD_nil] at forth
  simp only [Agree, listHeadDel, Links.setNext_prev, Links.setPrev_prev, Links.setPrev_next,
    Links.setNext_next, back, forth]
  split_ifs <;> simp_all

end Elaborato.Mentos.Process
