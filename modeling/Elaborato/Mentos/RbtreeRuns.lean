import Mathlib.Data.Fintype.Card
import Mathlib.Data.List.Perm.Basic
import Elaborato.Foundation.Execution
import Elaborato.Mentos.RbtreeInsert
import Elaborato.Mentos.RbtreeRemove

/-!
Runs from the empty tree: every insertion raises the size and every removal lowers it.
-/
namespace Elaborato.Mentos.Rbtree
open Foundation Foundation.ColorTree List

variable {P V : Type} {m : Heap P V} {t t' : ColorTree P V} {cmp : V → V → Int}

theorem holds_unique (holds : Holds m t) (holds' : Holds m t') (same : t.root = t'.root) :
    t = t' := by
  induction t generalizing t' with
  | leaf =>
    cases t' with
    | leaf => rfl
    | node => cases same
  | node a c v kids ih =>
    cases t' with
    | leaf => cases same
    | node a' c' v' kids' =>
      cases same
      have here := holds.1.symm.trans holds'.1
      rw [RbNode.mk.injEq] at here
      obtain ⟨rfl, links, rfl⟩ := here
      have equal : kids = kids' := by
        funext b
        exact ih b (holds.2 b) (holds'.2 b) (congrFun links b)
      rw [equal]

section Sizes
variable [DecidableEq P] {m' : Heap P V} {self self' : RbTree P} {null value : V} {head node : P}
  {n : Nat} {r : Int} {size : UInt32} {root : Option P}

theorem insertEnd_size (done : insertEnd m root size = .ok (r, m', self')) :
    self'.size = size + 1 := by
  cases root with
  | none => cases done
  | some a =>
    cases done
    rfl

theorem rbtreeTreeInsert_size
    (done : rbtreeTreeInsert cmp null head n m self node value = .ok (r, m', self')) :
    self'.size = self.size + 1 := by
  rw [rbtreeTreeInsert, rbtreeTreeInsertNode] at done
  cases start : self.root with
  | none =>
    rw [start] at done
    exact insertEnd_size done
  | some a =>
    rw [start] at done
    simp only at done
    generalize insertLoop cmp node n _ = loop at done
    cases loop with
    | error halt => cases done
    | ok m₁ => exact insertEnd_size done

omit [DecidableEq P] in
theorem increasing_nodup (order : IsOrder cmp) {values : List V}
    (increasing : Increasing cmp values) : values.Nodup := by
  refine increasing.imp fun {a b} less same => ?_
  rw [same, order.self_eq] at less
  exact Int.lt_irrefl 0 less

omit [DecidableEq P] in
theorem labels_inserted (order : IsOrder cmp) (increasing : Increasing cmp t.toList)
    (increasing' : Increasing cmp t'.toList)
    (mem : ∀ x, x ∈ t'.toList ↔ x ∈ t.toList ∨ x = value ∧ ∀ y ∈ t.toList, cmp y value ≠ 0) :
    ((∀ y ∈ t.toList, cmp y value ≠ 0) → t'.labels.length = t.labels.length + 1) ∧
    ((∃ y ∈ t.toList, cmp y value = 0) → t'.labels.length = t.labels.length) := by
  have nodup := increasing_nodup order increasing
  have nodup' := increasing_nodup order increasing'
  rw [length_labels, length_labels]
  constructor
  · intro absent
    have new : value ∉ t.toList := fun inside => absent value inside (order.self_eq value)
    refine ((perm_ext_iff_of_nodup nodup' (nodup_cons.mpr ⟨new, nodup⟩)).mpr
      fun x => ?_).length_eq
    rw [mem, mem_cons, or_comm, and_iff_left absent]
  · rintro ⟨y, inside, equal⟩
    refine ((perm_ext_iff_of_nodup nodup' nodup).mpr fun x => ?_).length_eq
    rw [mem, or_iff_left]
    exact fun new => new.2 y inside equal

omit [DecidableEq P] in
theorem labels_takenOut {calls : List (P × V)}
    (taken : TakenOut cmp value t.toList t'.toList t'.labels calls) :
    ((∃ x ∈ t.toList, cmp x value = 0) → t.labels.length = t'.labels.length + 1) ∧
    ((∀ x ∈ t.toList, cmp x value ≠ 0) → t.labels.length = t'.labels.length) := by
  rw [length_labels, length_labels]
  rcases taken with ⟨-, same, absent⟩ | ⟨q, w, l, r, -, -, equal, old, new⟩
  · rw [same]
    refine ⟨?_, fun _ => rfl⟩
    rintro ⟨x, inside, equal⟩
    exact absurd equal (absent x inside)
  · rw [old, new]
    refine ⟨fun _ => ?_, fun absent => absurd equal (absent w (by simp))⟩
    simp only [length_append, length_cons]
    omega

end Sizes

variable [DecidableEq P]

structure RbState (P V : Type) where
  mem : Heap P V
  tree : RbTree P

inductive RbCall (P V : Type)
  | insert (value : V) (new : Option P) (head : P)
  | remove (value : V) (head : P)
  deriving DecidableEq, Repr

def RbCall.run (cmp : V → V → Int) (null : V) (fuel : Nat) (s : RbState P V) :
    RbCall P V → Except RbHalt (Int × Heap P V × RbTree P)
  | insert _ none _ => .ok (1, s.mem, s.tree)
  | insert value (some new) head => rbtreeTreeInsert cmp null head fuel s.mem s.tree new value
  | remove value head => rbtreeTreeRemove cmp null head fuel s.mem s.tree value

/-- The tree in the memory. -/
structure HasTree (s : RbState P V) (t : ColorTree P V) : Prop where
  root : s.tree.root = t.root
  holds : Holds s.mem t

def RbCall.Made (s : RbState P V) : RbCall P V → Prop
  | insert _ new head => ∀ t, HasTree s t →
      head ∉ t.labels ∧ ∀ p, new = some p → p ∉ t.labels ∧ head ≠ p
  | remove _ head => ∀ t, HasTree s t → head ∉ t.labels

def RbStep (cmp : V → V → Int) (null : V) (fuel : Nat) (s : RbState P V) (a : RbCall P V)
    (s' : RbState P V) : Prop :=
  a.Made s ∧ ∃ r, a.run cmp null fuel s = .ok (r, s'.mem, s'.tree)

/-- The size is the number of nodes. -/
def ExactSize (s : RbState P V) : Prop :=
  ∃ t, HasTree s t ∧ (rbtreeTreeSize s.tree).toNat = t.labels.length

def Answered (cmp : V → V → Int) (null : V) (fuel : Nat) (s : RbState P V) : RbCall P V → Prop
  | .insert _ _ _ => True
  | .remove value head => ∀ r mem tree,
      rbtreeTreeRemove cmp null head fuel s.mem s.tree value = .ok (r, mem, tree) →
      ((∃ t t', HasTree s t ∧ HasTree ⟨mem, tree⟩ t' ∧ t'.labels.length < t.labels.length) →
        r = 1) ∧
      (¬ (∃ t t', HasTree s t ∧ HasTree ⟨mem, tree⟩ t' ∧ t'.labels.length < t.labels.length) →
        r = 0)

def HasEqual (cmp : V → V → Int) (s : RbState P V) (value : V) : Prop :=
  ∃ t, HasTree s t ∧ ∃ x ∈ t.toList, cmp x value = 0

def RbCall.Fits (cmp : V → V → Int) (s : RbState P V) : RbCall P V → Prop
  | insert value new _ => new = none ∨ ¬ HasEqual cmp s value
  | remove value _ => HasEqual cmp s value

structure SizeInv (cmp : V → V → Int) (s : RbState P V) (t : ColorTree P V) : Prop where
  tree : IsRbTree cmp s.mem s.tree t
  size : s.tree.size.toNat = t.labels.length

variable {s s' : RbState P V} {null value : V} {fuel : Nat} {head : P}

section
variable (inv : SizeInv cmp s t)
include inv

omit [DecidableEq P] in
theorem SizeInv.hasTree : HasTree s t := ⟨inv.tree.root, inv.tree.holds⟩

omit [DecidableEq P] in
omit inv in
theorem HasTree.unique (first : HasTree s t) (second : HasTree s t') : t = t' :=
  holds_unique first.holds second.holds (first.root.symm.trans second.root)

omit [DecidableEq P] in
theorem SizeInv.exact : ExactSize s := ⟨t, inv.hasTree, inv.size⟩

omit [DecidableEq P] in
theorem SizeInv.hasEqual_iff : HasEqual cmp s value ↔ ∃ x ∈ t.toList, cmp x value = 0 := by
  constructor
  · rintro ⟨t', has, found⟩
    exact inv.hasTree.unique has ▸ found
  · exact fun found => ⟨t, inv.hasTree, found⟩

omit [DecidableEq P] in
theorem SizeInv.labels_le [Fintype P] : t.labels.length ≤ Fintype.card P :=
  inv.tree.distinct.length_le_card

end

theorem SizeInv.insert [Fintype P] {new : P} (order : IsOrder cmp)
    (enough : 2 * Fintype.card P + 1 ≤ fuel) (inv : SizeInv cmp s t)
    (hstep : RbStep cmp null fuel s (.insert value (some new) head) s') :
    ∃ t', IsRbTree cmp s'.mem s'.tree t' ∧ s'.tree.size = s.tree.size + 1 ∧
      (¬ HasEqual cmp s value → t'.labels.length = t.labels.length + 1) ∧
      (HasEqual cmp s value → t'.labels.length = t.labels.length) := by
  obtain ⟨made, r, done⟩ := hstep
  obtain ⟨outHead, fresh⟩ := made t inv.hasTree
  obtain ⟨outNode, apart⟩ := fresh new rfl
  have low := (height_le_labels t).trans inv.labels_le
  obtain ⟨m', self', t', called, tree', mem⟩ := rbtreeTreeInsert_tree null value order inv.tree
    outHead outNode apart (n := fuel) (by omega)
  have same : (⟨m', self'⟩ : RbState P V) = s' := by
    cases s'
    cases called.symm.trans done
    rfl
  subst same
  have counted := labels_inserted order inv.tree.increasing tree'.increasing mem
  refine ⟨t', tree', rbtreeTreeInsert_size called, fun absent => ?_,
    fun there => counted.2 (inv.hasEqual_iff.mp there)⟩
  refine counted.1 fun y inside equal => absent ?_
  exact inv.hasEqual_iff.mpr ⟨y, inside, equal⟩

theorem SizeInv.remove [Fintype P] (order : IsOrder cmp)
    (enough : 2 * Fintype.card P + 1 ≤ fuel) (inv : SizeInv cmp s t)
    (hstep : RbStep cmp null fuel s (.remove value head) s') :
    rbtreeTreeRemove cmp null head fuel s.mem s.tree value = .ok (1, s'.mem, s'.tree) ∧
    ∃ t', IsRbTree cmp s'.mem s'.tree t' ∧ (t.root ≠ none → s'.tree.size = s.tree.size - 1) ∧
      (HasEqual cmp s value → t.labels.length = t'.labels.length + 1) ∧
      (¬ HasEqual cmp s value → t.labels.length = t'.labels.length) := by
  obtain ⟨made, r, done⟩ := hstep
  have low := (height_le_labels t).trans inv.labels_le
  obtain ⟨m', self', t', calls, called, tree', taken, size⟩ :=
    rbtreeTreeRemoveWithCb_takenOut null value order inv.tree (made t inv.hasTree) (n := fuel)
      (by omega)
  have removed : rbtreeTreeRemove cmp null head fuel s.mem s.tree value = .ok (1, m', self') := by
    rw [rbtreeTreeRemove, called]
    rfl
  have same : (⟨m', self'⟩ : RbState P V) = s' := by
    cases s'
    cases removed.symm.trans done
    rfl
  subst same
  have counted := labels_takenOut taken
  refine ⟨removed, t', tree', size, fun there => counted.1 (inv.hasEqual_iff.mp there),
    fun absent => counted.2 fun x inside equal => absent ?_⟩
  exact inv.hasEqual_iff.mpr ⟨x, inside, equal⟩

theorem SizeInv.keeps [Fintype P] (few : Fintype.card P < 2 ^ 32) (order : IsOrder cmp)
    (enough : 2 * Fintype.card P + 1 ≤ fuel) {a : RbCall P V} (inv : SizeInv cmp s t)
    (hstep : RbStep cmp null fuel s a s') (fits : a.Fits cmp s) :
    (∃ t', SizeInv cmp s' t') ∧ Answered cmp null fuel s a := by
  cases a with
  | insert value new head =>
    refine ⟨?_, trivial⟩
    cases new with
    | none =>
      obtain ⟨mem, tree⟩ := s'
      obtain ⟨-, r, done⟩ := hstep
      cases done
      exact ⟨t, inv⟩
    | some p =>
      obtain ⟨t', tree', size, counted, -⟩ := inv.insert order enough hstep
      have labels := counted (fits.resolve_left (Option.some_ne_none p))
      have room := tree'.distinct.length_le_card
      refine ⟨t', tree', ?_⟩
      rw [size, UInt32.toNat_add, inv.size, labels, UInt32.toNat_one]
      exact Nat.mod_eq_of_lt (by omega)
  | remove value head =>
    obtain ⟨removed, t', tree', size, counted, -⟩ := inv.remove order enough hstep
    have labels := counted fits
    have inhabited : t.root ≠ none := by
      cases t with
      | leaf => cases labels
      | node a c v kids => exact Option.some_ne_none a
    refine ⟨⟨t', tree', ?_⟩, fun r mem tree done => ?_⟩
    · have positive : 1 ≤ s.tree.size := by
        rw [UInt32.le_iff_toNat_le, inv.size, labels]
        exact Nat.le_add_left 1 _
      rw [size inhabited, UInt32.toNat_sub_of_le _ _ positive, inv.size, labels]
      rfl
    · cases removed.symm.trans done
      refine ⟨fun _ => rfl, fun no => absurd ⟨t, t', inv.hasTree, ?_, ?_⟩ no⟩
      · exact ⟨tree'.root, tree'.holds⟩
      · omega

theorem SizeInv.breaks [Fintype P] (order : IsOrder cmp)
    (enough : 2 * Fintype.card P + 1 ≤ fuel) {a : RbCall P V} (inv : SizeInv cmp s t)
    (hstep : RbStep cmp null fuel s a s') (misfit : ¬ a.Fits cmp s) (exact : ExactSize s') :
    ¬ Answered cmp null fuel s a := by
  cases a with
  | insert value new head =>
    cases new with
    | none => exact absurd (.inl rfl) misfit
    | some p =>
      obtain ⟨t', tree', size, -, counted⟩ := inv.insert order enough hstep
      have labels := counted (Classical.not_not.mp fun no => misfit (.inr no))
      have room := tree'.distinct.length_le_card
      obtain ⟨t'', has, count⟩ := exact
      have same := has.unique ⟨tree'.root, tree'.holds⟩
      rw [rbtreeTreeSize, size, UInt32.toNat_add, inv.size, same, labels, UInt32.toNat_one] at count
      omega
  | remove value head =>
    obtain ⟨removed, t', tree', -, -, counted⟩ := inv.remove order enough hstep
    have labels := counted misfit
    intro answered
    have zero := (answered 1 s'.mem s'.tree removed).2 ?_
    · cases zero
    · rintro ⟨t₁, t₂, has, has', fewer⟩
      rw [has.unique inv.hasTree, has'.unique ⟨tree'.root, tree'.holds⟩] at fewer
      omega

/-- The state has a tree of its size. -/
def Sized (cmp : V → V → Int) (s : RbState P V) : Prop := ∃ t, SizeInv cmp s t

/-- Exact if each insertion is of a new value and each removal of a value that is there. -/
theorem exactSize_run_iff [Fintype P] (few : Fintype.card P < 2 ^ 32) (order : IsOrder cmp)
    (enough : 2 * Fintype.card P + 1 ≤ fuel) {trace : List (RbState P V × RbCall P V)}
    (run : Exec (RbStep cmp null fuel) ⟨m, ⟨none, 0⟩⟩ trace s) :
    (Always ExactSize trace s ∧ ∀ e ∈ trace, Answered cmp null fuel e.1 e.2) ↔
      ∀ e ∈ trace, e.2.Fits cmp e.1 := by
  have start : SizeInv cmp (⟨m, ⟨none, 0⟩⟩ : RbState P V) .leaf :=
    ⟨⟨rfl, trivial, nodup_nil, List.Pairwise.nil, ⟨0, .leaf⟩, rfl⟩, rfl⟩
  have init : Sized cmp (⟨m, ⟨none, 0⟩⟩ : RbState P V) := ⟨.leaf, start⟩
  refine exec_always_and_iff init ?_ ?_ ?_ run
  · rintro s ⟨t, inv⟩
    exact inv.exact
  · rintro s a s' ⟨t, inv⟩ hstep fits
    exact inv.keeps few order enough hstep fits
  · rintro s a s' ⟨t, inv⟩ hstep misfit
    exact inv.breaks order enough hstep misfit

/-- A memory without a tree. -/
def noHeap : Heap (Fin 3) Int := fun _ => ⟨false, fun _ => none, 0⟩

def oneHeap (p : Fin 3) : Heap (Fin 3) Int := setRed (rbtreeNodeInit noHeap p 5) p false

theorem exactSize_run_iff_first : ExactSize (⟨oneHeap 0, ⟨some 0, 1⟩⟩ : RbState (Fin 3) Int) := by
  have empty : ∀ t, HasTree (⟨noHeap, ⟨none, 0⟩⟩ : RbState (Fin 3) Int) t → t = .leaf :=
    fun t has => has.unique ⟨rfl, trivial⟩
  have inserted : RbStep (fun a b : Int => a - b) 0 7 ⟨noHeap, ⟨none, 0⟩⟩ (.insert 5 (some 0) 1)
      ⟨oneHeap 0, ⟨some 0, 1⟩⟩ := by
    refine ⟨fun t has => ?_, 1, rfl⟩
    rw [empty t has]
    refine ⟨not_mem_nil, fun p new => ⟨not_mem_nil, ?_⟩⟩
    cases new
    decide
  refine ((exactSize_run_iff (by decide) isOrder_sub (by decide)
    (Exec.refl.next inserted)).mpr ?_).1.2
  intro e mem
  rw [nil_append, mem_singleton] at mem
  rw [mem]
  refine .inr ?_
  rintro ⟨t, has, x, inside, -⟩
  rw [empty t has] at inside
  exact not_mem_nil inside

theorem equal_and_absent :
    ((rbtreeTreeInsert (fun a b : Int => a - b) 0 1 7 (oneHeap 0) ⟨some 0, 1⟩ 2 5).map fun r =>
      (r.2.2, (r.2.1 0).link false, (r.2.1 0).link true)) = .ok (⟨some 0, 2⟩, none, none) ∧
    ((rbtreeTreeRemove (fun a b : Int => a - b) 0 1 7 (oneHeap 0) ⟨some 0, 1⟩ 6).map fun r =>
      (r.1, r.2.2)) = .ok (1, ⟨some 0, 0⟩) := by
  decide

end Elaborato.Mentos.Rbtree
