import Elaborato.Foundation.Execution
import Elaborato.Mentos.Rbtree
import Mathlib.Data.Tree.Basic

/-!
`rbtree_tree_dealloc` rotates left links away; an access to a freed node halts.
-/
namespace Elaborato.Mentos.Rbtree
open Foundation List Function

inductive DeallocHalt
  | freedNode
  | fuel
  deriving DecidableEq, Repr

structure Dealloc (P V : Type) where
  mem : Heap P V
  called : List P
  freed : List P

variable {P V : Type} [DecidableEq P]

namespace Dealloc

def readLink (s : Dealloc P V) (p : P) (dir : Bool) : Except DeallocHalt (Option P) :=
  if p ∈ s.freed then .error .freedNode else .ok ((s.mem p).link dir)

def writeLink (s : Dealloc P V) (p : P) (dir : Bool) (q : Option P) :
    Except DeallocHalt (Dealloc P V) :=
  if p ∈ s.freed then .error .freedNode else .ok { s with mem := setLink s.mem p dir q }

def free (s : Dealloc P V) (p : P) : Except DeallocHalt (Dealloc P V) :=
  if p ∈ s.freed then .error .freedNode else .ok { s with freed := s.freed ++ [p] }

end Dealloc

def deallocLoop (nodeCb : P → Heap P V → Heap P V) :
    ℕ → Option P → Dealloc P V → Except DeallocHalt (Dealloc P V)
  | _, none, s => .ok s
  | 0, some _, _ => .error .fuel
  | fuel + 1, some node, s => do
    match ← s.readLink node false with
    | none => do
      let save ← s.readLink node true
      let s := { s with mem := nodeCb node s.mem, called := s.called ++ [node] }
      let s ← s.free node
      deallocLoop nodeCb fuel save s
    | some save => do
      let inner ← s.readLink save true
      let s ← s.writeLink node false inner
      let s ← s.writeLink save true (some node)
      deallocLoop nodeCb fuel (some save) s

def rbtreeTreeDealloc (fuel : ℕ) (m : Heap P V) (self : RbTree P)
    (nodeCb : Option (P → Heap P V → Heap P V)) : Except DeallocHalt (Dealloc P V) :=
  match nodeCb with
  | none => .ok ⟨m, [], []⟩
  | some nodeCb => deallocLoop nodeCb fuel self.root ⟨m, [], []⟩

variable {m m' : Heap P V} {root : Option P} {p q : P} {a b r t : BinaryTree P}

def inorder : BinaryTree P → List P
  | .nil => []
  | .node p l r => inorder l ++ p :: inorder r

def Spans (m : Heap P V) : Option P → BinaryTree P → Prop
  | root, .nil => root = none
  | root, .node p l r => root = some p ∧ Spans m ((m p).link false) l ∧ Spans m ((m p).link true) r

def turns : BinaryTree P → ℕ
  | .nil => 0
  | .node _ l r => 2 * (inorder l).length + 1 + turns r

omit [DecidableEq P] in
theorem turns_le (t : BinaryTree P) : turns t ≤ 2 * (inorder t).length := by
  induction t with
  | nil => exact Nat.le_refl 0
  | node p l r _ ih =>
    rw [turns, inorder, length_append, length_cons]
    omega

omit [DecidableEq P] in
theorem Spans.congr (spans : Spans m root t) (same : ∀ p ∈ inorder t, (m' p).link = (m p).link) :
    Spans m' root t := by
  induction t generalizing root with
  | nil => exact spans
  | node p l r ihl ihr =>
    obtain ⟨here, left, right⟩ := spans
    have links := same p (mem_append_right _ mem_cons_self)
    refine ⟨here, ?_, ?_⟩ <;> rw [links]
    · exact ihl left fun p mem => same p (mem_append_left _ mem)
    · exact ihr right fun p mem => same p (mem_append_right _ (mem_cons_of_mem _ mem))

theorem setLink_link_self (m : Heap P V) (p : P) (dir : Bool) (q : Option P) :
    (setLink m p dir q p).link = update (m p).link dir q := by
  rw [setLink, update_self]

theorem setLink_link_of_ne (ne : q ≠ p) (dir : Bool) (r : Option P) :
    (setLink m p dir r q).link = (m q).link := by
  rw [setLink, update_of_ne ne]

theorem spans_rotate (spans : Spans m root (.node p (.node q a b) r))
    (nodup : (inorder (.node p (.node q a b) r)).Nodup) :
    Spans (setLink (setLink m p false ((m q).link true)) q true (some p)) (some q)
      (.node q a (.node p b r)) := by
  obtain ⟨-, ⟨-, left, middle⟩, right⟩ := spans
  have perm : inorder (.node p (.node q a b) r) ~
      p :: q :: (inorder a ++ (inorder b ++ inorder r)) := by
    refine perm_middle.trans (.cons p ?_)
    rw [inorder, append_assoc, cons_append]
    exact perm_middle
  obtain ⟨notP, nodup⟩ := nodup_cons.mp (perm.nodup_iff.mp nodup)
  obtain ⟨notQ, -⟩ := nodup_cons.mp nodup
  have differ : p ≠ q := fun same => notP (same ▸ mem_cons_self)
  have kept : ∀ x ∈ inorder a ++ (inorder b ++ inorder r),
      (setLink (setLink m p false ((m q).link true)) q true (some p) x).link = (m x).link := by
    intro x mem
    have fromQ : x ≠ q := fun same => notQ (same ▸ mem)
    have fromP : x ≠ p := fun same => notP (same ▸ mem_cons_of_mem _ mem)
    rw [setLink_link_of_ne fromQ, setLink_link_of_ne fromP]
  refine ⟨rfl, ?_, ?_, ?_, ?_⟩
  · rw [setLink_link_self, setLink_link_of_ne differ.symm]
    exact left.congr fun x mem => kept x (mem_append_left _ mem)
  · rw [setLink_link_self, update_self]
  · rw [setLink_link_of_ne differ, setLink_link_self]
    exact middle.congr fun x mem => kept x (mem_append_right _ (mem_append_left _ mem))
  · rw [setLink_link_of_ne differ, setLink_link_self]
    exact right.congr fun x mem => kept x (mem_append_right _ (mem_append_right _ mem))

variable {nodeCb : P → Heap P V → Heap P V} {fuel : ℕ} {called freed : List P}

theorem deallocLoop_free (live : p ∉ freed) (left : (m p).link false = none) :
    deallocLoop nodeCb (fuel + 1) (some p) ⟨m, called, freed⟩ =
      deallocLoop nodeCb fuel ((m p).link true) ⟨nodeCb p m, called ++ [p], freed ++ [p]⟩ := by
  simp [deallocLoop, Dealloc.readLink, Dealloc.free, live, left]

theorem deallocLoop_rotate (live : p ∉ freed) (live' : q ∉ freed)
    (left : (m p).link false = some q) :
    deallocLoop nodeCb (fuel + 1) (some p) ⟨m, called, freed⟩ =
      deallocLoop nodeCb fuel (some q)
        ⟨setLink (setLink m p false ((m q).link true)) q true (some p), called, freed⟩ := by
  simp [deallocLoop, Dealloc.readLink, Dealloc.writeLink, live, live', left]

theorem deallocLoop_eq (keeps : ∀ node m p, (nodeCb node m p).link = (m p).link)
    (spans : Spans m root t) (nodup : (freed ++ inorder t).Nodup) (enough : turns t ≤ fuel) :
    ∃ m', deallocLoop nodeCb fuel root ⟨m, called, freed⟩ =
      .ok ⟨m', called ++ inorder t, freed ++ inorder t⟩ := by
  induction fuel generalizing root m called freed t with
  | zero =>
    cases t with
    | nil =>
      rw [show root = none from spans, inorder, append_nil, append_nil]
      exact ⟨m, rfl⟩
    | node p l r =>
      rw [turns] at enough
      omega
  | succ fuel ih =>
    cases t with
    | nil =>
      rw [show root = none from spans, inorder, append_nil, append_nil]
      exact ⟨m, rfl⟩
    | node p l r =>
      have live : ∀ x ∈ inorder (.node p l r), x ∉ freed := fun x mem freed =>
        (nodup_append.mp nodup).2.2 x freed x mem rfl
      have here := live p (mem_append_right _ mem_cons_self)
      rw [turns] at enough
      cases l with
      | nil =>
        obtain ⟨rfl, left, right⟩ := spans
        rw [deallocLoop_free here left]
        have rest := right.congr fun x _ => keeps p m x
        have assoc (before : List P) :
            before ++ inorder (.node p .nil r) = before ++ [p] ++ inorder r := append_cons ..
        rw [assoc] at nodup
        rw [assoc, assoc]
        exact ih rest nodup (by omega)
      | node q a b =>
        obtain ⟨rfl, left, -⟩ := id spans
        rw [deallocLoop_rotate here (live q (by simp [inorder])) left.1]
        have rest := spans_rotate spans (nodup_append.mp nodup).2.1
        have same : inorder (.node p (.node q a b) r) = inorder (.node q a (.node p b r)) := by
          simp [inorder]
        rw [same] at nodup ⊢
        refine ih rest nodup ?_
        simp only [inorder, turns, length_append, length_cons] at enough ⊢
        omega

/-- Each node is passed to the callback and then freed, from left to right. -/
theorem rbtreeTreeDealloc_inorder (self : RbTree P)
    (keeps : ∀ node m p, (nodeCb node m p).link = (m p).link) (spans : Spans m self.root t)
    (nodup : (inorder t).Nodup) (enough : 2 * (inorder t).length ≤ fuel) :
    ∃ m', rbtreeTreeDealloc fuel m self (some nodeCb) = .ok ⟨m', inorder t, inorder t⟩ :=
  deallocLoop_eq keeps spans nodup ((turns_le t).trans enough)

def rootedThree : Heap ℕ Unit := fun p =>
  ⟨false, fun dir => if p = 2 then some (if dir then 3 else 1) else none, ()⟩

theorem rootedThree_dealloc : ∃ m',
    rbtreeTreeDealloc 6 rootedThree ⟨some 2, 3⟩ (some fun _ m => m) =
      .ok ⟨m', [1, 2, 3], [1, 2, 3]⟩ :=
  rbtreeTreeDealloc_inorder (t := .node 2 (.node 1 .nil .nil) (.node 3 .nil .nil)) _
    (fun _ _ _ => rfl) (by simp [Spans, rootedThree]) (by decide) (by decide)

end Elaborato.Mentos.Rbtree
