import Mathlib.Data.List.Nodup
import Mathlib.Logic.Function.Basic

/-!
Doubly linked chains over two pointer maps; a ring is a trail that comes back to its node.
-/
namespace Foundation
open List Function

variable {α : Type*}

structure Links (α : Type*) where
  prev : α → α
  next : α → α

section Fields
variable [DecidableEq α]

def Links.setPrev (l : Links α) (a b : α) : Links α := { l with prev := update l.prev a b }

def Links.setNext (l : Links α) (a b : α) : Links α := { l with next := update l.next a b }

variable (l : Links α) (a b c : α)

@[simp] theorem Links.setPrev_next : (l.setPrev a b).next = l.next := rfl

@[simp] theorem Links.setNext_prev : (l.setNext a b).prev = l.prev := rfl

@[simp] theorem Links.setPrev_prev : (l.setPrev a b).prev c = if c = a then b else l.prev c := by
  simp [setPrev, update_apply]

@[simp] theorem Links.setNext_next : (l.setNext a b).next c = if c = a then b else l.next c := by
  simp [setNext, update_apply]

end Fields

def Trail (l : Links α) (b : α) : α → List α → Prop
  | a, [] => l.prev b = a
  | a, x :: xs => l.prev x = a ∧ l.next x = xs.headD b ∧ Trail l b x xs

def Ring (l : Links α) (head : α) (xs : List α) : Prop :=
  Trail l head head xs ∧ l.next head = xs.headD head

def walk [DecidableEq α] (next : α → α) (stop : α) : Nat → α → Option (List α)
  | 0, _ => none
  | fuel + 1, pos =>
    if pos = stop then some [] else (walk next stop fuel (next pos)).map (pos :: ·)

variable {l l' : Links α} {a b c : α} {xs ys : List α}

theorem trail_congr (trail : Trail l b a xs) (prevEnd : l'.prev b = l.prev b)
    (prev : ∀ x ∈ xs, l'.prev x = l.prev x) (next : ∀ x ∈ xs, l'.next x = l.next x) :
    Trail l' b a xs := by
  induction xs generalizing a with
  | nil => exact prevEnd.trans trail
  | cons x xs ih =>
    obtain ⟨back, forth, rest⟩ := trail
    refine ⟨(prev x mem_cons_self).trans back, (next x mem_cons_self).trans forth, ?_⟩
    exact ih rest (fun y hy => prev y (mem_cons_of_mem _ hy))
      (fun y hy => next y (mem_cons_of_mem _ hy))

theorem trail_prev_end (trail : Trail l b a xs) : l.prev b = a ∨ l.prev b ∈ xs := by
  induction xs generalizing a with
  | nil => exact .inl trail
  | cons x xs ih =>
    rcases ih trail.2.2 with h | h
    · exact .inr (h ▸ mem_cons_self)
    · exact .inr (mem_cons_of_mem _ h)

variable {node : α}

theorem trail_prev (trail : Trail l b a (xs ++ node :: ys)) :
    l.prev node = a ∨ l.prev node ∈ xs := by
  induction xs generalizing a with
  | nil => exact .inl trail.1
  | cons x xs ih =>
    rcases ih trail.2.2 with h | h
    · exact .inr (h ▸ mem_cons_self)
    · exact .inr (mem_cons_of_mem _ h)

theorem trail_next (trail : Trail l b a (xs ++ node :: ys)) : l.next node = ys.headD b := by
  induction xs generalizing a with
  | nil => exact trail.2.1
  | cons x xs ih => exact ih trail.2.2

theorem headD_cases (b : α) (xs : List α) : xs.headD b = b ∨ xs.headD b ∈ xs := by
  cases xs with
  | nil => exact .inl rfl
  | cons x xs => exact .inr mem_cons_self

theorem walk_trail [DecidableEq α] (trail : Trail l b a xs) (out : b ∉ xs) :
    walk l.next b (xs.length + 1) (xs.headD b) = some xs := by
  induction xs generalizing a with
  | nil => simp [walk]
  | cons x xs ih =>
    obtain ⟨-, forth, rest⟩ := trail
    have hx : x ≠ b := fun h => out (h ▸ mem_cons_self)
    have tail := ih rest (fun h => out (mem_cons_of_mem _ h))
    rw [length_cons, headD_cons, walk, if_neg hx, forth, tail]
    rfl

theorem walk_ring [DecidableEq α] (ring : Ring l b xs) (out : b ∉ xs) :
    walk l.next b (xs.length + 1) (l.next b) = some xs := by
  rw [ring.2]
  exact walk_trail ring.1 out

variable {next : α → α} {stop pos : α} {fuel : Nat}

theorem walk_first [DecidableEq α] (away : pos ≠ stop) (h : walk next stop fuel pos = some xs) :
    pos ∈ xs := by
  cases fuel with
  | zero => cases h
  | succ fuel =>
    rw [walk, if_neg away] at h
    obtain ⟨rest, -, rfl⟩ := Option.map_eq_some_iff.mp h
    exact mem_cons_self

theorem walk_unique [DecidableEq α] {fuel' : Nat} (h : walk next stop fuel pos = some xs)
    (h' : walk next stop fuel' pos = some ys) : xs = ys := by
  induction fuel generalizing pos fuel' xs ys with
  | zero => cases h
  | succ fuel ih =>
    cases fuel' with
    | zero => cases h'
    | succ fuel' =>
      rw [walk] at h h'
      by_cases stopped : pos = stop
      · rw [if_pos stopped] at h h'
        exact Option.some.inj (h.symm.trans h')
      · rw [if_neg stopped] at h h'
        obtain ⟨rest, hrest, rfl⟩ := Option.map_eq_some_iff.mp h
        obtain ⟨rest', hrest', rfl⟩ := Option.map_eq_some_iff.mp h'
        rw [ih hrest hrest']

theorem walk_congr [DecidableEq α] {next' : α → α} (same : ∀ x ≠ stop, next' x = next x)
    (fuel : Nat) (pos : α) : walk next' stop fuel pos = walk next stop fuel pos := by
  induction fuel generalizing pos with
  | zero => rfl
  | succ fuel ih =>
    rw [walk, walk]
    by_cases stopped : pos = stop
    · rw [if_pos stopped, if_pos stopped]
    · rw [if_neg stopped, if_neg stopped, same pos stopped, ih]

/-- The links seen in the other direction. -/
def Links.swap (l : Links α) : Links α := ⟨l.next, l.prev⟩

theorem trail_concat {x : α} (trail : Trail l x a xs) (forth : l.next x = b) (back : l.prev b = x) :
    Trail l b a (xs ++ [x]) := by
  induction xs generalizing a with
  | nil => exact ⟨trail, forth, back⟩
  | cons y ys ih =>
    refine ⟨trail.1, trail.2.1.trans ?_, ih trail.2.2⟩
    cases ys with
    | nil | cons z ys => rfl

theorem trail_swap (trail : Trail l b a xs) (first : l.next a = xs.headD b) :
    Trail l.swap a b xs.reverse ∧ l.prev b = xs.reverse.headD a := by
  induction xs generalizing a with
  | nil => exact ⟨first, trail⟩
  | cons x xs ih =>
    obtain ⟨back, forth, rest⟩ := trail
    obtain ⟨swapped, last⟩ := ih rest forth
    rw [reverse_cons]
    refine ⟨trail_concat swapped back first, last.trans ?_⟩
    cases xs.reverse with
    | nil | cons y ys => rfl

theorem ring_swap (ring : Ring l b xs) : Ring l.swap b xs.reverse := trail_swap ring.1 ring.2

/-- The links of a node inserted before `b`. -/
structure Inserted (l l' : Links α) (new b : α) : Prop where
  prevEnd : l'.prev b = new
  prevNew : l'.prev new = l.prev b
  nextNew : l'.next new = b
  nextLast : l'.next (l.prev b) = new
  prevElse : ∀ x, x ≠ b → x ≠ new → l'.prev x = l.prev x
  nextElse : ∀ x, x ≠ l.prev b → x ≠ new → l'.next x = l.next x

variable {new : α}

theorem trail_inserted (ins : Inserted l l' new b) (trail : Trail l b a xs) (nodup : xs.Nodup)
    (out : b ∉ xs) (fresh : new ∉ xs) : Trail l' b a (xs ++ [new]) := by
  induction xs generalizing a with
  | nil => exact ⟨ins.prevNew.trans trail, ins.nextNew, ins.prevEnd⟩
  | cons x xs ih =>
    obtain ⟨back, forth, rest⟩ := trail
    obtain ⟨once, nodup⟩ := nodup_cons.mp nodup
    obtain ⟨notEnd, out⟩ := not_or.mp (mem_cons.not.mp out)
    obtain ⟨notNew, fresh⟩ := not_or.mp (mem_cons.not.mp fresh)
    refine ⟨(ins.prevElse x (Ne.symm notEnd) (Ne.symm notNew)).trans back, ?_,
      ih rest nodup out fresh⟩
    cases xs with
    | nil =>
      have last : l.prev b = x := rest
      exact last ▸ ins.nextLast
    | cons y ys =>
      have notLast : x ≠ l.prev b := by
        intro h
        rcases trail_prev_end rest.2.2 with hy | hy
        · exact once (h ▸ hy ▸ mem_cons_self)
        · exact once (h ▸ mem_cons_of_mem _ hy)
      exact (ins.nextElse x notLast (Ne.symm notNew)).trans forth

theorem ring_inserted (ins : Inserted l l' new b) (ring : Ring l b xs) (nodup : xs.Nodup)
    (out : b ∉ xs) (fresh : new ∉ xs) (away : new ≠ b) : Ring l' b (xs ++ [new]) := by
  refine ⟨trail_inserted ins ring.1 nodup out fresh, ?_⟩
  cases xs with
  | nil =>
    have last : l.prev b = b := ring.1
    exact last ▸ ins.nextLast
  | cons x xs =>
    have notLast : b ≠ l.prev b := by
      intro h
      rcases trail_prev_end ring.1.2.2 with hx | hx
      · exact out (h ▸ hx ▸ mem_cons_self)
      · exact out (h ▸ mem_cons_of_mem _ hx)
    exact (ins.nextElse b notLast (Ne.symm away)).trans ring.2

structure Removed (l l' : Links α) (node : α) : Prop where
  prevNext : l'.prev (l.next node) = l.prev node
  nextPrev : l'.next (l.prev node) = l.next node
  prevElse : ∀ x, x ≠ l.next node → x ≠ node → l'.prev x = l.prev x
  nextElse : ∀ x, x ≠ l.prev node → x ≠ node → l'.next x = l.next x

theorem trail_removed_first (rem : Removed l l' node) (trail : Trail l b a (node :: xs))
    (nodup : (node :: xs).Nodup) (left : a ∉ xs) (out : b ∉ node :: xs) : Trail l' b a xs := by
  obtain ⟨back, forth, rest⟩ := trail
  obtain ⟨once, nodup⟩ := nodup_cons.mp nodup
  obtain ⟨notEnd, out⟩ := not_or.mp (mem_cons.not.mp out)
  have joined : l'.prev (xs.headD b) = a := by rw [← forth, rem.prevNext, back]
  cases xs with
  | nil => exact joined
  | cons x xs =>
    obtain ⟨-, forth', rest⟩ := rest
    have hnext : l.next node = x := forth
    obtain ⟨notIn, -⟩ := nodup_cons.mp nodup
    have keepNext : ∀ y ∈ x :: xs, l'.next y = l.next y := by
      intro y hy
      refine rem.nextElse y ?_ (fun h => once (h ▸ hy))
      rw [back]
      exact fun h => left (h ▸ hy)
    refine ⟨joined, (keepNext x mem_cons_self).trans forth', ?_⟩
    refine trail_congr rest ?_ ?_ (fun y hy => keepNext y (mem_cons_of_mem _ hy))
    · exact rem.prevElse b (hnext ▸ fun h => out (h ▸ mem_cons_self)) notEnd
    · intro y hy
      refine rem.prevElse y (hnext ▸ fun h => notIn (h ▸ hy)) ?_
      exact fun h => once (h ▸ mem_cons_of_mem _ hy)

theorem trail_removed (rem : Removed l l' node) (trail : Trail l b a (xs ++ node :: ys))
    (nodup : (xs ++ node :: ys).Nodup) (left : a ∉ xs ++ node :: ys) (out : b ∉ xs ++ node :: ys) :
    Trail l' b a (xs ++ ys) := by
  induction xs generalizing a with
  | nil =>
    exact trail_removed_first rem trail nodup (fun h => left (mem_cons_of_mem _ h)) out
  | cons x xs ih =>
    obtain ⟨back, forth, rest⟩ := trail
    obtain ⟨once, nodup⟩ := nodup_cons.mp nodup
    obtain ⟨notEnd, out⟩ := not_or.mp (mem_cons.not.mp out)
    have member : node ∈ xs ++ node :: ys := mem_append_right _ mem_cons_self
    have notNode : x ≠ node := fun h => once (h ▸ member)
    have notNext : x ≠ l.next node := by
      rw [trail_next rest]
      rcases headD_cases b ys with h | h
      · rw [h]
        exact Ne.symm notEnd
      · exact fun hx => once (mem_append_right _ (mem_cons_of_mem _ (hx ▸ h)))
    refine ⟨(rem.prevElse x notNext notNode).trans back, ?_, ih rest nodup once out⟩
    cases xs with
    | nil =>
      have before : l.prev node = x := rest.1
      have after : l.next node = ys.headD b := rest.2.1
      exact before ▸ rem.nextPrev.trans after
    | cons y xs =>
      have notPrev : x ≠ l.prev node := by
        intro h
        have earlier : l.prev node ∈ y :: xs := by
          rcases trail_prev rest.2.2 with h | h
          · exact h ▸ mem_cons_self
          · exact mem_cons_of_mem _ h
        exact once (mem_append_left _ (h ▸ earlier))
      exact (rem.nextElse x notPrev notNode).trans forth

theorem ring_removed (rem : Removed l l' node) (ring : Ring l b (xs ++ node :: ys))
    (nodup : (xs ++ node :: ys).Nodup) (out : b ∉ xs ++ node :: ys) : Ring l' b (xs ++ ys) := by
  refine ⟨trail_removed rem ring.1 nodup out out, ?_⟩
  have notNode : b ≠ node := fun h => out (h ▸ mem_append_right _ mem_cons_self)
  cases xs with
  | nil =>
    have before : l.prev node = b := ring.1.1
    have after : l.next node = ys.headD b := ring.1.2.1
    have joined := rem.nextPrev.trans after
    rwa [before] at joined
  | cons x xs =>
    have notPrev : b ≠ l.prev node := by
      intro h
      have earlier : l.prev node ∈ x :: xs := by
        rcases trail_prev ring.1.2.2 with h | h
        · exact h ▸ mem_cons_self
        · exact mem_cons_of_mem _ h
      exact out (mem_append_left _ (h ▸ earlier))
    exact (rem.nextElse b notPrev notNode).trans ring.2

end Foundation
