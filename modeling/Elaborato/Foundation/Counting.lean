import Mathlib.Algebra.Order.Ring.Nat
import Mathlib.Data.List.Nodup
import Mathlib.Logic.Function.Basic

/-!
Counting the elements of a list with a property while one of them changes.
-/
namespace Foundation
open List

variable {α β : Type*}

def Replaced (xs : List α) (x y : α) (ys : List α) : Prop :=
  ∃ front back, xs = front ++ x :: back ∧ ys = front ++ y :: back

variable {xs ys : List α} {x y : α}

theorem replaced_set {i : ℕ} (here : xs[i]? = some x) (y : α) : Replaced xs x y (xs.set i y) := by
  obtain ⟨bound, rfl⟩ := List.getElem?_eq_some_iff.mp here
  obtain ⟨front, back, split, -, set⟩ := @exists_of_set _ _ y _ bound
  exact ⟨front, back, split, set⟩

section
variable (replaced : Replaced xs x y ys)
include replaced

theorem Replaced.mem_old : x ∈ xs := by
  obtain ⟨front, back, rfl, rfl⟩ := replaced
  simp

theorem Replaced.mem {z : α} (hz : z ∈ ys) : z = y ∨ z ∈ xs := by
  obtain ⟨front, back, rfl, rfl⟩ := replaced
  simp only [mem_append, mem_cons] at hz ⊢
  tauto

theorem Replaced.map (f : α → β) : Replaced (xs.map f) (f x) (f y) (ys.map f) := by
  obtain ⟨front, back, rfl, rfl⟩ := replaced
  exact ⟨front.map f, back.map f, by simp, by simp⟩

omit replaced in
theorem getElem?_snoc {i : ℕ} {z : α} (here : (xs ++ [x])[i]? = some z) :
    xs[i]? = some z ∨ z = x := by
  rw [getElem?_append] at here
  split at here
  · exact .inl here
  · exact .inr (mem_singleton.mp (mem_of_getElem? here))

omit replaced in
theorem getElem?_set_cases {i j : ℕ} {z : α} (here : (xs.set i y)[j]? = some z) :
    (j = i ∧ z = y) ∨ xs[j]? = some z := by
  rw [getElem?_set] at here
  split at here
  case isFalse => exact .inr here
  case isTrue same =>
      split at here
      case isFalse => cases here
      case isTrue => exact .inl ⟨same.symm, (Option.some.inj here).symm⟩

omit replaced in
theorem countP_middle (p : α → Bool) (front back : List α) (x : α) :
    (front ++ x :: back).countP p = front.countP p + back.countP p + (p x).toNat := by
  rw [countP_append, countP_cons]
  cases p x <;> simp [Nat.add_assoc]

theorem Replaced.countP (p : α → Bool) : xs.countP p + (p y).toNat = ys.countP p + (p x).toNat := by
  obtain ⟨front, back, rfl, rfl⟩ := replaced
  rw [countP_middle, countP_middle]
  omega

theorem Replaced.sum_map (f : α → ℕ) : (xs.map f).sum + f y = (ys.map f).sum + f x := by
  obtain ⟨front, back, rfl, rfl⟩ := replaced
  simp only [map_append, map_cons, sum_append, sum_cons]
  omega

theorem Replaced.countP_others (p : α → Bool) {z : α} (hz : z ∈ ys) (pz : p z = true) :
    z = y ∨ 0 < xs.countP p - (p x).toNat := by
  obtain ⟨front, back, rfl, rfl⟩ := replaced
  rw [countP_middle, Nat.add_sub_cancel]
  simp only [mem_append, mem_cons] at hz
  rcases hz with hz | hz | hz
  · exact .inr (Nat.add_pos_left (countP_pos_iff.mpr ⟨z, hz, pz⟩) _)
  · exact .inl hz
  · exact .inr (Nat.add_pos_right _ (countP_pos_iff.mpr ⟨z, hz, pz⟩))

end

theorem countP_position {p : α → Bool} {r : ℕ}
    (only : ∀ i x, xs[i]? = some x → p x = true → i = r) : xs.countP p = (xs[r]?.any p).toNat := by
  induction xs generalizing r with
  | nil => simp
  | cons x xs ih =>
    cases r with
    | zero =>
      have none : xs.countP p = 0 := by
        refine countP_eq_zero.mpr fun y hy py => ?_
        obtain ⟨i, hi⟩ := mem_iff_getElem?.mp hy
        exact absurd (only (i + 1) y (by simpa using hi) py) (by omega)
      rw [countP_cons, none]
      cases px : p x <;> simp [px]
    | succ r =>
      have first : p x = false := by
        cases px : p x with
        | false => rfl
        | true => exact absurd (only 0 x (by simp) px) (by omega)
      rw [countP_cons, first, ih fun i y hi py =>
        Nat.succ.inj (only (i + 1) y (by simpa using hi) py)]
      simp

theorem countP_differ {p q : α → Bool} {i : α} (distinct : xs.Nodup) (hi : i ∈ xs)
    (same : ∀ j ∈ xs, j ≠ i → p j = q j) :
    xs.countP p + (q i).toNat = xs.countP q + (p i).toNat := by
  obtain ⟨front, back, rfl⟩ := append_of_mem hi
  obtain ⟨notFront, notBack⟩ : i ∉ front ∧ i ∉ back := by
    have := nodup_middle.mp distinct
    simpa using (nodup_cons.mp this).1
  have sameFront : front.countP p = front.countP q := countP_congr fun j hj => by
    rw [same j (by simp [hj]) (fun h => notFront (h ▸ hj))]
  have sameBack : back.countP p = back.countP q := countP_congr fun j hj => by
    rw [same j (by simp [hj]) (fun h => notBack (h ▸ hj))]
  rw [countP_middle, countP_middle, sameFront, sameBack]
  omega

end Foundation
