import Mathlib.Data.Nat.Digits.Lemmas

/-!
Numbers written with the digits of a base, the highest first, and read back.
-/
namespace Foundation
open List

variable {α : Type*}

def digitsOf (base n : ℕ) : List ℕ := if n = 0 then [0] else Nat.digits base n

def numeral (char : ℕ → α) (base n : ℕ) : List α := ((digitsOf base n).map char).reverse

/-- The number that a text stands for. -/
def numeralValue (value : α → ℕ) (base : ℕ) (text : List α) : ℕ :=
  text.foldl (fun n c => n * base + value c) 0

variable {char : ℕ → α} {value : α → ℕ} {base n : ℕ}

theorem digitsOf_lt (proper : 1 < base) {k : ℕ} (mem : k ∈ digitsOf base n) : k < base := by
  rw [digitsOf] at mem
  split_ifs at mem
  · rw [mem_singleton.mp mem]
    omega
  · exact Nat.digits_lt_base proper mem

theorem ofDigits_digitsOf (base n : ℕ) : Nat.ofDigits base (digitsOf base n) = n := by
  rw [digitsOf]
  split_ifs with zero
  · rw [zero]
    rfl
  · exact Nat.ofDigits_digits base n

theorem numeralValue_reverse (inverse : ∀ k < base, value (char k) = k) {ds : List ℕ}
    (below : ∀ k ∈ ds, k < base) :
    numeralValue value base (ds.map char).reverse = Nat.ofDigits base ds := by
  rw [numeralValue, foldl_reverse]
  induction ds with
  | nil => rfl
  | cons k ds ih =>
    rw [map_cons, foldr_cons, ih fun j mem => below j (mem_cons_of_mem _ mem),
      inverse k (below k mem_cons_self), Nat.ofDigits_cons]
    ring

theorem numeralValue_numeral (proper : 1 < base) (inverse : ∀ k < base, value (char k) = k) :
    numeralValue value base (numeral char base n) = n := by
  rw [numeral, numeralValue_reverse inverse fun k mem => digitsOf_lt proper mem, ofDigits_digitsOf]

theorem ofDigits_mono {b c : ℕ} (le : b ≤ c) (ds : List ℕ) :
    Nat.ofDigits b ds ≤ Nat.ofDigits c ds := by
  induction ds with
  | nil => exact le_rfl
  | cons k ds ih =>
    rw [Nat.ofDigits_cons, Nat.ofDigits_cons]
    exact Nat.add_le_add_left (Nat.mul_le_mul le ih) k

theorem digitsOf_digit (less : n < base) : digitsOf base n = [n] := by
  rw [digitsOf]
  split_ifs with zero
  · rw [zero]
  · exact Nat.digits_of_lt base n zero less

theorem length_digitsOf_le {k : ℕ} (proper : 1 < base) (small : n < base ^ (k + 1)) :
    (digitsOf base n).length ≤ k + 1 := by
  rw [digitsOf]
  split_ifs
  · exact Nat.le_add_left 1 k
  · exact (Nat.digits_length_le_iff proper n).mpr small

theorem ofDigits_digitsOf_iff {b c : ℕ} (proper : 1 < b) (less : b < c) :
    Nat.ofDigits c (digitsOf b n) = n ↔ n < b := by
  constructor
  · intro same
    by_contra large
    rw [digitsOf, if_neg (by omega), Nat.digits_def' proper (by omega : 0 < n),
      Nat.ofDigits_cons] at same
    have more := ofDigits_mono less.le (Nat.digits b (n / b))
    rw [Nat.ofDigits_digits] at more
    have positive : 0 < n / b := Nat.div_pos (by omega) (by omega)
    have larger : b * (n / b) < c * Nat.ofDigits c (Nat.digits b (n / b)) :=
      calc b * (n / b) < c * (n / b) := Nat.mul_lt_mul_of_pos_right less positive
        _ ≤ c * Nat.ofDigits c (Nat.digits b (n / b)) := Nat.mul_le_mul_left c more
    have split := Nat.mod_add_div n b
    omega
  · intro small
    rw [digitsOf_digit small, Nat.ofDigits_singleton]

theorem numeralValue_numeral_iff {b c : ℕ} (proper : 1 < b) (less : b < c)
    (inverse : ∀ k < c, value (char k) = k) :
    numeralValue value c (numeral char b n) = n ↔ n < b := by
  rw [numeral, numeralValue_reverse inverse fun k mem => (digitsOf_lt proper mem).trans less]
  exact ofDigits_digitsOf_iff proper less

theorem numeralValue_zeros {z : α} (zero : value z = 0) (k : ℕ) (text : List α) :
    numeralValue value base (List.replicate k z ++ text) = numeralValue value base text := by
  rw [numeralValue, foldl_append]
  congr 1
  induction k with
  | zero => rfl
  | succ k ih => rw [replicate_succ, foldl_cons, zero, Nat.zero_mul, Nat.add_zero, ih]

end Foundation
