import Elaborato.Foundation.Records
import Mathlib.Algebra.Order.BigOperators.Group.List

/-!
Blocks of bytes stored one after the other: each is found at the sum of the sizes before it.
-/
namespace Foundation
open List

variable {m : ByteMem} {a : Nat} {bs cs : List UInt8}

def Stored (m : ByteMem) (a : Nat) (bs : List UInt8) : Prop :=
  ∀ i b, bs[i]? = some b → m (a + i) = b

theorem stored_append : Stored m a (bs ++ cs) ↔ Stored m a bs ∧ Stored m (a + bs.length) cs := by
  constructor
  · intro stored
    refine ⟨fun i b found => ?_, fun i b found => ?_⟩
    · have inside := (List.getElem?_eq_some_iff.mp found).1
      exact stored i b (by rw [getElem?_append_left inside, found])
    · rw [Nat.add_assoc]
      exact stored _ b (by rw [getElem?_append_right (by omega)]; simpa using found)
  · rintro ⟨first, second⟩ i b found
    by_cases inside : i < bs.length
    · rw [getElem?_append_left inside] at found
      exact first i b found
    · rw [getElem?_append_right (by omega)] at found
      have here := second _ b found
      rwa [show a + bs.length + (i - bs.length) = a + i by omega] at here

theorem exists_stored (bs : List UInt8) : ∃ m, Stored m 0 bs := by
  refine ⟨fun x => bs.getD x 0, fun i b found => ?_⟩
  simp [getD_eq_getElem?_getD, found]

theorem stored_map (stored : Stored m a bs) :
    (List.range bs.length).map (fun i => m (a + i)) = bs := by
  refine ext_getElem (by simp) fun i _ inside => ?_
  simp only [getElem_map, getElem_range]
  exact stored i _ (getElem?_eq_getElem inside)

/-- The bytes of a number, the lowest first. -/
def bytesOf (width v : Nat) : List UInt8 :=
  (List.range width).map fun i => UInt8.ofNat (v / 2 ^ (8 * i))

@[simp] theorem length_bytesOf (width v : Nat) : (bytesOf width v).length = width := by
  simp [bytesOf]

variable {v : Nat}

theorem stored_bytesOf {width i : Nat} (stored : Stored m a (bytesOf width v)) (below : i < width) :
    (m (a + i)).toNat = v / 2 ^ (8 * i) % 2 ^ 8 := by
  rw [stored i (UInt8.ofNat (v / 2 ^ (8 * i))) (by simp [bytesOf, below]), UInt8.toNat_ofNat']

theorem readWord_stored (stored : Stored m a (bytesOf 4 v)) (small : v < 2 ^ 32) :
    readWord m a = v := by
  have first := stored_bytesOf stored (show 0 < 4 by omega)
  rw [Nat.add_zero] at first
  simp only [readWord, first, stored_bytesOf stored (show 1 < 4 by omega),
    stored_bytesOf stored (show 2 < 4 by omega), stored_bytesOf stored (show 3 < 4 by omega)]
  omega

variable {α : Type*} {blocks : List (List α)}

def blockStart (blocks : List (List α)) (k : Nat) : Nat := ((blocks.take k).map List.length).sum

attribute [local simp] blockStart

@[simp] theorem blockStart_zero : blockStart blocks 0 = 0 := by simp

@[simp] theorem blockStart_cons_succ (b : List α) (k : Nat) :
    blockStart (b :: blocks) (k + 1) = b.length + blockStart blocks k := by
  simp

variable {k : Nat} {b : List α}

theorem blockStart_succ (found : blocks[k]? = some b) :
    blockStart blocks (k + 1) = blockStart blocks k + b.length := by
  rw [blockStart, take_add_one, found, map_append, sum_append]
  simp

theorem blockStart_apart {l : Nat} (found : blocks[k]? = some b) (later : k < l) :
    blockStart blocks k + b.length ≤ blockStart blocks l := by
  induction blocks generalizing k l with
  | nil => cases found
  | cons c blocks ih =>
    obtain ⟨l, rfl⟩ := Nat.exists_eq_add_of_lt (Nat.zero_lt_of_lt later)
    rw [Nat.zero_add, blockStart_cons_succ]
    cases k with
    | zero =>
      obtain rfl : c = b := by simpa using found
      rw [blockStart_zero]
      omega
    | succ k =>
      rw [blockStart_cons_succ]
      have := ih (k := k) (l := l) (by simpa using found) (by omega)
      omega

variable {n : Nat}

theorem blockStart_cover {x : Nat} (inside : x < blockStart blocks n) :
    ∃ k b, k < n ∧ blocks[k]? = some b ∧ blockStart blocks k ≤ x ∧
      x < blockStart blocks k + b.length := by
  induction blocks generalizing x n with
  | nil => simp at inside
  | cons c blocks ih =>
    cases n with
    | zero => simp at inside
    | succ n =>
      rw [blockStart_cons_succ] at inside
      by_cases first : x < c.length
      · exact ⟨0, c, by omega, rfl, by simp, by simpa using first⟩
      · obtain ⟨k, b, below, found, low, high⟩ := ih (x := x - c.length) (n := n) (by omega)
        refine ⟨k + 1, b, by omega, by simpa using found, ?_, ?_⟩
        · rw [blockStart_cons_succ]
          omega
        · rw [blockStart_cons_succ]
          omega

theorem drop_blockStart (found : blocks[k]? = some b) :
    (blocks.flatten.drop (blockStart blocks k)).take b.length = b := by
  induction blocks generalizing k with
  | nil => cases found
  | cons c blocks ih =>
    cases k with
    | zero =>
      obtain rfl : c = b := by simpa using found
      simp
    | succ k =>
      rw [blockStart_cons_succ, flatten_cons, ← drop_drop, drop_left]
      exact ih (by simpa using found)

theorem blockStart_const (size : ∀ b ∈ blocks, b.length = n) (inside : k ≤ blocks.length) :
    blockStart blocks k = n * k := by
  induction blocks generalizing k with
  | nil => simp [Nat.le_zero.mp inside]
  | cons b blocks ih =>
    cases k with
    | zero => simp
    | succ k =>
      rw [blockStart_cons_succ, size b (by simp),
        ih (fun c hc => size c (mem_cons_of_mem _ hc)) (by simpa using inside),
        Nat.mul_succ, Nat.add_comm]

theorem stored_flatten {m : ByteMem} {a : Nat} {blocks : List (List UInt8)} {b : List UInt8}
    (stored : Stored m a blocks.flatten) (found : blocks[k]? = some b) :
    Stored m (a + blockStart blocks k) b := by
  induction blocks generalizing a k with
  | nil => cases found
  | cons c blocks ih =>
    rw [flatten_cons, stored_append] at stored
    cases k with
    | zero =>
      obtain rfl : c = b := by simpa using found
      rw [blockStart_zero]
      exact stored.1
    | succ k =>
      rw [blockStart_cons_succ, ← Nat.add_assoc]
      exact ih stored.2 (by simpa using found)

end Foundation
