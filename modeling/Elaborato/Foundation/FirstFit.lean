import Mathlib.Data.Finset.Card
import Mathlib.Order.Bounds.Basic
import Mathlib.Order.Interval.Finset.Nat

/-!
First fit for a run of free cells, where a cell in use lets the search go on behind it.
-/
namespace Foundation

def firstUsed (free : Nat → Bool) (block : Nat) : Nat → Nat → Option Nat
  | _, 0 => none
  | i, left + 1 => if free (block + i) then firstUsed free block (i + 1) left else some i

def firstFit (free : Nat → Bool) (size last : Nat) : Nat → Nat → Option Nat
  | 0, _ => none
  | fuel + 1, block =>
    if block < last then
      match firstUsed free block 0 size with
      | none => some block
      | some i => firstFit free size last fuel (block + i + 1)
    else none

def FreeRun (free : Nat → Bool) (block size : Nat) : Prop := ∀ i < size, free (block + i) = true

variable {free : Nat → Bool} {block size last i left found : Nat}

theorem firstUsed_none (h : firstUsed free block i left = none) :
    ∀ j, i ≤ j → j < i + left → free (block + j) = true := by
  induction left generalizing i with
  | zero => exact fun j _ _ => by omega
  | succ left ih =>
    rw [firstUsed] at h
    split at h
    · next here =>
        intro j le lt
        by_cases same : j = i
        · exact same ▸ here
        · exact ih h j (by omega) (by omega)
    · cases h

variable {j : Nat}

theorem firstUsed_some (h : firstUsed free block i left = some j) :
    j < i + left ∧ free (block + j) = false := by
  induction left generalizing i with
  | zero => cases h
  | succ left ih =>
    rw [firstUsed] at h
    split at h
    · obtain ⟨bound, used⟩ := ih h
      exact ⟨by omega, used⟩
    · next used =>
        cases h
        exact ⟨by omega, by simpa using used⟩

variable {b : Nat}

theorem not_freeRun_of_used (used : free (block + j) = false) (bound : j < size) (le : block ≤ b)
    (lt : b ≤ block + j) : ¬ FreeRun free b size := by
  intro run
  have := run (block + j - b) (by omega)
  rw [show b + (block + j - b) = block + j by omega] at this
  exact absurd this (by simp [used])

variable {fuel : Nat}

theorem firstFit_some (h : firstFit free size last fuel block = some found) :
    block ≤ found ∧ found < last ∧ FreeRun free found size ∧
      ∀ b, block ≤ b → b < found → ¬ FreeRun free b size := by
  induction fuel generalizing block with
  | zero => cases h
  | succ fuel ih =>
    rw [firstFit] at h
    split at h
    · next room =>
        split at h
        · next all =>
            cases h
            exact ⟨Nat.le_refl _, room,
              fun i hi => firstUsed_none all i (Nat.zero_le _) (by omega), by omega⟩
        · next j used =>
            obtain ⟨bound, used⟩ := firstUsed_some used
            obtain ⟨le, lt, run, first⟩ := ih h
            refine ⟨by omega, lt, run, fun b hle hlt => ?_⟩
            by_cases before : b ≤ block + j
            · exact not_freeRun_of_used used (by omega) hle before
            · exact first b (by omega) hlt
    · cases h

theorem firstFit_none {fuel : Nat} (enough : last < block + fuel)
    (h : firstFit free size last fuel block = none) :
    ∀ b, block ≤ b → b < last → ¬ FreeRun free b size := by
  induction fuel generalizing block with
  | zero => exact fun b _ _ => by omega
  | succ fuel ih =>
    rw [firstFit] at h
    split at h
    · next room =>
        split at h
        · cases h
        · next j used =>
            obtain ⟨bound, used⟩ := firstUsed_some used
            intro b hle hlt
            by_cases before : b ≤ block + j
            · exact not_freeRun_of_used used (by omega) hle before
            · exact ih (by omega) h b (by omega) hlt
    · exact fun b _ _ => by omega

theorem firstFit_of_run (enough : last < block + fuel) (le : block ≤ b) (lt : b < last)
    (run : FreeRun free b size) :
    ∃ found, firstFit free size last fuel block = some found ∧ found ≤ b := by
  cases h : firstFit free size last fuel block with
  | none => exact absurd run (firstFit_none enough h b le lt)
  | some found =>
    refine ⟨found, rfl, ?_⟩
    by_contra later
    exact (firstFit_some h).2.2.2 b le (by omega) run

def runStarts (free : Nat → Bool) (size last block : Nat) : Set Nat :=
  {b | block ≤ b ∧ b < last ∧ FreeRun free b size}

section
variable (enough : last < block + fuel)
include enough

theorem firstFit_eq_some :
    firstFit free size last fuel block = some found ↔
      IsLeast (runStarts free size last block) found := by
  constructor
  · intro h
    obtain ⟨le, lt, run, first⟩ := firstFit_some h
    refine ⟨⟨le, lt, run⟩, fun b hb => ?_⟩
    by_contra before
    exact first b hb.1 (by omega) hb.2.2
  · rintro ⟨⟨le, lt, run⟩, least⟩
    obtain ⟨found', h, first⟩ := firstFit_of_run enough le lt run
    obtain ⟨le', lt', run', -⟩ := firstFit_some h
    have := least ⟨le', lt', run'⟩
    rw [h, show found' = found by omega]

theorem firstFit_eq_none :
    firstFit free size last fuel block = none ↔ runStarts free size last block = ∅ := by
  rw [Set.eq_empty_iff_forall_notMem]
  constructor
  · intro h b hb
    exact firstFit_none enough h b hb.1 hb.2.1 hb.2.2
  · intro none
    cases h : firstFit free size last fuel block with
    | none => rfl
    | some found =>
      obtain ⟨le, lt, run, -⟩ := firstFit_some h
      exact absurd ⟨le, lt, run⟩ (none found)

theorem firstFit_rounds {fuel' : Nat} (enough' : last < block + fuel') :
    firstFit free size last fuel block = firstFit free size last fuel' block := by
  cases h : firstFit free size last fuel' block with
  | none => exact (firstFit_eq_none enough).mpr ((firstFit_eq_none enough').mp h)
  | some found => exact (firstFit_eq_some enough).mpr ((firstFit_eq_some enough').mp h)

end

def freeCells (free : Nat → Bool) (lo hi : Nat) : Nat := ((Finset.Ico lo hi).filter (free ·)).card

theorem freeCells_le (free : Nat → Bool) (lo hi : Nat) : freeCells free lo hi ≤ hi - lo := by
  simpa [freeCells] using Finset.card_filter_le (Finset.Ico lo hi) (free ·)

variable {lo hi : Nat}

theorem freeCells_congr {free' : Nat → Bool} (same : ∀ p, lo ≤ p → p < hi → free' p = free p) :
    freeCells free' lo hi = freeCells free lo hi := by
  unfold freeCells
  congr 1
  apply Finset.filter_congr
  intro p hp
  rw [Finset.mem_Ico] at hp
  rw [same p hp.1 hp.2]

theorem freeCells_taken (free free' : Nat → Bool) (below : lo ≤ block) (above : block + size ≤ hi)
    (run : FreeRun free block size) (taken : ∀ p, block ≤ p → p < block + size → free' p = false)
    (kept : ∀ p, p < block ∨ block + size ≤ p → free' p = free p) :
    freeCells free' lo hi + size = freeCells free lo hi := by
  have apart :
      Disjoint ((Finset.Ico lo hi).filter (free' ·)) (Finset.Ico block (block + size)) := by
    rw [Finset.disjoint_left]
    intro p hp inside
    rw [Finset.mem_Ico] at inside
    have := taken p inside.1 inside.2
    simp [this] at hp
  have whole : (Finset.Ico lo hi).filter (free ·) =
      (Finset.Ico lo hi).filter (free' ·) ∪ Finset.Ico block (block + size) := by
    ext p
    simp only [Finset.mem_filter, Finset.mem_Ico, Finset.mem_union]
    by_cases inside : block ≤ p ∧ p < block + size
    · have here := run (p - block) (by omega)
      rw [show block + (p - block) = p by omega] at here
      simp only [here, inside, and_self, and_true, or_true, iff_true]
      omega
    · rw [kept p (by omega)]
      simp only [inside, or_false]
  rw [freeCells, freeCells, whole, Finset.card_union_of_disjoint apart, Nat.card_Ico,
    Nat.add_sub_cancel_left]

end Foundation
