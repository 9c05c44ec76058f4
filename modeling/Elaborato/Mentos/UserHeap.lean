import Elaborato.Mentos.KheapMalloc
import Mathlib.Order.Bounds.Basic

/-!
The heap of a process (kheap.c, paging.c), on page frames that nothing clears.
-/
namespace Elaborato.Mentos.Kheap
open Foundation

structure Mm where
  mmap : List VmArea
  mapCount : Nat
  totalVm : Nat
  startBrk : Nat
  brk : Nat
  deriving DecidableEq, Repr

def nearestOrderLoop (amount : Nat) : Nat → Nat → Nat
  | 0, order => order
  | fuel + 1, order =>
    if 2 ^ order < amount then nearestOrderLoop amount fuel (order + 1) else order

def findNearestOrderGreater (amount : Nat) : Nat :=
  nearestOrderLoop (u32 (amount + 4096 - 1) / 4096) 20 0

def createSegment (mm : Mm) (size frames : Nat) : Mm × Nat :=
  let order := findNearestOrderGreater size
  let newSegment : VmArea := ⟨frames, u32 (frames + 2 ^ order * 4096)⟩
  ({ mm with
      mmap := newSegment :: mm.mmap
      mapCount := mm.mapCount + 1
      totalVm := mm.totalVm + 2 ^ order }, frames)

variable {mm : Mm} {frames size : Nat} {m : ByteMem}

variable {fuel order : ℕ}

theorem nearestOrderLoop_spec {pages : ℕ} (enough : pages ≤ 2 ^ (order + fuel)) :
    pages ≤ 2 ^ nearestOrderLoop pages fuel order ∧
      ∀ o, order ≤ o → pages ≤ 2 ^ o → nearestOrderLoop pages fuel order ≤ o := by
  induction fuel generalizing order with
  | zero => exact ⟨enough, fun o le _ => le⟩
  | succ fuel ih =>
    rw [nearestOrderLoop]
    split
    next less =>
      rw [← Nat.add_assoc, Nat.add_right_comm] at enough
      obtain ⟨holds, least⟩ := ih enough
      refine ⟨holds, fun o le small => least o (Nat.lt_of_le_of_ne le ?_) small⟩
      rintro rfl
      omega
    next reached => exact ⟨Nat.le_of_not_lt reached, fun o le _ => le⟩

theorem nearestOrderLoop_isLeast {pages : ℕ} (few : pages ≤ 2 ^ 20) (enough : 20 ≤ fuel) :
    IsLeast {o | pages ≤ 2 ^ o} (nearestOrderLoop pages fuel 0) := by
  have reach : pages ≤ 2 ^ (0 + fuel) := few.trans (Nat.pow_le_pow_right (by decide) (by omega))
  obtain ⟨holds, least⟩ := nearestOrderLoop_spec reach
  exact ⟨holds, fun o small => least o (Nat.zero_le o) small⟩

/-- The least order exactly when rounding up to pages does not wrap. -/
theorem findNearestOrderGreater_iff (amount : UInt32) :
    (IsLeast {order | amount.toNat ≤ 4096 * 2 ^ order} (findNearestOrderGreater amount.toNat) ∧
      ∀ fuel ≥ 20, nearestOrderLoop (u32 (amount.toNat + 4096 - 1) / 4096) fuel 0 =
        findNearestOrderGreater amount.toNat) ↔ amount.toNat ≤ 0xFFFFF000 := by
  have small := amount.toNat_lt
  rw [findNearestOrderGreater]
  generalize amount.toNat = amount at small ⊢
  have few : u32 (amount + 4096 - 1) / 4096 ≤ 2 ^ 20 := by
    rw [u32]
    omega
  have least := nearestOrderLoop_isLeast few (Nat.le_refl 20)
  constructor
  · rintro ⟨⟨holds, -⟩, -⟩
    by_contra wraps
    have none : u32 (amount + 4096 - 1) / 4096 = 0 := by
      rw [u32]
      omega
    rw [none] at holds
    change amount ≤ 4096 * 2 ^ 0 at holds
    omega
  · intro low
    refine ⟨?_, fun fuel enough => (nearestOrderLoop_isLeast few enough).unique least⟩
    have same (o : ℕ) : amount ≤ 4096 * 2 ^ o ↔ u32 (amount + 4096 - 1) / 4096 ≤ 2 ^ o := by
      rw [u32]
      omega
    simpa only [same] using least

theorem findNearestOrderGreater_top : findNearestOrderGreater (0xFFFFFFFF : UInt32).toNat = 0 ∧
    0 ∉ {order | (0xFFFFFFFF : UInt32).toNat ≤ 4096 * 2 ^ order} := by
  rw [Set.mem_ofPred_eq]
  decide

end Elaborato.Mentos.Kheap
