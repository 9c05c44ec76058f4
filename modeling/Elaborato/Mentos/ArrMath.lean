import Mathlib.Algebra.Order.Group.Nat
import Mathlib.Algebra.Order.Monoid.Canonical.Defs
import Mathlib.Algebra.Order.Pi
import Mathlib.Logic.Function.Basic

/-!
The array library of the deadlock module (arr_math.c), on 32-bit words behind a pointer.
-/
namespace Elaborato.Mentos
open Function

/-- The words behind a `uint32_t *`. -/
abbrev Vec := Nat → UInt32

/-- The rows behind a `uint32_t **`. -/
abbrev Mat := Nat → Vec

def arrZip (f : UInt32 → UInt32 → UInt32) (left right : Vec) (length : Nat) : Vec :=
  (List.range length).foldl (fun dst i => update dst i (f (dst i) (right i))) left

def all (dst : Vec) (value : UInt32) (length : Nat) : Vec :=
  arrZip (fun _ _ => value) dst dst length

def arrSub (left right : Vec) (length : Nat) : Vec := arrZip (· - ·) left right length

def arrAdd (left right : Vec) (length : Nat) : Vec := arrZip (· + ·) left right length

def arrAny (p : UInt32 → UInt32 → Bool) (left right : Vec) (length : Nat) : Bool :=
  (List.range length).any fun i => p (left i) (right i)

def arrGAny (left right : Vec) (length : Nat) : Bool := arrAny (fun a b => a > b) left right length

def arrLAny (left right : Vec) (length : Nat) : Bool := arrAny (fun a b => a < b) left right length

def arrE (left right : Vec) (length : Nat) : Bool := !arrAny (fun a b => a != b) left right length

def arrNe (left right : Vec) (length : Nat) : Bool := !arrE left right length

theorem arrZip_apply (f : UInt32 → UInt32 → UInt32) (left right : Vec) (length j : Nat) :
    arrZip f left right length j = if j < length then f (left j) (right j) else left j := by
  induction length generalizing j with
  | zero => simp [arrZip]
  | succ length ih =>
    have step : arrZip f left right (length + 1) =
        update (arrZip f left right length) length
          (f (arrZip f left right length length) (right length)) := by
      simp [arrZip, List.range_succ, List.foldl_append]
    rw [step]
    by_cases hj : j = length
    · subst hj
      simp [ih]
    · have hlt : j < length + 1 ↔ j < length := by omega
      simp only [update_of_ne hj, ih, hlt]

@[simp] theorem arrZip_of_lt (f : UInt32 → UInt32 → UInt32) (left right : Vec) {length j : Nat}
    (hj : j < length) : arrZip f left right length j = f (left j) (right j) := by
  rw [arrZip_apply, if_pos hj]

@[simp] theorem all_apply (dst : Vec) (value : UInt32) (length j : Nat) :
    all dst value length j = if j < length then value else dst j :=
  arrZip_apply _ _ _ _ _

theorem arrAny_eq_false (p : UInt32 → UInt32 → Bool) (left right : Vec) (length : Nat) :
    arrAny p left right length = false ↔ ∀ j < length, p (left j) (right j) = false := by
  simp [arrAny]

theorem arrE_eq_true (left right : Vec) (length : Nat) :
    arrE left right length = true ↔ ∀ j < length, left j = right j := by
  simp [arrE, arrAny]

theorem arrSub_arrAdd (left right : Vec) (length : Nat) :
    arrSub (arrAdd left right length) right length = left := by
  funext j
  simp only [arrSub, arrAdd, arrZip_apply]
  split <;> simp

theorem arrAdd_arrSub (left right : Vec) (length : Nat) :
    arrAdd (arrSub left right length) right length = left := by
  funext j
  simp only [arrSub, arrAdd, arrZip_apply]
  split <;> simp

/-- The first `m` words as natural numbers. -/
def val (m : Nat) (v : Vec) : Fin m → Nat := fun j => (v j).toNat

@[simp] theorem val_apply (m : Nat) (v : Vec) (j : Fin m) : val m v j = (v j).toNat := rfl

theorem arrGAny_eq_false (left right : Vec) (m : Nat) :
    arrGAny left right m = false ↔ val m left ≤ val m right := by
  simp only [arrGAny, arrAny_eq_false, decide_eq_false_iff_not, Pi.le_def, val_apply]
  constructor
  · intro h j
    exact UInt32.le_iff_toNat_le.mp (UInt32.not_lt.mp (h j j.isLt))
  · intro h j hj
    exact UInt32.not_lt.mpr (UInt32.le_iff_toNat_le.mpr (h ⟨j, hj⟩))

theorem arrLAny_eq_false (left right : Vec) (m : Nat) :
    arrLAny left right m = false ↔ val m right ≤ val m left := by
  rw [← arrGAny_eq_false]
  simp only [arrLAny, arrGAny, arrAny_eq_false, gt_iff_lt]

variable {left right : Vec} {m : Nat}

theorem val_arrAdd (fits : ∀ j, val m left j + val m right j < 2 ^ 32) :
    val m (arrAdd left right m) = val m left + val m right := by
  funext j
  have h : (left j).toNat + (right j).toNat < 2 ^ 32 := fits j
  simpa [arrAdd, UInt32.toNat_add] using h

theorem val_arrSub (fits : val m right ≤ val m left) :
    val m (arrSub left right m) + val m right = val m left := by
  funext j
  have h : (right j).toNat ≤ (left j).toNat := fits j
  have hs : (left j - right j).toNat = (left j).toNat - (right j).toNat :=
    UInt32.toNat_sub_of_le _ _ (UInt32.le_iff_toNat_le.mpr h)
  simp [arrSub, hs, Nat.sub_add_cancel h]

end Elaborato.Mentos
