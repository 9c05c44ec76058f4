import Elaborato.Foundation.Copying

/-!
`memmove` (string.c), downwards if the destination starts within the source.
-/
namespace Elaborato.Mentos.Memory
open Foundation Function

abbrev Bytes := UInt32 → UInt8

def copyUp : ℕ → UInt32 → UInt32 → Bytes → Bytes
  | 0, _, _, m => m
  | n + 1, dst, src, m => copyUp n (dst + 1) (src + 1) (update m dst (m src))

def copyDown : ℕ → UInt32 → UInt32 → Bytes → Bytes
  | 0, _, _, m => m
  | n + 1, dst, src, m => copyDown n (dst - 1) (src - 1) (update m dst (m src))

/-- The pointer returned, and the memory. -/
def memmove (m : Bytes) (dst src n : UInt32) : UInt32 × Bytes :=
  if dst ≤ src ∨ dst ≥ src + n then (dst, copyUp n.toNat dst src m)
  else (dst, copyDown n.toNat (dst + n - 1) (src + n - 1) m)

def forth (p : UInt32) (i : ℕ) : UInt32 := p + UInt32.ofNat i

/-- The address a number of bytes back. -/
def back (p : UInt32) (i : ℕ) : UInt32 := p - UInt32.ofNat i

theorem forth_succ (p : UInt32) (i : ℕ) : forth p (i + 1) = forth (p + 1) i := by
  rw [forth, forth, UInt32.ofNat_add, UInt32.add_comm (UInt32.ofNat i), ← UInt32.add_assoc]
  rfl

theorem back_succ (p : UInt32) (i : ℕ) : back p (i + 1) = back (p - 1) i := by
  rw [back, back, UInt32.ofNat_add]
  grind

theorem copyUp_eq (n : ℕ) (dst src : UInt32) (m : Bytes) :
    copyUp n dst src m = copyAlong (forth dst) (forth src) n m := by
  induction n generalizing dst src m with
  | zero => rfl
  | succ n ih =>
    have first (p : UInt32) : forth p 0 = p := UInt32.add_zero p
    rw [copyUp, ih, copyAlong, first, first]
    simp only [forth_succ]

theorem copyDown_eq (n : ℕ) (dst src : UInt32) (m : Bytes) :
    copyDown n dst src m = copyAlong (back dst) (back src) n m := by
  induction n generalizing dst src m with
  | zero => rfl
  | succ n ih =>
    have first (p : UInt32) : back p 0 = p := UInt32.sub_zero p
    rw [copyDown, ih, copyAlong, first, first]
    simp only [back_succ]

variable {p n : UInt32} {i : ℕ}

section
variable (fits : p.toNat + n.toNat ≤ 2 ^ 32) (less : i < n.toNat)
include fits less

theorem forth_toNat : (forth p i).toNat = p.toNat + i := by
  rw [forth, UInt32.toNat_add, UInt32.toNat_ofNat']
  omega

theorem back_toNat : (back (p + n - 1) i).toNat = p.toNat + (n.toNat - 1 - i) := by
  have one : (1 : UInt32).toNat = 1 := rfl
  rw [back, UInt32.toNat_sub, UInt32.toNat_sub, UInt32.toNat_add, UInt32.toNat_ofNat', one]
  omega

theorem back_eq_forth : back (p + n - 1) (n.toNat - 1 - i) = forth p i := by
  apply UInt32.toNat_inj.mp
  rw [back_toNat fits (by omega), forth_toNat fits less]
  omega

end

section Moves
variable {m : Bytes} {dst src : UInt32} (fitsDst : dst.toNat + n.toNat ≤ 2 ^ 32)
  (fitsSrc : src.toNat + n.toNat ≤ 2 ^ 32)
include fitsDst fitsSrc

theorem upward_unread (upward : dst ≤ src ∨ dst ≥ src + n) :
    ∀ i < n.toNat, ∀ j < i, forth src i ≠ forth dst j := by
  intro i lessI j lessJ same
  have addresses := congrArg UInt32.toNat same
  rw [forth_toNat fitsSrc lessI, forth_toNat fitsDst (by omega)] at addresses
  have places : dst.toNat ≤ src.toNat ∨ (src.toNat + n.toNat) % 2 ^ 32 ≤ dst.toNat := by
    rwa [UInt32.le_iff_toNat_le, ge_iff_le, UInt32.le_iff_toNat_le, UInt32.toNat_add] at upward
  have top := dst.toNat_lt
  omega

theorem downward_unread (downward : ¬ (dst ≤ src ∨ dst ≥ src + n)) :
    ∀ i < n.toNat, ∀ j < i, back (src + n - 1) i ≠ back (dst + n - 1) j := by
  intro i lessI j lessJ same
  have addresses := congrArg UInt32.toNat same
  rw [back_toNat fitsSrc lessI, back_toNat fitsDst (by omega)] at addresses
  have above : src.toNat < dst.toNat := by
    rw [not_or, UInt32.not_le] at downward
    exact UInt32.lt_iff_toNat_lt.mp downward.1
  omega

theorem memmove_dst {i : ℕ} (less : i < n.toNat) :
    (memmove m dst src n).2 (forth dst i) = m (forth src i) := by
  rw [memmove]
  split
  case isTrue upward =>
    rw [copyUp_eq]
    apply copyAlong_dst _ (upward_unread fitsDst fitsSrc upward) less
    intro k lessK j lessJ same
    have addresses := congrArg UInt32.toNat same
    rw [forth_toNat fitsDst (by omega), forth_toNat fitsDst lessK] at addresses
    omega
  case isFalse downward =>
    rw [copyDown_eq, ← back_eq_forth fitsDst less, ← back_eq_forth fitsSrc less]
    apply copyAlong_dst _ (downward_unread fitsDst fitsSrc downward) (by omega)
    intro k lessK j lessJ same
    have addresses := congrArg UInt32.toNat same
    rw [back_toNat fitsDst (by omega), back_toNat fitsDst lessK] at addresses
    omega

omit fitsSrc in
theorem memmove_frame {a : UInt32} (out : a.toNat < dst.toNat ∨ dst.toNat + n.toNat ≤ a.toNat) :
    (memmove m dst src n).2 a = m a := by
  rw [memmove]
  split
  case isTrue =>
    rw [copyUp_eq]
    apply copyAlong_of_ne
    intro i less same
    rw [same, forth_toNat fitsDst less] at out
    omega
  case isFalse =>
    rw [copyDown_eq]
    apply copyAlong_of_ne
    intro i less same
    rw [same, back_toNat fitsDst less] at out
    omega

/-- The destination holds what the source held, and nothing else has changed. -/
theorem memmove_correct :
    (memmove m dst src n).1 = dst ∧
      (∀ i < n.toNat, (memmove m dst src n).2 (forth dst i) = m (forth src i)) ∧
      ∀ a : UInt32, a.toNat < dst.toNat ∨ dst.toNat + n.toNat ≤ a.toNat →
        (memmove m dst src n).2 a = m a := by
  refine ⟨?_, fun i less => memmove_dst fitsDst fitsSrc less,
    fun a out => memmove_frame fitsDst out⟩
  rw [memmove]
  split <;> rfl

end Moves

theorem memmove_correct_overlap :
    let m : Bytes := fun a => if a = 0xfffffffd then 7 else if a = 0xfffffffe then 9 else 0
    (memmove m 0xfffffffe 0xfffffffd 2).2 0xffffffff = 9 := by
  exact (memmove_correct (by decide) (by decide)).2.1 1 (by decide)

end Elaborato.Mentos.Memory
