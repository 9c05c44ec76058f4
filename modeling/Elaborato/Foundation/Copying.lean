import Mathlib.Algebra.Order.Ring.Nat
import Mathlib.Logic.Function.Basic

/-!
Copies one place after the other, right if no place is read after it has been written.
-/
namespace Foundation
open Function

variable {A V : Type*} [DecidableEq A]

def copyAlong (dst src : ℕ → A) : ℕ → (A → V) → A → V
  | 0, m => m
  | n + 1, m => copyAlong (fun i => dst (i + 1)) (fun i => src (i + 1)) n
      (update m (dst 0) (m (src 0)))

variable {dst src : ℕ → A} {n : ℕ} {m : A → V} {a : A}

theorem copyAlong_of_ne (out : ∀ i < n, a ≠ dst i) : copyAlong dst src n m a = m a := by
  induction n generalizing dst src m with
  | zero => rfl
  | succ n ih =>
    rw [copyAlong, ih fun i less => out (i + 1) (Nat.succ_lt_succ less)]
    exact update_of_ne (out 0 (Nat.succ_pos n)) ..

theorem copyAlong_dst (apart : ∀ i < n, ∀ j < i, dst j ≠ dst i)
    (unread : ∀ i < n, ∀ j < i, src i ≠ dst j) {i : ℕ} (less : i < n) :
    copyAlong dst src n m (dst i) = m (src i) := by
  induction n generalizing dst src m i with
  | zero => exact absurd less (Nat.not_lt_zero i)
  | succ n ih =>
    rw [copyAlong]
    cases i with
    | zero =>
      rw [copyAlong_of_ne fun j le => apart (j + 1) (Nat.succ_lt_succ le) 0 (Nat.succ_pos j)]
      exact update_self ..
    | succ i =>
      have later := ih (m := update m (dst 0) (m (src 0)))
        (fun j le k lt => apart (j + 1) (Nat.succ_lt_succ le) (k + 1) (Nat.succ_lt_succ lt))
        (fun j le k lt => unread (j + 1) (Nat.succ_lt_succ le) (k + 1) (Nat.succ_lt_succ lt))
        (Nat.lt_of_succ_lt_succ less)
      rw [later]
      exact update_of_ne (unread (i + 1) less 0 (Nat.succ_pos i)) ..

end Foundation
