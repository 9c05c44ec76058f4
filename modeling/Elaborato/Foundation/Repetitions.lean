import Mathlib.Algebra.Order.Ring.Nat
import Mathlib.Data.List.Destutter

/-!
Lists with consecutive repetitions collapsed, built from the left.
-/
namespace Foundation
open List

variable {α : Type*} [DecidableEq α] {a b : α} {l : List α}

abbrev collapse (l : List α) : List α := l.destutter (· ≠ ·)

theorem destutter'_concat (l : List α) (a c : α) :
    (l ++ [c]).destutter' (· ≠ ·) a =
      if (l.destutter' (· ≠ ·) a).getLast? = some c then l.destutter' (· ≠ ·) a
      else l.destutter' (· ≠ ·) a ++ [c] := by
  induction l generalizing a with
  | nil =>
    by_cases same : a = c <;> simp [same]
  | cons b l ih =>
    by_cases same : a = b
    · simp [same, ih]
    · have kept : l.destutter' (· ≠ ·) b ≠ [] := List.destutter'_ne_nil _ _
      have step (m : List α) :
          (b :: m).destutter' (· ≠ ·) a = a :: m.destutter' (· ≠ ·) b := by simp [same]
      rw [cons_append, step, step, ih, getLast?_cons_of_ne_nil kept]
      split <;> rfl

theorem collapse_concat (l : List α) (c : α) :
    collapse (l ++ [c]) =
      if (collapse l).getLast? = some c then collapse l else collapse l ++ [c] := by
  cases l with
  | nil => rfl
  | cons a l => exact destutter'_concat l a c

theorem getLast?_collapse_concat (l : List α) (c : α) :
    (collapse (l ++ [c])).getLast? = some c := by
  rw [collapse_concat]
  split
  case isTrue same => exact same
  case isFalse => exact getLast?_concat

theorem collapse_concat_eq {c : α} (l : List α) : ∃ d, collapse (l ++ [c]) = d ++ [c] :=
  ⟨_, (dropLast_append_getLast? c (getLast?_collapse_concat l c)).symm⟩

theorem collapse_append_chain (a : List α) (chain : (b :: l).IsChain (· ≠ ·)) :
    collapse (a ++ b :: l) = collapse (a ++ [b]) ++ l := by
  induction l generalizing a b with
  | nil => rw [append_nil]
  | cons c l ih =>
    obtain ⟨apart, rest⟩ := isChain_cons_cons.mp chain
    have last : (collapse (a ++ [b])).getLast? ≠ some c := by
      rw [getLast?_collapse_concat]
      exact fun same => apart (Option.some.inj same)
    rw [append_cons a b, ih (a ++ [b]) rest, collapse_concat, if_neg last, append_assoc]
    rfl

theorem collapse_append_eq (a : List α) (nonempty : l ≠ []) (chain : l.IsChain (· ≠ ·)) :
    ∃ d, collapse (a ++ l) = d ++ l := by
  obtain ⟨b, l, rfl⟩ := exists_cons_of_ne_nil nonempty
  obtain ⟨d, first⟩ := collapse_concat_eq (c := b) a
  exact ⟨d, by rw [collapse_append_chain a chain, first, append_assoc]; rfl⟩

end Foundation
