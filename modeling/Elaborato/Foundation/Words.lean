import Mathlib.Algebra.Order.Ring.Nat

/-!
The maximal runs of a text without separators: `Splits` specifies and `wordsOf` computes them.
-/
namespace Foundation
open List

variable {α : Type*} {sep : α → Bool} {a : α} {l pre w rest : List α} {ws : List (List α)}

def wordsOf (sep : α → Bool) (l : List α) : List (List α) :=
  (l.splitOnP sep).filter fun w => !w.isEmpty

inductive Splits (sep : α → Bool) : List α → List (List α) → Prop
  | blank {pre : List α} : (∀ a ∈ pre, sep a = true) → Splits sep pre []
  | word {pre w rest : List α} {ws : List (List α)} :
      (∀ a ∈ pre, sep a = true) → w ≠ [] → (∀ a ∈ w, sep a = false) →
        (∀ a ∈ rest.head?, sep a = true) → Splits sep rest.tail ws →
          Splits sep (pre ++ (w ++ rest)) (w :: ws)

@[simp] theorem wordsOf_nil : wordsOf sep [] = [] := by
  rw [wordsOf, splitOnP_nil]
  rfl

theorem wordsOf_cons_sep (is : sep a = true) : wordsOf sep (a :: l) = wordsOf sep l := by
  rw [wordsOf, splitOnP_cons_eq_if_modifyHead, if_pos is]
  rfl

theorem wordsOf_blank_append (blank : ∀ a ∈ pre, sep a = true) :
    wordsOf sep (pre ++ l) = wordsOf sep l := by
  induction pre with
  | nil => rfl
  | cons a pre ih =>
    obtain ⟨first, others⟩ := forall_mem_cons.mp blank
    rw [cons_append, wordsOf_cons_sep first, ih others]

theorem wordsOf_word_append (nonempty : w ≠ []) (run : ∀ a ∈ w, sep a = false)
    (stop : ∀ a ∈ rest.head?, sep a = true) :
    wordsOf sep (w ++ rest) = w :: wordsOf sep rest.tail := by
  cases rest with
  | nil =>
    rw [append_nil, wordsOf, splitOnP_eq_singleton run,
      filter_cons_of_pos (by simpa using nonempty), tail_nil, wordsOf_nil,
      filter_nil]
  | cons b rest =>
    rw [wordsOf, splitOnP_append_cons_of_forall_mem run b (stop b rfl),
      filter_cons_of_pos (by simpa using nonempty)]
    rfl

theorem Splits.wordsOf_eq (splits : Splits sep l ws) : wordsOf sep l = ws := by
  induction splits with
  | blank blank => simpa using wordsOf_blank_append (l := []) blank
  | word blank nonempty run stop _ ih =>
    rw [wordsOf_blank_append blank, wordsOf_word_append nonempty run stop, ih]

theorem Splits.cons_sep (is : sep a = true) (splits : Splits sep l ws) :
    Splits sep (a :: l) ws := by
  cases splits with
  | blank blank => exact .blank (forall_mem_cons.mpr ⟨is, blank⟩)
  | word blank nonempty run stop rest =>
    exact .word (forall_mem_cons.mpr ⟨is, blank⟩) nonempty run stop rest

theorem Splits.cons_run (run : sep a = false) (splits : Splits sep l ws) :
    ∃ ws', Splits sep (a :: l) ws' := by
  have none : ∀ b ∈ ([] : List α), sep b = true := fun b mem => absurd mem not_mem_nil
  have single : ∀ b ∈ [a], sep b = false := forall_mem_singleton.mpr run
  -- The separators before the first word decide whether the run grows or ends at once.
  cases splits with
  | blank blank =>
    have stop : ∀ b ∈ l.head?, sep b = true := fun b mem => blank b (mem_of_mem_head? mem)
    have behind : Splits sep l.tail [] := .blank fun b mem => blank b (mem_of_mem_tail mem)
    exact ⟨_, .word none (cons_ne_nil a []) single stop behind⟩
  | @word pre w rest ws blank nonempty word stop splits =>
    cases pre with
    | nil => exact ⟨_, .word none (cons_ne_nil a w) (forall_mem_cons.mpr ⟨run, word⟩)
        stop splits⟩
    | cons b pre =>
      obtain ⟨first, others⟩ := forall_mem_cons.mp blank
      have stop' : ∀ c ∈ (b :: pre ++ (w ++ rest)).head?, sep c = true := by simpa using first
      exact ⟨_, .word none (cons_ne_nil a []) single stop'
        (.word others nonempty word stop splits)⟩

theorem splits_wordsOf (sep : α → Bool) (l : List α) : Splits sep l (wordsOf sep l) := by
  have total : ∃ ws, Splits sep l ws := by
    induction l with
    | nil => exact ⟨[], .blank fun a mem => absurd mem not_mem_nil⟩
    | cons a l ih =>
      obtain ⟨ws, splits⟩ := ih
      cases is : sep a with
      | true => exact ⟨ws, splits.cons_sep is⟩
      | false => exact splits.cons_run is
  obtain ⟨ws, splits⟩ := total
  rwa [splits.wordsOf_eq]

theorem Splits.length_le (splits : Splits sep l ws) : ws.length ≤ l.length := by
  induction splits with
  | blank _ => exact Nat.zero_le _
  | @word pre w rest ws _ nonempty _ _ _ ih =>
    have some : 0 < w.length := length_pos_iff.mpr nonempty
    simp only [length_cons, length_append, length_tail] at ih ⊢
    omega

end Foundation
