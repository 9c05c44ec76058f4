import Mathlib.Data.List.Basic

/-!
Items gathered into a list up to a limit, where some marks empty it and some end it.
-/
namespace Foundation
open List

variable {α : Type*}

inductive Mark (α : Type*)
  | item (a : α)
  | clear
  | abort
  deriving DecidableEq

def Mark.apply (kept : List α) : Mark α → Option (List α)
  | .item a => some (kept ++ [a])
  | .clear => some []
  | .abort => none

def gather (limit : Nat) : List (Mark α) → List α → Option (List α)
  | [], kept => some kept
  | mark :: marks, kept =>
    if kept.length < limit then (mark.apply kept).bind (gather limit marks) else some kept

def Mark.item? : Mark α → Option α
  | .item a => some a
  | _ => none

def items (marks : List (Mark α)) : List α := marks.filterMap Mark.item?

variable {limit : Nat} {marks marks' : List (Mark α)} {kept out as : List α}

theorem items_append : items (marks ++ marks') = items marks ++ items marks' := filterMap_append

theorem items_map_item (as : List α) : items (as.map Mark.item) = as := by
  induction as with
  | nil => rfl
  | cons a as ih => exact congrArg (a :: ·) ih

theorem gather_full (full : limit ≤ kept.length) : gather limit marks kept = some kept := by
  cases marks with
  | nil => rfl
  | cons mark marks => rw [gather, if_neg (by omega)]

theorem gather_append : gather limit (marks ++ marks') kept =
    (gather limit marks kept).bind (gather limit marks') := by
  induction marks generalizing kept with
  | nil => rfl
  | cons mark marks ih =>
    rw [cons_append, gather, gather]
    split
    · cases mark with
      | item a | clear => exact ih
      | abort => rfl
    · next full => exact (gather_full (Nat.le_of_not_lt full)).symm

theorem gather_length_le (fits : kept.length ≤ limit)
    (result : gather limit marks kept = some out) : out.length ≤ limit := by
  induction marks generalizing kept with
  | nil =>
    cases result
    exact fits
  | cons mark marks ih =>
    rw [gather] at result
    split at result
    · next room =>
        cases mark with
        | item a => exact ih (by simp; omega) result
        | clear => exact ih (Nat.zero_le _) result
        | abort => cases result
    · cases result
      exact fits

theorem gather_sublist (result : gather limit marks kept = some out) :
    out.Sublist (kept ++ items marks) := by
  induction marks generalizing kept with
  | nil =>
    cases result
    exact sublist_append_left _ _
  | cons mark marks ih =>
    rw [gather] at result
    split at result
    · cases mark with
      | item a => simpa [items, Mark.item?] using ih result
      | clear => exact (ih result).trans (sublist_append_right _ _)
      | abort => cases result
    · cases result
      exact sublist_append_left _ _

theorem gather_returns (limit : Nat) (kept : List α) (going : Mark.abort ∉ marks) :
    ∃ out, gather limit marks kept = some out := by
  induction marks generalizing kept with
  | nil => exact ⟨kept, rfl⟩
  | cons mark marks ih =>
    have going' := fun h => going (mem_cons_of_mem _ h)
    rw [gather]
    split
    · cases mark with
      | item a | clear => exact ih _ going'
      | abort => exact absurd mem_cons_self going
    · exact ⟨kept, rfl⟩

theorem gather_stretch (result : gather limit marks kept = some out) :
    (∃ as rest, marks = as.map Mark.item ++ rest ∧ out = kept ++ as ∧
        (limit ≤ out.length ∨ rest = [])) ∨
      ∃ before rest, marks = before ++ out.map Mark.item ++ rest ∧ Mark.abort ∉ before ∧
        (limit ≤ out.length ∨ rest = []) := by
  induction marks generalizing kept with
  | nil =>
    cases result
    exact .inl ⟨[], [], rfl, by simp, .inr rfl⟩
  | cons mark marks ih =>
    rw [gather] at result
    split at result
    · cases mark with
      | item a =>
        rcases ih result with
          ⟨as, rest, whole, made, done⟩ | ⟨before, rest, whole, going, done⟩
        · exact .inl ⟨a :: as, rest, by simp [whole], by simp [made], done⟩
        · exact .inr ⟨.item a :: before, rest, by simp [whole], by simpa using going, done⟩
      | clear =>
        rcases ih result with
          ⟨as, rest, whole, made, done⟩ | ⟨before, rest, whole, going, done⟩
        · exact .inr ⟨[.clear], rest, by simp [whole, made], by simp, done⟩
        · exact .inr ⟨.clear :: before, rest, by simp [whole], by simpa using going, done⟩
      | abort => cases result
    · next full =>
        cases result
        exact .inl ⟨[], mark :: marks, rfl, by simp, .inl (Nat.le_of_not_lt full)⟩

theorem gather_items (fits : kept.length + as.length ≤ limit) :
    gather limit (as.map Mark.item) kept = some (kept ++ as) := by
  induction as generalizing kept with
  | nil => simp [gather]
  | cons a as ih =>
    rw [length_cons] at fits
    rw [map_cons, gather, if_pos (by omega)]
    refine (ih (by simp; omega)).trans ?_
    simp

theorem gather_reaches (fits : kept.length ≤ limit) (enough : limit ≤ kept.length + as.length) :
    ∃ out, gather limit (as.map Mark.item ++ marks) kept = some out ∧ out.length = limit := by
  induction as generalizing kept with
  | nil =>
    have full : limit ≤ kept.length := by simpa using enough
    exact ⟨kept, gather_full full, by omega⟩
  | cons a as ih =>
    rw [length_cons] at enough
    by_cases room : kept.length < limit
    · rw [map_cons, cons_append, gather, if_pos room]
      exact ih (by simp; omega) (by simp; omega)
    · exact ⟨kept, gather_full (Nat.le_of_not_lt room), by omega⟩

def Uninterrupted (limit total : Nat) (marks : List (Mark α)) : Prop :=
  ∃ (before : List (Mark α)) (as : List α) (rest : List (Mark α)),
    marks = before ++ as.map Mark.item ++ rest ∧ Mark.abort ∉ before ∧
    as.length = min limit total ∧ (as.length = limit ∨ rest = [])

theorem gather_length_iff {total : Nat} (bound : (items marks).length ≤ total) :
    (∃ out, gather limit marks [] = some out ∧ out.length = min limit total) ↔
      Uninterrupted limit total marks := by
  constructor
  · rintro ⟨out, result, length⟩
    have most := gather_length_le (Nat.zero_le limit) result
    rcases gather_stretch result with
      ⟨as, rest, whole, made, done⟩ | ⟨before, rest, whole, going, done⟩
    · rw [nil_append] at made
      exact ⟨[], as, rest, by simp [whole], by simp, made ▸ length,
        done.imp_left fun h => made ▸ Nat.le_antisymm most h⟩
    · exact ⟨before, out, rest, whole, going, length, done.imp_left fun h => Nat.le_antisymm most h⟩
  · rintro ⟨before, as, rest, rfl, going, length, done⟩
    obtain ⟨kept, earlier⟩ := gather_returns limit [] going
    have most := gather_length_le (Nat.zero_le limit) earlier
    rw [append_assoc, gather_append, earlier, Option.bind_some]
    by_cases reached : limit ≤ total
    · rw [Nat.min_eq_left reached] at length ⊢
      exact gather_reaches most (by omega)
    · have few : limit ≠ total := by omega
      rw [Nat.min_eq_right (by omega)] at length ⊢
      have nothing : rest = [] := done.resolve_left (by omega)
      have started : kept = [] := by
        have sub := (gather_sublist earlier).length_le
        rw [items_append, items_append, items_map_item] at bound
        simp only [nil_append, length_append] at sub bound
        exact length_eq_zero_iff.mp (by omega)
      subst nothing started
      rw [append_nil]
      exact ⟨as, gather_items (by simp; omega), length⟩

def trail : List α → List (Mark α) → List α
  | kept, [] => kept
  | kept, .item a :: marks => trail (kept ++ [a]) marks
  | _, _ :: marks => trail [] marks

end Foundation
