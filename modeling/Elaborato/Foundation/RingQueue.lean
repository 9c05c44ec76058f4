import Mathlib.Algebra.Order.Ring.Nat
import Mathlib.Logic.Function.Basic

/-!
A ring of `n` cells as a queue of at most `n - 1`, which drops its oldest element when full.
-/
namespace Foundation
open List Function

structure RingBuffer (α : Type*) where
  cells : ℕ → α
  r : ℕ
  w : ℕ

namespace RingBuffer
variable {α : Type*} {n : ℕ} {s : RingBuffer α} {q : List α} {a : α}

def step (n x : ℕ) : ℕ := if x = n - 1 then 0 else x + 1

def push (n : ℕ) (s : RingBuffer α) (a : α) : RingBuffer α :=
  ⟨update s.cells s.w a, if step n s.w = s.r then step n s.r else s.r, step n s.w⟩

def pop (n : ℕ) (s : RingBuffer α) : Option α × RingBuffer α :=
  if s.r ≠ s.w then (some (s.cells s.r), { s with r := step n s.r }) else (none, s)

def cellOf (n r i : ℕ) : ℕ := if r + i < n then r + i else r + i - n

structure Represents (n : ℕ) (s : RingBuffer α) (q : List α) : Prop where
  read : s.r < n
  room : q.length < n
  write : s.w = cellOf n s.r q.length
  cells : ∀ i a, q[i]? = some a → s.cells (cellOf n s.r i) = a

def enqueue (capacity : ℕ) (q : List α) (a : α) : List α :=
  (if q.length = capacity then q.tail else q) ++ [a]

theorem step_cellOf {r i : ℕ} (read : r < n) (less : i < n) :
    step n (cellOf n r i) = cellOf n r (i + 1) := by
  rw [step, cellOf, cellOf]
  split_ifs <;> omega

theorem cellOf_step {r i : ℕ} (read : r < n) (less : i < n) :
    cellOf n (step n r) i = cellOf n r (i + 1) := by
  rw [step, cellOf, cellOf]
  split_ifs <;> omega

theorem cellOf_ne {r i j : ℕ} (less : i < j) (lessN : j < n) : cellOf n r i ≠ cellOf n r j := by
  rw [cellOf, cellOf]
  split_ifs <;> omega

theorem step_lt {x : ℕ} (less : x < n) : step n x < n := by
  rw [step]
  split_ifs <;> omega

theorem Represents.tail (rep : Represents n s (a :: q)) :
    Represents n { s with r := step n s.r } q := by
  have room := rep.room
  rw [length_cons] at room
  refine ⟨step_lt rep.read, by omega, ?_, fun i b is => ?_⟩
  · rw [rep.write, length_cons, cellOf_step rep.read (by omega)]
  · obtain ⟨less, -⟩ := List.getElem?_eq_some_iff.mp is
    rw [cellOf_step rep.read (by omega)]
    exact rep.cells (i + 1) b is

variable (rep : Represents n s q)
include rep

theorem Represents.concat (room : q.length + 1 < n) (a : α) :
    Represents n ⟨update s.cells s.w a, s.r, step n s.w⟩ (q ++ [a]) := by
  refine ⟨rep.read, by simpa using room, ?_, fun i b is => ?_⟩
  · rw [length_append, length_singleton]
    exact rep.write ▸ step_cellOf rep.read rep.room
  · by_cases last : i = q.length
    · rw [last, getElem?_concat_length, Option.some.injEq] at is
      rw [last, ← rep.write]
      exact (update_self ..).trans is
    · obtain ⟨less, -⟩ := List.getElem?_eq_some_iff.mp is
      rw [length_append, length_singleton] at less
      rw [getElem?_append_left (by omega)] at is
      refine (update_of_ne ?_ ..).trans (rep.cells i b is)
      rw [rep.write]
      exact cellOf_ne (by omega) rep.room

theorem Represents.full_iff : step n s.w = s.r ↔ q.length = n - 1 := by
  have read := rep.read
  have room := rep.room
  rw [rep.write, step_cellOf read room, cellOf]
  split_ifs <;> omega

theorem Represents.push (two : 2 ≤ n) (a : α) :
    Represents n (s.push n a) (enqueue (n - 1) q a) := by
  rw [RingBuffer.push, enqueue]
  by_cases full : q.length = n - 1
  · rw [if_pos (rep.full_iff.mpr full), if_pos full]
    cases q with
    | nil =>
      rw [length_nil] at full
      omega
    | cons b q =>
      rw [length_cons] at full
      exact rep.tail.concat (by omega) a
  · have room := rep.room
    rw [if_neg fun meets => full (rep.full_iff.mp meets), if_neg full]
    exact rep.concat (by omega) a

theorem Represents.pop : (s.pop n).1 = q.head? ∧ Represents n (s.pop n).2 q.tail := by
  have read := rep.read
  cases q with
  | nil =>
    have meets : s.r = s.w := by
      rw [rep.write, length_nil, cellOf]
      split_ifs <;> omega
    rw [RingBuffer.pop, if_neg (not_not.mpr meets)]
    exact ⟨rfl, rep⟩
  | cons b q =>
    have apart : s.r ≠ s.w := by
      have room := rep.room
      rw [rep.write, length_cons, cellOf]
      rw [length_cons] at room
      split_ifs <;> omega
    have first : s.cells s.r = b := by
      have here := rep.cells 0 b rfl
      rwa [cellOf, Nat.add_zero, if_pos read] at here
    rw [RingBuffer.pop, if_pos apart, first]
    exact ⟨rfl, rep.tail⟩

end RingBuffer

end Foundation
