import Mathlib.Data.List.Nodup
import Mathlib.Logic.Function.Basic

/-!
Loops that write one entry of an array per element of a list.
-/
namespace Foundation
open List Function

variable {α ι ν : Type*} [DecidableEq ι]

/-- The new value of an entry may depend on the old one. -/
def changeAll (key : α → ι) (change : α → ν → ν) (start : ι → ν) (xs : List α) : ι → ν :=
  xs.foldl (fun a x => update a (key x) (change x (a (key x)))) start

def writeAll (key : α → ι) (value : α → ν) (start : ι → ν) (xs : List α) : ι → ν :=
  xs.foldl (fun a x => update a (key x) (value x)) start

variable {key : α → ι} {change : α → ν → ν} {value : α → ν} {start : ι → ν} {xs : List α}

theorem changeAll_of_not_mem {i : ι} (hi : i ∉ xs.map key) :
    changeAll key change start xs i = start i := by
  induction xs generalizing start with
  | nil => rfl
  | cons x xs ih =>
    obtain ⟨notKey, rest⟩ := not_or.mp (mem_cons.not.mp hi)
    exact (ih rest).trans (update_of_ne notKey ..)

theorem changeAll_of_mem (distinct : (xs.map key).Nodup) {x : α} (hx : x ∈ xs) :
    changeAll key change start xs (key x) = change x (start (key x)) := by
  induction xs generalizing start with
  | nil => exact absurd hx not_mem_nil
  | cons y xs ih =>
    obtain ⟨once, distinct⟩ := nodup_cons.mp distinct
    rcases mem_cons.mp hx with rfl | hx
    · exact (changeAll_of_not_mem once).trans (update_self ..)
    · have other : key x ≠ key y := fun same => once (same ▸ mem_map_of_mem hx)
      exact (ih distinct hx).trans (congrArg (change x) (update_of_ne other ..))

@[simp] theorem writeAll_nil : writeAll key value start [] = start := rfl

theorem writeAll_cons (x : α) : writeAll key value start (x :: xs) =
    writeAll key value (update start (key x) (value x)) xs := rfl

theorem writeAll_of_not_mem {i : ι} (hi : i ∉ xs.map key) :
    writeAll key value start xs i = start i :=
  @changeAll_of_not_mem _ _ _ _ _ (fun x _ => value x) _ _ _ hi

theorem writeAll_of_mem (distinct : (xs.map key).Nodup) {x : α} (hx : x ∈ xs) :
    writeAll key value start xs (key x) = value x :=
  @changeAll_of_mem _ _ _ _ _ (fun x _ => value x) _ _ distinct _ hx

end Foundation
