import Elaborato.Foundation.Execution
import Mathlib.Data.List.Perm.Basic
import Mathlib.Data.List.Sort

/-!
Ordered arrays (ordered_array.c). An access at `max_size` or beyond halts.
-/
namespace Elaborato.Mentos
open Foundation List Function

structure OrderedArray (T : Type) where
  array : ℕ → T
  size : ℕ
  maxSize : ℕ
  lessThan : T → T → Bool

inductive ArrayHalt
  | outside
  deriving DecidableEq, Repr

variable {T : Type}

namespace OrderedArray

def get (a : OrderedArray T) (i : ℕ) : Except ArrayHalt T :=
  if i < a.maxSize then .ok (a.array i) else .error .outside

def set (a : OrderedArray T) (i : ℕ) (item : T) : Except ArrayHalt (OrderedArray T) :=
  if i < a.maxSize then .ok { a with array := update a.array i item }
  else .error .outside

def locate (a : OrderedArray T) (item : T) : ℕ → ℕ → Except ArrayHalt ℕ
  | 0, iterator => .ok iterator
  | n + 1, iterator => do
    if a.lessThan (← a.get iterator) item then a.locate item n (iterator + 1) else .ok iterator

def shift : ℕ → ℕ → T → OrderedArray T → Except ArrayHalt (OrderedArray T)
  | 0, _, _, a => .ok a
  | n + 1, iterator, tmp, a => do
    let tmp2 ← a.get (iterator + 1)
    let a ← a.set (iterator + 1) tmp
    shift n (iterator + 1) tmp2 a

/-- The loop of `remove_ordered_array`. -/
def pull : ℕ → ℕ → OrderedArray T → Except ArrayHalt (OrderedArray T)
  | 0, _, a => .ok a
  | n + 1, i, a => do
    let next ← a.get (i + 1)
    let a ← a.set i next
    pull n (i + 1) a

/-- The first `size` elements. -/
def elements (a : OrderedArray T) : List T := (List.range a.size).map a.array

end OrderedArray

open OrderedArray

def createOrderedArray (null : T) (maxSize : ℕ) (lessThan : T → T → Bool) : OrderedArray T :=
  ⟨fun _ => null, 0, maxSize, lessThan⟩

def insertOrderedArray (item : T) (a : OrderedArray T) : Except ArrayHalt (OrderedArray T) := do
  let iterator ← a.locate item a.size 0
  if iterator = a.size then do
    let a ← a.set a.size item
    .ok { a with size := a.size + 1 }
  else do
    let tmp ← a.get iterator
    let a ← a.set iterator item
    let a ← shift (a.size - iterator) iterator tmp a
    .ok { a with size := a.size + 1 }

def removeOrderedArray (i : ℕ) (a : OrderedArray T) : Except ArrayHalt (OrderedArray T) := do
  let a ← pull (a.size - i) i a
  .ok { a with size := a.size - 1 }

inductive ArrayCall (T : Type)
  | insert (item : T)
  | remove (i : ℕ)

def ArrayCall.run (a : OrderedArray T) : ArrayCall T → Except ArrayHalt (OrderedArray T)
  | .insert item => insertOrderedArray item a
  | .remove i => removeOrderedArray i a

def ArrayCall.Valid (a : OrderedArray T) : ArrayCall T → Prop
  | .insert _ => True
  | .remove i => i < a.size

def ArrayStep (a : OrderedArray T) (call : ArrayCall T) (a' : OrderedArray T) : Prop :=
  call.Valid a ∧ call.run a = .ok a'

def ArrayCall.inserted : ArrayCall T → List T
  | .insert item => [item]
  | .remove _ => []

def ArrayCall.removed (a : OrderedArray T) : ArrayCall T → List T
  | .insert _ => []
  | .remove i => [a.array i]

variable {a : OrderedArray T} {array : ℕ → T} {i : ℕ} {xs : List T}

/-- The elements from an index on. -/
def Laid (array : ℕ → T) : ℕ → List T → Prop
  | _, [] => True
  | i, x :: xs => array i = x ∧ Laid array (i + 1) xs

theorem laid_iff : Laid array i xs ↔ (List.range xs.length).map (fun k => array (i + k)) = xs := by
  induction xs generalizing i with
  | nil => exact iff_of_true True.intro rfl
  | cons x xs ih =>
    rw [length_cons, range_succ_eq_map, map_cons, map_map, cons.injEq, Laid, ih]
    simp only [comp_def, Nat.add_assoc, Nat.add_comm 1, Nat.add_zero, Nat.succ_eq_add_one]

theorem laid_append {ys : List T} :
    Laid array i (xs ++ ys) ↔ Laid array i xs ∧ Laid array (i + xs.length) ys := by
  induction xs generalizing i with
  | nil => simp [Laid]
  | cons x xs ih =>
    simp only [cons_append, Laid, ih, length_cons, and_assoc, Nat.add_assoc, Nat.add_comm 1]

theorem Laid.congr (laid : Laid array i xs) (array' : ℕ → T)
    (same : ∀ j, i ≤ j → j < i + xs.length → array' j = array j) : Laid array' i xs := by
  induction xs generalizing i with
  | nil => exact True.intro
  | cons x xs ih =>
    rw [length_cons] at same
    refine ⟨(same i (Nat.le_refl i) (by omega)).trans laid.1, ?_⟩
    exact ih laid.2 fun j low high => same j (by omega) (by omega)

theorem get_inside (inside : i < a.maxSize) : { a with array }.get i = .ok (array i) :=
  if_pos inside

theorem set_inside (inside : i < a.maxSize) (item : T) :
    { a with array }.set i item = .ok { a with array := update array i item } := if_pos inside

theorem locate_eq (item : T) (laid : Laid a.array i xs) (inside : i + xs.length ≤ a.maxSize) :
    a.locate item xs.length i = .ok (i + (xs.takeWhile (a.lessThan · item)).length) := by
  induction xs generalizing i with
  | nil => rfl
  | cons x xs ih =>
    rw [length_cons] at inside ⊢
    rw [locate, get_inside (by omega), bind_ok, laid.1, takeWhile_cons]
    cases less : a.lessThan x item with
    | true =>
      rw [if_pos rfl, if_pos rfl, ih laid.2 (by omega), length_cons, Nat.add_assoc, Nat.add_comm 1]
    | false => rfl

theorem shift_laid (a : OrderedArray T) (tmp : T) (laid : Laid array (i + 1) xs)
    (inside : i + xs.length + 1 < a.maxSize) :
    ∃ array', shift (xs.length + 1) i tmp { a with array } = .ok { a with array := array' } ∧
      Laid array' (i + 1) (tmp :: xs) ∧ ∀ j ≤ i, array' j = array j := by
  induction xs generalizing i tmp array with
  | nil =>
    rw [length_nil] at inside
    rw [length_nil, shift, get_inside (by omega), bind_ok, set_inside (by omega), bind_ok, shift]
    refine ⟨_, rfl, ⟨update_self .., True.intro⟩, fun j le => ?_⟩
    exact update_of_ne (by omega) ..
  | cons y ys ih =>
    rw [length_cons] at inside ⊢
    rw [shift, get_inside (by omega), bind_ok, set_inside (by omega), bind_ok, laid.1]
    have rest := laid.2.congr (update array (i + 1) tmp) fun j low _ => update_of_ne (by omega) ..
    obtain ⟨array', shifted, laid', kept⟩ := ih y rest (by omega)
    refine ⟨array', shifted, ⟨?_, laid'⟩, fun j le => ?_⟩
    · rw [kept (i + 1) (Nat.le_refl _), update_self]
    · rw [kept j (by omega), update_of_ne (by omega)]

theorem pull_laid (a : OrderedArray T) (laid : Laid array (i + 1) xs)
    (inside : i + xs.length + 1 < a.maxSize) :
    ∃ array', pull (xs.length + 1) i { a with array } = .ok { a with array := array' } ∧
      Laid array' i xs ∧ ∀ j < i, array' j = array j := by
  induction xs generalizing i array with
  | nil =>
    rw [length_nil] at inside
    rw [length_nil, pull, get_inside (by omega), bind_ok, set_inside (by omega), bind_ok, pull]
    exact ⟨_, rfl, True.intro, fun j less => update_of_ne (by omega) ..⟩
  | cons y ys ih =>
    rw [length_cons] at inside ⊢
    rw [pull, get_inside (by omega), bind_ok, set_inside (by omega), bind_ok, laid.1]
    have rest := laid.2.congr (update array i y) fun j low _ => update_of_ne (by omega) ..
    obtain ⟨array', pulled, laid', kept⟩ := ih rest (by omega)
    refine ⟨array', pulled, ⟨?_, laid'⟩, fun j less => ?_⟩
    · rw [kept i (Nat.lt_succ_self i), update_self]
    · rw [kept j (by omega), update_of_ne (by omega)]

variable {a' : OrderedArray T}

theorem length_elements (a : OrderedArray T) : a.elements.length = a.size := by
  rw [elements, length_map, length_range]

theorem elements_eq_iff {xs : List T} (size : a.size = xs.length) :
    a.elements = xs ↔ Laid a.array 0 xs := by
  simp only [laid_iff, elements, size, Nat.zero_add]

def Kept (a a' : OrderedArray T) : Prop := a'.maxSize = a.maxSize ∧ a'.lessThan = a.lessThan

theorem insertOrderedArray_spec (inside : a.size < a.maxSize) (item : T) :
    ∃ a', insertOrderedArray item a = .ok a' ∧ Kept a a' ∧
      a'.elements = a.elements.takeWhile (a.lessThan · item) ++
        item :: a.elements.dropWhile (a.lessThan · item) := by
  have length := length_elements a
  have laid := (elements_eq_iff length.symm).mp rfl
  have found := locate_eq item laid (by omega)
  rw [length] at found
  rw [insertOrderedArray, found, bind_ok, Nat.zero_add]
  rw [← takeWhile_append_dropWhile (p := (a.lessThan · item)) (l := a.elements)] at laid length
  rw [length_append] at length
  rw [laid_append, Nat.zero_add] at laid
  generalize a.elements.takeWhile (a.lessThan · item) = before at laid length ⊢
  generalize a.elements.dropWhile (a.lessThan · item) = behind at laid length ⊢
  cases behind with
  | nil =>
    rw [length_nil, Nat.add_zero] at length
    rw [if_pos length, set_inside inside, bind_ok]
    refine ⟨_, rfl, ⟨rfl, rfl⟩, (elements_eq_iff (by simp [length])).mpr (laid_append.mpr ?_)⟩
    refine ⟨laid.1.congr _ fun j _ less => update_of_ne (by omega) .., ?_, True.intro⟩
    rw [Nat.zero_add, length]
    exact update_self ..
  | cons x after =>
    rw [length_cons] at length
    rw [if_neg (by omega), get_inside (by omega), bind_ok, set_inside (by omega), bind_ok, laid.2.1]
    have rest := laid.2.2.congr (update a.array before.length item)
      fun j low _ => update_of_ne (by omega) ..
    obtain ⟨array, shifted, laid', kept⟩ := shift_laid a x rest (by omega)
    rw [show a.size - before.length = after.length + 1 by omega, shifted, bind_ok]
    refine ⟨_, rfl, ⟨rfl, rfl⟩, (elements_eq_iff ?_).mpr (laid_append.mpr ?_)⟩
    · simp only [length_append, length_cons, ← length, Nat.add_assoc]
    · rw [Nat.zero_add]
      refine ⟨laid.1.congr _ fun j _ less => ?_, ?_, laid'⟩
      · exact (kept j (by omega)).trans (update_of_ne (by omega) ..)
      · exact (kept _ (Nat.le_refl _)).trans (update_self ..)

theorem removeOrderedArray_spec (inside : a.size < a.maxSize) (less : i < a.size) :
    ∃ a', removeOrderedArray i a = .ok a' ∧ Kept a a' ∧ a'.elements = a.elements.eraseIdx i := by
  have length := length_elements a
  have laid := (elements_eq_iff length.symm).mp rfl
  have split := length_take_of_le (length ▸ Nat.le_of_lt less)
  rw [← take_append_drop i a.elements, laid_append, split, drop_eq_getElem_cons (by omega),
    Nat.zero_add] at laid
  have rest : (a.elements.drop (i + 1)).length = a.size - (i + 1) := by rw [length_drop, length]
  obtain ⟨array, pulled, laid', kept⟩ := pull_laid a laid.2.2 (by omega)
  rw [rest, show a.size - (i + 1) + 1 = a.size - i by omega] at pulled
  rw [removeOrderedArray, pulled, bind_ok]
  have size : a.size - 1 = (a.elements.eraseIdx i).length := by
    rw [length_eraseIdx_of_lt (by omega), length]
  refine ⟨_, rfl, ⟨rfl, rfl⟩, (elements_eq_iff size).mpr ?_⟩
  rw [eraseIdx_eq_take_drop_succ, laid_append, split, Nat.zero_add]
  refine ⟨laid.1.congr _ fun j _ lt => kept j (by omega), laid'⟩

def ArrayCall.onList (lessThan : T → T → Bool) (xs : List T) : ArrayCall T → List T
  | .insert item => xs.takeWhile (lessThan · item) ++ item :: xs.dropWhile (lessThan · item)
  | .remove i => xs.eraseIdx i

section Order
variable {lessThan : T → T → Bool} [order : IsStrictWeakOrder T fun x y => lessThan x y = true]

theorem notLess_total (x y : T) : lessThan y x = false ∨ lessThan x y = false := by
  by_contra both
  obtain ⟨yx, xy⟩ := not_or.mp both
  rw [Bool.not_eq_false] at yx xy
  exact order.irrefl x (order.trans x y x xy yx)

theorem notLess_trans {x y z : T} (first : lessThan y x = false) (second : lessThan z y = false) :
    lessThan z x = false := by
  rw [← Bool.not_eq_true] at *
  intro zx
  have xy : ¬ lessThan x y = true := fun xy => second (order.trans z x y zx xy)
  have yz : ¬ lessThan y z = true := fun yz => first (order.trans y z x yz zx)
  exact (order.incomp_trans x y z ⟨xy, first⟩ ⟨yz, second⟩).2 zx

theorem onList_sorted {xs : List T} (call : ArrayCall T)
    (sorted : xs.Pairwise fun x y => lessThan y x = false) :
    (call.onList lessThan xs).Pairwise fun x y => lessThan y x = false := by
  cases call with
  | insert item =>
    have : Std.Total fun x y => lessThan y x = false := ⟨notLess_total⟩
    have : IsTrans T fun x y => lessThan y x = false := ⟨fun _ _ _ => notLess_trans⟩
    have inserted := sorted.orderedInsert item xs
    rw [orderedInsert_eq_take_drop] at inserted
    simpa [ArrayCall.onList] using inserted
  | remove i => exact sorted.sublist (eraseIdx_sublist xs i)

end Order

variable {call : ArrayCall T} {trace : List (OrderedArray T × ArrayCall T)}

theorem run_elements (inside : a.size < a.maxSize) (valid : call.Valid a) :
    ∃ a', call.run a = .ok a' ∧ Kept a a' ∧ a'.elements = call.onList a.lessThan a.elements := by
  cases call with
  | insert item => exact insertOrderedArray_spec inside item
  | remove i => exact removeOrderedArray_spec inside valid

theorem onList_perm (valid : call.Valid a) :
    call.onList a.lessThan a.elements ++ call.removed a ~ a.elements ++ call.inserted := by
  cases call with
  | insert item =>
    refine (Perm.of_eq (append_nil _)).trans (perm_middle.trans ?_)
    rw [takeWhile_append_dropWhile]
    exact (perm_append_singleton ..).symm
  | remove i =>
    have found : i < a.elements.length := (length_elements a).symm ▸ valid
    have value : a.elements[i] = a.array i := by simp [elements]
    have perm := getElem_cons_eraseIdx_perm found
    rw [value] at perm
    exact (perm_append_singleton ..).trans (perm.trans (Perm.of_eq (append_nil _).symm))

variable {lessThan : T → T → Bool} {null : T} {maxSize : ℕ}

theorem run_perm (run : Exec ArrayStep (createOrderedArray null maxSize lessThan) trace a)
    (below : Always (fun a => a.size < maxSize) trace a) :
    (a.maxSize = maxSize ∧ a.lessThan = lessThan) ∧
      a.elements ++ trace.flatMap (fun e => e.2.removed e.1) ~
        trace.flatMap fun e => e.2.inserted := by
  induction run with
  | refl => exact ⟨⟨rfl, rfl⟩, .refl _⟩
  | @next trace a a' call run step ih =>
    obtain ⟨⟨limit, order⟩, perm⟩ := ih (always_before below)
    have inside : a.size < a.maxSize := limit.symm ▸ (always_before below).2
    obtain ⟨_, ran, kept, elements⟩ := run_elements inside step.1
    obtain rfl := Except.ok.inj (step.2.symm.trans ran)
    refine ⟨⟨kept.1.trans limit, kept.2.trans order⟩, ?_⟩
    have last := onList_perm step.1
    rw [← elements] at last
    simp only [flatMap_append, flatMap_singleton]
    generalize trace.flatMap (fun e => e.2.removed e.1) = removed at perm ⊢
    calc a'.elements ++ (removed ++ call.removed a)
      _ ~ a'.elements ++ (call.removed a ++ removed) := perm_append_comm.append_left _
      _ = a'.elements ++ call.removed a ++ removed := (append_assoc ..).symm
      _ ~ a.elements ++ call.inserted ++ removed := last.append_right _
      _ = a.elements ++ (call.inserted ++ removed) := append_assoc ..
      _ ~ a.elements ++ (removed ++ call.inserted) := perm_append_comm.append_left _
      _ = a.elements ++ removed ++ call.inserted := (append_assoc ..).symm
      _ ~ _ ++ call.inserted := perm.append_right _

variable [IsStrictWeakOrder T fun x y => lessThan x y = true]

theorem run_sorted (run : Exec ArrayStep (createOrderedArray null maxSize lessThan) trace a)
    (below : Always (fun a => a.size < maxSize) trace a) :
    a.elements.Pairwise fun x y => lessThan y x = false := by
  induction run with
  | refl => exact .nil
  | @next trace a a' call run step ih =>
    obtain ⟨⟨limit, order⟩, -⟩ := run_perm run (always_before below)
    have inside : a.size < a.maxSize := limit.symm ▸ (always_before below).2
    obtain ⟨_, ran, -, elements⟩ := run_elements inside step.1
    obtain rfl := Except.ok.inj (step.2.symm.trans ran)
    rw [elements, order]
    exact onList_sorted call (ih (always_before below))

theorem createOrderedArray_sorted
    (run : Exec ArrayStep (createOrderedArray null maxSize lessThan) trace a)
    (below : Always (fun a => a.size < maxSize) trace a) :
    (a.elements.Pairwise fun x y => lessThan y x = false) ∧
      a.elements ++ trace.flatMap (fun e => e.2.removed e.1) ~
        trace.flatMap (fun e => e.2.inserted) ∧
      a.maxSize = maxSize ∧ ∀ call : ArrayCall T, call.Valid a → ∃ a', call.run a = .ok a' := by
  obtain ⟨⟨limit, -⟩, perm⟩ := run_perm run below
  refine ⟨run_sorted run below, perm, limit, fun call valid => ?_⟩
  obtain ⟨a', ran, -⟩ := run_elements (limit.symm ▸ below.2) valid
  exact ⟨a', ran⟩

theorem inserted_removed_sorted : ∃ trace a,
    Exec ArrayStep (createOrderedArray 0 4 fun x y => decide (x < y)) trace a ∧
      trace.map Prod.snd = [.insert 3, .insert 1, .insert 2, .remove 1] ∧ a.elements = [1, 3] ∧
      a.elements.Pairwise fun x y => decide (y < x) = false := by
  have : IsStrictWeakOrder ℕ fun x y => decide (x < y) = true := by
    refine { irrefl := ?_, trans := ?_, incomp_trans := ?_ } <;> simp only [decide_eq_true_eq] <;>
      omega
  have first : ArrayStep (createOrderedArray 0 4 fun x y => decide (x < y)) (.insert 3) _ :=
    ⟨True.intro, rfl⟩
  have run := (Exec.refl.next first).next (⟨True.intro, rfl⟩ : ArrayStep _ (.insert 1) _)
  have run := run.next (⟨True.intro, rfl⟩ : ArrayStep _ (.insert 2) _)
  have run := run.next (⟨by change 1 < 3; decide, rfl⟩ : ArrayStep _ (.remove 1) _)
  exact ⟨_, _, run, rfl, rfl, (createOrderedArray_sorted run ⟨by simp; decide, by decide⟩).1⟩

end Elaborato.Mentos
