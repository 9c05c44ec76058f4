import Mathlib.Algebra.Order.Monoid.Canonical.Defs
import Mathlib.Algebra.BigOperators.Group.List.Basic
import Mathlib.Algebra.BigOperators.Fin
import Mathlib.Data.Fintype.EquivFin
import Mathlib.Data.List.FinRange
import Mathlib.Data.List.Perm.Basic

/-!
Orders in which tasks can run to completion, with needs in a canonically ordered monoid.
-/
namespace Foundation
open List

variable {ι V : Type*} [AddCommMonoid V] [PartialOrder V]

def Completes (need alloc : ι → V) : V → List ι → Prop
  | _, [] => True
  | work, i :: rest => need i ≤ work ∧ Completes need alloc (work + alloc i) rest

def Completable (need alloc : ι → V) (work : V) (tasks : List ι) : Prop :=
  ∃ order : List ι, order.Perm tasks ∧ Completes need alloc work order

variable {need need' alloc alloc' : ι → V} {work : V} {order : List ι}

theorem completes_congr (hneed : ∀ i ∈ order, need i = need' i)
    (halloc : ∀ i ∈ order, alloc i = alloc' i) (h : Completes need alloc work order) :
    Completes need' alloc' work order := by
  induction order generalizing work with
  | nil => trivial
  | cons i rest ih =>
    obtain ⟨fits, later⟩ := h
    refine ⟨hneed i mem_cons_self ▸ fits, ?_⟩
    rw [← halloc i mem_cons_self]
    exact ih (fun j hj => hneed j (mem_cons_of_mem i hj))
      (fun j hj => halloc j (mem_cons_of_mem i hj)) later

theorem completes_append {first second : List ι} :
    Completes need alloc work (first ++ second) ↔
      Completes need alloc work first ∧
        Completes need alloc (work + (first.map alloc).sum) second := by
  induction first generalizing work with
  | nil => simp [Completes]
  | cons i rest ih =>
    simp only [cons_append, Completes, ih, map_cons, sum_cons, add_assoc, and_assoc]

variable {tasks : List ι}

theorem completable_congr (hneed : ∀ i ∈ tasks, need i = need' i)
    (halloc : ∀ i ∈ tasks, alloc i = alloc' i) :
    Completable need alloc work tasks ↔ Completable need' alloc' work tasks := by
  constructor
  · rintro ⟨order, perm, h⟩
    exact ⟨order, perm, completes_congr (fun i hi => hneed i (perm.mem_iff.mp hi))
      (fun i hi => halloc i (perm.mem_iff.mp hi)) h⟩
  · rintro ⟨order, perm, h⟩
    exact ⟨order, perm, completes_congr (fun i hi => (hneed i (perm.mem_iff.mp hi)).symm)
      (fun i hi => (halloc i (perm.mem_iff.mp hi)).symm) h⟩

theorem completable_nil (need alloc : ι → V) (work : V) : Completable need alloc work [] :=
  ⟨[], List.Perm.refl [], True.intro⟩

theorem not_completable_of_stuck (nonempty : tasks ≠ []) (stuck : ∀ i ∈ tasks, ¬ need i ≤ work) :
    ¬ Completable need alloc work tasks := by
  rintro ⟨order, perm, h⟩
  cases order with
  | nil => exact nonempty perm.nil_eq.symm
  | cons i rest => exact stuck i (perm.mem_iff.mp mem_cons_self) h.1

section Positions

variable {work : V}

theorem completes_iff_getElem {need alloc : ι → V} {order : List ι} :
    Completes need alloc work order ↔ ∀ k (hk : k < order.length),
      need order[k] ≤ work + ((order.take k).map alloc).sum := by
  induction order generalizing work with
  | nil => simp [Completes]
  | cons i rest ih =>
    rw [Completes, ih]
    constructor
    · rintro ⟨fits, later⟩ k hk
      cases k with
      | zero => simpa using fits
      | succ k =>
        have fit := later k (Nat.lt_of_succ_lt_succ hk)
        rwa [add_assoc] at fit
    · intro h
      refine ⟨by simpa using h 0 (Nat.succ_pos _), fun k hk => ?_⟩
      have fit := h (k + 1) (Nat.succ_lt_succ hk)
      rwa [take_succ_cons, map_cons, sum_cons, ← add_assoc] at fit

variable {n : ℕ}

theorem perm_range_ofFn (p : Equiv.Perm (Fin n)) :
    (List.ofFn fun k => (p k : ℕ)).Perm (List.range n) := by
  have same : List.ofFn (fun k : Fin n => (k : ℕ)) = List.range n := by
    rw [ofFn_eq_map, map_coe_finRange_eq_range]
  rw [← same]
  exact Equiv.Perm.ofFn_comp_perm p (fun k : Fin n => (k : ℕ))

theorem exists_perm_of_range {order : List ℕ} (h : order.Perm (List.range n)) :
    ∃ p : Equiv.Perm (Fin n), order = List.ofFn fun k => (p k : ℕ) := by
  have length : order.length = n := by rw [h.length_eq, length_range]
  subst length
  have below : ∀ k : Fin order.length, order[k] < order.length := fun k =>
    mem_range.mp (h.mem_iff.mp (getElem_mem k.isLt))
  have injective :
      Function.Injective fun k : Fin order.length => (⟨order[k], below k⟩ : Fin _) := by
    intro k l same
    have nodup := h.nodup_iff.mpr nodup_range
    exact Fin.ext (nodup.getElem_inj_iff.mp (congrArg Fin.val same))
  exact ⟨Equiv.ofBijective _ (Finite.injective_iff_bijective.mp injective), ofFn_getElem.symm⟩

variable {need alloc : ℕ → V}

theorem completes_ofFn (p : Equiv.Perm (Fin n)) :
    Completes need alloc work (List.ofFn fun k => (p k : ℕ)) ↔
      ∀ k, need (p k) ≤ work + ∑ l with l < k, alloc (p l) := by
  have held : ∀ k : Fin n, (((List.ofFn fun k => (p k : ℕ)).take k).map alloc).sum =
      ∑ l with l < k, alloc (p l) := by
    intro k
    rw [map_take, map_ofFn, sum_take_ofFn]
    rfl
  rw [completes_iff_getElem]
  constructor
  · intro h k
    have fit := h k (by simp)
    rwa [List.getElem_ofFn, held k] at fit
  · intro h k hk
    have hk' : k < n := by simpa using hk
    rw [List.getElem_ofFn, held ⟨k, hk'⟩]
    exact h ⟨k, hk'⟩

theorem completable_range_iff :
    Completable need alloc work (List.range n) ↔
      ∃ p : Equiv.Perm (Fin n), ∀ k, need (p k) ≤ work + ∑ l with l < k, alloc (p l) := by
  constructor
  · rintro ⟨order, perm, completes⟩
    obtain ⟨p, rfl⟩ := exists_perm_of_range perm
    exact ⟨p, (completes_ofFn p).mp completes⟩
  · rintro ⟨p, fits⟩
    exact ⟨_, perm_range_ofFn p, (completes_ofFn p).mpr fits⟩

end Positions

variable [CanonicallyOrderedAdd V]

theorem completes_of_forall_le (h : ∀ i ∈ order, need i ≤ work) :
    Completes need alloc work order := by
  induction order generalizing work with
  | nil => trivial
  | cons i rest ih =>
    refine ⟨h i mem_cons_self, ih ?_⟩
    intro j hj
    exact (h j (mem_cons_of_mem i hj)).trans le_self_add

section Exchange
variable [DecidableEq ι]

variable {need alloc : ι → V} {work : V} {i : ι}

theorem completes_erase {order : List ι} (hi : i ∈ order) (h : Completes need alloc work order) :
    Completes need alloc (work + alloc i) (order.erase i) := by
  induction order generalizing work with
  | nil => cases hi
  | cons j rest ih =>
    obtain ⟨fits, later⟩ := h
    by_cases hj : j = i
    · subst hj
      simpa using later
    · have hrest : i ∈ rest := (mem_cons.mp hi).resolve_left (Ne.symm hj)
      rw [erase_cons_tail (by simpa using hj)]
      refine ⟨fits.trans le_self_add, ?_⟩
      rw [add_right_comm]
      exact ih hrest later

theorem completable_take {tasks : List ι} (hi : i ∈ tasks) (fits : need i ≤ work) :
    Completable need alloc work tasks ↔
      Completable need alloc (work + alloc i) (tasks.erase i) := by
  constructor
  · rintro ⟨order, perm, h⟩
    exact ⟨order.erase i, perm.erase i, completes_erase (perm.mem_iff.mpr hi) h⟩
  · rintro ⟨order, perm, h⟩
    exact ⟨i :: order, (perm.cons i).trans (perm_cons_erase hi).symm, fits, h⟩

end Exchange

variable [IsOrderedAddMonoid V]

theorem completes_claim {i : ι} (hi : i ∈ order) (h : Completes need alloc work order) :
    need i + alloc i ≤ work + (order.map alloc).sum := by
  induction order generalizing work with
  | nil => cases hi
  | cons j rest ih =>
    obtain ⟨fits, later⟩ := h
    rw [map_cons, sum_cons, ← add_assoc]
    by_cases hj : i = j
    · subst hj
      exact (add_le_add fits le_rfl).trans le_self_add
    · exact ih ((mem_cons.mp hi).resolve_left hj) later

variable {given : V} {u : ι}

theorem completes_release (nodup : order.Nodup) (hneed : need' u ≤ need u + given)
    (halloc : alloc' u + given = alloc u) (needElse : ∀ i, i ≠ u → need' i = need i)
    (allocElse : ∀ i, i ≠ u → alloc' i = alloc i) (h : Completes need alloc work order) :
    Completes need' alloc' (work + given) order := by
  induction order generalizing work with
  | nil => trivial
  | cons i rest ih =>
    obtain ⟨fits, later⟩ := h
    by_cases hi : i = u
    · subst hi
      have absent : ∀ j ∈ rest, j ≠ i := fun j hj he =>
        (nodup_cons.mp nodup).1 (he ▸ hj)
      refine ⟨hneed.trans (add_le_add fits le_rfl), ?_⟩
      have same : work + given + alloc' i = work + alloc i := by
        rw [← halloc, add_assoc, add_comm given]
      rw [same]
      exact completes_congr (fun j hj => (needElse j (absent j hj)).symm)
        (fun j hj => (allocElse j (absent j hj)).symm) later
    · refine ⟨?_, ?_⟩
      · rw [needElse i hi]
        exact fits.trans le_self_add
      · have swap : work + given + alloc' i = work + alloc i + given := by
          rw [allocElse i hi, add_right_comm]
        rw [swap]
        exact ih (nodup_cons.mp nodup).2 later

theorem completable_release (nodup : tasks.Nodup) (hneed : need' u ≤ need u + given)
    (halloc : alloc' u + given = alloc u) (needElse : ∀ i, i ≠ u → need' i = need i)
    (allocElse : ∀ i, i ≠ u → alloc' i = alloc i) (h : Completable need alloc work tasks) :
    Completable need' alloc' (work + given) tasks := by
  obtain ⟨order, perm, hc⟩ := h
  exact ⟨order, perm, completes_release (perm.nodup_iff.mpr nodup) hneed halloc
    needElse allocElse hc⟩

end Foundation
