import Elaborato.Foundation.CompletionOrder
import Mathlib.Algebra.Order.Pi
import Mathlib.Algebra.Order.Group.Nat
import Mathlib.Algebra.Order.Monoid.Canonical.Basic

/-!
Resources of one instance, all claimed by everyone: an order exists when one holds at most.
-/
namespace Foundation
open List Function

variable {ι κ τ : Type*}

section Vectors
variable (owner : κ → Option τ) (name : ι → τ) (claims : ι → Prop) [DecidablePred claims]

def unitAlloc [DecidableEq τ] (i : ι) : κ → ℕ := fun j => if owner j = some (name i) then 1 else 0

def unitNeed [DecidableEq τ] (i : ι) : κ → ℕ :=
  fun j => if claims i ∧ owner j ≠ some (name i) then 1 else 0

def unitFree : κ → ℕ := fun j => if owner j = none then 1 else 0

end Vectors

/-- One holder at most. -/
def Sole (owner : κ → Option τ) : Prop :=
  ∀ j j' t t', owner j = some t → owner j' = some t' → t = t'

variable {owner : κ → Option τ} {name : ι → τ} {claims : ι → Prop} [DecidablePred claims]

attribute [local simp] unitNeed unitAlloc unitFree

theorem not_completes_of_two [DecidableEq τ] {order : List ι} {i i' : ι} {j j' : κ} {work : κ → ℕ}
    (claimant : ∀ x ∈ order, name x = name i ∨ name x = name i' → claims x)
    (hi : i ∈ order)
    (held : owner j = some (name i)) (held' : owner j' = some (name i')) (apart : name i ≠ name i')
    (none : work j = 0) (none' : work j' = 0) :
    ¬ Completes (unitNeed owner name claims) (unitAlloc owner name) work order := by
  induction order generalizing work with
  | nil => exact absurd hi not_mem_nil
  | cons x rest ih =>
    rintro ⟨fits, later⟩
    by_cases hx : claims x
    · have first : unitNeed owner name claims x j ≤ 0 := none ▸ fits j
      have second : unitNeed owner name claims x j' ≤ 0 := none' ▸ fits j'
      have mine : name i = name x := by simpa [hx, held] using first
      have mine' : name i' = name x := by simpa [hx, held'] using second
      exact apart (mine.trans mine'.symm)
    · have other : name x ≠ name i := fun same =>
        hx (claimant x mem_cons_self (.inl same))
      have other' : name x ≠ name i' := fun same =>
        hx (claimant x mem_cons_self (.inr same))
      have still : (work + unitAlloc owner name x) j = 0 := by
        simp [none, held, Ne.symm other]
      have still' : (work + unitAlloc owner name x) j' = 0 := by
        simp [none', held', Ne.symm other']
      have rest_mem : i ∈ rest := (mem_cons.mp hi).resolve_left (fun same => other (same ▸ rfl))
      exact ih (fun y hy => claimant y (mem_cons_of_mem _ hy)) rest_mem still still' later

theorem unit_completable_iff [DecidableEq ι] [DecidableEq τ] {tasks : List ι}
    (inj : ∀ x ∈ tasks, ∀ y ∈ tasks, name x = name y → x = y)
    (holders : ∀ j t, owner j = some t → ∃ i ∈ tasks, claims i ∧ name i = t) :
    Completable (unitNeed owner name claims) (unitAlloc owner name) (unitFree owner) tasks ↔
      Sole owner := by
  constructor
  · rintro ⟨order, perm, completes⟩ j j' t t' held held'
    obtain ⟨i, hi, hclaim, rfl⟩ := holders j t held
    obtain ⟨i', hi', hclaim', rfl⟩ := holders j' t' held'
    by_contra apart
    refine not_completes_of_two ?_ (perm.mem_iff.mpr hi) held held' apart ?_ ?_ completes
    · rintro x hx (same | same)
      · exact inj x (perm.mem_iff.mp hx) i hi same ▸ hclaim
      · exact inj x (perm.mem_iff.mp hx) i' hi' same ▸ hclaim'
    · simp [held]
    · simp [held']
  · intro sole
    by_cases held : ∃ j t, owner j = some t
    · obtain ⟨j, t, held⟩ := held
      obtain ⟨i, hi, hclaim, rfl⟩ := holders j t held
      have fits : unitNeed owner name claims i ≤ unitFree owner := by
        intro j'
        cases other : owner j' with
        | none => simp [other, hclaim]
        | some t' => simp [other, sole j' j t' (name i) other held]
      rw [completable_take hi fits]
      refine ⟨_, List.Perm.refl _, completes_of_forall_le ?_⟩
      intro x _ j'
      cases other : owner j' with
      | none =>
        simp only [unitNeed, unitFree, unitAlloc, Pi.add_apply, other]
        split <;> simp
      | some t' =>
        simp only [unitNeed, unitFree, unitAlloc, Pi.add_apply, other,
          sole j' j t' (name i) other held]
        split <;> simp
    · have free : ∀ j, owner j = none := by
        intro j
        cases other : owner j with
        | none => rfl
        | some t => exact absurd ⟨j, t, other⟩ held
      refine ⟨tasks, List.Perm.refl _, completes_of_forall_le ?_⟩
      intro x _ j
      simp only [unitNeed, unitFree, free]
      split <;> simp

variable [DecidableEq κ] {j : κ} {t : τ} {i : ι}

/-- One instance of one resource. -/
def unit (j : κ) : κ → ℕ := fun j' => if j' = j then 1 else 0

variable (free : owner j = none)
include free

attribute [local simp] unit

theorem unitFree_take : unitFree (update owner j (some t)) + unit j = unitFree owner := by
  funext j'
  by_cases same : j' = j
  · simp [same, free]
  · simp [same]

theorem unitAlloc_take [DecidableEq τ] :
    unitAlloc (update owner j (some (name i))) name i = unitAlloc owner name i + unit j := by
  funext j'
  by_cases same : j' = j
  · simp [same, free]
  · simp [same]

theorem unitAlloc_take_else [DecidableEq τ] (other : name i ≠ t) :
    unitAlloc (update owner j (some t)) name i = unitAlloc owner name i := by
  funext j'
  by_cases same : j' = j
  · simp [same, free, Ne.symm other]
  · simp [same]

theorem unitNeed_take [DecidableEq τ] (claim : claims i) :
    unitNeed (update owner j (some (name i))) name claims i + unit j =
      unitNeed owner name claims i := by
  funext j'
  by_cases same : j' = j
  · simp [same, free, claim]
  · simp [same]

theorem unitNeed_take_else [DecidableEq τ] (other : name i ≠ t) :
    unitNeed (update owner j (some t)) name claims i = unitNeed owner name claims i := by
  funext j'
  by_cases same : j' = j
  · simp [same, free, Ne.symm other]
  · simp [same]

theorem sole_take : Sole (update owner j (some t)) ↔ ∀ j' t', owner j' = some t' → t' = t := by
  constructor
  · intro sole j' t' held
    have apart : j' ≠ j := by
      intro same
      rw [same, free] at held
      cases held
    exact sole j' j t' t (by rw [update_of_ne apart, held]) (by simp)
  · intro mine
    have all : ∀ j' t', update owner j (some t) j' = some t' → t' = t := by
      intro j' t' held
      by_cases same : j' = j
      · rw [same, update_self] at held
        exact (Option.some.inj held).symm
      · rw [update_of_ne same] at held
        exact mine j' t' held
    intro j₁ j₂ t₁ t₂ held₁ held₂
    rw [all j₁ t₁ held₁, all j₂ t₂ held₂]

end Foundation
