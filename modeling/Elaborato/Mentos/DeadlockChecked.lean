import Elaborato.Mentos.DeadlockSimulation

/-!
The Banker's algorithm with checked arithmetic computes the same as with wrapping words.
-/
namespace Elaborato.Mentos
open Foundation List Function

def arrAddChecked (left right : Vec) (m : Nat) : Option Vec :=
  if ∀ j, val m left j + val m right j < 2 ^ 32 then some (arrAdd left right m) else none

def arrSubChecked (left right : Vec) (m : Nat) : Option Vec :=
  if ∀ j, val m right j ≤ val m left j then some (arrSub left right m) else none

def stateSafeLoopChecked (matAlloc matNeed : Mat) (n m : Nat) (limit : Fin m → Nat)
    (allTrue : Vec) : Nat → Vec → Vec → Option Bool
  | 0, _, _ => none
  | turns + 1, work, finish =>
    if ∀ j, val m work j ≤ limit j then
      if arrNe finish allTrue n then
        match findTask matNeed n m work finish with
        | none => some false
        | some i => do
          let work ← arrAddChecked work (matAlloc i) m
          stateSafeLoopChecked matAlloc matNeed n m limit allTrue turns work
            (update finish i 1)
      else some true
    else none

def stateSafeChecked (s : Banker) (n m : Nat) (limit : Fin m → Nat) : Option Bool :=
  stateSafeLoopChecked s.matAlloc s.matNeed n m limit (all (fun _ => 0) 1 n) (n + 1)
    s.arrAvailable (all (fun _ => 0) 0 n)

def grantChecked (reqVec : Vec) (taskI : Nat) (s : Banker) (m : Nat) : Option Banker := do
  let arrAvailable ← arrSubChecked s.arrAvailable reqVec m
  let alloc ← arrAddChecked (s.matAlloc taskI) reqVec m
  let need ← arrSubChecked (s.matNeed taskI) reqVec m
  some ⟨arrAvailable, update s.matAlloc taskI alloc,
    update s.matNeed taskI need⟩

def restoreChecked (reqVec : Vec) (taskI : Nat) (s : Banker) (m : Nat) : Option Banker := do
  let arrAvailable ← arrAddChecked s.arrAvailable reqVec m
  let alloc ← arrSubChecked (s.matAlloc taskI) reqVec m
  let need ← arrAddChecked (s.matNeed taskI) reqVec m
  some ⟨arrAvailable, update s.matAlloc taskI alloc,
    update s.matNeed taskI need⟩

def requestChecked (reqVec : Vec) (taskI : Nat) (s : Banker) (n m : Nat) (limit : Fin m → Nat) :
    Option (DeadlockStatus × Banker) :=
  if arrGAny reqVec (s.matNeed taskI) m then some (.error, s)
  else if arrGAny reqVec s.arrAvailable m then some (.wait, s)
  else do
    let granted ← grantChecked reqVec taskI s m
    if !(← stateSafeChecked granted n m limit) then do
      let restored ← restoreChecked reqVec taskI granted m
      some (.waitUnsafe, restored)
    else some (.safe, granted)

variable {n m i : Nat} {s : Banker} {reqVec left right : Vec}

theorem arrAddChecked_eq (fits : ∀ j, val m left j + val m right j < 2 ^ 32) :
    arrAddChecked left right m = some (arrAdd left right m) := if_pos fits

theorem arrSubChecked_eq (fits : val m right ≤ val m left) :
    arrSubChecked left right m = some (arrSub left right m) := if_pos fits

theorem stateSafeLoopChecked_eq {matAlloc : Mat} (matNeed : Mat) {limit : Fin m → Nat}
    (words : ∀ j, limit j < 2 ^ 32) (allTrue : Vec) (turns : Nat) {work finish : Vec}
    (within : ∀ j, val m work j +
      ((unfinished n finish).map fun i => val m (matAlloc i) j).sum ≤ limit j) :
    stateSafeLoopChecked matAlloc matNeed n m limit allTrue turns work finish =
      stateSafeLoop matAlloc matNeed n m allTrue turns work finish := by
  induction turns generalizing work finish with
  | zero => rfl
  | succ turns ih =>
    rw [stateSafeLoopChecked, stateSafeLoop, if_pos fun j => Nat.le_of_add_right_le (within j)]
    congr 1
    cases found : findTask matNeed n m work finish with
    | none => rfl
    | some i =>
      obtain ⟨hi, -⟩ := findTask_some found
      simp only [sum_unfinished hi] at within
      have fits (j : Fin m) : val m work j + val m (matAlloc i) j < 2 ^ 32 :=
        lt_of_le_of_lt (by have := within j; omega) (words j)
      refine (congrArg (· >>= _) (arrAddChecked_eq fits)).trans (ih fun j => ?_)
      rw [val_arrAdd fits, Pi.add_apply, Nat.add_assoc]
      exact within j

theorem stateSafeChecked_eq (bounded : TotalBounded n m s) :
    stateSafeChecked s n m (total n m s) = some (stateSafe s n m) := by
  obtain ⟨b, returned, -⟩ := stateSafeLoop_start bounded n.lt_succ_self
  rw [stateSafe, returned, stateSafeChecked, stateSafeLoopChecked_eq _ bounded, returned]
  · rfl
  · intro j
    rw [unfinished_start, total, Pi.add_apply, Finset.sum_apply]
    exact le_rfl

section Granted
variable (bounded : TotalBounded n m s) (hi : i < n) (need : val m reqVec ≤ val m (s.matNeed i))
  (avail : val m reqVec ≤ val m s.arrAvailable)
include bounded hi need avail

theorem grantChecked_eq : grantChecked reqVec i s m = some (grant reqVec i s m) := by
  simp only [grantChecked, arrSubChecked_eq avail, arrSubChecked_eq need,
    arrAddChecked_eq (row_fits bounded hi avail)]
  rfl

theorem restoreChecked_eq : restoreChecked reqVec i (grant reqVec i s m) m =
    some (restore reqVec i (grant reqVec i s m) m) := by
  have available (j : Fin m) :
      val m (grant reqVec i s m).arrAvailable j + val m reqVec j < 2 ^ 32 := by
    rw [← Pi.add_apply, grant_available avail]
    exact UInt32.toNat_lt _
  have needed (j : Fin m) : val m ((grant reqVec i s m).matNeed i) j + val m reqVec j < 2 ^ 32 := by
    rw [← Pi.add_apply, grant_need need]
    exact UInt32.toNat_lt _
  have held : val m reqVec ≤ val m ((grant reqVec i s m).matAlloc i) := by
    rw [grant_alloc bounded hi avail]
    exact le_add_self
  simp only [restoreChecked, arrAddChecked_eq available, arrAddChecked_eq needed,
    arrSubChecked_eq held]
  rfl

end Granted

theorem requestChecked_eq (bounded : TotalBounded n m s) (reqVec : Vec) (hi : i < n) :
    requestChecked reqVec i s n m (total n m s) = some (request reqVec i s n m) := by
  rw [requestChecked, request]
  split
  next => rfl
  next enough =>
    split
    next => rfl
    next free =>
      rw [Bool.not_eq_true, arrGAny_eq_false] at enough free
      have safe := stateSafeChecked_eq (totalBounded_grant bounded hi free)
      rw [total_grant bounded hi free] at safe
      simp only [grantChecked_eq bounded hi enough free, safe,
        restoreChecked_eq bounded hi enough free, Option.bind_eq_bind, Option.bind_some]
      split <;> rfl

/-- In no state of a run does a sum or a difference wrap. -/
theorem requestChecked_run {n m i : Nat} {s : Banker} (words : ∀ j, total n m s j < 2 ^ 32)
    (reqs : List (ReqT n)) (reqVec : Vec) (hi : i < n) :
    requestChecked reqVec i (simulationStart n m s reqs) n m (total n m s) =
      some (request reqVec i (simulationStart n m s reqs) n m) := by
  have same := total_simulationStart words reqs
  rw [← same]
  exact requestChecked_eq (fun j => same ▸ words j) reqVec hi

theorem requestChecked_run_reqVecTest :
    requestChecked (words [0, 1]) 1
      (simulationStart 2 2 (simulationInit initialAvailable initialMax initialAlloc 2) reqVecTest)
        2 2 (total 2 2 (simulationInit initialAvailable initialMax initialAlloc 2)) =
      some (request (words [0, 1]) 1
        (simulationStart 2 2 (simulationInit initialAvailable initialMax initialAlloc 2)
          reqVecTest) 2 2) :=
  requestChecked_run (totalBounded_iff.mpr (by decide)) reqVecTest _ (by decide)

end Elaborato.Mentos
