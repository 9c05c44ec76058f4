import Elaborato.Mentos.DeadlockPrevention

/-!
Runs of the simulation (deadlock_simulation.c), for any `SIM_N` and `SIM_M`.
-/
namespace Elaborato.Mentos
open Foundation List Function

inductive OpT
  | free
  | lock
  deriving DecidableEq, Repr

/-- One entry of `req_vec_test`. -/
structure ReqT (n : Nat) where
  reqTask : Fin n
  op : OpT
  reqVec : Vec

def simulationFree (reqVec : Vec) (pid : Nat) (s : Banker) (m : Nat) : Bool × Banker :=
  if arrLAny (s.matAlloc pid) reqVec m then (false, s)
  else
    (true,
      { s with
        arrAvailable := arrAdd s.arrAvailable reqVec m
        matAlloc := update s.matAlloc pid (arrSub (s.matAlloc pid) reqVec m) })

/-- The arrays after `simulation_init`. -/
def simulationInit (initialAvailable : Vec) (initialMax initialAlloc : Mat) (m : Nat) : Banker :=
  { arrAvailable := initialAvailable
    matAlloc := initialAlloc
    matNeed := fun i => arrSub (initialMax i) (initialAlloc i) m }

def simulationStep (n m : Nat) (s : Banker) (r : ReqT n) : Banker :=
  match r.op with
  | .free => (simulationFree r.reqVec r.reqTask s m).2
  | .lock => (request r.reqVec r.reqTask s n m).2

def simulationStart (n m : Nat) (s : Banker) (reqs : List (ReqT n)) : Banker :=
  reqs.foldl (simulationStep n m) s

def words (l : List UInt32) : Vec := fun j => l.getD j 0

def initialAvailable : Vec := words [1, 1]

def initialMax : Mat := fun i => [words [1, 1], words [1, 1]].getD i (words [])

def initialAlloc : Mat := fun i => [words [0, 0], words [0, 0]].getD i (words [])

def reqVecTest : List (ReqT 2) :=
  [⟨0, .lock, words [1, 0]⟩, ⟨1, .lock, words [0, 1]⟩, ⟨0, .lock, words [0, 1]⟩,
    ⟨1, .lock, words [0, 1]⟩, ⟨0, .lock, words [0, 1]⟩, ⟨0, .free, words [0, 1]⟩,
    ⟨1, .lock, words [0, 1]⟩, ⟨0, .free, words [1, 0]⟩, ⟨1, .lock, words [1, 0]⟩,
    ⟨1, .free, words [1, 0]⟩, ⟨1, .free, words [0, 1]⟩, ⟨1, .free, words [0, 1]⟩]

variable {n m i : Nat}

theorem total_move {s t : Banker} (hi : i < n) (rows : ∀ k, k ≠ i → t.matAlloc k = s.matAlloc k)
    (moved : val m t.arrAvailable + val m (t.matAlloc i) =
      val m s.arrAvailable + val m (s.matAlloc i)) : total n m t = total n m s := by
  have hmem : i ∈ Finset.range n := Finset.mem_range.mpr hi
  have rest : ∑ k ∈ (Finset.range n).erase i, val m (t.matAlloc k) =
      ∑ k ∈ (Finset.range n).erase i, val m (s.matAlloc k) := by
    apply Finset.sum_congr rfl
    intro k hk
    rw [rows k (Finset.ne_of_mem_erase hk)]
  simp only [total]
  rw [← Finset.add_sum_erase _ _ hmem, ← Finset.add_sum_erase _ _ hmem, ← add_assoc, ← add_assoc,
    moved, rest]

theorem row_le_total (s : Banker) (hi : i < n) :
    val m s.arrAvailable + val m (s.matAlloc i) ≤ total n m s := by
  have hmem : i ∈ Finset.range n := Finset.mem_range.mpr hi
  rw [total, ← Finset.add_sum_erase _ _ hmem, ← add_assoc]
  exact le_self_add

variable {s : Banker} {reqVec : Vec}

theorem grant_available (fits : val m reqVec ≤ val m s.arrAvailable) :
    val m (grant reqVec i s m).arrAvailable + val m reqVec = val m s.arrAvailable :=
  val_arrSub fits

theorem grant_need (fits : val m reqVec ≤ val m (s.matNeed i)) :
    val m ((grant reqVec i s m).matNeed i) + val m reqVec = val m (s.matNeed i) := by
  simpa [grant] using val_arrSub fits

variable {k : Nat}

section
variable (bounded : TotalBounded n m s) (hi : i < n) (fits : val m reqVec ≤ val m s.arrAvailable)
include bounded hi fits

theorem row_fits (j : Fin m) : val m (s.matAlloc i) j + val m reqVec j < 2 ^ 32 := by
  have h1 := row_le_total (m := m) s hi j
  have h2 : val m reqVec j ≤ val m s.arrAvailable j := fits j
  have h3 := bounded j
  simp only [Pi.add_apply] at h1
  omega

theorem grant_alloc :
    val m ((grant reqVec i s m).matAlloc i) = val m (s.matAlloc i) + val m reqVec := by
  simp only [grant, update_self]
  exact val_arrAdd (row_fits bounded hi fits)

omit bounded hi fits in
theorem grant_else (hk : k ≠ i) :
    (grant reqVec i s m).matAlloc k = s.matAlloc k ∧
      (grant reqVec i s m).matNeed k = s.matNeed k := by
  simp [grant, hk]

theorem total_grant : total n m (grant reqVec i s m) = total n m s := by
  apply total_move hi (fun k hk => (grant_else hk).1)
  rw [grant_alloc bounded hi fits, ← grant_available (i := i) fits]
  rw [← add_assoc, add_right_comm]

theorem totalBounded_grant : TotalBounded n m (grant reqVec i s m) := by
  intro j
  rw [total_grant bounded hi fits]
  exact bounded j

end

def freed (reqVec : Vec) (pid : Nat) (s : Banker) (m : Nat) : Banker :=
  { s with
    arrAvailable := arrAdd s.arrAvailable reqVec m
    matAlloc := update s.matAlloc pid (arrSub (s.matAlloc pid) reqVec m) }

theorem simulationFree_cases (reqVec : Vec) (pid : Nat) (s : Banker) (m : Nat) :
    (simulationFree reqVec pid s m = (false, s) ∧ ¬ val m reqVec ≤ val m (s.matAlloc pid)) ∨
    (simulationFree reqVec pid s m = (true, freed reqVec pid s m) ∧
      val m reqVec ≤ val m (s.matAlloc pid)) := by
  cases h : arrLAny (s.matAlloc pid) reqVec m with
  | true =>
    refine Or.inl ⟨by simp [simulationFree, h], ?_⟩
    rw [← arrLAny_eq_false, h]
    decide
  | false =>
    exact Or.inr ⟨by simp [simulationFree, h, freed], (arrLAny_eq_false _ _ _).mp h⟩

theorem freed_alloc (fits : val m reqVec ≤ val m (s.matAlloc i)) :
    val m ((freed reqVec i s m).matAlloc i) + val m reqVec = val m (s.matAlloc i) := by
  simpa [freed] using val_arrSub fits

section
variable (bounded : TotalBounded n m s) (hi : i < n) (fits : val m reqVec ≤ val m (s.matAlloc i))
include bounded hi fits

theorem freed_available :
    val m (freed reqVec i s m).arrAvailable = val m s.arrAvailable + val m reqVec := by
  apply val_arrAdd
  intro j
  have h1 := row_le_total (m := m) s hi j
  have h2 : val m reqVec j ≤ val m (s.matAlloc i) j := fits j
  have h3 := bounded j
  simp only [Pi.add_apply] at h1
  omega

omit bounded hi fits in
theorem freed_else (hk : k ≠ i) : (freed reqVec i s m).matAlloc k = s.matAlloc k := by
  simp [freed, hk]

theorem total_freed : total n m (freed reqVec i s m) = total n m s := by
  apply total_move hi (fun k hk => freed_else hk)
  rw [freed_available bounded hi fits, ← freed_alloc fits]
  rw [← add_assoc, add_right_comm]

theorem totalBounded_freed : TotalBounded n m (freed reqVec i s m) := by
  intro j
  rw [total_freed bounded hi fits]
  exact bounded j

end

section
variable (bounded : TotalBounded n m s) (reqVec : Vec) (hi : i < n)
include bounded hi

theorem total_request : total n m (request reqVec i s n m).2 = total n m s := by
  obtain ⟨h, -⟩ | ⟨-, ⟨h, -⟩ | ⟨avail, ⟨h, -⟩ | ⟨h, -⟩⟩⟩ := request_cases reqVec i s n m <;> rw [h]
  exact total_grant bounded hi avail

theorem total_simulationFree : total n m (simulationFree reqVec i s m).2 = total n m s := by
  obtain ⟨h, -⟩ | ⟨h, fits⟩ := simulationFree_cases reqVec i s m <;> rw [h]
  exact total_freed bounded hi fits

end

theorem total_simulationStart (bounded : TotalBounded n m s) (reqs : List (ReqT n)) :
    total n m (simulationStart n m s reqs) = total n m s := by
  induction reqs generalizing s with
  | nil => rfl
  | cons r rest ih =>
    have step : total n m (simulationStep n m s r) = total n m s := by
      rw [simulationStep]
      cases r.op with
      | free => exact total_simulationFree bounded r.reqVec r.reqTask.isLt
      | lock => exact total_request bounded r.reqVec r.reqTask.isLt
    have later := ih (s := simulationStep n m s r) fun j => step ▸ bounded j
    exact later.trans step

structure BankerInv (n m : Nat) (instances : Fin m → Nat) (s : Banker) : Prop where
  conserved : total n m s = instances
  accepted : stateSafe s n m = true

def Claimed (n m : Nat) (matMax : Mat) (s : Banker) : Prop :=
  ∀ i < n, val m (s.matNeed i) + val m (s.matAlloc i) ≤ val m (matMax i)

variable {matMax : Mat} {instances : Fin m → Nat}

section
variable (inv : BankerInv n m instances s) (words : ∀ j, instances j < 2 ^ 32)
include inv words

theorem BankerInv.bounded : TotalBounded n m s := by
  intro j
  rw [inv.conserved]
  exact words j

theorem bankerInv_request (reqVec : Vec) (hi : i < n) :
    BankerInv n m instances (request reqVec i s n m).2 := by
  refine ⟨(total_request (inv.bounded words) reqVec hi).trans inv.conserved, ?_⟩
  obtain ⟨h, -⟩ | ⟨-, ⟨h, -⟩ | ⟨-, ⟨h, -⟩ | ⟨h, accepted⟩⟩⟩ :=
    request_cases reqVec i s n m <;> rw [h]
  · exact inv.accepted
  · exact inv.accepted
  · exact inv.accepted
  · exact accepted

omit inv words in
theorem claimed_request (bounded : TotalBounded n m s) (claimed : Claimed n m matMax s)
    (reqVec : Vec) (hi : i < n) : Claimed n m matMax (request reqVec i s n m).2 := by
  obtain ⟨h, -⟩ | ⟨need, ⟨h, -⟩ | ⟨avail, ⟨h, -⟩ | ⟨h, -⟩⟩⟩ :=
    request_cases reqVec i s n m <;> rw [h]
  · exact claimed
  · exact claimed
  · exact claimed
  · intro k hk
    by_cases hki : k = i
    · subst hki
      have claim := claimed k hk
      rw [← grant_need need, add_right_comm, add_assoc] at claim
      rwa [grant_alloc bounded hk avail]
    · rw [(grant_else hki).1, (grant_else hki).2]
      exact claimed k hk

omit inv words in
theorem stateSafe_freed (bounded : TotalBounded n m s) {reqVec : Vec} (hi : i < n)
    (fits : val m reqVec ≤ val m (s.matAlloc i)) (accepted : stateSafe s n m = true) :
    stateSafe (freed reqVec i s m) n m = true := by
  rw [stateSafe_iff (totalBounded_freed bounded hi fits), freed_available bounded hi fits]
  refine completable_release nodup_range ?_ (freed_alloc fits) (fun _ _ => rfl) ?_
    ((stateSafe_iff bounded).mp accepted)
  · exact le_self_add
  · intro k hk
    rw [freed_else hk]

theorem bankerInv_free (reqVec : Vec) (hi : i < n) :
    BankerInv n m instances (simulationFree reqVec i s m).2 := by
  have bounded := inv.bounded words
  refine ⟨(total_simulationFree bounded reqVec hi).trans inv.conserved, ?_⟩
  obtain ⟨h, -⟩ | ⟨h, fits⟩ := simulationFree_cases reqVec i s m <;> rw [h]
  · exact inv.accepted
  · exact stateSafe_freed bounded hi fits inv.accepted

omit inv words in
theorem claimed_free (claimed : Claimed n m matMax s) (reqVec : Vec) (i : Nat) :
    Claimed n m matMax (simulationFree reqVec i s m).2 := by
  obtain ⟨h, -⟩ | ⟨h, fits⟩ := simulationFree_cases reqVec i s m <;> rw [h]
  · exact claimed
  · intro k hk
    refine le_trans (add_le_add le_rfl ?_) (claimed k hk)
    by_cases hki : k = i
    · subst hki
      rw [← freed_alloc fits]
      exact le_self_add
    · rw [freed_else hki]

theorem bankerInv_run (reqs : List (ReqT n)) :
    BankerInv n m instances (simulationStart n m s reqs) := by
  induction reqs generalizing s with
  | nil => exact inv
  | cons r rest ih =>
    refine ih ?_
    simp only [simulationStep]
    cases r.op with
    | free => exact bankerInv_free inv words r.reqVec r.reqTask.isLt
    | lock => exact bankerInv_request inv words r.reqVec r.reqTask.isLt

theorem claimed_run (claimed : Claimed n m matMax s) (reqs : List (ReqT n)) :
    Claimed n m matMax (simulationStart n m s reqs) := by
  induction reqs generalizing s with
  | nil => exact claimed
  | cons r rest ih =>
    refine ih (bankerInv_run inv words [r]) ?_
    simp only [simulationStep]
    cases r.op with
    | free => exact claimed_free claimed r.reqVec r.reqTask
    | lock => exact claimed_request (inv.bounded words) claimed r.reqVec r.reqTask.isLt

end

theorem claim_le_total (bounded : TotalBounded n m s) (accepted : stateSafe s n m = true)
    (hi : i < n) : val m (s.matNeed i) + val m (s.matAlloc i) ≤ total n m s := by
  obtain ⟨order, perm, h⟩ := (stateSafe_iff bounded).mp accepted
  have claim := completes_claim (perm.mem_iff.mpr (mem_range.mpr hi)) h
  rw [(perm.map _).sum_eq] at claim
  exact claim

theorem claimed_of_difference (bounded : TotalBounded n m s) (accepted : stateSafe s n m = true)
    (need : ∀ i < n, ∀ j < m, s.matNeed i j = matMax i j - s.matAlloc i j) :
    Claimed n m matMax s := by
  intro i hi j
  have fits : (s.matNeed i j).toNat + (s.matAlloc i j).toNat < 2 ^ 32 :=
    lt_of_le_of_lt (claim_le_total bounded accepted hi j) (bounded j)
  have sum : s.matNeed i j + s.matAlloc i j = matMax i j := by
    rw [need i hi j j.isLt, UInt32.sub_add_cancel]
  have exact : (matMax i j).toNat = (s.matNeed i j).toNat + (s.matAlloc i j).toNat := by
    rw [← sum, UInt32.toNat_add, Nat.mod_eq_of_lt fits]
  simp [exact]

/-- Every run of locks and frees conserves the instances, keeps the claims and stays safe. -/
theorem simulationStart_invariant {n m : Nat} (matMax : Mat) (instances : Nat → Nat) (s : Banker)
    (need : ∀ i < n, ∀ j < m, s.matNeed i j = matMax i j - s.matAlloc i j)
    (conserved : ∀ j < m, (s.arrAvailable j).toNat +
      ∑ i ∈ Finset.range n, (s.matAlloc i j).toNat = instances j)
    (words : ∀ j < m, instances j < 2 ^ 32)
    (accepted : stateSafe s n m = true) (reqs : List (ReqT n)) :
    (∀ j < m, ((simulationStart n m s reqs).arrAvailable j).toNat +
      ∑ i ∈ Finset.range n, ((simulationStart n m s reqs).matAlloc i j).toNat = instances j) ∧
    (∀ i < n, ∀ j < m, ((simulationStart n m s reqs).matNeed i j).toNat +
      ((simulationStart n m s reqs).matAlloc i j).toNat ≤ (matMax i j).toNat) ∧
    stateSafe (simulationStart n m s reqs) n m = true := by
  have words' : ∀ j : Fin m, instances j < 2 ^ 32 := fun j => words j j.isLt
  have inv : BankerInv n m (fun j => instances j) s := by
    refine ⟨?_, accepted⟩
    funext j
    simpa [total] using conserved j j.isLt
  have claimed := claimed_of_difference (inv.bounded words') accepted need
  have inv' := bankerInv_run inv words' reqs
  refine ⟨?_, ?_, inv'.accepted⟩
  · intro j hj
    simpa [total] using congrFun inv'.conserved ⟨j, hj⟩
  · intro i hi j hj
    exact claimed_run inv words' claimed reqs i hi ⟨j, hj⟩

theorem simulationStart_invariant_reqVecTest :
    (∀ j < 2, ((simulationStart 2 2 (simulationInit initialAvailable initialMax initialAlloc 2)
        reqVecTest).arrAvailable j).toNat +
      ∑ i ∈ Finset.range 2, ((simulationStart 2 2
        (simulationInit initialAvailable initialMax initialAlloc 2)
          reqVecTest).matAlloc i j).toNat = 1) ∧
    (∀ i < 2, ∀ j < 2, ((simulationStart 2 2
        (simulationInit initialAvailable initialMax initialAlloc 2)
          reqVecTest).matNeed i j).toNat +
      ((simulationStart 2 2 (simulationInit initialAvailable initialMax initialAlloc 2)
          reqVecTest).matAlloc i j).toNat ≤ (initialMax i j).toNat) ∧
    stateSafe (simulationStart 2 2 (simulationInit initialAvailable initialMax initialAlloc 2)
      reqVecTest) 2 2 = true :=
  simulationStart_invariant initialMax (fun _ => 1)
    (simulationInit initialAvailable initialMax initialAlloc 2)
    (by decide) (by decide) (by decide) (by decide) reqVecTest

variable {u : Nat} {less given : Vec}

theorem request_safe_iff : (request reqVec i s n m).1 = .safe ↔
    val m reqVec ≤ val m (s.matNeed i) ∧ val m reqVec ≤ val m s.arrAvailable ∧
      stateSafe (grant reqVec i s m) n m = true := by
  obtain ⟨h, need⟩ | ⟨need, ⟨h, avail⟩ | ⟨avail, ⟨h, rejected⟩ | ⟨h, safe⟩⟩⟩ :=
    request_cases reqVec i s n m
  · simp [h, need]
  · simp [h, avail]
  · simp [h, rejected]
  · simp [h, need, avail, safe]

theorem stateSafe_grant_less (bounded : TotalBounded n m s) (hi : i < n)
    (le : val m less ≤ val m reqVec) (need : val m reqVec ≤ val m (s.matNeed i))
    (avail : val m reqVec ≤ val m s.arrAvailable)
    (safe : stateSafe (grant reqVec i s m) n m = true) :
    stateSafe (grant less i s m) n m = true := by
  obtain ⟨rest, split⟩ := exists_add_of_le le
  have completable := (stateSafe_iff (totalBounded_grant bounded hi avail)).mp safe
  rw [stateSafe_iff (totalBounded_grant bounded hi (le.trans avail))]
  have free : val m (grant less i s m).arrAvailable =
      val m (grant reqVec i s m).arrAvailable + rest := by
    have all := grant_available (i := i) avail
    rw [← grant_available (i := i) (le.trans avail), split, ← add_assoc, add_right_comm] at all
    exact (add_right_cancel all).symm
  rw [free]
  refine completable_release (u := i) nodup_range ?_ ?_ ?_ ?_ completable
  · have all := grant_need need
    rw [← grant_need (le.trans need), split, ← add_assoc, add_right_comm] at all
    exact (add_right_cancel all).ge
  · rw [grant_alloc bounded hi avail, grant_alloc bounded hi (le.trans avail), split, add_assoc]
  · intro k hk
    rw [(grant_else hk).2, (grant_else hk).2]
  · intro k hk
    rw [(grant_else hk).1, (grant_else hk).1]

theorem stateSafe_grant_freed (bounded : TotalBounded n m s) (hi : i < n) (hu : u < n)
    (owned : val m given ≤ val m (s.matAlloc u)) (avail : val m reqVec ≤ val m s.arrAvailable)
    (safe : stateSafe (grant reqVec i s m) n m = true) :
    stateSafe (grant reqVec i (freed given u s m) m) n m = true := by
  have bounded' := totalBounded_freed bounded hu owned
  have avail' : val m reqVec ≤ val m (freed given u s m).arrAvailable := by
    rw [freed_available bounded hu owned]
    exact avail.trans le_self_add
  have completable := (stateSafe_iff (totalBounded_grant bounded hi avail)).mp safe
  rw [stateSafe_iff (totalBounded_grant bounded' hi avail')]
  have free : val m (grant reqVec i (freed given u s m) m).arrAvailable =
      val m (grant reqVec i s m).arrAvailable + val m given := by
    have all := grant_available (i := i) avail'
    rw [freed_available bounded hu owned, ← grant_available (i := i) avail, add_right_comm] at all
    exact add_right_cancel all
  rw [free]
  refine completable_release (u := u) nodup_range le_self_add ?_ (fun _ _ => rfl) ?_
    completable
  · by_cases same : u = i
    · subst same
      rw [grant_alloc bounded' hu avail', grant_alloc bounded hu avail, ← freed_alloc owned,
        add_right_comm]
    · rw [(grant_else same).1, (grant_else same).1, freed_alloc owned]
  · intro k hk
    by_cases same : k = i
    · subst same
      rw [grant_alloc bounded' hi avail', grant_alloc bounded hi avail, freed_else hk]
    · rw [(grant_else same).1, (grant_else same).1, freed_else hk]

/-- A request stays granted when it asks for less and after frees. -/
theorem request_monotone (fits : ∀ j < m,
      (s.arrAvailable j).toNat + ∑ k ∈ Finset.range n, (s.matAlloc k j).toNat < 2 ^ 32)
    (hi : i < n) (safe : (request reqVec i s n m).1 = .safe) :
    (∀ less : Vec, (∀ j < m, less j ≤ reqVec j) → (request less i s n m).1 = .safe) ∧
    ∀ u < n, ∀ given : Vec, (∀ j < m, given j ≤ s.matAlloc u j) →
      (request reqVec i (simulationFree given u s m).2 n m).1 = .safe := by
  have bounded := totalBounded_iff.mpr fits
  have words : ∀ {left right : Vec}, (∀ j < m, left j ≤ right j) → val m left ≤ val m right :=
    fun le j => UInt32.le_iff_toNat_le.mp (le j j.isLt)
  obtain ⟨need, avail, accepted⟩ := request_safe_iff.mp safe
  constructor
  · intro less le
    have le' := words le
    exact request_safe_iff.mpr ⟨le'.trans need, le'.trans avail,
      stateSafe_grant_less bounded hi le' need avail accepted⟩
  · intro u hu given owned
    have owned' := words owned
    obtain ⟨-, no⟩ | ⟨free, -⟩ := simulationFree_cases given u s m
    · exact absurd owned' no
    · rw [free]
      refine request_safe_iff.mpr ⟨need, ?_,
        stateSafe_grant_freed bounded hi hu owned' avail accepted⟩
      show val m reqVec ≤ val m (freed given u s m).arrAvailable
      rw [freed_available bounded hu owned']
      exact avail.trans le_self_add

theorem request_monotone_reqVecTest :
    (request (words [1, 0]) 0 (simulationInit initialAvailable initialMax initialAlloc 2) 2 2).1 =
      .safe ∧
    (request (words [0, 0]) 0 (simulationInit initialAvailable initialMax initialAlloc 2) 2 2).1 =
      .safe := by
  have safe : (request (words [1, 0]) 0
      (simulationInit initialAvailable initialMax initialAlloc 2) 2 2).1 = .safe := by decide
  exact ⟨safe, (request_monotone (by decide) (by decide) safe).1 (words [0, 0]) (by decide)⟩

end Elaborato.Mentos
