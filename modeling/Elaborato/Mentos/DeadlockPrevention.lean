import Elaborato.Foundation.CompletionOrder
import Elaborato.Mentos.ArrMath
import Mathlib.Algebra.BigOperators.Pi
import Mathlib.Algebra.Order.BigOperators.Group.List

/-!
The Banker's algorithm (deadlock_prevention.c), characterised by completion orders.
-/
namespace Elaborato.Mentos
open Foundation List Function

inductive DeadlockStatus
  | safe
  | wait
  | waitUnsafe
  | error
  deriving DecidableEq, Repr

structure Banker where
  arrAvailable : Vec
  matAlloc : Mat
  matNeed : Mat

def findTask (matNeed : Mat) (n m : Nat) (work finish : Vec) : Option Nat :=
  (List.range n).find? fun i => !(finish i != 0 || arrGAny (matNeed i) work m)

def stateSafeLoop (matAlloc matNeed : Mat) (n m : Nat) (allTrue : Vec) :
    Nat → Vec → Vec → Option Bool
  | 0, _, _ => none
  | turns + 1, work, finish =>
    if arrNe finish allTrue n then
      match findTask matNeed n m work finish with
      | none => some false
      | some i =>
        stateSafeLoop matAlloc matNeed n m allTrue turns
          (arrAdd work (matAlloc i) m) (update finish i 1)
    else some true

def stateSafe (s : Banker) (n m : Nat) : Bool :=
  (stateSafeLoop s.matAlloc s.matNeed n m (all (fun _ => 0) 1 n) (n + 1)
    s.arrAvailable (all (fun _ => 0) 0 n)).getD false

/-- The trial allocation of `request`. -/
def grant (reqVec : Vec) (taskI : Nat) (s : Banker) (m : Nat) : Banker :=
  { arrAvailable := arrSub s.arrAvailable reqVec m
    matAlloc := update s.matAlloc taskI (arrAdd (s.matAlloc taskI) reqVec m)
    matNeed := update s.matNeed taskI (arrSub (s.matNeed taskI) reqVec m) }

def restore (reqVec : Vec) (taskI : Nat) (s : Banker) (m : Nat) : Banker :=
  { arrAvailable := arrAdd s.arrAvailable reqVec m
    matAlloc := update s.matAlloc taskI (arrSub (s.matAlloc taskI) reqVec m)
    matNeed := update s.matNeed taskI (arrAdd (s.matNeed taskI) reqVec m) }

def request (reqVec : Vec) (taskI : Nat) (s : Banker) (n m : Nat) : DeadlockStatus × Banker :=
  if arrGAny reqVec (s.matNeed taskI) m then (.error, s)
  else if arrGAny reqVec s.arrAvailable m then (.wait, s)
  else
    let granted := grant reqVec taskI s m
    if !stateSafe granted n m then (.waitUnsafe, restore reqVec taskI granted m)
    else (.safe, granted)

def unfinished (n : Nat) (finish : Vec) : List Nat := (List.range n).filter fun i => finish i == 0

variable {n : Nat} {finish : Vec} {i : Nat}

theorem mem_unfinished : i ∈ unfinished n finish ↔ i < n ∧ finish i = 0 := by
  simp [unfinished]

theorem unfinished_nodup (n : Nat) (finish : Vec) : (unfinished n finish).Nodup :=
  nodup_range.filter _

theorem unfinished_update (n : Nat) (finish : Vec) (i : Nat) :
    unfinished n (update finish i 1) = (unfinished n finish).erase i := by
  rw [(unfinished_nodup n finish).erase_eq_filter]
  simp only [unfinished, filter_filter]
  apply filter_congr
  intro j _
  by_cases hj : j = i <;> simp [hj]

def FinishFlags (n : Nat) (finish : Vec) : Prop := ∀ i < n, finish i = 0 ∨ finish i = 1

theorem finishFlags_update (h : FinishFlags n finish) (i : Nat) :
    FinishFlags n (update finish i 1) := by
  intro j hj
  by_cases hji : j = i
  · exact Or.inr (by simp [hji])
  · simpa [update_of_ne hji] using h j hj

theorem arrNe_allTrue (h : FinishFlags n finish) :
    arrNe finish (all (fun _ => 0) 1 n) n = false ↔ unfinished n finish = [] := by
  simp only [arrNe, Bool.not_eq_false', arrE_eq_true, unfinished, filter_eq_nil_iff,
    mem_range, beq_iff_eq, all_apply]
  constructor
  · intro h1 i hi h0
    have := h1 i hi
    simp [hi, h0] at this
  · intro h1 i hi
    simpa [hi] using (h i hi).resolve_left (h1 i hi)

variable {matNeed : Mat} {m : Nat} {work : Vec}

theorem findTask_some (h : findTask matNeed n m work finish = some i) :
    i ∈ unfinished n finish ∧ val m (matNeed i) ≤ val m work := by
  have hp := find?_some h
  have hm := mem_of_find?_eq_some h
  simp only [Bool.not_or, Bool.and_eq_true, Bool.not_eq_true', bne_eq_false_iff_eq] at hp
  exact ⟨mem_unfinished.mpr ⟨mem_range.mp hm, hp.1⟩, (arrGAny_eq_false _ _ _).mp hp.2⟩

theorem findTask_none (h : findTask matNeed n m work finish = none) :
    ∀ i ∈ unfinished n finish, ¬ val m (matNeed i) ≤ val m work := by
  intro i hi fits
  obtain ⟨hin, hf⟩ := mem_unfinished.mp hi
  have hp := find?_eq_none.mp h i (mem_range.mpr hin)
  simp [hf, (arrGAny_eq_false _ _ _).mpr fits] at hp

def WorkBounded (matAlloc : Mat) (n m : Nat) (work finish : Vec) : Prop :=
  ∀ j : Fin m,
    val m work j + ((unfinished n finish).map fun i => val m (matAlloc i) j).sum < 2 ^ 32

theorem sum_unfinished {matAlloc : Mat} (hi : i ∈ unfinished n finish) (j : Fin m) :
    ((unfinished n finish).map fun k => val m (matAlloc k) j).sum = val m (matAlloc i) j +
      ((unfinished n (update finish i 1)).map fun k => val m (matAlloc k) j).sum := by
  rw [unfinished_update, ((perm_cons_erase hi).map _).sum_eq, map_cons, sum_cons]

theorem workBounded_finish {matAlloc : Mat} (hi : i ∈ unfinished n finish)
    (h : WorkBounded matAlloc n m work finish) :
    val m (arrAdd work (matAlloc i) m) = val m work + val m (matAlloc i) ∧
      WorkBounded matAlloc n m (arrAdd work (matAlloc i) m) (update finish i 1) := by
  have bounded (j : Fin m) := h j
  simp only [sum_unfinished hi] at bounded
  have hadd : val m (arrAdd work (matAlloc i) m) = val m work + val m (matAlloc i) :=
    val_arrAdd fun j => by have := bounded j; omega
  refine ⟨hadd, fun j => ?_⟩
  have := bounded j
  rw [hadd, Pi.add_apply]
  omega

attribute [local simp] stateSafeLoop

theorem stateSafeLoop_spec (matAlloc matNeed : Mat) (n m turns : Nat) (work finish : Vec)
    (flags : FinishFlags n finish) (enough : (unfinished n finish).length < turns) :
    ∃ b, stateSafeLoop matAlloc matNeed n m (all (fun _ => 0) 1 n) turns work finish = some b ∧
      (WorkBounded matAlloc n m work finish →
        (b = true ↔ Completable (fun i => val m (matNeed i)) (fun i => val m (matAlloc i))
          (val m work) (unfinished n finish))) := by
  induction turns generalizing work finish with
  | zero => omega
  | succ turns ih =>
    cases hne : arrNe finish (all (fun _ => 0) 1 n) n with
    | false =>
      have hnil := (arrNe_allTrue flags).mp hne
      refine ⟨true, by simp [hne], ?_⟩
      intro _
      simp only [hnil, true_iff]
      exact completable_nil _ _ _
    | true =>
      have hsome : unfinished n finish ≠ [] := by
        intro hnil
        rw [(arrNe_allTrue flags).mpr hnil] at hne
        cases hne
      cases hfind : findTask matNeed n m work finish with
      | none =>
        refine ⟨false, by simp [hne, hfind], ?_⟩
        intro _
        simp only [Bool.false_eq_true, false_iff]
        exact not_completable_of_stuck hsome (findTask_none hfind)
      | some i =>
        obtain ⟨hi, fits⟩ := findTask_some hfind
        have hlen : (unfinished n (update finish i 1)).length < turns := by
          rw [unfinished_update, length_erase_of_mem hi]
          have := length_pos_of_mem hi
          omega
        obtain ⟨b, hb, hspec⟩ := ih (arrAdd work (matAlloc i) m)
          (update finish i 1) (finishFlags_update flags i) hlen
        refine ⟨b, by simpa [hne, hfind] using hb, ?_⟩
        intro bounded
        obtain ⟨hadd, bounded'⟩ := workBounded_finish hi bounded
        rw [hspec bounded', completable_take hi fits, unfinished_update, hadd]

def total (n m : Nat) (s : Banker) : Fin m → Nat :=
  val m s.arrAvailable + ∑ i ∈ Finset.range n, val m (s.matAlloc i)

def TotalBounded (n m : Nat) (s : Banker) : Prop := ∀ j, total n m s j < 2 ^ 32

theorem unfinished_start (n : Nat) : unfinished n (all (fun _ => 0) 0 n) = List.range n := by
  simp [unfinished]

variable {s : Banker}

theorem workBounded_start (h : TotalBounded n m s) :
    WorkBounded s.matAlloc n m s.arrAvailable (all (fun _ => 0) 0 n) := by
  intro j
  have hj := h j
  simp only [total, Pi.add_apply, Finset.sum_apply] at hj
  rw [unfinished_start]
  exact hj

theorem stateSafeLoop_start {turns : Nat} (h : TotalBounded n m s) (enough : n < turns) :
    ∃ b, stateSafeLoop s.matAlloc s.matNeed n m (all (fun _ => 0) 1 n) turns s.arrAvailable
        (all (fun _ => 0) 0 n) = some b ∧
      (b = true ↔ Completable (fun i => val m (s.matNeed i)) (fun i => val m (s.matAlloc i))
        (val m s.arrAvailable) (List.range n)) := by
  have flags : FinishFlags n (all (fun _ => 0) 0 n) := by
    intro i hi
    simp
  have enough' : (unfinished n (all (fun _ => 0) 0 n)).length < turns := by
    simpa [unfinished_start] using enough
  obtain ⟨b, hb, hspec⟩ := stateSafeLoop_spec s.matAlloc s.matNeed n m turns
    s.arrAvailable (all (fun _ => 0) 0 n) flags enough'
  refine ⟨b, hb, ?_⟩
  rw [hspec (workBounded_start h), unfinished_start]

theorem stateSafe_iff (h : TotalBounded n m s) :
    stateSafe s n m = true ↔
      Completable (fun i => val m (s.matNeed i)) (fun i => val m (s.matAlloc i))
        (val m s.arrAvailable) (List.range n) := by
  obtain ⟨b, hb, hspec⟩ := stateSafeLoop_start h n.lt_succ_self
  rw [stateSafe, hb, Option.getD_some, hspec]

theorem totalBounded_iff : TotalBounded n m s ↔ ∀ j < m,
    (s.arrAvailable j).toNat + ∑ i ∈ Finset.range n, (s.matAlloc i j).toNat < 2 ^ 32 := by
  simp only [TotalBounded, total, Pi.add_apply, Finset.sum_apply, val_apply]
  exact ⟨fun h j hj => h ⟨j, hj⟩, fun h j => h j j.isLt⟩

/-- `state_safe` accepts exactly the states with a completion order. -/
theorem stateSafe_exact {n m : Nat} {s : Banker} (fits : ∀ j < m,
      (s.arrAvailable j).toNat + ∑ i ∈ Finset.range n, (s.matAlloc i j).toNat < 2 ^ 32) :
    (∀ turns > n, stateSafeLoop s.matAlloc s.matNeed n m (all (fun _ => 0) 1 n) turns
      s.arrAvailable (all (fun _ => 0) 0 n) = some (stateSafe s n m)) ∧
    (stateSafe s n m = true ↔ ∃ p : Equiv.Perm (Fin n), ∀ k, ∀ j < m,
      (s.matNeed (p k) j).toNat ≤
        (s.arrAvailable j).toNat + ∑ l with l < k, (s.matAlloc (p l) j).toNat) := by
  have bounded := totalBounded_iff.mpr fits
  constructor
  · intro turns enough
    obtain ⟨b, hb, hspec⟩ := stateSafeLoop_start bounded enough
    rw [hb, Option.some.injEq, Bool.eq_iff_iff, hspec, stateSafe_iff bounded]
  · rw [stateSafe_iff bounded, completable_range_iff]
    refine exists_congr fun p => forall_congr' fun k => ?_
    simp only [Pi.le_def, Pi.add_apply, Finset.sum_apply, val_apply]
    exact ⟨fun h j hj => h ⟨j, hj⟩, fun h j => h j j.isLt⟩

theorem stateSafe_exact_pair :
    stateSafe ⟨fun _ => 1, fun _ _ => 1, fun i _ => if i = 0 then 2 else 1⟩ 2 1 = true ∧
    ∃ p : Equiv.Perm (Fin 2), ∀ k, ∀ j < 1,
      ((fun i _ => if i = 0 then 2 else 1 : Mat) (p k) j).toNat ≤
        ((fun _ => 1 : Vec) j).toNat + ∑ l with l < k, ((fun _ _ => 1 : Mat) (p l) j).toNat := by
  have accepted :
      stateSafe ⟨fun _ => 1, fun _ _ => 1, fun i _ => if i = 0 then 2 else 1⟩ 2 1 = true := by
    decide
  exact ⟨accepted, (stateSafe_exact (by decide)).2.mp accepted⟩

theorem restore_grant (reqVec : Vec) (taskI : Nat) (s : Banker) (m : Nat) :
    restore reqVec taskI (grant reqVec taskI s m) m = s := by
  simp [restore, grant, arrAdd_arrSub, arrSub_arrAdd]

theorem request_cases (reqVec : Vec) (taskI : Nat) (s : Banker) (n m : Nat) :
    (request reqVec taskI s n m = (.error, s) ∧ ¬ val m reqVec ≤ val m (s.matNeed taskI)) ∨
    (val m reqVec ≤ val m (s.matNeed taskI) ∧
      ((request reqVec taskI s n m = (.wait, s) ∧ ¬ val m reqVec ≤ val m s.arrAvailable) ∨
      (val m reqVec ≤ val m s.arrAvailable ∧
        ((request reqVec taskI s n m = (.waitUnsafe, s) ∧
            stateSafe (grant reqVec taskI s m) n m = false) ∨
          (request reqVec taskI s n m = (.safe, grant reqVec taskI s m) ∧
            stateSafe (grant reqVec taskI s m) n m = true))))) := by
  cases hneed : arrGAny reqVec (s.matNeed taskI) m with
  | true =>
    refine Or.inl ⟨by simp [request, hneed], ?_⟩
    rw [← arrGAny_eq_false, hneed]
    decide
  | false =>
    refine Or.inr ⟨(arrGAny_eq_false _ _ _).mp hneed, ?_⟩
    cases havail : arrGAny reqVec s.arrAvailable m with
    | true =>
      refine Or.inl ⟨by simp [request, hneed, havail], ?_⟩
      rw [← arrGAny_eq_false, havail]
      decide
    | false =>
      refine Or.inr ⟨(arrGAny_eq_false _ _ _).mp havail, ?_⟩
      cases hsafe : stateSafe (grant reqVec taskI s m) n m with
      | true => exact Or.inr ⟨by simp [request, hneed, havail, hsafe], rfl⟩
      | false =>
        exact Or.inl ⟨by simp [request, hneed, havail, hsafe, restore_grant], rfl⟩

def moved (reqVec : Vec) (taskI : Nat) (s : Banker) (m : Nat) : Banker where
  arrAvailable j := if j < m then s.arrAvailable j - reqVec j else s.arrAvailable j
  matAlloc i j := if i = taskI ∧ j < m then s.matAlloc i j + reqVec j else s.matAlloc i j
  matNeed i j := if i = taskI ∧ j < m then s.matNeed i j - reqVec j else s.matNeed i j

theorem grant_eq_moved (reqVec : Vec) (taskI : Nat) (s : Banker) (m : Nat) :
    grant reqVec taskI s m = moved reqVec taskI s m := by
  have row : ∀ (f : UInt32 → UInt32 → UInt32) (mat : Mat),
      update mat taskI (arrZip f (mat taskI) reqVec m) =
        fun i j => if i = taskI ∧ j < m then f (mat i j) (reqVec j) else mat i j := by
    intro f mat
    funext i j
    by_cases hi : i = taskI
    · subst hi
      simp [arrZip_apply]
    · simp [hi]
  have free : arrSub s.arrAvailable reqVec m =
      fun j => if j < m then s.arrAvailable j - reqVec j else s.arrAvailable j :=
    funext fun j => arrZip_apply _ _ _ _ _
  rw [grant, moved, free, arrAdd, arrSub, row, row]

theorem not_val_le_iff {left right : Vec} :
    ¬ val m left ≤ val m right ↔ ∃ j < m, right j < left j := by
  simp only [Pi.le_def, val_apply, not_forall, Nat.not_le, ← UInt32.lt_iff_toNat_lt]
  exact ⟨fun ⟨j, h⟩ => ⟨j, j.isLt, h⟩, fun ⟨j, hj, h⟩ => ⟨⟨j, hj⟩, h⟩⟩

/-- What `request` answers and what it leaves, for all words. -/
theorem request_exact (reqVec : Vec) (taskI : Nat) (s : Banker) (n m : Nat) :
    ((request reqVec taskI s n m).1 = .error ↔ ∃ j < m, s.matNeed taskI j < reqVec j) ∧
    ((request reqVec taskI s n m).1 = .wait ↔ (¬ ∃ j < m, s.matNeed taskI j < reqVec j) ∧
      ∃ j < m, s.arrAvailable j < reqVec j) ∧
    ((request reqVec taskI s n m).1 = .waitUnsafe ↔
      (¬ ∃ j < m, s.matNeed taskI j < reqVec j) ∧ (¬ ∃ j < m, s.arrAvailable j < reqVec j) ∧
        stateSafe (moved reqVec taskI s m) n m = false) ∧
    ((request reqVec taskI s n m).1 = .safe ↔
      (¬ ∃ j < m, s.matNeed taskI j < reqVec j) ∧ (¬ ∃ j < m, s.arrAvailable j < reqVec j) ∧
        stateSafe (moved reqVec taskI s m) n m = true) ∧
    ((request reqVec taskI s n m).1 ≠ .safe → (request reqVec taskI s n m).2 = s) ∧
    ((request reqVec taskI s n m).1 = .safe →
      (request reqVec taskI s n m).2 = moved reqVec taskI s m ∧ ∀ j < m,
        ((moved reqVec taskI s m).arrAvailable j).toNat + (reqVec j).toNat =
          (s.arrAvailable j).toNat ∧
        ((moved reqVec taskI s m).matNeed taskI j).toNat + (reqVec j).toNat =
          (s.matNeed taskI j).toNat) := by
  simp only [← not_val_le_iff, ← grant_eq_moved]
  obtain ⟨h, need⟩ | ⟨need, ⟨h, avail⟩ | ⟨avail, ⟨h, rejected⟩ | ⟨h, safe⟩⟩⟩ :=
    request_cases reqVec taskI s n m
  · simp [h, need]
  · simp [h, need, avail]
  · simp [h, need, avail, rejected]
  · refine ⟨by simp [h, need], by simp [h, avail], by simp [h, safe],
      by simp [h, need, avail, safe], fun no => absurd (by rw [h]) no, fun _ => ?_⟩
    refine ⟨by rw [h], fun j hj => ⟨congrFun (val_arrSub avail) ⟨j, hj⟩, ?_⟩⟩
    have row := congrFun (val_arrSub need) ⟨j, hj⟩
    simpa [grant] using row

end Elaborato.Mentos
