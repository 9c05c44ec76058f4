import Elaborato.Mentos.DeadlockSimulation

/-!
Deadlock freedom: the answer of `state_safe` as a schedule of `request` and `simulation_free`.
-/
namespace Elaborato.Mentos
open Foundation List

def serveTask (n m : Nat) (s : Banker) (i : Nat) : Option Banker :=
  match request (s.matNeed i) i s n m with
  | (.safe, granted) =>
    match simulationFree (granted.matAlloc i) i granted m with
    | (true, t) => some t
    | (false, _) => none
  | _ => none

structure Serving (n m : Nat) (instances : Fin m → Nat) (s : Banker)
    (waiting served : List Nat) : Prop where
  split : (waiting ++ served).Perm (List.range n)
  conserved : total n m s = instances
  completes : Completes (fun i => val m (s.matNeed i)) (fun i => val m (s.matAlloc i))
    (val m s.arrAvailable) waiting
  needNothing : ∀ i ∈ served, val m (s.matNeed i) = 0
  holdNothing : ∀ i ∈ served, val m (s.matAlloc i) = 0

variable {n m : Nat} {instances : Fin m → Nat} {s : Banker} {i : Nat} {waiting served : List Nat}

theorem Serving.bounded (h : Serving n m instances s waiting served)
    (words : ∀ j, instances j < 2 ^ 32) : TotalBounded n m s := by
  intro j
  rw [h.conserved]
  exact words j

section
variable (h : Serving n m instances s (i :: waiting) served)
include h

theorem Serving.mem_lt : i < n := mem_range.mp (h.split.mem_iff.mp (by simp))

theorem Serving.head_ne {k : Nat} (hk : k ∈ waiting ++ served) : k ≠ i := by
  have nodup : (i :: (waiting ++ served)).Nodup := h.split.nodup_iff.mpr nodup_range
  intro he
  exact (nodup_cons.mp nodup).1 (he ▸ hk)

theorem request_whole_need (words : ∀ j, instances j < 2 ^ 32) :
    request (s.matNeed i) i s n m = (.safe, grant (s.matNeed i) i s m) := by
  have bounded := h.bounded words
  have hi := h.mem_lt
  obtain ⟨fits, later⟩ := h.completes
  have bounded' := totalBounded_grant bounded hi fits
  have done : val m ((grant (s.matNeed i) i s m).matNeed i) = 0 :=
    add_eq_right.mp (grant_need (i := i) (s := s) le_rfl)
  have work : val m (grant (s.matNeed i) i s m).arrAvailable +
      val m ((grant (s.matNeed i) i s m).matAlloc i) =
      val m s.arrAvailable + val m (s.matAlloc i) := by
    rw [grant_alloc bounded hi fits, ← grant_available (i := i) fits, ← add_assoc, add_right_comm]
  have safe : stateSafe (grant (s.matNeed i) i s m) n m = true := by
    rw [stateSafe_iff bounded']
    refine ⟨(i :: waiting) ++ served, h.split, completes_append.mpr ⟨⟨?_, ?_⟩, ?_⟩⟩
    · exact done.le.trans zero_le
    · rw [work]
      refine completes_congr ?_ ?_ later
      · intro k hk
        rw [(grant_else (h.head_ne (mem_append_left _ hk))).2]
      · intro k hk
        rw [(grant_else (h.head_ne (mem_append_left _ hk))).1]
    · apply completes_of_forall_le
      intro k hk
      rw [(grant_else (h.head_ne (mem_append_right _ hk))).2, h.needNothing k hk]
      exact zero_le
  obtain ⟨-, no⟩ | ⟨-, ⟨-, no⟩ | ⟨-, ⟨-, no⟩ | ⟨granted, -⟩⟩⟩ := request_cases (s.matNeed i) i s n m
  · exact absurd le_rfl no
  · exact absurd fits no
  · rw [safe] at no
    cases no
  · exact granted

theorem serveTask_head (words : ∀ j, instances j < 2 ^ 32) :
    ∃ t, serveTask n m s i = some t ∧ Serving n m instances t waiting (i :: served) := by
  have bounded := h.bounded words
  have hi := h.mem_lt
  obtain ⟨fits, later⟩ := h.completes
  have granted := request_whole_need h words
  generalize hg : grant (s.matNeed i) i s m = g at granted
  have gBounded : TotalBounded n m g := hg ▸ totalBounded_grant bounded hi fits
  have gTotal : total n m g = instances := by
    rw [← hg, total_grant bounded hi fits, h.conserved]
  have gElse : ∀ k ∈ waiting ++ served, g.matAlloc k = s.matAlloc k ∧
      g.matNeed k = s.matNeed k := by
    intro k hk
    rw [← hg]
    exact grant_else (h.head_ne hk)
  have own : val m (g.matAlloc i) ≤ val m (g.matAlloc i) := le_rfl
  have freedRow : val m ((freed (g.matAlloc i) i g m).matAlloc i) = 0 :=
    add_eq_right.mp (freed_alloc own)
  have freedElse : ∀ k ∈ waiting ++ served,
      (freed (g.matAlloc i) i g m).matAlloc k = s.matAlloc k := by
    intro k hk
    rw [freed_else (h.head_ne hk), (gElse k hk).1]
  have work : val m (freed (g.matAlloc i) i g m).arrAvailable =
      val m s.arrAvailable + val m (s.matAlloc i) := by
    rw [freed_available gBounded hi own, ← hg, grant_alloc bounded hi fits,
      ← grant_available (i := i) fits, ← add_assoc, add_right_comm]
  refine ⟨freed (g.matAlloc i) i g m, ?_, ?_, ?_, ?_, ?_, ?_⟩
  · obtain ⟨-, no⟩ | ⟨free, -⟩ := simulationFree_cases (g.matAlloc i) i g m
    · exact absurd own no
    · simp [serveTask, granted, free]
  · exact perm_middle.trans h.split
  · rw [total_freed gBounded hi own, gTotal]
  · rw [work]
    refine completes_congr ?_ ?_ later
    · intro k hk
      exact congrArg (val m) (gElse k (mem_append_left _ hk)).2.symm
    · intro k hk
      exact congrArg (val m) (freedElse k (mem_append_left _ hk)).symm
  · intro k hk
    rcases mem_cons.mp hk with rfl | hk
    · show val m (g.matNeed k) = 0
      rw [← hg]
      exact add_eq_right.mp (grant_need (i := k) (s := s) le_rfl)
    · exact (congrArg (val m) (gElse k (mem_append_right _ hk)).2).trans
        (h.needNothing k hk)
  · intro k hk
    rcases mem_cons.mp hk with rfl | hk
    · exact freedRow
    · rw [freedElse k (mem_append_right _ hk)]
      exact h.holdNothing k hk

end

theorem serveTask_all (h : Serving n m instances s waiting served)
    (words : ∀ j, instances j < 2 ^ 32) :
    ∃ t, waiting.foldlM (serveTask n m) s = some t ∧
      Serving n m instances t [] (waiting.reverse ++ served) := by
  induction waiting generalizing s served with
  | nil => exact ⟨s, rfl, h⟩
  | cons i rest ih =>
    obtain ⟨t, ht, hs⟩ := serveTask_head h words
    obtain ⟨u, hu, hs'⟩ := ih hs
    refine ⟨u, by simpa [List.foldlM, ht] using hu, ?_⟩
    simpa using hs'

theorem serving_finished (h : Serving n m instances s [] served) :
    (∀ i < n, ∀ j < m, s.matAlloc i j = 0) ∧ val m s.arrAvailable = instances := by
  have empty : ∀ i < n, val m (s.matAlloc i) = 0 := by
    intro i hi
    exact h.holdNothing i (h.split.mem_iff.mpr (mem_range.mpr hi))
  refine ⟨?_, ?_⟩
  · intro i hi j hj
    exact UInt32.toNat_inj.mp (congrFun (empty i hi) ⟨j, hj⟩)
  · rw [← h.conserved, total, Finset.sum_eq_zero, add_zero]
    intro i hi
    exact empty i (Finset.mem_range.mp hi)

/-- From every reachable state some order of the tasks serves each in full. -/
theorem deadlock_freedom {n m : Nat} (instances : Nat → Nat) (s : Banker)
    (conserved : ∀ j < m, (s.arrAvailable j).toNat +
      ∑ i ∈ Finset.range n, (s.matAlloc i j).toNat = instances j)
    (bound : ∀ j < m, instances j < 2 ^ 32)
    (accepted : stateSafe s n m = true) (reqs : List (ReqT n)) :
    ∃ order : List Nat, order.Perm (List.range n) ∧
      ∃ t, order.foldlM (serveTask n m) (simulationStart n m s reqs) = some t ∧
        (∀ i < n, ∀ j < m, t.matAlloc i j = 0) ∧
        ∀ j < m, (t.arrAvailable j).toNat = instances j := by
  have words : ∀ j : Fin m, instances j < 2 ^ 32 := fun j => bound j j.isLt
  have start : BankerInv n m (fun j => instances j) s := by
    refine ⟨?_, accepted⟩
    funext j
    simpa [total] using conserved j j.isLt
  have inv := bankerInv_run start words reqs
  obtain ⟨order, perm, completes⟩ := (stateSafe_iff (inv.bounded words)).mp inv.accepted
  have serving : Serving n m (fun j => instances j) (simulationStart n m s reqs) order [] :=
    ⟨by simpa using perm, inv.conserved, completes, by simp, by simp⟩
  obtain ⟨t, ht, done⟩ := serveTask_all serving words
  obtain ⟨empty, full⟩ := serving_finished done
  exact ⟨order, perm, t, ht, empty, fun j hj => congrFun full ⟨j, hj⟩⟩

theorem deadlock_freedom_reqVecTest :
    ∃ order : List Nat, order.Perm (List.range 2) ∧
      ∃ t, order.foldlM (serveTask 2 2) (simulationStart 2 2
          (simulationInit initialAvailable initialMax initialAlloc 2) (reqVecTest.take 4)) =
            some t ∧
        (∀ i < 2, ∀ j < 2, t.matAlloc i j = 0) ∧ ∀ j < 2, (t.arrAvailable j).toNat = 1 :=
  deadlock_freedom (fun _ => 1) (simulationInit initialAvailable initialMax initialAlloc 2)
    (by decide) (by decide) (by decide) (reqVecTest.take 4)

end Elaborato.Mentos
