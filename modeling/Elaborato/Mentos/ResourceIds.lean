import Elaborato.Foundation.Execution
import Elaborato.Mentos.Resource
import Mathlib.Data.List.Nodup

/-!
The identifiers of the live resources: contiguous while at most one survives a destruction.
-/
namespace Elaborato.Mentos
open Foundation List

inductive ResourceCall
  | create (category : String) (new : Addr)
  | destroy (r : Option Addr)

structure ResourceEvent where
  task : Addr
  call : ResourceCall

def ResourceStep (k : Kernel) (e : ResourceEvent) (k' : Kernel) : Prop :=
  e.task ∈ k.queue ∧
    match e.call with
    | .create category new =>
      new ∉ k.rList ∧ k' = (resourceCreate { k with curr := e.task } category new).2
    | .destroy r =>
      (∀ a, r = some a → a ∈ k.rList) ∧ k' = resourceDestroy { k with curr := e.task } r

def liveRids (k : Kernel) : List Nat := k.rList.map fun r => (k.resources r).rid

def RidsContiguous (k : Kernel) : Prop :=
  (liveRids k).Nodup ∧ ∀ i, i ∈ liveRids k ↔ i < k.rActive

def FewSurvivors (k : Kernel) (e : ResourceEvent) : Prop :=
  match e.call with
  | .destroy (some _) => k.rActive ≤ 2
  | _ => True

theorem normalizeIds_apply (resources : Addr → Resource) (nodes : List Addr) (r : Addr) :
    normalizeIds resources nodes r =
      if r ∈ nodes then { resources r with rid := 0 } else resources r := by
  induction nodes generalizing resources with
  | nil => simp [normalizeIds]
  | cons node rest ih =>
    have step : normalizeIds resources (node :: rest) =
        normalizeIds (Function.update resources node { resources node with rid := 0 }) rest := rfl
    rw [step, ih]
    by_cases hr : r = node
    · subst hr
      simp
    · simp [hr]

variable {k : Kernel}

theorem ridsContiguous_length (h : RidsContiguous k) : k.rList.length = k.rActive := by
  have perm : (liveRids k).Perm (List.range k.rActive) :=
    (perm_ext_iff_of_nodup h.1 nodup_range).mpr (by simpa using h.2)
  simpa [liveRids] using perm.length_eq

structure Creates (k k' : Kernel) (new : Addr) (i : Nat) : Prop where
  queue : k'.queue = k.queue
  numActive : k'.numActive = k.numActive
  rList : k'.rList = k.rList ++ [new]
  rActive : k'.rActive = k.rActive + 1
  record : ∃ category, k'.resources new =
    { rid := k.rActive, nInstances := 1, category, assignedTask := none, assignedInstances := 0 }
  others : ∀ r, r ≠ new → k'.resources r = k.resources r
  arrays : ∀ t j, (k'.tasks t).resources j =
    if t = k.curr ∧ j = i then some new else (k.tasks t).resources j

variable {i : Nat}

theorem resourceCreate_creates (category : String) (new : Addr) (slot : freeSlot k = some i) :
    Creates k (resourceCreate k category new).2 new i := by
  simp only [resourceCreate, slot]
  refine ⟨rfl, rfl, rfl, rfl, ⟨category, by simp⟩, ?_, ?_⟩
  · intro r other
    simp [other]
  · intro t j
    by_cases task : t = k.curr
    · by_cases here : j = i <;> simp [task, here]
    · simp [task]

variable {new : Addr}

theorem Creates.ridsContiguous {k' : Kernel} (creates : Creates k k' new i) (h : RidsContiguous k)
    (fresh : new ∉ k.rList) : RidsContiguous k' := by
  have rids : liveRids k' = liveRids k ++ [k.rActive] := by
    obtain ⟨category, record⟩ := creates.record
    simp only [liveRids, creates.rList, map_append, map_cons, map_nil, record]
    congr 1
    apply map_congr_left
    intro r hr
    rw [creates.others r (fun same => fresh (same ▸ hr))]
  refine ⟨?_, ?_⟩
  · have unused : k.rActive ∉ liveRids k := fun used => Nat.lt_irrefl _ ((h.2 _).mp used)
    rw [rids, ← concat_eq_append]
    exact List.Nodup.concat unused h.1
  · intro i
    rw [rids, creates.rActive, mem_append, h.2 i, mem_singleton]
    omega

theorem resourceCreate_rids (h : RidsContiguous k) (category : String) (fresh : new ∉ k.rList) :
    RidsContiguous (resourceCreate k category new).2 := by
  cases slot : freeSlot k with
  | none => simpa [resourceCreate, slot] using h
  | some i => exact (resourceCreate_creates category new slot).ridsContiguous h fresh

theorem resourceDestroy_rids (k : Kernel) (r : Addr) :
    liveRids (resourceDestroy k (some r)) = List.replicate (k.rList.erase r).length 0 := by
  apply eq_replicate_iff.mpr
  refine ⟨by simp [liveRids, resourceDestroy, cleanResourceReference], ?_⟩
  intro i hi
  simp only [liveRids, resourceDestroy, cleanResourceReference, mem_map] at hi
  obtain ⟨a, ha, rfl⟩ := hi
  rw [normalizeIds_apply, if_pos ha]

theorem resourceDestroy_active (k : Kernel) (r : Addr) :
    (resourceDestroy k (some r)).rActive = k.rActive - 1 := rfl

theorem resourceDestroy_contiguous_iff (h : RidsContiguous k) {r : Addr} (live : r ∈ k.rList) :
    RidsContiguous (resourceDestroy k (some r)) ↔ k.rActive ≤ 2 := by
  have len := ridsContiguous_length h
  have pos := length_pos_of_mem live
  have survivors : (k.rList.erase r).length = k.rActive - 1 := by
    rw [length_erase_of_mem live, len]
  rw [RidsContiguous, resourceDestroy_rids, resourceDestroy_active, survivors, nodup_replicate]
  constructor
  · rintro ⟨few, -⟩
    omega
  · intro few
    refine ⟨by omega, ?_⟩
    intro i
    rw [mem_replicate]
    omega

/-- Identifiers stay contiguous exactly when a destruction leaves at most one resource. -/
theorem ridsContiguous_run_iff {start k : Kernel} {trace : List (Kernel × ResourceEvent)}
    (empty : start.rList = [] ∧ start.rActive = 0) (run : Exec ResourceStep start trace k) :
    Always RidsContiguous trace k ↔ ∀ e ∈ trace, FewSurvivors e.1 e.2 := by
  refine exec_always_iff ?_ (fun _ h => h) ?_ ?_ run
  · simp [RidsContiguous, liveRids, empty.1, empty.2]
  · rintro k ⟨task, call⟩ k' h ⟨-, step⟩ few
    cases call with
    | create category new =>
      obtain ⟨fresh, rfl⟩ := step
      exact resourceCreate_rids (k := { k with curr := task }) h category fresh
    | destroy r =>
      obtain ⟨live, rfl⟩ := step
      cases r with
      | none => exact h
      | some r => exact (resourceDestroy_contiguous_iff h (live r rfl)).mpr few
  · rintro k ⟨task, call⟩ k' h ⟨-, step⟩ many
    cases call with
    | create category new => exact absurd True.intro many
    | destroy r =>
      obtain ⟨live, rfl⟩ := step
      cases r with
      | none => exact absurd True.intro many
      | some r => exact fun ok => many ((resourceDestroy_contiguous_iff h (live r rfl)).mp ok)

def threeCreated : Kernel :=
  (resourceCreate (resourceCreate (resourceCreate initKernel "sem" 10).2 "sem" 11).2 "sem" 12).2

theorem threeCreated_run : ∃ trace, Exec ResourceStep initKernel trace threeCreated ∧
    ∀ e ∈ trace, FewSurvivors e.1 e.2 := by
  have first : ResourceStep initKernel ⟨1, .create "sem" 10⟩
      (resourceCreate initKernel "sem" 10).2 := ⟨by decide, by decide, rfl⟩
  have second : ResourceStep (resourceCreate initKernel "sem" 10).2 ⟨1, .create "sem" 11⟩
      (resourceCreate (resourceCreate initKernel "sem" 10).2 "sem" 11).2 :=
    ⟨by decide, by decide, rfl⟩
  have third : ResourceStep (resourceCreate (resourceCreate initKernel "sem" 10).2 "sem" 11).2
      ⟨1, .create "sem" 12⟩ threeCreated := ⟨by decide, by decide, rfl⟩
  exact ⟨_, ((Exec.refl.next first).next second).next third, by simp [FewSurvivors]⟩

theorem resourceDestroy_merges_rids :
    ∃ trace k, Exec ResourceStep initKernel trace k ∧ liveRids k = [0, 0] ∧
      ¬ RidsContiguous k := by
  obtain ⟨trace, run, -⟩ := threeCreated_run
  have destroyed : ResourceStep threeCreated ⟨1, .destroy (some 10)⟩
      (resourceDestroy threeCreated (some 10)) := by
    refine ⟨by decide, ?_, rfl⟩
    intro a ha
    cases ha
    decide
  exact ⟨_, _, run.next destroyed, by decide, fun h => absurd h.1 (by decide)⟩

theorem ridsContiguous_run_threeCreated :
    ∃ trace, Exec ResourceStep initKernel trace threeCreated ∧
      Always RidsContiguous trace threeCreated := by
  obtain ⟨trace, run, few⟩ := threeCreated_run
  exact ⟨trace, run, (ridsContiguous_run_iff ⟨rfl, rfl⟩ run).mpr few⟩

end Elaborato.Mentos
