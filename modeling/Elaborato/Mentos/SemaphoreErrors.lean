import Elaborato.Mentos.KernelCalls

/-!
Error answers: the range check of smart_sem_kernel.c lets the element past the table through,
and `sem_acquire` (smart_sem_user.c) asks until it has the semaphore.
-/
namespace Elaborato.Mentos

inductive IdCall
  | destroy
  | init
  | tryAcquire (g : Garbage)
  | release

def IdCall.run (prevention : Bool) (k : Kernel) (id : Int) : IdCall → Except Halt (Int × Kernel)
  | .destroy => .ok (sysSemDestroy k id)
  | .init => .ok (sysSemInit k id)
  | .tryAcquire g => sysSemTryAcquire prevention k id g
  | .release => .ok (sysSemRelease k id)

def touched (id : Int) : List Nat := if badId id then [] else [id.toNat]

def Rejects (prevention : Bool) (k : Kernel) (id : Int) (call : IdCall) : Prop :=
  ∃ k', call.run prevention k id = .ok (-1, k') ∧ (∀ i ∈ touched id, i < semMax) ∧
    (∀ i < semMax, k'.semaphores i = k.semaphores i) ∧ k'.resources = k.resources ∧
    k'.rList = k.rList ∧ k'.rActive = k.rActive

/-- What the checks of a call keep out. -/
def IdCall.checks (id : Int) : IdCall → Prop
  | .destroy => badId id = true
  | _ => id ≠ semMax

variable {prevention : Bool} {k k' : Kernel} {id answer : Int} {call : IdCall}

theorem resourceDestroy_semaphores (k : Kernel) (r : Option Addr) :
    (resourceDestroy k r).semaphores = k.semaphores := by
  cases r with
  | none | some r => rfl

theorem resourceInit_semaphores (k : Kernel) (r : Option Addr) :
    (resourceInit k r).semaphores = k.semaphores := by
  cases r with
  | none | some r => rfl

theorem resourceAssign_semaphores (k : Kernel) (r : Option Addr) :
    (resourceAssign k r).semaphores = k.semaphores := by
  cases r with
  | none | some r => rfl

theorem run_untouched (run : call.run prevention k id = .ok (answer, k')) {i : Nat}
    (out : i ∉ touched id) : k'.semaphores i = k.semaphores i := by
  have element : ∀ sem, badId id = false →
      (setSem k id.toNat sem).semaphores i = k.semaphores i := by
    intro sem good
    rw [touched, good] at out
    exact Function.update_of_ne (by simpa using out) _ _
  have init : (sysSemInit k id).2.semaphores i = k.semaphores i := by
    rcases sysSemInit_cases k id with same | ⟨good, -, done⟩
    · rw [same]
    · rw [done, resourceInit_semaphores]
      exact element _ good
  cases call with
  | init | release => exact congrArg (·.2.semaphores i) (Except.ok.inj run) ▸ init
  | tryAcquire g =>
    rcases sysSemTryAcquire_cases run with ⟨-, rfl⟩ | ⟨good, -, ⟨-, -, rfl⟩ | ⟨-, -, rfl⟩⟩
    · rfl
    · rw [resourceAssign_semaphores]
      exact element _ good
    · exact element _ good
  | destroy =>
    have done : (sysSemDestroy k id).2 = k' := congrArg Prod.snd (Except.ok.inj run)
    rw [← done, sysSemDestroy]
    cases good : badId id with
    | true => rfl
    | false =>
      change (resourceDestroy (setSem k id.toNat _) _).semaphores i = _
      rw [resourceDestroy_semaphores]
      exact element _ good

attribute [local simp] Except.map IdCall.run sysSemTryAcquire sysSemDestroy sysSemInit sysSemRelease

theorem sysSemTry_answer (sems : Nat → SmartSem) {id : Nat} (g : Garbage)
    (same : sems id = k.semaphores id) :
    (sysSemTry prevention { k with semaphores := sems } id g).map Prod.fst =
      (sysSemTry prevention k id g).map Prod.fst := by
  have request : semRequest { k with semaphores := sems } id g = semRequest k id g := by
    simp only [semRequest, same]
    rfl
  cases prevention with
  | false => simp [sysSemTry, atomicSetAndTest, same]
  | true =>
    simp only [sysSemTry, request, atomicSetAndTest, same]
    cases semRequest k id g with
    | error halt => rfl
    | ok status =>
      cases status with
      | safe =>
        by_cases free : (k.semaphores id).value = 0 <;> simp [free]
      | wait | waitUnsafe | error => rfl

theorem sysSemTryAcquire_answer (g : Garbage) (good : badId id = false)
    (used : (k.semaphores id.toNat).used = true) :
    (sysSemTryAcquire prevention k id g).map Prod.fst =
      ((sysSemTry prevention k id.toNat g).map Prod.fst).map
        fun taken => if taken then 1 else 0 := by
  simp only [sysSemTryAcquire, good, used]
  cases sysSemTry prevention k id.toNat g with
  | error halt => rfl
  | ok result =>
    obtain ⟨taken, k'⟩ := result
    cases taken with
    | true | false => rfl

theorem run_answer (sems : Nat → SmartSem) (same : ∀ i ∈ touched id, sems i = k.semaphores i) :
    (call.run prevention { k with semaphores := sems } id).map Prod.fst =
      (call.run prevention k id).map Prod.fst := by
  cases good : badId id with
  | true =>
    cases call <;>
      simp [good]
  | false =>
    have here : sems id.toNat = k.semaphores id.toNat := same _ (by simp [touched, good])
    have init : (sysSemInit { k with semaphores := sems } id).1 = (sysSemInit k id).1 := by
      cases used : (k.semaphores id.toNat).used <;> simp [good, here, used]
    cases call with
    | destroy => simp [good]
    | init | release => exact congrArg Except.ok init
    | tryAcquire g =>
      cases used : (k.semaphores id.toNat).used with
      | false => simp [good, here, used]
      | true =>
        have used' : (sems id.toNat).used = true := here ▸ used
        refine (sysSemTryAcquire_answer g good used').trans ?_
        rw [sysSemTry_answer sems g here]
        exact (sysSemTryAcquire_answer g good used).symm

theorem rejects_badId (prevention : Bool) (k : Kernel) (call : IdCall) (bad : badId id = true) :
    Rejects prevention k id call := by
  have inside : ∀ i ∈ touched id, i < semMax := by simp [touched, bad]
  have refused : call.run prevention k id = .ok (-1, k) := by
    cases call <;>
      simp [bad]
  exact ⟨k, refused, inside, fun _ _ => rfl, rfl, rfl, rfl⟩

theorem rejects_unused (prevention : Bool) (other : call ≠ .destroy)
    (inTable : id.toNat < semMax) (unused : (k.semaphores id.toNat).used = false) :
    Rejects prevention k id call := by
  have inside : ∀ i ∈ touched id, i < semMax := by
    intro i mem
    rw [touched] at mem
    split at mem
    · cases mem
    · rwa [List.mem_singleton.mp mem]
  have refused : call.run prevention k id = .ok (-1, k) := by
    cases call with
    | destroy => exact absurd rfl other
    | init | tryAcquire g | release =>
      simp [unused]
  exact ⟨k, refused, inside, fun _ _ => rfl, rfl, rfl, rfl⟩

theorem not_rejects_semMax : ¬ Rejects prevention k semMax call := by
  rintro ⟨k', -, inside, -⟩
  exact absurd (inside semMax (by decide)) (by decide)

/-- An identifier of no semaphore is refused exactly where the checks of the call see it. -/
theorem rejects_iff (prevention : Bool) (call : IdCall) (unknown : ¬ ValidId k id) :
    Rejects prevention k id call ↔ call.checks id := by
  cases bad : badId id with
  | true =>
    have other : id ≠ semMax := by
      rintro rfl
      cases bad
    refine iff_of_true (rejects_badId prevention k call bad) ?_
    cases call with
    | destroy => exact bad
    | init | tryAcquire g | release => exact other
  | false =>
    have range := bad
    simp only [badId, Bool.or_eq_false_iff, decide_eq_false_iff_not] at range
    by_cases past : id = semMax
    · subst past
      refine iff_of_false not_rejects_semMax ?_
      cases call with
      | destroy => simp [IdCall.checks, badId, semMax]
      | init | tryAcquire g | release => exact fun checked => checked rfl
    · cases call with
      | destroy =>
        refine iff_of_false ?_ (by simp [IdCall.checks, bad])
        rintro ⟨k', run, -⟩
        simp [bad] at run
      | init | tryAcquire g | release =>
        have unused : (k.semaphores id.toNat).used = false := by
          simpa using fun used => unknown ⟨by omega, by omega, used⟩
        exact iff_of_true (rejects_unused prevention (by simp) (by omega) unused) past

theorem rejects_iff_boot : ¬ ValidId initKernel 0 ∧
    (Rejects true initKernel 0 .init ↔ IdCall.init.checks 0) := by
  have unknown : ¬ ValidId initKernel 0 := by
    rintro ⟨-, -, used⟩
    cases used
  exact ⟨unknown, rejects_iff true .init unknown⟩

theorem not_rejects_destroyed : ∃ k₁ k₂ k₃,
    runCall true initKernel ⟨1, .semCreate 100⟩ = .ok (0, k₁) ∧
    runCall true k₁ ⟨1, .semCreate 200⟩ = .ok (1, k₂) ∧
    runCall true k₂ ⟨1, .semDestroy 0⟩ = .ok (0, k₃) ∧
    ¬ ValidId k₃ 0 ∧ k₃.rList = [200] ∧ k₃.rActive = 1 ∧ (sysSemDestroy k₃ 0).1 = 0 ∧
    (sysSemDestroy k₃ 0).2.rList = [200] ∧ (sysSemDestroy k₃ 0).2.rActive = 0 ∧
    ¬ Rejects true k₃ 0 .destroy := by
  refine ⟨_, _, _, rfl, rfl, rfl, ?_, by decide, by decide, by decide, by decide, by decide, ?_⟩
  · rintro ⟨-, -, used⟩
    cases used
  · rintro ⟨k', run, -⟩
    cases run

def acquireLoop (answers : Nat → Int) : Nat → Nat → Option (Nat × Int)
  | 0, _ => none
  | fuel + 1, calls =>
    let retval := answers calls
    if retval ≠ 1 then acquireLoop answers fuel (calls + 1) else some (calls + 1, retval)

def semReturn (errno retval : Int) : Int × Int :=
  if retval < 0 then (-1, -retval) else (0, errno)

def semAcquire (answers : Nat → Int) (errno : Int) (fuel : Nat) : Option (Nat × Int × Int) := do
  let (calls, retval) ← acquireLoop answers fuel 0
  some (calls, semReturn errno retval)

def IsAnswer (r : Int) : Prop := r = 0 ∨ r = 1 ∨ r < 0

def Reports (answers : Nat → Int) (errno : Int) : Prop :=
  ∀ n, (∀ i < n, answers i = 0) → answers n ≠ 0 → ∃ fuel,
    semAcquire answers errno fuel =
      some (n + 1, if answers n = 1 then (0, errno) else (-1, -answers n))

variable {answers : Nat → Int} {errno : Int} {fuel n : Nat}

theorem acquireLoop_first (before : ∀ i < n, answers i ≠ 1) (here : answers n = 1) {calls : Nat}
    (enough : n < calls + fuel) (started : calls ≤ n) :
    acquireLoop answers fuel calls = some (n + 1, 1) := by
  induction fuel generalizing calls with
  | zero => omega
  | succ fuel ih =>
    rw [acquireLoop]
    by_cases now : calls = n
    · subst now
      simp [here]
    · have other : answers calls ≠ 1 := before calls (by omega)
      simp only [other, ne_eq, not_false_eq_true, if_true]
      exact ih (by omega) (by omega)

theorem acquireLoop_some {calls made : Nat} {retval : Int}
    (ended : acquireLoop answers fuel calls = some (made, retval)) :
    retval = 1 ∧ ∃ i, answers i = 1 := by
  induction fuel generalizing calls with
  | zero => cases ended
  | succ fuel ih =>
    rw [acquireLoop] at ended
    by_cases again : answers calls = 1
    · simp only [again, ne_eq, not_true_eq_false, if_false] at ended
      cases ended
      exact ⟨rfl, calls, again⟩
    · simp only [again, ne_eq, not_false_eq_true, if_true] at ended
      exact ih ended

theorem semAcquire_some {calls : Nat} {result : Int × Int}
    (ended : semAcquire answers errno fuel = some (calls, result)) :
    result = (0, errno) ∧ ∃ i, answers i = 1 := by
  obtain ⟨⟨made, retval⟩, loop, same⟩ := Option.bind_eq_some_iff.mp ended
  obtain ⟨rfl, acquired⟩ := acquireLoop_some loop
  cases same
  exact ⟨rfl, acquired⟩

/-- Reported exactly when no error comes before the semaphore is acquired. -/
theorem reports_iff (isAnswer : ∀ n, IsAnswer (answers n)) :
    Reports answers errno ↔ ∀ n, (∀ i < n, answers i = 0) → 0 ≤ answers n := by
  constructor
  · intro reports n before
    by_contra error
    obtain ⟨fuel, ended⟩ := reports n before (by omega)
    have other : answers n ≠ 1 := by omega
    rw [if_neg other] at ended
    cases (semAcquire_some ended).1
  · intro good n before other
    have one : answers n = 1 := by
      have notError := good n before
      rcases isAnswer n with zero | one | error
      · exact absurd zero other
      · exact one
      · omega
    have earlier : ∀ i < n, answers i ≠ 1 := fun i hi => by
      rw [before i hi]
      decide
    refine ⟨n + 1, ?_⟩
    rw [semAcquire, acquireLoop_first earlier one (by omega) (Nat.zero_le n), if_pos one]
    rfl

theorem reports_iff_acquired :
    Reports (fun n => if n < 2 then 0 else 1) 0 ↔
      ∀ n, (∀ i < n, (if i < 2 then (0 : Int) else 1) = 0) → 0 ≤ if n < 2 then (0 : Int) else 1 :=
  reports_iff fun n => by
    by_cases early : n < 2 <;> simp [IsAnswer, early]

theorem semAcquire_refused : sysSemTryAcquire true initKernel 0 zeroGarbage = .ok (-1, initKernel) ∧
    (∀ fuel, semAcquire (fun _ => -1) 0 fuel = none) ∧ ¬ Reports (fun _ => -1) 0 := by
  have never : ∀ fuel, semAcquire (fun _ => -1) 0 fuel = none := by
    intro fuel
    cases ended : semAcquire (fun _ => -1) 0 fuel with
    | none => rfl
    | some result =>
      obtain ⟨-, i, acquired⟩ := semAcquire_some ended
      cases acquired
  refine ⟨rfl, never, fun reports => ?_⟩
  obtain ⟨fuel, ended⟩ := reports 0 (by simp) (by decide)
  rw [never] at ended
  cases ended

end Elaborato.Mentos
