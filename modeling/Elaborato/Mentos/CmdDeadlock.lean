import Elaborato.Mentos.SemaphoreExclusion

/-!
The two tasks that `cmd_deadlock` starts (cmd_deadlock.c). Both take the two semaphores, in
opposite orders, exchange `r1` and `r2` and count. A step of a task makes at most one system call
or reads or writes at most one of the shared variables. The other tasks of the system may call
anything between two steps, but give neither semaphore back.
-/
namespace Elaborato.Mentos.CmdDeadlock
open Foundation List Function

/-- The next statement of a task. -/
inductive Pc
  | test
  | acquireFirst
  | acquireSecond
  | save
  | load
  | copy
  | store
  | read
  | count
  | releaseSecond
  | releaseFirst
  | done
  deriving DecidableEq

structure Task where
  pc : Pc
  i : Nat
  tmp : UInt32
  reg : UInt32

/-- The variables, where `r1` and `_deadlock_task1` are at `false`. -/
structure Vars where
  r : Bool → UInt32
  task : Bool → Task

variable (prevention : Bool) (mutex : Bool → Int) (addr : Bool → Addr) (iter : Bool → Nat)

/-- The system call that a statement makes; `sem_acquire` calls until it has the semaphore. -/
def call (b : Bool) (g : Garbage) : Pc → Option SysCall
  | .acquireFirst => some (.semTryAcquire (mutex b) g)
  | .acquireSecond => some (.semTryAcquire (mutex !b) g)
  | .releaseSecond => some (.semRelease (mutex !b))
  | .releaseFirst => some (.semRelease (mutex b))
  | _ => none

def nextTask (r : Bool → UInt32) (b : Bool) (answer : Int) (t : Task) : Task :=
  match t.pc with
  | .test => { t with pc := if t.i < iter b then .acquireFirst else .done }
  | .acquireFirst => { t with pc := if answer = 1 then .acquireSecond else .acquireFirst }
  | .acquireSecond => { t with pc := if answer = 1 then .save else .acquireSecond }
  | .save => { t with pc := .load, tmp := r b }
  | .load => { t with pc := .copy, reg := r !b }
  | .copy => { t with pc := .store }
  | .store => { t with pc := .read }
  | .read => { t with pc := .count, reg := r b }
  | .count => { t with pc := .releaseSecond }
  | .releaseSecond => { t with pc := .releaseFirst }
  | .releaseFirst => { t with pc := .test, i := t.i + 1 }
  | .done => t

def nextShared (r : Bool → UInt32) (b : Bool) (t : Task) : Bool → UInt32 :=
  match t.pc with
  | .copy => update r b t.reg
  | .store => update r (!b) t.tmp
  | .count => update r b (t.reg + 1)
  | _ => r

/-- A statement of `_deadlock_task1`, or of `_deadlock_task2`, after the answer of its call. -/
def deadlockTask (u : Vars) (b : Bool) (answer : Int) : Vars :=
  ⟨nextShared u.r b (u.task b), update u.task b (nextTask iter u.r b answer (u.task b))⟩

inductive Act
  | task (b : Bool)
  | other (e : Event)

inductive Move (s : Kernel × Vars) : Act → Kernel × Vars → Prop
  | quiet (b : Bool) (g : Garbage) (quiet : call mutex b g (s.2.task b).pc = none) :
      Move s (.task b) (s.1, deadlockTask iter s.2 b 0)
  | system (b : Bool) (g : Garbage) {made : SysCall} {answer : Int} {k : Kernel}
      (called : call mutex b g (s.2.task b).pc = some made) (allowed : Allowed s.1 ⟨addr b, made⟩)
      (run : runCall prevention s.1 ⟨addr b, made⟩ = .ok (answer, k)) :
      Move s (.task b) (k, deadlockTask iter s.2 b answer)
  | other {e : Event} {k : Kernel} (step : Step prevention s.1 e k)
      (kept : ∀ x, ¬ (e.call = .semInit (mutex x) ∨ e.call = .semRelease (mutex x))) :
      Move s (.other e) (k, s.2)

/-- The semaphores that a task has. -/
def owns (b x : Bool) : Pc → Bool
  | .test | .acquireFirst | .done => false
  | .acquireSecond | .releaseFirst => x == b
  | _ => true

structure Exclusive (s : Kernel × Vars) : Prop where
  taken : ∀ b x, owns b x (s.2.task b).pc = true → Taken (mutex x) s.1
  once : ∀ b x, owns b x (s.2.task b).pc = true → owns (!b) x (s.2.task !b).pc = false

/-- The sum of the shared variables, as the task that exchanges them has it. -/
def Sum (r : Bool → UInt32) (b : Bool) (t : Task) (c : UInt32) : Prop :=
  match t.pc with
  | .load => t.tmp = r b ∧ r b + r (!b) = c
  | .copy => t.tmp = r b ∧ t.reg = r (!b) ∧ r b + r (!b) = c
  | .store => r b = r (!b) ∧ t.tmp + r (!b) = c
  | .count => t.reg = r b ∧ r b + r (!b) = c
  | _ => r b + r (!b) = c

def Task.counted (t : Task) : Nat :=
  match t.pc with
  | .releaseSecond | .releaseFirst => t.i + 1
  | _ => t.i

/-- A task outside has not both semaphores. -/
def Outside (b : Bool) (t : Task) : Prop := owns b (!b) t.pc = false

structure Counts (c : UInt32) (u : Vars) (b : Bool) : Prop where
  outside : Outside (!b) (u.task !b)
  sum : Sum u.r b (u.task b) (c + UInt32.ofNat ((u.task b).counted + (u.task !b).counted))

variable {prevention mutex addr iter} {s s' : Kernel × Vars} {u : Vars} {a : Act} {b x : Bool}
  {g : Garbage} {answer : Int} {c : UInt32} {t : Task} {r : Bool → UInt32}

theorem owns_quiet (quiet : call mutex b g t.pc = none) :
    owns b x (nextTask iter r b answer t).pc = owns b x t.pc := by
  rcases t with ⟨pc, i, tmp, reg⟩
  cases pc with
  | test =>
    simp only [nextTask]
    split <;> rfl
  | acquireFirst | acquireSecond | releaseFirst | releaseSecond => cases quiet
  | _ => rfl

theorem owns_call {made : SysCall} (called : call mutex b g t.pc = some made) : ∃ x,
    (made = .semTryAcquire (mutex x) g ∧ ∀ y, owns b y (nextTask iter r b answer t).pc = true ↔
      owns b y t.pc = true ∨ answer = 1 ∧ y = x) ∨
    (made = .semRelease (mutex x) ∧ owns b x t.pc = true ∧
      ∀ y, owns b y (nextTask iter r b answer t).pc = true ↔ owns b y t.pc = true ∧ y ≠ x) := by
  rcases t with ⟨pc, i, tmp, reg⟩
  cases pc with
  | acquireFirst =>
    cases called
    exact ⟨b, .inl ⟨rfl, fun y => by by_cases one : answer = 1 <;> simp [nextTask, owns, one]⟩⟩
  | acquireSecond =>
    cases called
    refine ⟨!b, .inl ⟨rfl, fun y => ?_⟩⟩
    by_cases one : answer = 1 <;> cases y <;> cases b <;> simp [nextTask, owns, one]
  | releaseFirst =>
    cases called
    exact ⟨b, .inr ⟨rfl, by simp [owns], fun y => by simp [nextTask, owns]⟩⟩
  | releaseSecond =>
    cases called
    exact ⟨!b, .inr ⟨rfl, rfl, fun y => by cases y <;> cases b <;> simp [nextTask, owns]⟩⟩
  | _ => cases called

theorem next_here : (deadlockTask iter u b answer).task b = nextTask iter u.r b answer (u.task b) :=
  update_self ..

theorem next_there : (deadlockTask iter u b answer).task (!b) = u.task !b :=
  update_of_ne (by simp) ..

theorem exclusive_next {k : Kernel}
    (mine : ∀ x, owns b x (nextTask iter u.r b answer (u.task b)).pc = true →
      Taken (mutex x) k ∧ owns (!b) x (u.task !b).pc = false)
    (theirs : ∀ x, owns (!b) x (u.task !b).pc = true → Taken (mutex x) k) :
    Exclusive mutex (k, deadlockTask iter u b answer) := by
  constructor
  · intro b' x own
    rcases Bool.eq_or_eq_not b' b with rfl | rfl
    · rw [next_here] at own
      exact (mine x own).1
    · rw [next_there] at own
      exact theirs x own
  · intro b' x own
    rcases Bool.eq_or_eq_not b' b with rfl | rfl
    · rw [next_here] at own
      rw [next_there]
      exact (mine x own).2
    · rw [next_there] at own
      rw [Bool.not_not, next_here]
      by_contra both
      rw [(mine x (Bool.not_eq_false _ ▸ both)).2] at own
      cases own

theorem Exclusive.step (apart : Injective mutex) (exclusive : Exclusive mutex s)
    (move : Move prevention mutex addr iter s a s') : Exclusive mutex s' := by
  obtain ⟨taken, once⟩ := exclusive
  cases move with
  | other step kept => exact ⟨fun b x own => (taken b x own).step step (kept x), once⟩
  | quiet b _ quiet =>
    refine exclusive_next (fun x own => ?_) (taken !b)
    rw [owns_quiet quiet] at own
    exact ⟨taken b x own, once b x own⟩
  | @system b _ made answer k called allowed run =>
    have step : Step prevention s.1 ⟨addr b, made⟩ k := ⟨allowed, answer, run⟩
    obtain ⟨x, ⟨rfl, iff⟩ | ⟨rfl, mine, iff⟩⟩ := owns_call called
    · have kept : ∀ y, Taken (mutex y) s.1 → Taken (mutex y) k :=
        fun y taken => taken.step step (by simp)
      refine exclusive_next (fun y own => ?_) fun y own => kept y (taken (!b) y own)
      rcases (iff y).mp own with own | ⟨rfl, rfl⟩
      · exact ⟨kept y (taken b y own), once b y own⟩
      · obtain ⟨free, now⟩ := taken_of_acquire run
        exact ⟨now, by simpa using fun own => free (taken (!b) y own)⟩
    · have kept : ∀ y, y ≠ x → Taken (mutex y) s.1 → Taken (mutex y) k :=
        fun y other taken => taken.step step (by simpa using fun same => other (apart same).symm)
      refine exclusive_next (fun y own => ?_) fun y own => kept y ?_ (taken (!b) y own)
      · obtain ⟨own, other⟩ := (iff y).mp own
        exact ⟨kept y other (taken b y own), once b y own⟩
      · rintro rfl
        rw [once b y mine] at own
        cases own

theorem Sum.next {n : Nat} (sum : Sum r b t (c + UInt32.ofNat (t.counted + n))) :
    Sum (nextShared r b t) b (nextTask iter r b answer t)
      (c + UInt32.ofNat ((nextTask iter r b answer t).counted + n)) := by
  rcases t with ⟨pc, i, tmp, reg⟩
  cases pc with
  | test | acquireFirst | acquireSecond =>
    simp only [nextTask]
    split <;> exact sum
  | save | read => exact ⟨rfl, sum⟩
  | load => exact ⟨sum.1, rfl, sum.2⟩
  | copy =>
    obtain ⟨rfl, rfl, sum⟩ := sum
    simpa [Sum, nextShared, nextTask, Task.counted] using sum
  | store =>
    obtain ⟨equal, sum⟩ := sum
    rw [UInt32.add_comm] at sum
    simpa [Sum, nextShared, nextTask, Task.counted, equal] using sum
  | count =>
    obtain ⟨rfl, sum⟩ := sum
    have one : ∀ a x : UInt32, a + 1 + x = a + x + 1 := fun a x => by
      rw [UInt32.add_assoc, UInt32.add_comm 1, UInt32.add_assoc]
    simp only [Sum, nextShared, nextTask, Task.counted, update_self]
    rw [update_of_ne (by simp), one, sum, Nat.add_right_comm, UInt32.ofNat_add _ 1,
      ← UInt32.add_assoc]
    rfl
  | releaseSecond | releaseFirst | done => exact sum

theorem sum_outside (out : Outside b t) : Sum r b t c ↔ r b + r (!b) = c := by
  rcases t with ⟨pc, i, tmp, reg⟩
  cases pc with
  | load | copy | store | count => cases out
  | _ => rfl

theorem next_outside (out : Outside b t) :
    nextShared r b t = r ∧ (nextTask iter r b answer t).counted = t.counted ∧
      (Sum r b (nextTask iter r b answer t) c ↔ r b + r (!b) = c) := by
  rcases t with ⟨pc, i, tmp, reg⟩
  cases pc with
  | test | acquireFirst | acquireSecond =>
    simp only [nextTask]
    split <;> exact ⟨rfl, rfl, Iff.rfl⟩
  | releaseFirst | done => exact ⟨rfl, rfl, Iff.rfl⟩
  | _ => cases out

theorem owns_first {pc : Pc} (both : owns b (!b) pc = true) : owns b b pc = true := by
  cases pc with
  | acquireSecond | releaseFirst => simp [owns] at both
  | _ => exact both

theorem Counts.mine (counts : Counts c u b) : Counts c (deadlockTask iter u b answer) b := by
  refine ⟨by simpa only [next_there] using counts.outside, ?_⟩
  rw [next_here, next_there]
  exact counts.sum.next

theorem Counts.theirs (counts : Counts c u (!b))
    (once : owns b b (nextTask iter u.r b answer (u.task b)).pc = true →
      owns (!b) b (u.task !b).pc = false) : ∃ b', Counts c (deadlockTask iter u b answer) b' := by
  obtain ⟨out, sum⟩ := counts
  rw [Bool.not_not] at out sum
  obtain ⟨shared, same, plain⟩ := next_outside out
  have shared : (deadlockTask iter u b answer).r = u.r := shared
  by_cases still : Outside b (nextTask iter u.r b answer (u.task b))
  · refine ⟨!b, by rwa [Bool.not_not, next_here], ?_⟩
    rwa [Bool.not_not, next_here, next_there, same, shared]
  · have away : Outside (!b) (u.task !b) := by
      rw [Outside, Bool.not_not]
      exact once (owns_first (Bool.not_eq_false _ ▸ still))
    refine ⟨b, by rwa [next_there], ?_⟩
    rw [sum_outside away, Bool.not_not, UInt32.add_comm, Nat.add_comm] at sum
    rw [next_here, next_there, same, shared]
    exact plain.mpr sum

variable (mutex) in
structure Inv (c : UInt32) (s : Kernel × Vars) : Prop where
  exclusive : Exclusive mutex s
  counts : ∃ b, Counts c s.2 b

theorem Inv.step (apart : Injective mutex) (inv : Inv mutex c s)
    (move : Move prevention mutex addr iter s a s') : Inv mutex c s' := by
  have after := inv.exclusive.step apart move
  refine ⟨after, ?_⟩
  obtain ⟨b, counts⟩ := inv.counts
  have next : ∀ b' answer, s'.2 = deadlockTask iter s.2 b' answer → ∃ b, Counts c s'.2 b := by
    intro b' answer same
    rw [same]
    rcases Bool.eq_or_eq_not b b' with rfl | rfl
    · exact ⟨_, counts.mine⟩
    · have once := after.once b' b'
      rw [same, next_here, next_there] at once
      exact counts.theirs once
  cases move with
  | other step kept => exact ⟨b, counts⟩
  | quiet | system => exact next _ _ rfl

theorem inv_start (started : ∀ b, (s.2.task b).pc = .test ∧ (s.2.task b).i = 0) :
    Inv mutex (s.2.r false + s.2.r true) s := by
  have none : ∀ b x, owns b x (s.2.task b).pc = false := fun b x => by rw [(started b).1]; rfl
  refine ⟨⟨fun b x own => ?_, fun b x _ => none (!b) x⟩, false, none true false, ?_⟩
  · rw [none] at own
    cases own
  · rw [sum_outside (none false true)]
    simp [Task.counted, started]

/-- A semaphore has one owner at most, and while neither task has one no count is lost. -/
theorem counts_kept (apart : Injective mutex) {trace : List ((Kernel × Vars) × Act)}
    (started : ∀ b, (s.2.task b).pc = .test ∧ (s.2.task b).i = 0)
    (run : Exec (Move prevention mutex addr iter) s trace s') :
    (∀ x, ¬ (owns false x (s'.2.task false).pc = true ∧ owns true x (s'.2.task true).pc = true)) ∧
    ((∀ b x, owns b x (s'.2.task b).pc = false) → s'.2.r false + s'.2.r true =
      s.2.r false + s.2.r true + UInt32.ofNat ((s'.2.task false).i + (s'.2.task true).i)) := by
  obtain ⟨-, exclusive, b, out, sum⟩ :=
    exec_keeps (inv_start started) (fun _ _ _ inv move => inv.step apart move) run
  refine ⟨fun x both => ?_, fun none => ?_⟩
  · exact Bool.false_ne_true ((exclusive.once false x both.1).symm.trans both.2)
  · have all : ∀ b, (s'.2.task b).counted = (s'.2.task b).i := by
      intro b
      have free := none b b
      cases here : (s'.2.task b).pc <;> simp_all [owns, Task.counted]
    rw [sum_outside (none b !b), all, all] at sum
    cases b with
    | false => exact sum
    | true =>
      rw [UInt32.add_comm, Nat.add_comm]
      exact sum

/-- The kernel with the two semaphores and the tasks at 1 and 2. -/
def twoMutexes : Kernel :=
  (sysVfork (sysSemCreate (sysSemCreate initKernel 10).2 11).2 2).2

def startVars : Vars := ⟨fun _ => 0, fun _ => ⟨.test, 0, 0, 0⟩⟩

def mutexIds (x : Bool) : Int := if x then 1 else 0

def taskAddrs (b : Bool) : Addr := if b then 2 else 1

theorem mutexIds_injective : Injective mutexIds := by
  decide

theorem counts_kept_once : ∃ trace s,
    Exec (Move true mutexIds taskAddrs fun _ => 1) (twoMutexes, startVars) trace s ∧
      s.2.r false + s.2.r true = 0 + 0 + UInt32.ofNat (1 + 0) := by
  have start : Exec (Move true mutexIds taskAddrs fun _ => 1) (twoMutexes, startVars) []
    (twoMutexes, startVars) := .refl
  have run := ((start.next (.quiet false zeroGarbage rfl)).next
    (.system false zeroGarbage rfl ⟨by decide, by decide⟩ rfl)).next
    (.system false zeroGarbage rfl ⟨by decide, by decide⟩ rfl)
  have run := (((((run.next (.quiet false zeroGarbage rfl)).next
    (.quiet false zeroGarbage rfl)).next (.quiet false zeroGarbage rfl)).next
    (.quiet false zeroGarbage rfl)).next (.quiet false zeroGarbage rfl)).next
    (.quiet false zeroGarbage rfl)
  have run := (run.next (.system false zeroGarbage rfl ⟨by decide, by decide⟩ rfl)).next
    (.system false zeroGarbage rfl ⟨by decide, by decide⟩ rfl)
  refine ⟨_, _, run, (counts_kept mutexIds_injective (fun _ => ⟨rfl, rfl⟩) run).2 fun b x => ?_⟩
  cases b with
  | false | true => rfl

structure Stuck (mutex : Bool → Int) (u : Vars) (s : Kernel × Vars) : Prop where
  exclusive : Exclusive mutex s
  same : s.2 = u

theorem Stuck.step (apart : Injective mutex) (held : ∀ b, (u.task b).pc = .acquireSecond)
    (stuck : Stuck mutex u s) (move : Move prevention mutex addr iter s a s') :
    Stuck mutex u s' := by
  refine ⟨stuck.exclusive.step apart move, ?_⟩
  obtain ⟨exclusive, rfl⟩ := stuck
  cases move with
  | other => rfl
  | quiet b _ quiet => cases (held b ▸ quiet :)
  | @system b _ made answer k called allowed run =>
    rw [held b] at called
    cases called
    have taken := exclusive.taken (!b) (!b) (by simp [held, owns])
    have refused : answer ≠ 1 := by
      rintro rfl
      exact (taken_of_acquire run).1 taken
    have waits : nextTask iter s.2.r b answer (s.2.task b) = s.2.task b := by
      have here := held b
      generalize s.2.task b = t at here
      rcases t with ⟨pc, i, tmp, reg⟩
      cases here
      simp [nextTask, refused]
    simp only [deadlockTask, waits, update_eq_self, nextShared, held b]

/-- Once each task has its first semaphore, neither gets any further. -/
theorem deadlock_stays (apart : Injective mutex) {before after : List ((Kernel × Vars) × Act)}
    (started : ∀ b, (s.2.task b).pc = .test ∧ (s.2.task b).i = 0)
    (run : Exec (Move prevention mutex addr iter) s before s')
    (held : ∀ b, (s'.2.task b).pc = .acquireSecond) {s'' : Kernel × Vars}
    (later : Exec (Move prevention mutex addr iter) s' after s'') : s''.2 = s'.2 := by
  obtain ⟨-, inv⟩ := exec_keeps (inv_start started) (fun _ _ _ inv move => inv.step apart move) run
  have stuck : Stuck mutex s'.2 s' := ⟨inv.exclusive, rfl⟩
  exact (exec_keeps stuck (fun _ _ _ stuck move => stuck.step apart held move) later).2.same

theorem deadlock_stays_reached : ∃ before s,
    Exec (Move false mutexIds taskAddrs fun _ => 1) (twoMutexes, startVars) before s ∧
      ∀ after s', Exec (Move false mutexIds taskAddrs fun _ => 1) s after s' → s'.2 = s.2 := by
  have start : Exec (Move false mutexIds taskAddrs fun _ => 1) (twoMutexes, startVars) []
    (twoMutexes, startVars) := .refl
  have run := (((start.next (.quiet false zeroGarbage rfl)).next (.quiet true zeroGarbage rfl)).next
    (.system false zeroGarbage rfl ⟨by decide, by decide⟩ rfl)).next
    (.system true zeroGarbage rfl ⟨by decide, by decide⟩ rfl)
  refine ⟨_, _, run, fun _ _ => deadlock_stays mutexIds_injective (fun _ => ⟨rfl, rfl⟩) run
    fun b => ?_⟩
  cases b with
  | false | true => rfl

end Elaborato.Mentos.CmdDeadlock
