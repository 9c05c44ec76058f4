import Elaborato.Mentos.ProcessLinks

/-!
What the system calls write, and the task structures they leave as they were.
-/
namespace Elaborato.Mentos.Process
open Foundation List Function

variable {m m' : ByteMem} {t : Addr} {x : Nat} {r r' : Reg} {v : UInt32}

theorem Reg.offset_lt (r : Reg) : r.offset + 4 ≤ 56 := by
  cases r <;> decide

theorem Reg.offset_apart (other : r' ≠ r) :
    r'.offset + 4 ≤ r.offset ∨ r.offset + 4 ≤ r'.offset := by
  cases r <;> cases r' <;> first | exact absurd rfl other | decide

theorem setReg_outside (out : ¬ InTask t x) : setReg m t r v x = m x := by
  have fits := r.offset_lt
  refine writeWord_outside ?_
  simp only [InTask, taskSize, threadWord] at out ⊢
  omega

theorem getReg_congr (same : ∀ x, InTask t x → m' x = m x) : getReg m' t r = getReg m t r := by
  have fits := r.offset_lt
  rw [getReg, getReg, readWord_congr fun i hi => same _ ?_]
  simp only [InTask, taskSize, threadWord]
  omega

theorem getReg_toNat (m : ByteMem) (t : Addr) (r : Reg) :
    (getReg m t r).toNat = readWord m (threadWord t r) :=
  UInt32.toNat_ofNat_of_lt' (readWord_lt m _)

theorem getReg_setReg (m : ByteMem) (t : Addr) (r : Reg) (v : UInt32) :
    getReg (setReg m t r v) t = update (getReg m t) r v := by
  funext r'
  by_cases same : r' = r
  · rw [same, update_self, getReg, setReg, readWord_writeWord v.toNat_lt, UInt32.ofNat_toNat]
  · have apart := Reg.offset_apart same
    rw [update_of_ne same, getReg, setReg, readWord_writeWord_apart, getReg]
    simp only [threadWord]
    omega

variable {m'' : ByteMem} {sp n k : Nat}

def Room (sp n : Nat) (m : ByteMem) : Prop :=
  n ≤ readWord m sp ∧ (sp + 4 ≤ readWord m sp - n ∨ readWord m sp ≤ sp)

structure Pushed (sp n : Nat) (m m' : ByteMem) : Prop where
  pointer : readWord m' sp = readWord m sp - n
  frame : ∀ x, x < sp ∨ sp + 4 ≤ x → x < readWord m sp - n ∨ readWord m sp ≤ x → m' x = m x

theorem Room.first (room : Room sp (n + k) m) : Room sp n m := by
  unfold Room at room ⊢
  omega

theorem Room.rest (room : Room sp (n + k) m) (pushed : Pushed sp n m m') : Room sp k m' := by
  unfold Room at room ⊢
  rw [pushed.pointer]
  omega

theorem Pushed.refl (sp : Nat) (m : ByteMem) : Pushed sp 0 m m := ⟨rfl, fun _ _ _ => rfl⟩

theorem Pushed.trans (first : Pushed sp n m m') (second : Pushed sp k m' m'') :
    Pushed sp (n + k) m m'' := by
  refine ⟨?_, fun x out apart => ?_⟩
  · rw [second.pointer, first.pointer, Nat.sub_sub]
  · have later := second.frame x out (by rw [first.pointer]; omega)
    exact later.trans (first.frame x out (by omega))

theorem pushWord_pushed (item : Nat) (room : Room sp 4 m) : Pushed sp 4 m (pushWord m sp item) := by
  have small := readWord_lt m sp
  obtain ⟨enough, apart⟩ := room
  have esp : (readWord m sp + 2 ^ 32 - 4) % 2 ^ 32 = readWord m sp - 4 := by omega
  refine ⟨?_, fun x out away => ?_⟩
  · rw [pushWord, esp, readWord_writeWord_apart (by omega), readWord_writeWord (by omega)]
  · rw [pushWord, esp, writeWord_outside (by omega), writeWord_outside out]

theorem pushByte_pushed (item : UInt8) (room : Room sp 1 m) :
    Pushed sp 1 m (pushByte m sp item) := by
  have small := readWord_lt m sp
  obtain ⟨enough, apart⟩ := room
  have esp : (readWord m sp + 2 ^ 32 - 1) % 2 ^ 32 = readWord m sp - 1 := by omega
  refine ⟨?_, fun x out away => ?_⟩
  · rw [pushByte, esp, readWord_congr (m := writeWord m sp (readWord m sp - 1)),
      readWord_writeWord (by omega)]
    intro i hi
    exact update_of_ne (by omega) _ _
  · rw [pushByte, esp, update_of_ne (by omega), writeWord_outside out]

theorem pushBytes_pushed (args i j : Nat) (room : Room sp (j + 1) m) :
    Pushed sp (j + 1) m (pushBytes sp args i m j) := by
  induction j generalizing m with
  | zero => exact pushByte_pushed _ room
  | succ j ih =>
    rw [Nat.add_comm] at room ⊢
    have first := pushByte_pushed (m (readWord m (args + 4 * i) + (j + 1))) room.first
    exact first.trans (ih (room.rest first))

variable {fuel args : Nat}

theorem pushStrings_pushed {i : Nat} {ptrs ptrs' : List Nat}
    (done : pushStrings fuel sp args i (m, ptrs) = some (m', ptrs'))
    (room : Room sp (stringsSize fuel sp args i m) m) :
    Pushed sp (stringsSize fuel sp args i m) m m' ∧ ptrs'.length = ptrs.length + i := by
  induction i generalizing m ptrs with
  | zero =>
    obtain ⟨rfl, rfl⟩ := Prod.mk.inj (Option.some.inj done)
    exact ⟨.refl sp m, rfl⟩
  | succ i ih =>
    obtain ⟨length, counted, rest⟩ := Option.bind_eq_some_iff.mp done
    have size : stringsSize fuel sp args (i + 1) m =
        length + 1 + stringsSize fuel sp args i (pushBytes sp args i m length) := by
      rw [stringsSize, counted]
    rw [size] at room ⊢
    have first := pushBytes_pushed args i length room.first
    obtain ⟨later, count⟩ := ih rest (room.rest first)
    refine ⟨first.trans later, ?_⟩
    rw [count, length_cons]
    omega

theorem pushWords_pushed (items : List Nat) (room : Room sp (4 * items.length) m) :
    Pushed sp (4 * items.length) m (items.foldl (pushWord · sp ·) m) := by
  induction items generalizing m with
  | nil => exact .refl sp m
  | cons item items ih =>
    rw [length_cons, Nat.mul_succ, Nat.add_comm] at room ⊢
    have first := pushWord_pushed item room.first
    rw [foldl_cons]
    exact first.trans (ih (room.rest first))

theorem pushArgs_pushed {argc ptr : Nat}
    (done : pushArgsOnStack fuel m sp args = some (m', argc, ptr))
    (room : Room sp (argsSize fuel m sp args) m) : Pushed sp (argsSize fuel m sp args) m m' := by
  obtain ⟨count, counted, rest⟩ := Option.bind_eq_some_iff.mp done
  obtain ⟨⟨m₁, ptrs⟩, strings, same⟩ := Option.map_eq_some_iff.mp rest
  obtain ⟨rfl, -⟩ := Prod.mk.inj same
  have size : argsSize fuel m sp args =
      4 + stringsSize fuel sp args count (pushWord m sp 0) + (4 + 4 * count) := by
    rw [argsSize, counted]
  rw [size] at room ⊢
  have first := pushWord_pushed 0 room.first.first
  obtain ⟨second, length⟩ := pushStrings_pushed strings (room.first.rest first)
  have both := first.trans second
  have third := pushWord_pushed 0 (room.rest both).first
  have items : ptrs.reverse.length = count := by
    rw [length_reverse, length]
    simp
  have room' := (room.rest both).rest third
  rw [← items] at room'
  have fourth := pushWords_pushed ptrs.reverse room'
  rw [items] at fourth
  exact both.trans (third.trans fourth)

variable {queue n stack : Addr} {s entry : ProcRun} {p : Proc} {mem : ByteMem} {r f : Regs}
  {e : Event}

theorem Apart.not_inTask {u : Addr} (apart : Apart t u) (inside : InTask u x) : ¬ InTask t x := by
  simp only [Apart, InTask] at apart inside ⊢
  omega

theorem memcpy_outside {dst src k : Nat} (out : ¬ (dst ≤ x ∧ x < dst + k)) :
    memcpy mem dst src k x = mem x := if_neg out

variable {pid : UInt32}

theorem sysVfork_outside (done : sysVfork queue { s.proc with mem } r n stack = .ok (pid, p))
    (notNew : ¬ InTask n x) (notStack : ¬ (stack.toNat ≤ x ∧ x < stack.toNat + defaultStackSize)) :
    p.mem x = mem x := by
  by_cases notNull : s.proc.curr = 0
  · simp [sysVfork, notNull] at done
  simp only [sysVfork, if_neg notNull, Except.ok.injEq, Prod.mk.injEq] at done
  obtain ⟨-, rfl⟩ := done
  simp only [enqueueTask, setReg_outside notNew]
  rw [memcpy_outside notStack, memcpy_outside notNew]

variable {q : Proc}

theorem reparent_mem {initProc : Addr} (done : reparent fuel q initProc = .ok p) :
    p.mem = q.mem := by
  unfold reparent at done
  split at done
  · rw [← Except.ok.inj done]
  · split at done
    · cases done
    · split at done
      · cases done
      · rw [← Except.ok.inj done]

theorem sysExit_mem {code : UInt32} (done : sysExit queue fuel q code = .ok p) : p.mem = q.mem := by
  by_cases notNull : q.curr = 0
  · simp [sysExit, notNull] at done
  rw [sysExit, if_neg notNull] at done
  cases init : kernelGetRunningProcess queue fuel q 1 with
  | error e =>
    rw [init] at done
    cases done
  | ok found =>
    rw [init] at done
    by_cases same : found = some q.curr
    · simp [Except.bind, same] at done
    · simp only [Except.bind, if_neg same] at done
      have kept := reparent_mem done
      exact kept

variable {ret : UInt32}

theorem sysWaitpid_outside {options : UInt32} {status : Addr} {freed : Option Addr}
    (done : sysWaitpid fuel q pid status options = .ok (ret, p, freed))
    (out : x < status.toNat ∨ status.toNat + 4 ≤ x) : p.mem x = q.mem x := by
  have result : ∀ {v : UInt32 × Proc × Option Addr},
      (.ok v : Except ProcHalt (UInt32 × Proc × Option Addr)) = .ok (ret, p, freed) →
        p = v.2.1 := by
    intro v same
    rw [Except.ok.inj same]
  unfold sysWaitpid at done
  split_ifs at done
  · rw [result done, failWith]
  · rw [result done, failWith]
  · rw [result done, failWith]
  · rw [result done, failWith]
  · split at done
    · cases done
    · rw [result done]
    · rw [result done]
      exact writeWord_outside out

variable {length : Nat}

theorem setProgram_outside (short : length < taskNameMaxLength) (out : ¬ InTask q.curr x) :
    setProgram q r length x = q.mem x := by
  simp only [setProgram, setReg_outside out]
  refine memcpy_outside ?_
  simp only [InTask, taskSize, nameOffset, taskNameMaxLength] at out short ⊢
  omega

theorem setProgram_top (q : Proc) (r : Regs) (length : Nat) :
    readWord (setProgram q r length) (threadWord q.curr .useresp) =
      (getReg q.mem q.curr .ebp).toNat := by
  rw [← getReg_toNat, setProgram, getReg_setReg, update_of_ne (by decide), getReg_setReg,
    update_self]
  refine congrArg (fun w => (UInt32.ofNat w).toNat) (readWord_congr fun i hi => ?_)
  refine memcpy_outside ?_
  simp only [threadWord, Reg.offset, nameOffset]
  omega

theorem clear_room {size top sp : Nat} (ht : t ∈ s.structs) (clear : Clear s (top - size) size)
    (some : 0 < size) (enough : size ≤ top) (low : t.toNat ≤ sp)
    (high : sp + 4 ≤ t.toNat + taskSize) : sp + 4 ≤ top - size ∨ top ≤ sp := by
  by_contra meets
  refine clear t ht (max sp (top - size)) (by omega) (by omega) ?_
  simp only [InTask]
  omega

theorem execve_pushed {handler : Nat} {m : ByteMem}
    (named : strlen q.mem (readWord q.mem (r .ecx).toNat) fuel 0 = some length)
    (loaded : ((pushArgsOnStack fuel (setProgram q r length) (threadWord q.curr .useresp)
      (r .ecx).toNat).bind fun (m, argc, argvCopy) =>
        (pushArgsOnStack fuel m (threadWord q.curr .useresp) (r .edx).toNat).map
          fun (m, _, envpCopy) =>
            pushWord (pushWord (pushWord (pushWord m (threadWord q.curr .useresp) envpCopy)
              (threadWord q.curr .useresp) argvCopy) (threadWord q.curr .useresp) argc)
              (threadWord q.curr .useresp) handler) = some m) :
    0 < execveSize fuel q r ∧
      (Room (threadWord q.curr .useresp) (execveSize fuel q r) (setProgram q r length) →
        Pushed (threadWord q.curr .useresp) (execveSize fuel q r) (setProgram q r length) m) := by
  obtain ⟨⟨m₁, argc, argv⟩, first, rest⟩ := Option.bind_eq_some_iff.mp loaded
  obtain ⟨⟨m₂, envc, envp⟩, second, rfl⟩ := Option.map_eq_some_iff.mp rest
  have size : execveSize fuel q r =
      argsSize fuel (setProgram q r length) (threadWord q.curr .useresp) (r .ecx).toNat +
        argsSize fuel m₁ (threadWord q.curr .useresp) (r .edx).toNat + 16 := by
    simp only [execveSize, named, first]
  rw [size]
  refine ⟨by omega, fun room => ?_⟩
  have pushed₁ := pushArgs_pushed first room.first.first
  have pushed₂ := pushArgs_pushed second (room.first.rest pushed₁)
  have both := pushed₁.trans pushed₂
  have words := pushWords_pushed [envp, argv, argc, handler] (room.rest both)
  rw [foldl_cons, foldl_cons, foldl_cons, foldl_cons, foldl_nil] at words
  exact both.trans words

theorem sysExecve_outside {handler : UInt32} (arena : Arena queue s.structs)
    (hq : q.curr ∈ s.structs) (done : sysExecve fuel q r handler = .ok (ret, p, f))
    (fits : r .ebx ≠ 0 → ¬ ((r .ecx).toNat = 0 ∨ readWord q.mem (r .ecx).toNat = 0) →
      (∀ length, strlen q.mem (readWord q.mem (r .ecx).toNat) fuel 0 = some length →
        length < taskNameMaxLength) ∧
      execveSize fuel q r ≤ (getReg q.mem q.curr .ebp).toNat ∧
      Clear s ((getReg q.mem q.curr .ebp).toNat - execveSize fuel q r) (execveSize fuel q r))
    (ht : t ∈ s.structs) (other : t ≠ q.curr) (inside : InTask t x) : p.mem x = q.mem x := by
  by_cases notNull : q.curr = 0
  · simp [sysExecve, notNull] at done
  simp only [sysExecve, if_neg notNull] at done
  split_ifs at done with noFile noArgs
  · obtain ⟨-, rfl, -⟩ := by simpa only [Except.ok.injEq, Prod.mk.injEq] using done
    rfl
  · obtain ⟨-, rfl, -⟩ := by simpa only [Except.ok.injEq, Prod.mk.injEq] using done
    rfl
  split at done
  · cases done
  next m loaded =>
    obtain ⟨-, rfl, -⟩ := by simpa only [Except.ok.injEq, Prod.mk.injEq] using done
    obtain ⟨length, named, rest⟩ := Option.bind_eq_some_iff.mp loaded
    obtain ⟨short, enough, clear⟩ := fits noFile noArgs
    obtain ⟨some, pushes⟩ := execve_pushed named rest
    have apart : Apart q.curr t := (arena.apart _ hq _ ht).resolve_left (Ne.symm other)
    have away := apart.not_inTask inside
    have top := setProgram_top q r length
    have room : Room (threadWord q.curr .useresp) (execveSize fuel q r)
        (setProgram q r length) := by
      rw [Room, top]
      refine ⟨enough, clear_room hq clear some enough ?_ ?_⟩
      · simp only [threadWord]
        omega
      · simp only [threadWord, Reg.offset, taskSize]
        omega
    refine ((pushes room).frame x ?_ ?_).trans (setProgram_outside (short length named) away)
    · simp only [InTask, taskSize] at away
      simp only [threadWord, Reg.offset]
      omega
    · rw [top]
      by_contra meets
      exact clear t ht x (by omega) (by omega) inside

theorem handled_outside (arena : Arena queue s.structs) (hcurr : s.proc.curr ∈ s.structs)
    (handled : Handled queue s e entry) (ht : t ∈ s.structs) (other : t ≠ s.proc.curr)
    (inside : InTask t x) : entry.proc.mem x = s.proc.mem x := by
  obtain ⟨mem, frame, call⟩ := e
  obtain ⟨user, handled⟩ := handled
  rw [← user t ht x inside]
  cases call with
  | tick => rw [handled]
  | vfork n stack =>
    obtain ⟨placed, fresh, clear, pid, p, done, rfl⟩ := handled
    refine sysVfork_outside done ((fresh t ht).not_inTask inside) fun within => ?_
    exact clear t ht x within.1 within.2 inside
  | exit code =>
    obtain ⟨fuel, p, ret, done, rfl⟩ := handled
    exact congrFun (sysExit_mem done) x
  | waitpid pid status options =>
    obtain ⟨clear, fuel, ret, p, freed, done, rfl⟩ := handled
    refine sysWaitpid_outside done ?_
    by_contra meets
    exact clear t ht x (by omega) (by omega) inside
  | execve handler =>
    obtain ⟨fuel, ret, p, f, done, fits, rfl⟩ := handled
    exact sysExecve_outside (q := { s.proc with mem }) arena hcurr done fits ht other inside

end Elaborato.Mentos.Process
