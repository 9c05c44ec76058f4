import Elaborato.Foundation.Texts
import Elaborato.Mentos.ProcessContexts

/-!
`push_args_on_stack`: strings and pointers are pushed backwards and read upwards.
-/
namespace Elaborato.Mentos.Process
open Foundation List

/-- The pushes of `sys_execve`. -/
def pushProgram (fuel : Nat) (m : ByteMem) (sp argv envp : Nat) (handler : UInt32) :
    Option ByteMem :=
  (pushArgsOnStack fuel m sp argv).bind fun (m, argc, argvCopy) =>
    (pushArgsOnStack fuel m sp envp).map fun (m, _, envpCopy) =>
      pushWord (pushWord (pushWord (pushWord m sp envpCopy) sp argvCopy) sp argc) sp
        handler.toNat

/-- The length of the array `args_ptr`. -/
def argsPtrLength : Nat := 256

/-- The bytes of strings with their zeros. -/
def textsSize (texts : List (List UInt8)) : Nat := (texts.map fun text => text.length + 1).sum

/-- The bytes that are pushed for strings. -/
def pushedSize (texts : List (List UInt8)) : Nat :=
  4 + textsSize texts + 4 * (texts.length + 1)

def programSize (argv envp : List (List UInt8)) : Nat := pushedSize argv + pushedSize envp + 16

def Away (sp low top x : Nat) : Prop := (x < sp ∨ sp + 4 ≤ x) ∧ (x < low ∨ top ≤ x)

variable {m m' : ByteMem} {sp low top args n fuel : Nat} {texts : List (List UInt8)}

variable {x : Nat}

theorem Pushed.away (pushed : Pushed sp n m m') (above : low ≤ readWord m sp - n)
    (below : readWord m sp ≤ top) (away : Away sp low top x) : m' x = m x :=
  pushed.frame x away.1 (by have := away.2; omega)

theorem Pushed.above (pushed : Pushed sp n m m') (out : x < sp ∨ sp + 4 ≤ x)
    (above : readWord m sp ≤ x) : m' x = m x :=
  pushed.frame x out (.inr above)

variable {place : Nat → Prop} {p k : Nat}

theorem strlen_text {text : List UInt8} (stored : TextAt place m p text) (le : k ≤ text.length)
    (enough : text.length < k + fuel) : strlen m p fuel k = some text.length := by
  induction fuel generalizing k with
  | zero => omega
  | succ fuel ih =>
    rw [strlen]
    by_cases last : k = text.length
    · rw [if_pos ((stored.byte le).2.mpr last), last]
    · rw [if_neg fun zero => last ((stored.byte le).2.mp zero)]
      exact ih (by omega) (by omega)

theorem countArgs_texts (stored : TextsAt place m (args + 4 * k) texts)
    (enough : texts.length < fuel) : countArgs m args fuel k = some (k + texts.length) := by
  induction texts generalizing k fuel with
  | nil =>
    obtain ⟨fuel, rfl⟩ := Nat.exists_eq_succ_of_ne_zero (Nat.ne_of_gt enough)
    rw [countArgs, if_pos stored.2]
    rfl
  | cons text texts ih =>
    obtain ⟨fuel, rfl⟩ := Nat.exists_eq_succ_of_ne_zero (Nat.ne_of_gt (Nat.zero_lt_of_lt enough))
    obtain ⟨-, nonzero, -, rest⟩ := stored
    rw [countArgs, if_neg nonzero, ih rest (Nat.lt_of_succ_lt_succ enough), length_cons]
    congr 1
    omega

theorem pushByte_top (item : UInt8) (room : Room sp 1 m) :
    pushByte m sp item (readWord m sp - 1) = item := by
  have small := readWord_lt m sp
  have enough := room.1
  rw [pushByte, show (readWord m sp + 2 ^ 32 - 1) % 2 ^ 32 = readWord m sp - 1 by omega,
    Function.update_self]

theorem pushWord_top {item : Nat} (small : item < 2 ^ 32) (room : Room sp 4 m) :
    readWord (pushWord m sp item) (readWord m sp - 4) = item := by
  have bound := readWord_lt m sp
  have enough := room.1
  rw [pushWord, show (readWord m sp + 2 ^ 32 - 4) % 2 ^ 32 = readWord m sp - 4 by omega,
    readWord_writeWord small]

theorem pushBytes_copies {i j : Nat} (word : readWord m (args + 4 * i) = p)
    (table : ∀ k < 4, Away sp low top (args + 4 * i + k)) (text : ∀ k ≤ j, Away sp low top (p + k))
    (room : Room sp (j + 1) m) (above : low ≤ readWord m sp - (j + 1)) (below : readWord m sp ≤ top)
    (le : k ≤ j) : pushBytes sp args i m j (readWord m sp - (j + 1) + k) = m (p + k) := by
  induction j generalizing m with
  | zero =>
    obtain rfl : k = 0 := Nat.le_zero.mp le
    rw [pushBytes, word]
    exact pushByte_top _ room
  | succ j ih =>
    have enough := room.1
    have apart := room.2
    rw [Nat.add_comm (j + 1) 1] at room
    have first := pushByte_pushed (m (p + (j + 1))) room.first
    have kept : ∀ x, Away sp low top x → pushByte m sp (m (p + (j + 1))) x = m x :=
      fun x => first.away (by omega) below
    have word' : readWord (pushByte m sp (m (p + (j + 1)))) (args + 4 * i) = p :=
      (readWord_congr fun k hk => kept _ (table k hk)).trans word
    have pointer := first.pointer
    rw [pushBytes, word]
    by_cases last : k = j + 1
    · subst last
      have later := pushBytes_pushed args i j (room.rest first)
      rw [show readWord m sp - (j + 1 + 1) + (j + 1) = readWord m sp - 1 by omega,
        later.above (by omega) (by omega)]
      exact pushByte_top _ room.first
    · have rest := ih word' (fun k hk => text k (by omega)) (room.rest first) (by omega)
        (by omega) (show k ≤ j by omega)
      rw [pointer, show readWord m sp - 1 - (j + 1) + k = readWord m sp - (j + 1 + 1) + k by
        omega] at rest
      exact rest.trans (kept _ (text k le))

theorem pushWords_words (items : List Nat) (small : ∀ w ∈ items, w < 2 ^ 32)
    (room : Room sp (4 * items.length) m) :
    WordsAt (items.foldl (pushWord · sp ·) m) (readWord m sp - 4 * items.length)
      items.reverse := by
  induction items generalizing m with
  | nil => trivial
  | cons item items ih =>
    have enough := room.1
    have apart := room.2
    rw [length_cons] at enough apart
    rw [length_cons, Nat.mul_succ, Nat.add_comm] at room
    have first := pushWord_pushed item room.first
    have pointer := first.pointer
    have later := pushWords_pushed items (room.rest first)
    rw [foldl_cons, length_cons, reverse_cons, wordsAt_append, length_reverse]
    constructor
    · have rest := ih (fun w hw => small w (mem_cons_of_mem _ hw)) (room.rest first)
      rwa [pointer, show readWord m sp - 4 - 4 * items.length =
        readWord m sp - 4 * (items.length + 1) by omega] at rest
    · refine ⟨?_, trivial⟩
      rw [show readWord m sp - 4 * (items.length + 1) + 4 * items.length = readWord m sp - 4 by
        omega]
      refine Eq.trans (readWord_congr fun i hi => ?_)
        (pushWord_top (small item mem_cons_self) room.first)
      exact later.above (by omega) (by omega)

theorem pushStrings_texts {i : Nat} (ptrs : List Nat)
    (stored : TextsAt (Away sp low top) m args texts) (hi : i ≤ texts.length)
    (enough : ∀ text ∈ texts, text.length < fuel)
    (room : Room sp (textsSize (texts.take i)) m)
    (positive : textsSize (texts.take i) < readWord m sp)
    (above : low ≤ readWord m sp - textsSize (texts.take i)) (below : readWord m sp ≤ top) :
    ∃ m' copies, pushStrings fuel sp args i (m, ptrs) = some (m', copies ++ ptrs) ∧
      Pushed sp (textsSize (texts.take i)) m m' ∧
      List.Forall₂ (fun q text => q ≠ 0 ∧ q < 2 ^ 32 ∧
        TextAt (fun x => readWord m' sp ≤ x ∧ x < readWord m sp) m' q text) copies
        (texts.take i) := by
  induction i generalizing m ptrs with
  | zero => exact ⟨m, [], rfl, .refl sp m, .nil⟩
  | succ i ih =>
    obtain ⟨table, text⟩ := stored.pointer hi
    generalize found : texts.get ⟨i, hi⟩ = string at text
    have split : texts.take (i + 1) = texts.take i ++ [string] := by
      rw [← found, take_succ_eq_append_getElem hi]
      rfl
    have size : textsSize (texts.take (i + 1)) = string.length + 1 + textsSize (texts.take i) := by
      simp only [split, textsSize, map_append, sum_append, map_singleton, sum_singleton]
      omega
    have short := enough string (found ▸ get_mem texts ⟨i, hi⟩)
    have length := strlen_text text (Nat.zero_le _) (show string.length < 0 + fuel by omega)
    rw [size] at room positive above
    have fits := room.1
    have apart := room.2
    have first := pushBytes_pushed args i string.length room.first
    have pointer := first.pointer
    have copied : ∀ k ≤ string.length, pushBytes sp args i m string.length
        (readWord m sp - (string.length + 1) + k) = m (readWord m (args + 4 * i) + k) :=
      fun k le => pushBytes_copies rfl table (fun k le => (text.byte le).1) room.first (by omega)
        below le
    have kept : ∀ x, Away sp low top x → pushBytes sp args i m string.length x = m x :=
      fun x => first.away (by omega) below
    have stored₁ : TextsAt (Away sp low top) (pushBytes sp args i m string.length) args texts :=
      stored.kept fun x away => ⟨away, kept x away⟩
    obtain ⟨m', copies, done, later, all⟩ := ih
      (readWord (pushBytes sp args i m string.length) sp :: ptrs) stored₁
      (Nat.le_of_succ_le hi) (room.rest first) (by omega) (by omega) (by omega)
    have pointer' := later.pointer
    refine ⟨m', copies ++ [readWord (pushBytes sp args i m string.length) sp], ?_, ?_, ?_⟩
    · rw [pushStrings, length, Option.bind_some, done, append_assoc]
      rfl
    · rw [size]
      exact first.trans later
    · rw [split]
      refine rel_append (all.imp fun q text h => ?_) (.cons ⟨?_, readWord_lt _ _, ?_⟩ .nil)
      · exact ⟨h.1, h.2.1, h.2.2.kept fun x inside => ⟨⟨inside.1, by omega⟩, rfl⟩⟩
      · omega
      · refine text.copy fun k le => ⟨by omega, ?_⟩
        rw [pointer, later.above (by omega) (by omega)]
        exact copied k le

theorem pushArgs_texts (stored : TextsAt (Away sp low top) m args texts)
    (enough : ∀ text ∈ texts, text.length < fuel) (few : texts.length < fuel)
    (room : Room sp (pushedSize texts) m) (above : low ≤ readWord m sp - pushedSize texts)
    (below : readWord m sp ≤ top) :
    ∃ m', pushArgsOnStack fuel m sp args = some (m', texts.length, readWord m' sp) ∧
      Pushed sp (pushedSize texts) m m' ∧
      TextsAt (fun x => readWord m' sp ≤ x ∧ x < readWord m sp) m' (readWord m' sp) texts := by
  have counted := countArgs_texts (k := 0) stored few
  rw [Nat.zero_add] at counted
  have fits := room.1
  have apart := room.2
  rw [pushedSize] at room above fits apart
  have first := pushWord_pushed 0 room.first.first
  have pointer₁ := first.pointer
  have whole : texts.take texts.length = texts := take_length
  have stored₁ : TextsAt (Away sp low top) (pushWord m sp 0) args texts :=
    stored.kept fun x away => ⟨away, first.away (by omega) below away⟩
  obtain ⟨m₂, ptrs, strings, second, copies⟩ := pushStrings_texts [] stored₁ (Nat.le_refl _) enough
    (by rw [whole]; exact room.first.rest first) (by rw [whole]; omega) (by rw [whole]; omega)
    (by omega)
  rw [whole] at second copies
  have pointer₂ := second.pointer
  have count : ptrs.length = texts.length := copies.length_eq
  have both := first.trans second
  have items : (0 :: ptrs.reverse).length = texts.length + 1 := by simp [count]
  have room' := room.rest both
  rw [← items] at room'
  have third := pushWords_pushed (0 :: ptrs.reverse) room'
  have table := pushWords_words (0 :: ptrs.reverse) ?_ room'
  · rw [items] at third table
    have pointer₃ := third.pointer
    rw [reverse_cons, reverse_reverse, ← pointer₃] at table
    refine ⟨(0 :: ptrs.reverse).foldl (pushWord · sp ·) m₂, ?_, both.trans third, ?_⟩
    · simp only [pushArgsOnStack, counted, Option.bind_some, strings, append_nil,
        Option.map_some, foldl_cons]
    · refine textsAt_of_words table (fun x low high => ⟨low, by omega⟩) ?_
      refine copies.imp fun q text h => ⟨h.1, h.2.2.copy fun k le => ?_⟩
      have inside := (h.2.2.byte le).1
      exact ⟨by omega, third.above (by omega) (by omega)⟩
  · intro w hw
    rcases mem_cons.mp hw with rfl | hw
    · decide
    · obtain ⟨i, hi, rfl⟩ := getElem_of_mem (mem_reverse.mp hw)
      exact ((forall₂_iff_get.mp copies).2 i hi (count ▸ hi)).2.1

section Execve
variable {argv envp : Nat} {args env : List (List UInt8)} {handler : UInt32}

def ProgramStack (m : ByteMem) (esp : Nat) (handler : UInt32) (args env : List (List UInt8)) :
    Prop :=
  ∃ argvCopy envpCopy, WordsAt m esp [handler.toNat, args.length, argvCopy, envpCopy] ∧
    TextsAt (fun _ => True) m argvCopy args ∧ TextsAt (fun _ => True) m envpCopy env

theorem pushProgram_stack (few : args.length ≤ argsPtrLength)
    (rounds : ∀ text ∈ args ++ env, text.length < fuel) (count : args.length < fuel)
    (count' : env.length < fuel) (room : Room sp (programSize args env) m)
    (stored : TextsAt (Away sp (readWord m sp - programSize args env) (readWord m sp)) m argv args)
    (stored' : TextsAt (Away sp (readWord m sp - programSize args env) (readWord m sp)) m envp
      env) :
    ∃ m', pushProgram fuel m sp argv envp handler = some m' ∧
      Pushed sp (programSize args env) m m' ∧
      ProgramStack m' (readWord m' sp) handler args env := by
  have fits := room.1
  have apart := room.2
  rw [programSize] at room fits apart
  have small : args.length < 2 ^ 32 := Nat.lt_of_le_of_lt few (by decide)
  obtain ⟨m₁, first, pushed₁, copied₁⟩ := pushArgs_texts stored
    (fun text h => rounds text (mem_append_left _ h)) count room.first.first
    (by rw [programSize]; omega) (Nat.le_refl _)
  have pointer₁ := pushed₁.pointer
  have stored₁ : TextsAt (Away sp (readWord m sp - programSize args env) (readWord m sp)) m₁ envp
      env :=
    stored'.kept fun x away =>
      ⟨away, pushed₁.away (by rw [programSize]; omega) (Nat.le_refl _) away⟩
  obtain ⟨m₂, second, pushed₂, copied₂⟩ := pushArgs_texts stored₁
    (fun text h => rounds text (mem_append_right _ h)) count' (room.first.rest pushed₁)
    (by rw [programSize]; omega) (by omega)
  have pointer₂ := pushed₂.pointer
  have both := pushed₁.trans pushed₂
  have items : ∀ w ∈ [readWord m₂ sp, readWord m₁ sp, args.length, handler.toNat], w < 2 ^ 32 := by
    intro w hw
    simp only [mem_cons, not_mem_nil, or_false] at hw
    rcases hw with rfl | rfl | rfl | rfl
    · exact readWord_lt _ _
    · exact readWord_lt _ _
    · exact small
    · exact handler.toNat_lt
  have words := pushWords_words _ items (room.rest both)
  have third := pushWords_pushed [readWord m₂ sp, readWord m₁ sp, args.length, handler.toNat]
    (room.rest both)
  have pointer₃ := third.pointer
  refine ⟨_, ?_, both.trans third, ⟨readWord m₁ sp, readWord m₂ sp, ?_, ?_, ?_⟩⟩
  · simp only [pushProgram, first, second, Option.bind_some, Option.map_some, foldl_cons, foldl_nil]
  · rw [pointer₃]
    exact words
  · refine copied₁.kept fun x inside => ⟨trivial, ?_⟩
    rw [third.above (by omega) (by omega), pushed₂.above (by omega) (by omega)]
  · exact copied₂.kept fun x inside => ⟨trivial, third.above (by omega) (by omega)⟩

theorem sysExecve_pushes {s : Proc} {r : Regs} {length : Nat} {m' : ByteMem}
    (current : s.curr ≠ 0) (file : r .ebx ≠ 0) (table : (r .ecx).toNat ≠ 0)
    (first : readWord s.mem (r .ecx).toNat ≠ 0) (environment : (r .edx).toNat ≠ 0)
    (named : strlen s.mem (readWord s.mem (r .ecx).toNat) fuel 0 = some length)
    (pushed : pushProgram fuel (setProgram s r length) (threadWord s.curr .useresp)
      (r .ecx).toNat (r .edx).toNat handler = some m') :
    sysExecve fuel s r handler = .ok (0, { s with mem := m' }, getReg m' s.curr) := by
  have given : ¬ ((r .ecx).toNat = 0 ∨ readWord s.mem (r .ecx).toNat = 0) := by simp [table, first]
  have frame := doSwitch_frame { s with mem := m' } s.curr r
  rw [pushProgram] at pushed
  simp only [sysExecve, if_neg current, if_neg file, if_neg given, if_neg environment, named,
    Option.bind_some, pushed]
  rw [frame]
  rfl

/-- The strings are read back from the new stack in their order. -/
theorem execve_arguments (fuel : Nat) (handler : UInt32) (few : args.length ≤ argsPtrLength)
    (few' : env.length ≤ argsPtrLength)
    (rounds : ∀ text ∈ args ++ env, text.length < fuel) (count : args.length < fuel)
    (count' : env.length < fuel) (room : Room sp (programSize args env) m)
    (stored : TextsAt (Away sp (readWord m sp - programSize args env) (readWord m sp)) m argv args)
    (stored' : TextsAt (Away sp (readWord m sp - programSize args env) (readWord m sp)) m envp
      env) :
    (∀ i < args.length, i < argsPtrLength) ∧ (∀ i < env.length, i < argsPtrLength) ∧
    ∃ m', pushProgram fuel m sp argv envp handler = some m' ∧
      Pushed sp (programSize args env) m m' ∧
      ProgramStack m' (readWord m' sp) handler args env ∧
      ∀ (s : Proc) (r : Regs) length, s.curr ≠ 0 → r .ebx ≠ 0 → argv ≠ 0 →
        readWord s.mem argv ≠ 0 → envp ≠ 0 →
        strlen s.mem (readWord s.mem argv) fuel 0 = some length →
        (r .ecx).toNat = argv → (r .edx).toNat = envp → threadWord s.curr .useresp = sp →
        setProgram s r length = m →
        ∃ f, sysExecve fuel s r handler = .ok (0, { s with mem := m' }, f) ∧
          (f .useresp).toNat = readWord m' sp := by
  obtain ⟨m', pushed, only, stack⟩ :=
    pushProgram_stack few rounds count count' room stored stored'
  refine ⟨fun i hi => by omega, fun i hi => by omega, m', pushed, only, stack, ?_⟩
  rintro s r length current file table first environment named rfl rfl rfl rfl
  refine ⟨_, sysExecve_pushes current file table first environment named pushed, ?_⟩
  exact getReg_toNat ..

end Execve

def argMemory : ByteMem := fun x =>
  if x = 0x100 then 0x80 else if x = 0x201 then 0x03 else if x = 0x300 then 97 else 0

theorem argMemory_texts : TextsAt (Away 0x100 (128 - programSize [[97]] []) 128) argMemory 0x200
    [[97]] ∧ TextsAt (Away 0x100 (128 - programSize [[97]] []) 128) argMemory 0x208 [] := by
  simp only [TextsAt, TextAt, Away]
  decide

theorem execve_arguments_argMemory : ∃ m', pushProgram 2 argMemory 0x100 0x200 0x208 7 = some m' ∧
    ProgramStack m' (readWord m' 0x100) 7 [[97]] [] := by
  obtain ⟨-, -, m', pushed, -, stack, -⟩ := execve_arguments 2 7 (by decide) (by decide)
    (by decide) (by decide) (by decide)
    (show Room 0x100 (programSize [[97]] []) argMemory by unfold Room; decide)
    argMemory_texts.1 argMemory_texts.2
  exact ⟨m', pushed, stack⟩

end Elaborato.Mentos.Process
