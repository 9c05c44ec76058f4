import Elaborato.Foundation.Words
import Elaborato.Mentos.Hashmap
import Elaborato.Mentos.Strings

/-!
The words of a command (shell.c): one pass counts, another fills. A stray store halts.
-/
namespace Elaborato.Mentos.Shell
open Foundation Hashmap Strings List Function

def cmdLen : ℕ := 256

def shellIsSeparator (c : UInt8) : Bool :=
  c == 0 || c == 32 || c == 9 || c == 10 || c == 13

def countLoop : List UInt8 → Bool → ℕ → ℕ
  | [], _, result => result
  | c :: it, inword, result =>
    if shellIsSeparator c then
      if inword then countLoop it false (result + 1) else countLoop it inword result
    else countLoop it true result

def shellCountWords (sentence : CString) : ℕ := countLoop (sentence.text ++ [0]) false 0

/-- A pointer of the array. -/
inductive ArgPtr
  | unset
  | null
  | block (b : ℕ)
  deriving DecidableEq, Repr

structure Argv where
  ptrs : ℕ → ArgPtr
  room : ℕ
  blocks : ℕ → ByteMem
  next : ℕ

inductive OptionsHalt
  | outside
  | wildPointer
  deriving DecidableEq, Repr

def Argv.setPtr (v : Argv) (i : ℕ) (p : ArgPtr) : Except OptionsHalt Argv :=
  if i < v.room then .ok { v with ptrs := update v.ptrs i p } else .error .outside

/-- `(*argv)[i] = malloc(CMD_LEN)`. -/
def Argv.mallocArg (v : Argv) (i : ℕ) : Except OptionsHalt Argv :=
  { v with next := v.next + 1 }.setPtr i (.block v.next)

/-- `(*argv)[i][j] = c`. -/
def Argv.setChar (v : Argv) (i j : ℕ) (c : UInt8) : Except OptionsHalt Argv :=
  if i < v.room then
    match v.ptrs i with
    | .block b =>
      if j < cmdLen then
        .ok { v with blocks := update v.blocks b (update (v.blocks b) j c) }
      else .error .outside
    | _ => .error .wildPointer
  else .error .outside

def optionsLoop : List UInt8 → Bool → ℕ → ℕ → Argv → Except OptionsHalt (ℕ × Argv)
  | [], _, argcIt, _, v => .ok (argcIt, v)
  | c :: cit, inword, argcIt, argIt, v =>
    if shellIsSeparator c then
      if inword then do
        let v ← v.setChar argcIt argIt 0
        optionsLoop cit false (argcIt + 1) 0 v
      else optionsLoop cit inword argcIt argIt v
    else do
      let v ← (if inword then .ok v else v.mallocArg argcIt)
      let v ← v.setChar argcIt argIt c
      optionsLoop cit true argcIt (argIt + 1) v

/-- `argc`, and `argv` if it is set. -/
def shellGetOptions (heap : ℕ → ByteMem) (command : CString) :
    Except OptionsHalt (ℕ × Option Argv) :=
  let argc := shellCountWords command
  if argc = 0 then .ok (0, none)
  else do
    let (argcIt, v) ← optionsLoop (command.text ++ [0]) false 0 0
      ⟨fun _ => .unset, argc + 1, heap, 0⟩
    let v ← v.setPtr argcIt .null
    .ok (argc, some v)

variable {w : List UInt8}

theorem run_concat {c : UInt8} (run : ∀ b ∈ w, shellIsSeparator b = false)
    (letter : shellIsSeparator c = false) : ∀ b ∈ w ++ [c], shellIsSeparator b = false :=
  forall_mem_append.mpr ⟨run, forall_mem_singleton.mpr letter⟩

theorem countLoop_words (it : List UInt8) (run : ∀ c ∈ w, shellIsSeparator c = false) (result : ℕ) :
    countLoop (it ++ [0]) (!w.isEmpty) result =
      result + (wordsOf shellIsSeparator (w ++ it)).length := by
  induction it generalizing w result with
  | nil =>
    cases w with
    | nil => rfl
    | cons c w =>
      rw [wordsOf_word_append (cons_ne_nil c w) run (by simp)]
      rfl
  | cons c it ih =>
    have none : ∀ c ∈ ([] : List UInt8), shellIsSeparator c = false := by simp
    rw [cons_append, countLoop]
    cases sep : shellIsSeparator c with
    | true =>
      rw [if_pos rfl]
      cases w with
      | nil =>
        rw [nil_append, wordsOf_cons_sep sep]
        exact ih none result
      | cons d w =>
        rw [wordsOf_word_append (cons_ne_nil d w) run (by simpa using sep)]
        refine (ih none (result + 1)).trans ?_
        rw [nil_append, tail_cons, length_cons]
        omega
    | false =>
      have begun : (!(w ++ [c]).isEmpty) = true := by simp
      rw [append_cons w c it, ← ih (run_concat run sep) result, begun]
      rfl

theorem shellCountWords_eq (sentence : CString) :
    shellCountWords sentence = (wordsOf shellIsSeparator sentence.text).length := by
  have pass := countLoop_words (w := []) sentence.text (by simp) 0
  rwa [Nat.zero_add] at pass

variable {v : Argv} {ws : List (List UInt8)} {i j b : ℕ} {c : UInt8}

def Holds (v : Argv) (ws : List (List UInt8)) : Prop :=
  ∀ i w, ws[i]? = some w → ∃ b < v.next, v.ptrs i = .block b ∧ StringAt (v.blocks b) 0 w

def Begun (v : Argv) (ws : List (List UInt8)) (w : List UInt8) : Prop :=
  ∃ b < v.next, v.ptrs ws.length = .block b ∧
    StringAt (update (v.blocks b) w.length 0) 0 w ∧
    ∀ i < ws.length, v.ptrs i ≠ .block b

theorem Argv.setPtr_ok (less : i < v.room) (p : ArgPtr) :
    v.setPtr i p = .ok { v with ptrs := update v.ptrs i p } := if_pos less

theorem Argv.setChar_ok (less : i < v.room) (is : v.ptrs i = .block b) (fits : j < cmdLen)
    (c : UInt8) : v.setChar i j c =
      .ok { v with blocks := update v.blocks b (update (v.blocks b) j c) } := by
  rw [Argv.setChar, if_pos less, is]
  exact if_pos fits

theorem Holds.setBlock (holds : Holds v ws) (apart : ∀ i < ws.length, v.ptrs i ≠ .block b)
    (m : ByteMem) : Holds { v with blocks := update v.blocks b m } ws := by
  intro i w is
  obtain ⟨less, -⟩ := List.getElem?_eq_some_iff.mp is
  obtain ⟨b', old, ptr, stored⟩ := holds i w is
  have other : b' ≠ b := fun same => apart i less (same ▸ ptr)
  have kept : update v.blocks b m b' = v.blocks b' := update_of_ne other ..
  refine ⟨b', old, ptr, ?_⟩
  change StringAt (update v.blocks b m b') 0 w
  rwa [kept]

theorem Holds.fresh (holds : Holds v ws) (less : i < ws.length) : v.ptrs i ≠ .block v.next := by
  intro same
  obtain ⟨b, old, ptr, -⟩ := holds i _ (getElem?_eq_getElem less)
  rw [same, ArgPtr.block.injEq] at ptr
  omega

theorem letter_nonzero (letter : shellIsSeparator c = false) : c ≠ 0 := by
  rintro rfl
  simp [shellIsSeparator] at letter

theorem Holds.mallocArg (holds : Holds v ws) (less : ws.length < v.room) :
    ∃ v', v.mallocArg ws.length = .ok v' ∧ v'.room = v.room ∧ Holds v' ws ∧ Begun v' ws [] := by
  have before {i : ℕ} (lessI : i < ws.length) :
      update v.ptrs ws.length (.block v.next) i = v.ptrs i :=
    update_of_ne (Nat.ne_of_lt lessI) ..
  refine ⟨⟨update v.ptrs ws.length (.block v.next), v.room, v.blocks, v.next + 1⟩,
    if_pos less, rfl, fun i w is => ?_, v.next, Nat.lt_succ_self _, update_self ..,
    ⟨trivial, update_self ..⟩, fun i lessI same => ?_⟩
  · obtain ⟨lessI, -⟩ := List.getElem?_eq_some_iff.mp is
    obtain ⟨b, old, ptr, stored⟩ := holds i w is
    exact ⟨b, Nat.lt_succ_of_lt old, (before lessI).trans ptr, stored⟩
  · exact holds.fresh lessI ((before lessI).symm.trans same)

section
variable (begun : Begun v ws w) (holds : Holds v ws) (less : ws.length < v.room)
include begun holds less

theorem Begun.setChar (fits : w.length < cmdLen) (letter : shellIsSeparator c = false) :
    ∃ v', v.setChar ws.length w.length c = .ok v' ∧ v'.room = v.room ∧ Holds v' ws ∧
      Begun v' ws (w ++ [c]) := by
  obtain ⟨b, old, ptr, stored, apart⟩ := begun
  refine ⟨_, Argv.setChar_ok less ptr fits c, rfl, holds.setBlock apart _, b, old, ptr, ?_, apart⟩
  rw [← Nat.zero_add w.length] at stored
  have longer := stored.concat (letter_nonzero letter) trivial
  simpa using longer

theorem Begun.ends (fits : w.length < cmdLen) :
    ∃ v', v.setChar ws.length w.length 0 = .ok v' ∧ v'.room = v.room ∧ Holds v' (ws ++ [w]) := by
  obtain ⟨b, old, ptr, stored, apart⟩ := begun
  have others := holds.setBlock apart (update (v.blocks b) w.length 0)
  refine ⟨_, Argv.setChar_ok less ptr fits 0, rfl, fun i u is => ?_⟩
  by_cases last : i = ws.length
  · rw [last, getElem?_concat_length, Option.some.injEq] at is
    refine ⟨b, old, last ▸ ptr, ?_⟩
    rw [← is]
    simpa using stored
  · obtain ⟨lessI, -⟩ := List.getElem?_eq_some_iff.mp is
    rw [length_append, length_singleton] at lessI
    rw [getElem?_append_left (by omega)] at is
    exact others i u is

end

variable {cit : List UInt8} {v' v'' : Argv}

theorem optionsLoop_pass (sep : shellIsSeparator c = true) :
    optionsLoop (c :: cit) false i j v = optionsLoop cit false i j v := by
  rw [optionsLoop, if_pos sep]
  rfl

theorem optionsLoop_end (sep : shellIsSeparator c = true) (set : v.setChar i j 0 = .ok v') :
    optionsLoop (c :: cit) true i j v = optionsLoop cit false (i + 1) 0 v' := by
  rw [optionsLoop, if_pos sep, if_pos rfl, set, bind_ok]

theorem optionsLoop_first (letter : shellIsSeparator c = false)
    (allocated : v.mallocArg i = .ok v') (set : v'.setChar i j c = .ok v'') :
    optionsLoop (c :: cit) false i j v = optionsLoop cit true i (j + 1) v'' := by
  rw [optionsLoop, letter, if_neg Bool.false_ne_true, if_neg Bool.false_ne_true, allocated,
    bind_ok, set, bind_ok]

theorem optionsLoop_letter (letter : shellIsSeparator c = false)
    (set : v.setChar i j c = .ok v') :
    optionsLoop (c :: cit) true i j v = optionsLoop cit true i (j + 1) v' := by
  rw [optionsLoop, letter, if_neg Bool.false_ne_true, if_pos rfl, bind_ok, set, bind_ok]

theorem optionsLoop_words (cit w : List UInt8) (ws : List (List UInt8)) (holds : Holds v ws)
    (begun : w ≠ [] → Begun v ws w) (run : ∀ c ∈ w, shellIsSeparator c = false)
    (less : ws.length + (wordsOf shellIsSeparator (w ++ cit)).length < v.room)
    (short : w.length + cit.length < cmdLen) :
    ∃ v', optionsLoop (cit ++ [0]) (!w.isEmpty) ws.length w.length v =
        .ok (ws.length + (wordsOf shellIsSeparator (w ++ cit)).length, v') ∧ v'.room = v.room ∧
      Holds v' (ws ++ wordsOf shellIsSeparator (w ++ cit)) := by
  induction cit generalizing v ws w with
  | nil =>
    cases w with
    | nil => exact ⟨v, rfl, rfl, by simpa using holds⟩
    | cons d w =>
      have whole : wordsOf shellIsSeparator ((d :: w) ++ []) = [d :: w] := by
        rw [wordsOf_word_append (cons_ne_nil d w) run (by simp), tail_nil, wordsOf_nil]
      rw [whole] at less ⊢
      obtain ⟨v', set, room, holds'⟩ := (begun (cons_ne_nil d w)).ends holds
        (Nat.lt_of_succ_lt less) short
      exact ⟨v', optionsLoop_end rfl set, room, holds'⟩
  | cons c cit ih =>
    rw [length_cons] at short
    cases sep : shellIsSeparator c with
    | true =>
      have none : ∀ c ∈ ([] : List UInt8), shellIsSeparator c = false := by simp
      cases w with
      | nil =>
        rw [nil_append, wordsOf_cons_sep sep] at less ⊢
        obtain ⟨v', rest⟩ := ih [] ws holds (fun none => absurd rfl none) none less
          (by rw [length_nil]; omega)
        exact ⟨v', (optionsLoop_pass sep).trans rest.1, rest.2⟩
      | cons d w =>
        rw [wordsOf_word_append (cons_ne_nil d w) run (by simpa using sep),
          tail_cons, length_cons] at less ⊢
        obtain ⟨v', set, room, holds'⟩ := (begun (cons_ne_nil d w)).ends holds
          (by omega) (by omega)
        have count : (ws ++ [d :: w]).length = ws.length + 1 := length_append
        obtain ⟨v'', rest, room', holds''⟩ := ih [] _ holds' (fun none => absurd rfl none)
          none (by rw [room, count, nil_append]; omega) (by rw [length_nil]; omega)
        rw [count, Nat.add_assoc, Nat.add_comm 1] at rest
        rw [append_assoc] at holds''
        exact ⟨v'', (optionsLoop_end sep set).trans rest, room'.trans room, holds''⟩
    | false =>
      have count : (w ++ [c]).length = w.length + 1 := length_append
      have flag : (!(w ++ [c]).isEmpty) = true := by simp
      rw [append_cons w c cit] at less ⊢
      have stored : ∃ v', v'.room = v.room ∧ Holds v' ws ∧ Begun v' ws (w ++ [c]) ∧
          optionsLoop (c :: cit ++ [0]) (!w.isEmpty) ws.length w.length v =
            optionsLoop (cit ++ [0]) true ws.length (w.length + 1) v' := by
        cases w with
        | nil =>
          obtain ⟨v', allocated, room, holds', begun'⟩ := holds.mallocArg (by omega)
          obtain ⟨v'', set, room', holds'', begun''⟩ := begun'.setChar holds' (by omega)
            (by simp [cmdLen]) sep
          exact ⟨v'', room'.trans room, holds'', begun'', optionsLoop_first sep allocated set⟩
        | cons d w =>
          obtain ⟨v', set, room, holds', begun'⟩ := (begun (cons_ne_nil d w)).setChar
            holds (by omega) (by omega) sep
          exact ⟨v', room, holds', begun', optionsLoop_letter sep set⟩
      obtain ⟨v', room, holds', begun', step⟩ := stored
      obtain ⟨v'', rest, room', holds''⟩ := ih _ ws holds' (fun _ => begun')
        (run_concat run sep) (by rw [room]; exact less) (by omega)
      rw [flag, count] at rest
      exact ⟨v'', step.trans rest, room'.trans room, holds''⟩

variable {command : CString}

structure SplitsWords (heap : ℕ → ByteMem) (command : CString) (ws : List (List UInt8)) :
    Prop where
  count : shellCountWords command = ws.length
  empty : ws = [] → shellGetOptions heap command = .ok (0, none)
  argv : ws ≠ [] → ∃ v, shellGetOptions heap command = .ok (ws.length, some v) ∧
    v.room = ws.length + 1 ∧ v.ptrs ws.length = .null ∧
    ∀ i w, ws[i]? = some w → ∃ b, v.ptrs i = .block b ∧ StringAt (v.blocks b) 0 w

/-- The words of a command shorter than `CMD_LEN`. No store halts. -/
theorem shellGetOptions_splitsWords (heap : ℕ → ByteMem) (short : command.text.length < cmdLen) :
    SplitsWords heap command (wordsOf shellIsSeparator command.text) where
  count := shellCountWords_eq command
  empty none := by
    rw [shellGetOptions, shellCountWords_eq, none]
    rfl
  argv some := by
    have count : (wordsOf shellIsSeparator command.text).length ≠ 0 :=
      fun none => some (length_eq_zero_iff.mp none)
    obtain ⟨v, pass, room, holds⟩ := optionsLoop_words command.text [] []
      (v := ⟨fun _ => .unset, (wordsOf shellIsSeparator command.text).length + 1, heap, 0⟩)
      (by simp [Holds]) (fun none => absurd rfl none) (by simp)
      (by simp) (by simpa using short)
    simp only [length_nil, Nat.zero_add, nil_append] at pass holds
    have last := Argv.setPtr_ok (v := v)
      (show (wordsOf shellIsSeparator command.text).length < v.room from room ▸ Nat.lt_succ_self _)
      .null
    refine ⟨⟨update v.ptrs (wordsOf shellIsSeparator command.text).length .null, v.room,
      v.blocks, v.next⟩, ?_, room, update_self .., fun i w is => ?_⟩
    · rw [shellGetOptions, shellCountWords_eq, if_neg count]
      change (optionsLoop _ (!([] : List UInt8).isEmpty) 0 0 _ >>= _) = _
      rw [pass, bind_ok]
      dsimp only
      rw [last, bind_ok]
    · obtain ⟨less, -⟩ := List.getElem?_eq_some_iff.mp is
      obtain ⟨b, -, ptr, stored⟩ := holds i w is
      exact ⟨b, (update_of_ne (Nat.ne_of_lt less) ..).trans ptr, stored⟩

theorem shellGetOptions_splitsWords_ls :
    SplitsWords (fun _ _ => 7) ⟨[32, 108, 115, 9, 47, 32], by decide⟩ [[108, 115], [47]] := by
  exact shellGetOptions_splitsWords _ (by decide)

end Elaborato.Mentos.Shell
