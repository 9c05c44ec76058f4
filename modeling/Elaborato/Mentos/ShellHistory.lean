import Elaborato.Foundation.Repetitions
import Elaborato.Mentos.HashmapRuns
import Elaborato.Mentos.ShellWords

/-!
The history (shell.c): a ring of ten lines with two indices and a flag once it has been filled.
-/
namespace Elaborato.Mentos.Shell
open Foundation Hashmap List Function

def historyMax : ℤ := 10

def keyUp : ℤ := 72

def keyDown : ℤ := 80

structure Command where
  str : CString
  fits : str.text.length < cmdLen
  deriving DecidableEq, Repr

structure History where
  slots : ℤ → Command
  writeIndex : ℤ
  readIndex : ℤ
  full : Bool

def noHistory : History := ⟨fun _ => ⟨⟨[], by decide⟩, by decide⟩, 0, 0, false⟩

def historyPush (s : History) (cmd : Command) : History :=
  if s.writeIndex > 0 ∧ strcmp (s.slots (s.writeIndex - 1)).str cmd.str = 0 then
    { s with readIndex := s.writeIndex }
  else
    let slots := update s.slots s.writeIndex cmd
    if s.writeIndex + 1 ≥ historyMax then ⟨slots, 0, 0, true⟩
    else ⟨slots, s.writeIndex + 1, s.writeIndex + 1, s.full⟩

def movedIndex (s : History) (key : ℤ) : ℤ :=
  if key = keyDown then s.readIndex + 1
  else if key = keyUp then s.readIndex - 1 else s.readIndex

def nextIndex (s : History) (key : ℤ) : ℤ :=
  let next := movedIndex s key
  if s.full then
    let next := if next < 0 then historyMax - 1 else if next ≥ historyMax then 0 else next
    if next = s.writeIndex then s.readIndex else next
  else if next < 0 then 0 else if next ≥ s.writeIndex then s.readIndex else next

/-- The command, NULL if there is none. -/
def historyFetch (s : History) (key : ℤ) : Option Command × History :=
  if s.writeIndex = 0 ∧ s.full = false then (none, s)
  else (some (s.slots (nextIndex s key)), { s with readIndex := nextIndex s key })

def pushAll (cmds : List Command) : History := cmds.foldl historyPush noHistory

def fetchUps (s : History) : ℕ → History
  | 0 => s
  | k + 1 => (historyFetch (fetchUps s k) keyUp).2

/-- What the next of these calls returns. -/
def recalled (s : History) (k : ℕ) : Option Command := (historyFetch (fetchUps s k) keyUp).1

def Recalls (s : History) (h : List Command) : Prop :=
  ∀ k : ℕ, k < h.length → (k : ℤ) < historyMax - 1 → recalled s k = h.reverse[k]?

variable {s : History} {cmds older round current : List Command} {cmd : Command}

structure Recorded (s : History) (cmds older round current : List Command) : Prop where
  pushed : collapse cmds = collapse (older ++ round ++ current)
  room : current.length < 10
  write : s.writeIndex = current.length
  read : s.readIndex = s.writeIndex
  currentChain : current.IsChain (· ≠ ·)
  roundChain : round.IsChain (· ≠ ·)
  wrapped : s.full = true → round.length = 10
  first : s.full = false → older = [] ∧ round = []
  currentSlots : ∀ (i : ℕ) c, current[i]? = some c → s.slots i = c
  roundSlots : ∀ (i : ℕ) c, current.length ≤ i → round[i]? = some c → s.slots i = c

theorem noHistory_recorded : Recorded noHistory [] [] [] [] where
  pushed := rfl
  room := by decide
  write := rfl
  read := rfl
  currentChain := .nil
  roundChain := .nil
  wrapped := by simp [noHistory]
  first := by simp
  currentSlots := by simp
  roundSlots := by simp

theorem strcmp_eq_zero (a b : Command) : strcmp a.str b.str = 0 ↔ a = b := by
  have texts : a = b ↔ a.str = b.str := by
    cases a
    cases b
    simp
  rw [texts, ← hashmapStringComp_iff, hashmapStringComp, beq_iff_eq]

section
variable (rec : Recorded s cmds older round current)
include rec

theorem Recorded.repeated (last : current.getLast? = some cmd) :
    Recorded { s with readIndex := s.writeIndex } (cmds ++ [cmd]) older round current where
  pushed := by
    obtain ⟨before, rfl⟩ := getLast?_eq_some_iff.mp last
    have kept : (collapse cmds).getLast? = some cmd := by
      rw [rec.pushed, ← append_assoc, getLast?_collapse_concat]
    rw [collapse_concat, if_pos kept, rec.pushed]
  room := rec.room
  write := rec.write
  read := rfl
  currentChain := rec.currentChain
  roundChain := rec.roundChain
  wrapped := rec.wrapped
  first := rec.first
  currentSlots := rec.currentSlots
  roundSlots := rec.roundSlots

theorem Recorded.update_slots (i : ℕ) (c : Command) (is : (current ++ [cmd])[i]? = some c) :
    update s.slots s.writeIndex cmd i = c := by
  rw [rec.write]
  by_cases last : i = current.length
  · rw [last, getElem?_concat_length, Option.some.injEq] at is
    rw [last, update_self, is]
  · obtain ⟨less, -⟩ := List.getElem?_eq_some_iff.mp is
    rw [length_append, length_singleton] at less
    rw [getElem?_append_left (by omega)] at is
    rw [update_of_ne (by omega), rec.currentSlots i c is]

section
variable (new : current.getLast? ≠ some cmd)
include new

theorem Recorded.chain_concat : (current ++ [cmd]).IsChain (· ≠ ·) := by
  refine isChain_append.mpr ⟨rec.currentChain, .singleton cmd, fun x last y head => ?_⟩
  obtain rfl : y = cmd := by simpa [eq_comm] using head
  exact fun same => new (same ▸ last)

theorem Recorded.stored (room : current.length + 1 < 10) :
    Recorded ⟨update s.slots s.writeIndex cmd, s.writeIndex + 1, s.writeIndex + 1, s.full⟩
      (cmds ++ [cmd]) older round (current ++ [cmd]) where
  pushed := by rw [← append_assoc, collapse_concat, rec.pushed, ← collapse_concat]
  room := by simpa using room
  write := by simp [rec.write]
  read := rfl
  currentChain := rec.chain_concat new
  roundChain := rec.roundChain
  wrapped := rec.wrapped
  first := rec.first
  currentSlots := rec.update_slots
  roundSlots := by
    intro i c behind is
    rw [length_append, length_singleton] at behind
    refine Eq.trans ?_ (rec.roundSlots i c (by omega) is)
    exact update_of_ne (by rw [rec.write]; omega) ..

theorem Recorded.storedLast (last : current.length + 1 = 10) :
    Recorded ⟨update s.slots s.writeIndex cmd, 0, 0, true⟩ (cmds ++ [cmd])
      (older ++ round) (current ++ [cmd]) [] where
  pushed := by
    rw [append_nil, ← append_assoc, collapse_concat, rec.pushed, ← collapse_concat]
  room := by decide
  write := rfl
  read := rfl
  currentChain := .nil
  roundChain := rec.chain_concat new
  wrapped := fun _ => by rw [length_append, length_singleton, last]
  first := by simp
  currentSlots := by simp
  roundSlots := fun i c _ is => rec.update_slots i c is

end

theorem Recorded.last_iff (cmd : Command) :
    (s.writeIndex > 0 ∧ strcmp (s.slots (s.writeIndex - 1)).str cmd.str = 0) ↔
      current.getLast? = some cmd := by
  rw [strcmp_eq_zero, rec.write]
  cases h : current.getLast? with
  | none =>
    rw [getLast?_eq_none_iff] at h
    simp [h]
  | some c =>
    obtain ⟨before, rfl⟩ := getLast?_eq_some_iff.mp h
    have slot := rec.currentSlots before.length c getElem?_concat_length
    have index : ((before ++ [c]).length : ℤ) - 1 = before.length := by simp
    rw [index, slot, Option.some.injEq]
    exact ⟨fun both => both.2, fun same => ⟨by simp, same⟩⟩

theorem Recorded.push (cmd : Command) :
    ∃ older' round' current',
      Recorded (historyPush s cmd) (cmds ++ [cmd]) older' round' current' := by
  rw [historyPush]
  split
  case isTrue again => exact ⟨_, _, _, rec.repeated ((rec.last_iff cmd).mp again)⟩
  case isFalse new =>
    rw [rec.last_iff] at new
    have room := rec.room
    dsimp only
    split
    case isTrue filled =>
      rw [rec.write, historyMax] at filled
      exact ⟨_, _, _, rec.storedLast new (by omega)⟩
    case isFalse more =>
      rw [rec.write, historyMax] at more
      exact ⟨_, _, _, rec.stored new (by omega)⟩

end

theorem pushAll_recorded (cmds : List Command) :
    ∃ older round current, Recorded (pushAll cmds) cmds older round current := by
  induction cmds using List.reverseRecOn with
  | nil => exact ⟨[], [], [], noHistory_recorded⟩
  | append_singleton cmds cmd ih =>
    obtain ⟨older, round, current, rec⟩ := ih
    rw [pushAll, foldl_concat]
    exact rec.push cmd

def slotBack (w k : ℕ) : ℤ := if k ≤ w then w - k else historyMax + w - k

theorem movedIndex_up (s : History) : movedIndex s keyUp = s.readIndex - 1 := by
  rw [movedIndex, if_neg (by decide), if_pos rfl]

theorem nextIndex_up_full (filled : s.full = true) (low : 0 ≤ s.readIndex)
    (high : s.readIndex ≤ historyMax) {next : ℤ}
    (is : next = if s.readIndex = 0 then historyMax - 1 else s.readIndex - 1)
    (other : next ≠ s.writeIndex) : nextIndex s keyUp = next := by
  have wrapped : (if s.readIndex - 1 < 0 then historyMax - 1
      else if s.readIndex - 1 ≥ historyMax then 0 else s.readIndex - 1) = next := by
    rw [is]
    split_ifs <;> omega
  rw [nextIndex, if_pos filled, movedIndex_up, wrapped, if_neg other]

theorem nextIndex_up_first (first : s.full = false) (low : 0 < s.readIndex)
    (high : s.readIndex ≤ s.writeIndex) : nextIndex s keyUp = s.readIndex - 1 := by
  rw [nextIndex, first, if_neg Bool.false_ne_true, movedIndex_up, if_neg (by omega),
    if_neg (by omega)]

variable {k : ℕ}

section
variable (rec : Recorded s cmds older round current) (nine : k < 9)
  (less : k < (round ++ current).length)
include rec nine less

theorem Recorded.nextIndex_up :
    nextIndex { s with readIndex := slotBack current.length k } keyUp =
      slotBack current.length (k + 1) := by
  have room := rec.room
  have write := rec.write
  rw [length_append] at less
  obtain filled | first := Bool.eq_false_or_eq_true s.full
  · apply nextIndex_up_full (s := { s with readIndex := slotBack current.length k }) filled
    all_goals simp only [slotBack, historyMax, write]
    all_goals split_ifs <;> omega
  · rw [(rec.first first).2, length_nil] at less
    have here : slotBack current.length k = current.length - k := if_pos (by omega)
    have there : slotBack current.length (k + 1) = current.length - (k + 1 : ℕ) := if_pos (by omega)
    rw [nextIndex_up_first (s := { s with readIndex := slotBack current.length k }) first]
    all_goals simp only [here, there, write]
    all_goals omega

theorem Recorded.fetch_up :
    historyFetch { s with readIndex := slotBack current.length k } keyUp =
      (some (s.slots (slotBack current.length (k + 1))),
        { s with readIndex := slotBack current.length (k + 1) }) := by
  have holds : ¬ (s.writeIndex = 0 ∧ s.full = false) := by
    intro empty
    rw [(rec.first empty.2).2, nil_append] at less
    have write := rec.write
    omega
  rw [historyFetch, if_neg holds, rec.nextIndex_up nine less]

omit rec nine less in
theorem Recorded.fetchUps_eq (rec : Recorded s cmds older round current) (nine : k ≤ 9)
    (le : k ≤ (round ++ current).length) :
    fetchUps s k = { s with readIndex := slotBack current.length k } := by
  induction k with
  | zero =>
    have start : slotBack current.length 0 = s.readIndex := by
      rw [rec.read, rec.write]
      exact (if_pos (Nat.zero_le _)).trans (Int.sub_zero _)
    rw [start]
    rfl
  | succ k ih => rw [fetchUps, ih (by omega) (by omega), rec.fetch_up nine le]

theorem Recorded.recalled_eq : recalled s k = (round ++ current).reverse[k]? := by
  rw [recalled, rec.fetchUps_eq (Nat.le_of_lt nine) (Nat.le_of_lt less), rec.fetch_up nine less]
  have room := rec.room
  rw [length_append] at less
  rw [getElem?_reverse (by rw [length_append]; exact less), length_append]
  by_cases now : k < current.length
  · have index : slotBack current.length (k + 1) = (current.length - 1 - k : ℕ) := by
      rw [slotBack, if_pos (by omega)]
      omega
    have there := getElem?_eq_getElem (show current.length - 1 - k < current.length by omega)
    rw [getElem?_append_right (by omega),
      show round.length + current.length - 1 - k - round.length = current.length - 1 - k by omega,
      index, there, rec.currentSlots _ _ there]
  · have ten : round.length = 10 := by
      apply rec.wrapped
      by_contra first
      rw [(rec.first (Bool.eq_false_iff.mpr first)).2, length_nil] at less
      omega
    have index : slotBack current.length (k + 1) = (round.length + current.length - 1 - k : ℕ) := by
      rw [slotBack, if_neg (by omega), historyMax]
      omega
    have there := getElem?_eq_getElem
      (show round.length + current.length - 1 - k < round.length by omega)
    rw [getElem?_append_left (by omega), index, there, rec.roundSlots _ _ (by omega) there]

end

def Repeats (s : History) : Prop :=
  s.full = true ∧ 1 ≤ s.writeIndex ∧ s.writeIndex ≤ historyMax - 2 ∧
    s.slots (historyMax - 1) = s.slots 0

variable {d : List Command}

section
variable (rec : Recorded s cmds older round current)
include rec

theorem Recorded.recalls_iff {h : List Command}
    (count : h.length ≤ (round ++ current).length ∨ 9 ≤ (round ++ current).length) :
    Recalls s h ↔ ∀ k < h.length, k < 9 → (round ++ current).reverse[k]? = h.reverse[k]? := by
  refine ⟨fun recalls k less nine => ?_, fun same k less nine => ?_⟩
  · rw [← recalls k less (by rw [historyMax]; omega), rec.recalled_eq nine (by omega)]
  · rw [historyMax] at nine
    rw [rec.recalled_eq (by omega) (by omega), same k less (by omega)]

theorem Recorded.recalls_of_suffix (count : d = [] ∨ 9 ≤ (round ++ current).length) :
    Recalls s (d ++ (round ++ current)) := by
  refine (rec.recalls_iff ?_).mpr fun k less nine => ?_
  · exact count.imp_left fun none => by rw [none, nil_append]
  · have inside : k < (round ++ current).length := by
      obtain rfl | nine' := count
      · exact less
      · omega
    have parts : (d ++ (round ++ current)).reverse = (round ++ current).reverse ++ d.reverse :=
      reverse_append
    rw [parts, getElem?_append_left (by rwa [length_reverse])]

theorem Recorded.last_slot (filled : s.full = true) :
    round.getLast? = some (s.slots (historyMax - 1)) := by
  have ten := rec.wrapped filled
  have room := rec.room
  have there := getElem?_eq_getElem (show 9 < round.length by omega)
  have slot : s.slots (historyMax - 1) = _ := rec.roundSlots 9 _ (by omega) there
  rw [getLast?_eq_getElem?, ten, there, slot]

end

variable {c : Command} {rest : List Command}

theorem Recorded.recalls_repeated {before : List Command}
    (rec : Recorded s cmds older (before ++ [c]) (c :: rest)) (filled : s.full = true) :
    Recalls s (d ++ (before ++ [c]) ++ rest) ↔ 8 ≤ rest.length := by
  have ten := rec.wrapped filled
  rw [length_append, length_singleton] at ten
  have ring : (before ++ [c] ++ c :: rest).reverse =
      (c :: rest).reverse ++ c :: before.reverse := by
    simp
  have kept : (d ++ (before ++ [c]) ++ rest).reverse =
      (c :: rest).reverse ++ (before.reverse ++ d.reverse) := by
    simp
  have size : (c :: rest).reverse.length = rest.length + 1 := by simp
  rw [rec.recalls_iff (.inr (by simp; omega)), ring, kept]
  refine ⟨fun same => ?_, fun long k less nine => ?_⟩
  · by_contra short
    have last : before.reverse ≠ [] := by
      intro none
      rw [reverse_eq_nil_iff.mp none, length_nil] at ten
      omega
    obtain ⟨x, others, parts⟩ := exists_cons_of_ne_nil last
    have chain := (isChain_append.mp rec.roundChain).2.2
    have differs := same (rest.length + 1) (by simp; omega) (by omega)
    rw [← size, getElem?_append_right (Nat.le_refl _),
      getElem?_append_right (Nat.le_refl _), Nat.sub_self, parts] at differs
    have twice : c = x := by simpa using differs
    have ends : before.getLast? = some c := by
      rw [← head?_reverse, parts, twice]
      rfl
    exact chain c ends c rfl rfl
  · rw [getElem?_append_left (by omega), getElem?_append_left (by omega)]

theorem Recorded.recalls_again (rec : Recorded s cmds older round (c :: rest))
    (filled : s.full = true) : Recalls s (collapse cmds) ↔ ¬ Repeats s := by
  have ten := rec.wrapped filled
  have nonempty : round ≠ [] := ne_nil_of_length_pos (by omega)
  have last := rec.last_slot filled
  have slot : s.slots 0 = c := rec.currentSlots 0 c rfl
  have write : s.writeIndex = rest.length + 1 := rec.write
  obtain ⟨d, ends⟩ := collapse_append_eq older nonempty rec.roundChain
  rw [rec.pushed, collapse_append_chain (older ++ round) rec.currentChain, collapse_concat, ends,
    getLast?_append_of_ne_nil d nonempty, last]
  by_cases same : s.slots (historyMax - 1) = c
  · rw [same] at last
    obtain ⟨before, rfl⟩ := getLast?_eq_some_iff.mp last
    rw [if_pos (congrArg some same), rec.recalls_repeated filled, Repeats, write, slot, same,
      historyMax]
    simp only [filled, true_and, and_true]
    omega
  · have new : ¬ Repeats s := fun twice => same (twice.2.2.2.trans slot)
    have recalls := rec.recalls_of_suffix (d := d) (.inr (by rw [length_append]; omega))
    rw [if_neg fun equal => same (Option.some.inj equal), append_assoc (d ++ round), append_assoc d]
    exact iff_of_true recalls new

/-- The last commands come back unless a command pushed twice begins the round. -/
theorem pushAll_recalls_iff (cmds : List Command) :
    Recalls (pushAll cmds) (collapse cmds) ↔ ¬ Repeats (pushAll cmds) := by
  obtain ⟨older, round, current, rec⟩ := pushAll_recorded cmds
  obtain filled | first := Bool.eq_false_or_eq_true (pushAll cmds).full
  · cases current with
    | nil =>
      have ten := rec.wrapped filled
      obtain ⟨d, ends⟩ := collapse_append_eq older (ne_nil_of_length_pos (by omega))
        rec.roundChain
      have recalls := rec.recalls_of_suffix (d := d) (.inr (by rw [length_append]; omega))
      rw [rec.pushed, append_nil, ends]
      rw [append_nil] at recalls
      refine iff_of_true recalls fun twice => ?_
      have low := twice.2.1
      rw [rec.write] at low
      exact absurd low (by decide)
    | cons c rest => exact rec.recalls_again filled
  · have recalls := rec.recalls_of_suffix (d := []) (.inl rfl)
    obtain ⟨rfl, rfl⟩ := rec.first first
    have whole : collapse current = current := destutter_of_isChain _ _ rec.currentChain
    rw [rec.pushed, nil_append, nil_append, whole]
    refine iff_of_true recalls fun twice => ?_
    rw [twice.1] at first
    exact Bool.noConfusion first

theorem letter_noNul (k : ℕ) : 0 ∉ [UInt8.ofNat (97 + k % 26)] := by
  rw [mem_singleton]
  intro zero
  have value := congrArg UInt8.toNat zero
  rw [UInt8.toNat_ofNat', show UInt8.toNat 0 = 0 from rfl] at value
  omega

theorem letter_short (k : ℕ) : [UInt8.ofNat (97 + k % 26)].length < cmdLen :=
  Nat.one_lt_two_pow (by decide : 8 ≠ 0)

/-- A command of one letter. -/
def letter (k : ℕ) : Command := ⟨⟨[UInt8.ofNat (97 + k % 26)], letter_noNul k⟩, letter_short k⟩

theorem repeated_tenth_recalled :
    ¬ Recalls (pushAll ((List.range 10).map letter ++ [letter 9]))
      (collapse ((List.range 10).map letter ++ [letter 9])) := by
  intro recalls
  exact absurd (recalls 1 (by decide +kernel) (by decide)) (by decide +kernel)

end Elaborato.Mentos.Shell
