import Elaborato.Foundation.Execution
import Elaborato.Mentos.Video

/-!
Where `screen.pointer` goes, as arithmetic on cells: 80 to a line, 2000 on the screen.
-/
namespace Elaborato.Mentos.Video
open Foundation

variable {k q : ℕ}

/-- The address of a cell of two bytes. -/
def cellPtr (k : ℕ) : UInt32 := memory + UInt32.ofNat (2 * k)

theorem cellPtr_toNat (small : k ≤ 4000) : (cellPtr k).toNat = 753664 + 2 * k := by
  have base : memory.toNat = 753664 := rfl
  rw [cellPtr, UInt32.toNat_add, UInt32.toNat_ofNat', base]
  omega

theorem cellPtr_sub (k : ℕ) : cellPtr k - memory = UInt32.ofNat (2 * k) := by
  rw [cellPtr]
  grind

theorem cellPtr_line (small : k ≤ 4000) :
    (cellPtr k - memory) / (screenWidth * 2) = UInt32.ofNat (k / 80) := by
  have width : (screenWidth * 2).toNat = 160 := rfl
  apply UInt32.toNat_inj.mp
  rw [cellPtr_sub, UInt32.toNat_div, width, UInt32.toNat_ofNat', UInt32.toNat_ofNat']
  omega

theorem cellPtr_column (small : k ≤ 4000) :
    (cellPtr k - memory) % (screenWidth * 2) / 2 = UInt32.ofNat (k % 80) := by
  have width : (screenWidth * 2).toNat = 160 := rfl
  have two : (2 : UInt32).toNat = 2 := rfl
  apply UInt32.toNat_inj.mp
  rw [cellPtr_sub, UInt32.toNat_div, UInt32.toNat_mod, width, two, UInt32.toNat_ofNat',
    UInt32.toNat_ofNat']
  omega

theorem lineStart_eq (q : ℕ) : memory + UInt32.ofNat q * (screenWidth * 2) = cellPtr (80 * q) := by
  have width : screenWidth * 2 = UInt32.ofNat 160 := rfl
  rw [cellPtr, width, ← UInt32.ofNat_mul]
  congr 2
  omega

theorem ofNat_pred (least : 1 ≤ q) : UInt32.ofNat q - 1 = UInt32.ofNat (q - 1) := by
  obtain ⟨q, rfl⟩ := Nat.exists_eq_succ_of_ne_zero (show q ≠ 0 by omega)
  rw [Nat.succ_eq_add_one, UInt32.ofNat_add, Nat.add_sub_cancel]
  grind

theorem cellPtr_succ (k : ℕ) : cellPtr k + 1 + 1 = cellPtr (k + 1) := by
  rw [cellPtr, cellPtr, Nat.mul_succ, UInt32.ofNat_add]
  grind

theorem cellPtr_pred (k : ℕ) : cellPtr (k + 1) - 2 = cellPtr k := by
  rw [← cellPtr_succ]
  grind

variable {d : Display} {n : ℕ}

/-- The pointer is at a cell of the screen. -/
def OnCell (d : Display) : Prop := ∃ k < 2000, d.pointer = cellPtr k

section
variable (here : d.pointer = cellPtr k)
include here

theorem shift_stays (less : k < 2000) : d.videoShiftOneLine = d := by
  have bottom : (memory + screenHeight * screenWidth * 2).toNat = 757664 := rfl
  refine if_neg fun below => ?_
  have address := UInt32.le_iff_toNat_le.mp below
  rw [here, cellPtr_toNat (by omega), bottom] at address
  omega

theorem shift_pointer (least : 2000 ≤ k) (small : k ≤ 4000) :
    d.videoShiftOneLine.pointer = cellPtr (80 * (k / 80 - 1)) := by
  have bottom : (memory + screenHeight * screenWidth * 2).toNat = 757664 := rfl
  have below : d.pointer ≥ memory + screenHeight * screenWidth * 2 := by
    apply UInt32.le_iff_toNat_le.mpr
    rw [here, cellPtr_toNat small, bottom]
    omega
  rw [Display.videoShiftOneLine, if_pos below]
  dsimp only
  rw [here, cellPtr_line small, ofNat_pred (by omega), lineStart_eq]

theorem shift_onCell (le : k ≤ 2000) : OnCell d.videoShiftOneLine := by
  by_cases less : k < 2000
  · rw [shift_stays here less]
    exact ⟨k, less, here⟩
  · have last : k = 2000 := by omega
    refine ⟨_, ?_, shift_pointer here (by omega) (by omega)⟩
    rw [last]
    decide

theorem drawChar_pointer (c : UInt8) : (d.drawChar c).pointer = cellPtr (k + 1) := by
  rw [Display.drawChar, here, cellPtr_succ]

theorem newLine_pointer (small : k ≤ 2000) :
    d.videoNewLine = Display.videoShiftOneLine
      { d with pointer := cellPtr (80 * (k / 80 + 1)) } := by
  rw [Display.videoNewLine, here, cellPtr_line (by omega), ← lineStart_eq, UInt32.ofNat_add]
  rfl

theorem drawTabs_pointer : (Display.drawTabs n d).pointer = cellPtr (k + n) := by
  induction n generalizing d k with
  | zero => exact here
  | succ n ih =>
    rw [Display.drawTabs, ih (drawChar_pointer here 9)]
    congr 1
    omega

theorem getColumn_cell (small : k ≤ 4000) : d.videoGetColumn = UInt32.ofNat (k % 80) := by
  have base : memory.toNat = 753664 := rfl
  rw [Display.videoGetColumn, here, cellPtr_column small, if_neg]
  rw [UInt32.lt_iff_toNat_lt, cellPtr_toNat small, base]
  omega

theorem getLine_cell (small : k ≤ 4000) : d.videoGetLine = UInt32.ofNat (k / 80) := by
  have base : memory.toNat = 753664 := rfl
  rw [Display.videoGetLine, here, cellPtr_line small, if_neg]
  rw [UInt32.lt_iff_toNat_lt, cellPtr_toNat small, base]
  omega

omit here in
theorem column_toNat (k : ℕ) : (UInt32.ofNat (k % 80)).toNat = k % 80 := by
  rw [UInt32.toNat_ofNat']
  omega

theorem putTab_pointer (small : k ≤ 2000) : d.videoPutTab.pointer = cellPtr (k + (4 - k % 4)) := by
  have tabs := drawTabs_pointer (d := { d with foregroundColor := d.backgroundColor })
    (n := 4 - d.videoGetColumn.toNat % 4) here
  rw [getColumn_cell here (by omega), column_toNat, Nat.mod_mod_of_dvd k (by decide)] at tabs
  rw [Display.videoPutTab, getColumn_cell here (by omega), column_toNat,
    Nat.mod_mod_of_dvd k (by decide)]
  exact tabs

omit here in
theorem eraseChar_pointer (d : Display) : d.eraseChar.pointer = d.pointer - 2 := by
  have back : d.pointer - 2 + 1 + 1 - 2 = d.pointer - 2 := by grind
  exact back

theorem eraseTabs_pointer (le : n ≤ k) : ∃ j ≤ k, (Display.eraseTabs n d).pointer = cellPtr j := by
  induction n generalizing d k with
  | zero => exact ⟨k, Nat.le_refl k, here⟩
  | succ n ih =>
    rw [Display.eraseTabs]
    split
    · exact ⟨k, Nat.le_refl k, here⟩
    · obtain ⟨k, rfl⟩ := Nat.exists_eq_succ_of_ne_zero (show k ≠ 0 by omega)
      have before : d.eraseChar.pointer = cellPtr k := by
        rw [eraseChar_pointer, here]
        exact cellPtr_pred k
      obtain ⟨j, leJ, is⟩ := ih before (by omega)
      exact ⟨j, by omega, is⟩

end

theorem shift_before (low : d.pointer < memory) : d.videoShiftOneLine = d := by
  have order : memory.toNat ≤ (memory + screenHeight * screenWidth * 2).toNat := by decide
  refine if_neg fun below => ?_
  have address := UInt32.le_iff_toNat_le.mp below
  have less := UInt32.lt_iff_toNat_lt.mp low
  omega

theorem eraseChar_mem {a : UInt32} (first : a ≠ d.pointer - 2) (second : a ≠ d.pointer - 2 + 1) :
    d.eraseChar.mem a = d.mem a :=
  (Function.update_of_ne second ..).trans (Function.update_of_ne first ..)

theorem delete_editable {x y : UInt32} (editable : y ≠ d.videoGetLine ∨ x < d.videoGetColumn) :
    ∃ e : Display, e.pointer = d.pointer ∧ e.mem = d.mem ∧
      d.videoDeleteLastCharacter x y = if e.mem (e.pointer - 2) = 9 then
        Display.eraseTabs (4 - d.videoGetColumn.toNat % 4) e else e.eraseChar :=
  ⟨{ d with foregroundColor := white, backgroundColor := black }, rfl, rfl, if_pos editable⟩

theorem eraseTabs_first (here : d.pointer = cellPtr 1) (first : d.mem memory = 9) :
    if d.mem (memory - 2) = 9 then (Display.eraseTabs 3 d).pointer < memory
    else (Display.eraseTabs 3 d).pointer = cellPtr 0 := by
  have back : d.pointer - 2 = memory := by
    rw [here]
    decide
  have start : d.eraseChar.pointer = memory := (eraseChar_pointer d).trans back
  have kept : d.eraseChar.mem (memory - 2) = d.mem (memory - 2) :=
    eraseChar_mem (by rw [back]; decide) (by rw [back]; decide)
  rw [Display.eraseTabs, back, if_neg (not_not.mpr first), Display.eraseTabs, start, kept]
  by_cases outside : d.mem (memory - 2) = 9
  · rw [if_pos outside, if_neg (not_not.mpr outside), Display.eraseTabs]
    split
    · rw [eraseChar_pointer, start]
      decide
    · rw [Display.eraseTabs, eraseChar_pointer, eraseChar_pointer, start]
      decide
  · rw [if_neg outside, if_pos outside, start]
    decide

theorem delete_onCell (here : d.pointer = cellPtr k) (less : k < 2000)
    (safe : ¬ (k = 1 ∧ d.mem memory = 9 ∧ d.mem (memory - 2) = 9)) :
    ∃ j ≤ k, (d.videoDeleteLastCharacter 0 0).pointer = cellPtr j := by
  by_cases editable : 0 ≠ d.videoGetLine ∨ 0 < d.videoGetColumn
  · obtain ⟨e, pointer, mem, deleted⟩ := delete_editable editable
    rw [deleted, getColumn_cell here (by omega), column_toNat, Nat.mod_mod_of_dvd k (by decide)]
    rw [getLine_cell here (by omega), getColumn_cell here (by omega)] at editable
    rw [← pointer] at here
    have some : k ≠ 0 := by
      rintro rfl
      exact absurd editable (by decide)
    obtain ⟨k, rfl⟩ := Nat.exists_eq_succ_of_ne_zero some
    have back : e.pointer - 2 = cellPtr k := by
      rw [here]
      exact cellPtr_pred k
    split
    case isFalse =>
      refine ⟨k, Nat.le_succ k, ?_⟩
      rw [eraseChar_pointer]
      exact back
    case isTrue tab =>
      by_cases one : k = 0
      · subst one
        have first : e.mem memory = 9 := by rwa [back] at tab
        have blank : e.mem (memory - 2) ≠ 9 := fun outside =>
          safe ⟨rfl, mem ▸ first, mem ▸ outside⟩
        have stays := eraseTabs_first here first
        rw [if_neg blank] at stays
        exact ⟨0, Nat.zero_le 1, stays⟩
      · exact eraseTabs_pointer here (by omega)
  · rw [Display.videoDeleteLastCharacter, if_neg editable]
    exact ⟨k, Nat.le_refl k, here⟩

theorem delete_before (here : d.pointer = cellPtr 1) (first : d.mem memory = 9)
    (outside : d.mem (memory - 2) = 9) : (d.videoDeleteLastCharacter 0 0).pointer < memory := by
  have column : d.videoGetColumn = 1 := getColumn_cell here (by decide)
  have back : d.pointer - 2 = memory := by
    rw [here]
    decide
  obtain ⟨e, pointer, mem, deleted⟩ := delete_editable (d := d) (x := 0) (y := 0)
    (.inr (by rw [column]; decide))
  rw [← pointer] at here back
  rw [← mem] at first outside
  have goes := eraseTabs_first here first
  rw [if_pos outside] at goes
  rw [deleted, back, if_pos first, column]
  exact goes

theorem return_pointer (here : d.pointer = cellPtr k) (least : 80 ≤ k) (less : k < 2000) :
    d.videoCartridgeReturn.pointer = cellPtr (80 * (k / 80)) := by
  have before : memory + ((d.pointer - memory) / (screenWidth * 2) - 1) * (screenWidth * 2) =
      cellPtr (80 * (k / 80 - 1)) := by
    rw [here, cellPtr_line (by omega), ofNat_pred (by omega), lineStart_eq]
  have line := newLine_pointer (d := { d with pointer := cellPtr (80 * (k / 80 - 1)) }) rfl
    (by omega)
  rw [show 80 * (80 * (k / 80 - 1) / 80 + 1) = 80 * (k / 80) by omega,
    shift_stays (k := 80 * (k / 80)) rfl (by omega)] at line
  rw [Display.videoCartridgeReturn, before, line, shift_stays (k := 80 * (k / 80)) rfl (by omega)]

theorem return_before (here : d.pointer = cellPtr k) (first : k < 80) :
    d.videoCartridgeReturn.pointer < memory := by
  have none : (d.pointer - memory) / (screenWidth * 2) = 0 := by
    rw [here, cellPtr_line (by omega), Nat.div_eq_of_lt first]
    rfl
  have low : memory + ((memory + (0 - 1) * (screenWidth * 2) - memory) / (screenWidth * 2) + 1) *
      (screenWidth * 2) < memory := by decide
  have line : Display.videoNewLine { d with pointer := memory + (0 - 1) * (screenWidth * 2) } =
      { d with pointer := memory + ((memory + (0 - 1) * (screenWidth * 2) - memory) /
        (screenWidth * 2) + 1) * (screenWidth * 2) } := by
    rw [Display.videoNewLine]
    exact shift_before low
  rw [Display.videoCartridgeReturn, none, line, shift_before low]
  exact low

variable {c : ℤ}

structure KeepsInside (d : Display) (c : ℤ) : Prop where
  lineBefore : c = 13 → memory + screenWidth * 2 ≤ d.pointer
  noTabBefore : c = 8 → ¬ (d.pointer = memory + 2 ∧ d.mem memory = 9 ∧ d.mem (memory - 2) = 9)

section
variable (here : d.pointer = cellPtr k) (less : k < 2000)
include here less

theorem secondLine_iff : memory + screenWidth * 2 ≤ d.pointer ↔ 80 ≤ k := by
  have line : (memory + screenWidth * 2).toNat = 753824 := rfl
  rw [UInt32.le_iff_toNat_le, here, cellPtr_toNat (by omega), line]
  omega

theorem secondCell_iff : d.pointer = memory + 2 ↔ k = 1 := by
  have cell : (memory + 2).toNat = 753666 := rfl
  rw [← UInt32.toNat_inj, here, cellPtr_toNat (by omega), cell]
  omega

theorem put_onCell (inside : KeepsInside d c) : OnCell (d.put 0 0 c) := by
  have moved (e : Display) (cell : ∃ j ≤ 2000, e.pointer = cellPtr j) :
      OnCell e.videoShiftOneLine := by
    obtain ⟨j, le, there⟩ := cell
    exact shift_onCell there le
  rw [Display.put]
  apply moved
  split
  · rw [newLine_pointer here (by omega)]
    obtain ⟨j, lessJ, there⟩ := shift_onCell
      (d := { d with pointer := cellPtr (80 * (k / 80 + 1)) }) rfl (by omega)
    exact ⟨j, by omega, there⟩
  split
  · exact ⟨k, by omega, here⟩
  split
  · exact ⟨_, by omega, putTab_pointer here (by omega)⟩
  split
  case isTrue erases =>
    obtain ⟨j, le, there⟩ := delete_onCell here less fun tabs => by
      exact inside.noTabBefore erases ⟨(secondCell_iff here less).mpr tabs.1, tabs.2⟩
    exact ⟨j, by omega, there⟩
  split
  case isTrue returns =>
    have least := (secondLine_iff here less).mp (inside.lineBefore returns)
    exact ⟨_, by omega, return_pointer here least less⟩
  · exact ⟨k + 1, by omega, drawChar_pointer here _⟩

theorem put_return (inside : KeepsInside d 13) :
    (d.put 0 0 13).pointer = memory + d.videoGetLine * (screenWidth * 2) := by
  have least := (secondLine_iff here less).mp (inside.lineBefore rfl)
  have there := return_pointer here least less
  have chosen : d.put 0 0 13 = d.videoCartridgeReturn.videoShiftOneLine := rfl
  rw [chosen, shift_stays there (by omega), there, getLine_cell here (by omega), lineStart_eq]

theorem put_before (leaves : ¬ KeepsInside d c) : (d.put 0 0 c).pointer < memory := by
  by_cases erases : c = 8
  · have tabs : d.pointer = memory + 2 ∧ d.mem memory = 9 ∧ d.mem (memory - 2) = 9 := by
      by_contra none
      exact leaves ⟨fun is => by omega, fun _ => none⟩
    have one := (secondCell_iff here less).mp tabs.1
    have low := delete_before (one ▸ here) tabs.2.1 tabs.2.2
    have chosen : d.put 0 0 8 = (d.videoDeleteLastCharacter 0 0).videoShiftOneLine := rfl
    rw [erases, chosen, shift_before low]
    exact low
  · have returns : c = 13 := by
      by_contra other
      exact leaves ⟨fun is => absurd is other, fun is => absurd is erases⟩
    have first : k < 80 := by
      by_contra least
      refine leaves ⟨fun _ => (secondLine_iff here less).mpr (by omega), fun is => absurd is erases⟩
    have low := return_before here first
    have chosen : d.put 0 0 13 = d.videoCartridgeReturn.videoShiftOneLine := rfl
    rw [returns, chosen, shift_before low]
    exact low

end

variable {s : Screen} {trace : List (Screen × ℤ)} {ram : Memory.Bytes}

structure OnScreen (s : Screen) : Prop where
  low : memory ≤ s.display.pointer
  high : s.display.pointer < memory + screenHeight * screenWidth * 2
  even : (s.display.pointer - memory) % 2 = 0

theorem onScreen_iff (s : Screen) : OnScreen s ↔ OnCell s.display := by
  have base : memory.toNat = 753664 := rfl
  have bottom : (memory + screenHeight * screenWidth * 2).toNat = 757664 := rfl
  have two : (2 : UInt32).toNat = 2 := rfl
  constructor
  · intro on
    have low := UInt32.le_iff_toNat_le.mp on.low
    have high := UInt32.lt_iff_toNat_lt.mp on.high
    have even := congrArg UInt32.toNat on.even
    have top := s.display.pointer.toNat_lt
    rw [UInt32.toNat_mod, UInt32.toNat_sub, two, base, UInt32.toNat_zero] at even
    refine ⟨(s.display.pointer.toNat - 753664) / 2, by omega, UInt32.toNat_inj.mp ?_⟩
    rw [cellPtr_toNat (by omega)]
    omega
  · rintro ⟨k, less, here⟩
    refine ⟨?_, ?_, ?_⟩
    · rw [UInt32.le_iff_toNat_le, here, cellPtr_toNat (by omega), base]
      omega
    · rw [UInt32.lt_iff_toNat_lt, here, cellPtr_toNat (by omega), bottom]
      omega
    · apply UInt32.toNat_inj.mp
      rw [here, cellPtr_sub, UInt32.toNat_mod, UInt32.toNat_ofNat', two, UInt32.toNat_zero]
      omega

def ReturnsInLine (s : Screen) (c : ℤ) : Prop :=
  c = 13 → (videoPutc s c).display.pointer = memory + s.display.videoGetLine * (screenWidth * 2)

structure Plain (s : Screen) : Prop where
  onCell : OnCell s.display
  stored : s.storedX = 0
  boundX : s.lowerBoundX = 0
  boundY : s.lowerBoundY = 0

theorem Plain.putc (plain : Plain s) (c : ℤ) :
    videoPutc s c = { s with display := s.display.put 0 0 c } := by
  have stays : ¬ (s.storedX ≠ 0 ∧ s.storedY ≠ 0) := fun both => both.1 plain.stored
  simp only [videoPutc, if_neg stays, plain.boundX, plain.boundY]

theorem videoInit_plain (ram : Memory.Bytes) : Plain (videoInit ram 0 0) :=
  ⟨⟨0, by decide, rfl⟩, rfl, rfl, rfl⟩

/-- The pointer stays on the screen exactly if each character keeps it inside. -/
theorem screen_run_iff (run : Exec PutcStep (videoInit ram 0 0) trace s) :
    (Always OnScreen trace s ∧ ∀ e ∈ trace, ReturnsInLine e.1 e.2) ↔
      ∀ e ∈ trace, KeepsInside e.1.display e.2 := by
  have implies (s : Screen) (plain : Plain s) : OnScreen s := (onScreen_iff s).mpr plain.onCell
  have preserved (s : Screen) (c : ℤ) (t : Screen) (plain : Plain s) (step : PutcStep s c t)
      (inside : KeepsInside s.display c) : Plain t ∧ ReturnsInLine s c := by
    obtain ⟨k, less, here⟩ := plain.onCell
    rw [step, ReturnsInLine, plain.putc]
    refine ⟨⟨put_onCell here less inside, plain.stored, plain.boundX, plain.boundY⟩, ?_⟩
    rintro rfl
    exact put_return here less inside
  have broken (s : Screen) (c : ℤ) (t : Screen) (plain : Plain s) (step : PutcStep s c t)
      (leaves : ¬ KeepsInside s.display c) (on : OnScreen t) : ¬ ReturnsInLine s c := by
    obtain ⟨k, less, here⟩ := plain.onCell
    have low := put_before here less leaves
    have least := on.low
    rw [step, plain.putc] at least
    exact absurd least (UInt32.not_le.mpr low)
  exact exec_always_and_iff (videoInit_plain ram) implies preserved broken run

theorem screen_run_iff_letter :
    Always OnScreen [(videoInit (fun _ => 0) 0 0, (97 : ℤ))]
      (videoPutc (videoInit (fun _ => 0) 0 0) 97) := by
  have run : Exec PutcStep (videoInit (fun _ => 0) 0 0) [(videoInit (fun _ => 0) 0 0, (97 : ℤ))]
      (videoPutc (videoInit (fun _ => 0) 0 0) 97) := Exec.refl.next rfl
  refine ((screen_run_iff run).mpr fun e mem => ?_).1
  rw [List.mem_singleton.mp mem]
  exact ⟨by decide, by decide⟩

theorem return_leaves_screen :
    Exec PutcStep (videoInit (fun _ => 0) 0 0) [(videoInit (fun _ => 0) 0 0, (13 : ℤ))]
        (videoPutc (videoInit (fun _ => 0) 0 0) 13) ∧
      ¬ OnScreen (videoPutc (videoInit (fun _ => 0) 0 0) 13) := by
  refine ⟨Exec.refl.next rfl, fun on => ?_⟩
  exact absurd on.low (by decide)

end Elaborato.Mentos.Video
