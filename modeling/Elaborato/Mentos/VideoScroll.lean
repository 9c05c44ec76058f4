import Elaborato.Foundation.Updates
import Elaborato.Mentos.VideoPointer

/-!
Scrolling up and back: output scrolls back first only if both coordinates are non-zero.
-/
namespace Elaborato.Mentos.Video
open Foundation List Function

theorem byteAddress_toNat {yx : ℕ × ℕ} (mem : yx ∈ screenBytes) :
    (byteAddress yx).toNat = 753664 + 160 * yx.1 + yx.2 ∧ yx.2 < 160 := by
  have base : memory.toNat = 753664 := rfl
  have width : (screenWidth * 2).toNat = 160 := rfl
  have height : screenHeight.toNat = 25 := rfl
  rw [screenBytes, width, height] at mem
  obtain ⟨line, byte⟩ := mem_product.mp mem
  rw [mem_range] at line byte
  rw [byteAddress, UInt32.toNat_add, UInt32.toNat_ofNat', base, width]
  omega

theorem screenBytes_nodup : screenBytes.Nodup := nodup_range.product nodup_range

theorem byteAddress_nodup : (screenBytes.map byteAddress).Nodup := by
  refine screenBytes_nodup.map_on fun a memA b memB same => ?_
  obtain ⟨addressA, lessA⟩ := byteAddress_toNat memA
  obtain ⟨addressB, lessB⟩ := byteAddress_toNat memB
  rw [same] at addressA
  exact Prod.ext (by omega) (by omega)

theorem setByte_self (rows : Rows) (yx : ℕ × ℕ) (b : UInt8) :
    setByte rows yx.1 yx.2 b yx.1 yx.2 = b := by
  rw [setByte, update_self, update_self]

theorem setByte_other (rows : Rows) {yx zw : ℕ × ℕ} (other : zw ≠ yx) (b : UInt8) :
    setByte rows yx.1 yx.2 b zw.1 zw.2 = rows zw.1 zw.2 := by
  rw [setByte]
  by_cases line : zw.1 = yx.1
  · have byte : zw.2 ≠ yx.2 := fun same => other (Prod.ext line same)
    rw [line, update_self, update_of_ne byte]
  · rw [update_of_ne line]

theorem swap_fold {l : List (ℕ × ℕ)} (distinct : (l.map byteAddress).Nodup) (rows : Rows)
    (m : Memory.Bytes) (down : Rows) :
    (l.foldl (swapByte rows) (m, down)).1 =
        writeAll byteAddress (fun yx => rows yx.1 yx.2) m l ∧
      (∀ yx ∈ l, (l.foldl (swapByte rows) (m, down)).2 yx.1 yx.2 = m (byteAddress yx)) ∧
      ∀ yx ∉ l, (l.foldl (swapByte rows) (m, down)).2 yx.1 yx.2 = down yx.1 yx.2 := by
  induction l generalizing m down with
  | nil => exact ⟨rfl, fun yx mem => absurd mem not_mem_nil, fun yx _ => rfl⟩
  | cons a l ih =>
    obtain ⟨once, rest⟩ := nodup_cons.mp distinct
    have notIn : a ∉ l := fun mem => once (mem_map_of_mem mem)
    obtain ⟨memory', swapped, kept⟩ := ih rest
      (update m (byteAddress a) (rows a.1 a.2))
      (setByte down a.1 a.2 (m (byteAddress a)))
    refine ⟨memory', fun yx mem => ?_, fun yx notMem => ?_⟩
    · obtain rfl | mem := mem_cons.mp mem
      · exact (kept yx notIn).trans (setByte_self down yx _)
      · refine (swapped yx mem).trans (update_of_ne ?_ ..)
        exact fun same => once (same ▸ mem_map_of_mem mem)
    · rw [mem_cons, not_or] at notMem
      exact (kept yx notMem.2).trans (setByte_other down notMem.1 _)

theorem scroll_restores (rows : Rows) (m : Memory.Bytes) (down : Rows) :
    screenBytes.foldl (fun m' yx => update m' (byteAddress yx)
        ((screenBytes.foldl (swapByte rows) (m, down)).2 yx.1 yx.2))
      (screenBytes.foldl (swapByte rows) (m, down)).1 = m := by
  obtain ⟨memory', swapped, -⟩ := swap_fold byteAddress_nodup rows m down
  funext a
  change writeAll byteAddress _ _ screenBytes a = m a
  by_cases inside : a ∈ screenBytes.map byteAddress
  · obtain ⟨yx, mem, rfl⟩ := mem_map.mp inside
    rw [writeAll_of_mem byteAddress_nodup mem, swapped yx mem]
  · rw [writeAll_of_not_mem inside, memory', writeAll_of_not_mem inside]

variable {d : Display}

def AtChar (d : Display) : Prop := d.pointer.toNat % 2 = 0

theorem even_line (q : UInt32) : (memory + q * (screenWidth * 2)).toNat % 2 = 0 := by
  have base : memory.toNat = 753664 := rfl
  have width : (screenWidth * 2).toNat = 160 := rfl
  rw [UInt32.toNat_add, UInt32.toNat_mul, base, width]
  omega

section
variable (even : AtChar d)
include even

theorem AtChar.drawChar (c : UInt8) : AtChar (d.drawChar c) := by
  have one : (1 : UInt32).toNat = 1 := rfl
  rw [AtChar] at even ⊢
  change (d.pointer + 1 + 1).toNat % 2 = 0
  rw [UInt32.toNat_add, UInt32.toNat_add, one]
  omega

theorem AtChar.eraseChar : AtChar d.eraseChar := by
  have two : (2 : UInt32).toNat = 2 := rfl
  rw [AtChar] at even ⊢
  rw [eraseChar_pointer, UInt32.toNat_sub, two]
  omega

theorem AtChar.shift : AtChar d.videoShiftOneLine := by
  rw [Display.videoShiftOneLine]
  split
  · exact even_line _
  · exact even

omit even in
theorem AtChar.newLine (d : Display) : AtChar d.videoNewLine := AtChar.shift (even_line _)

theorem AtChar.drawTabs (n : ℕ) : AtChar (Display.drawTabs n d) := by
  induction n generalizing d with
  | zero => exact even
  | succ n ih => exact ih (even.drawChar 9)

theorem AtChar.eraseTabs (n : ℕ) : AtChar (Display.eraseTabs n d) := by
  induction n generalizing d with
  | zero => exact even
  | succ n ih =>
    rw [Display.eraseTabs]
    split
    · exact even
    · exact ih even.eraseChar

theorem AtChar.delete (x y : UInt32) : AtChar (d.videoDeleteLastCharacter x y) := by
  have recoloured : AtChar { d with foregroundColor := white, backgroundColor := black } := even
  rw [Display.videoDeleteLastCharacter]
  split
  · dsimp only
    split
    · exact recoloured.eraseTabs _
    · exact recoloured.eraseChar
  · exact even

theorem AtChar.put (x y : UInt32) (c : ℤ) : AtChar (d.put x y c) := by
  have tabs : AtChar { d with foregroundColor := d.backgroundColor } := even
  rw [Display.put]
  apply AtChar.shift
  split
  · exact AtChar.newLine d
  split
  · exact even
  split
  · exact tabs.drawTabs _
  split
  · exact even.delete x y
  split
  · exact AtChar.shift (AtChar.newLine _)
  · exact even.drawChar _

end

variable {s : Screen} {c : ℤ} {trace : List (Screen × ℤ)}

structure NotScrolled (s : Screen) : Prop where
  scrolled : s.isScrolled = false
  storedX : s.storedX = 0
  storedY : s.storedY = 0
  even : AtChar s.display

theorem videoInit_notScrolled (ram : Memory.Bytes) (x y : UInt32) :
    NotScrolled (videoInit ram x y) := by
  refine ⟨rfl, rfl, rfl, ?_⟩
  change memory.toNat % 2 = 0
  rfl

theorem NotScrolled.goesUp (plain : NotScrolled s) (shifted : s.display.isShiftedOnce = true) :
    ¬ (s.isScrolled = true ∨ s.display.isShiftedOnce = false) := by
  simp [plain.scrolled, shifted]

theorem NotScrolled.putc_eq (plain : NotScrolled s) (c : ℤ) :
    videoPutc s c = { s with display := s.display.put s.lowerBoundX s.lowerBoundY c } := by
  have stays : ¬ (s.storedX ≠ 0 ∧ s.storedY ≠ 0) := fun both => both.1 plain.storedX
  rw [videoPutc, if_neg stays]

theorem NotScrolled.putc (plain : NotScrolled s) (c : ℤ) : NotScrolled (videoPutc s c) := by
  rw [plain.putc_eq]
  exact ⟨plain.scrolled, plain.storedX, plain.storedY, plain.even.put _ _ c⟩

theorem notScrolled_run {ram : Memory.Bytes} {x y : UInt32}
    (run : Exec PutcStep (videoInit ram x y) trace s) : NotScrolled s := by
  refine (exec_keeps (videoInit_notScrolled ram x y) (fun s c t plain step => ?_) run).2
  rw [step]
  exact plain.putc c

theorem cursorAt_pointer {d : Display} (even : AtChar d) (column : d.videoGetColumn ≠ 0) :
    cursorAt d.videoGetColumn d.videoGetLine = d.pointer := by
  have base : memory.toNat = 753664 := rfl
  have width : screenWidth.toNat = 80 := rfl
  have bytes : (screenWidth * 2).toNat = 160 := rfl
  have two : (2 : UInt32).toNat = 2 := rfl
  have behind : ¬ d.pointer < memory := fun before => column (if_pos before)
  have least : memory.toNat ≤ d.pointer.toNat :=
    Nat.le_of_not_lt fun before => behind (UInt32.lt_iff_toNat_lt.mpr before)
  have top := d.pointer.toNat_lt
  rw [AtChar] at even
  apply UInt32.toNat_inj.mp
  rw [cursorAt, Display.videoGetColumn, Display.videoGetLine, if_neg behind, if_neg behind,
    UInt32.toNat_add, UInt32.toNat_add, UInt32.toNat_mul, UInt32.toNat_mul, UInt32.toNat_mul,
    UInt32.toNat_div, UInt32.toNat_div, UInt32.toNat_mod, UInt32.toNat_sub, bytes, width, two, base]
  rw [base] at least
  omega

theorem scroll_back (plain : NotScrolled s) (shifted : s.display.isShiftedOnce = true)
    (column : s.display.videoGetColumn ≠ 0) :
    ∃ down, videoScrollDown (videoScrollUp s) = { s with downbuffer := down } := by
  refine ⟨(screenBytes.foldl (swapByte s.display.upbuffer) (s.display.mem, s.downbuffer)).2, ?_⟩
  rw [videoScrollUp, if_neg (plain.goesUp shifted), videoScrollDown]
  simp only [Bool.true_eq_false, if_false]
  rw [scroll_restores, cursorAt_pointer plain.even column]
  simp only [plain.scrolled, plain.storedX, plain.storedY]

structure Transparent (s : Screen) (c : ℤ) : Prop where
  bytes : ∀ yx ∈ screenBytes, (videoPutc (videoScrollUp s) c).display.mem (byteAddress yx) =
    (videoPutc s c).display.mem (byteAddress yx)
  pointer : (videoPutc (videoScrollUp s) c).display.pointer = (videoPutc s c).display.pointer
  scrolled : (videoPutc (videoScrollUp s) c).isScrolled = false

theorem putc_scrolledUp (plain : NotScrolled s) (shifted : s.display.isShiftedOnce = true)
    (inner : s.display.videoGetColumn ≠ 0 ∧ s.display.videoGetLine ≠ 0) (c : ℤ) :
    ∃ down, videoPutc (videoScrollUp s) c = { videoPutc s c with downbuffer := down } := by
  have stored : (videoScrollUp s).storedX ≠ 0 ∧ (videoScrollUp s).storedY ≠ 0 := by
    rw [videoScrollUp, if_neg (plain.goesUp shifted)]
    exact inner
  obtain ⟨down, back⟩ := scroll_back plain shifted inner.1
  refine ⟨down, ?_⟩
  rw [plain.putc_eq, videoPutc, if_pos stored, back]

section
variable (plain : NotScrolled s) (shifted : s.display.isShiftedOnce = true)
  (edge : ¬ (s.display.videoGetColumn ≠ 0 ∧ s.display.videoGetLine ≠ 0))
include plain shifted edge

theorem scrolledUp_stays (c : ℤ) : (videoPutc (videoScrollUp s) c).isScrolled = true := by
  have stored : ¬ ((videoScrollUp s).storedX ≠ 0 ∧ (videoScrollUp s).storedY ≠ 0) := by
    rw [videoScrollUp, if_neg (plain.goesUp shifted)]
    exact edge
  rw [videoPutc, if_neg stored, videoScrollUp, if_neg (plain.goesUp shifted)]

theorem not_transparent (c : ℤ) : ¬ Transparent s c := by
  intro same
  have stays := scrolledUp_stays plain shifted edge c
  exact Bool.noConfusion (stays.symm.trans same.scrolled)

end

/-- Transparent if never shifted, and else off the first column and line. -/
theorem transparent_iff {ram : Memory.Bytes} {x y : UInt32}
    (run : Exec PutcStep (videoInit ram x y) trace s) (c : ℤ) :
    Transparent s c ↔ s.display.isShiftedOnce = false ∨
      (s.display.videoGetColumn ≠ 0 ∧ s.display.videoGetLine ≠ 0) := by
  have plain := notScrolled_run run
  by_cases shifted : s.display.isShiftedOnce = true
  · by_cases edge : s.display.videoGetColumn ≠ 0 ∧ s.display.videoGetLine ≠ 0
    · obtain ⟨down, same⟩ := putc_scrolledUp plain shifted edge c
      refine iff_of_true ⟨?_, ?_, ?_⟩ (.inr edge)
      · rw [same]
        exact fun yx _ => rfl
      · rw [same]
      · rw [same]
        exact (plain.putc c).scrolled
    · refine iff_of_false (not_transparent plain shifted edge c) ?_
      simp [shifted, edge]
  · have never : s.display.isShiftedOnce = false := Bool.eq_false_iff.mpr shifted
    have stays : videoScrollUp s = s := if_pos (.inr never)
    refine iff_of_true ⟨?_, ?_, ?_⟩ (.inl never)
    · rw [stays]
      exact fun yx _ => rfl
    · rw [stays]
    · rw [stays]
      exact (plain.putc c).scrolled

theorem transparent_iff_init :
    Exec PutcStep (videoInit (fun _ => 0) 0 0) [] (videoInit (fun _ => 0) 0 0) ∧
      (Transparent (videoInit (fun _ => 0) 0 0) 65 ↔
        (videoInit (fun _ => 0) 0 0).display.isShiftedOnce = false ∨
        ((videoInit (fun _ => 0) 0 0).display.videoGetColumn ≠ 0 ∧
          (videoInit (fun _ => 0) 0 0).display.videoGetLine ≠ 0)) :=
  ⟨.refl, transparent_iff .refl 65⟩

variable {n : ℕ}

theorem newLine_down (here : d.pointer = cellPtr (80 * n)) (less : n < 24) (x y : UInt32) :
    (d.put x y 10).pointer = cellPtr (80 * (n + 1)) := by
  have chosen : d.put x y 10 = d.videoNewLine.videoShiftOneLine := rfl
  have next : 80 * (80 * n / 80 + 1) = 80 * (n + 1) := by omega
  have stays (e : Display) (there : e.pointer = cellPtr (80 * (n + 1))) :
      e.videoShiftOneLine = e := shift_stays there (by omega)
  rw [chosen, newLine_pointer here (by omega), next, stays, stays]
  · rfl
  · rw [stays]
    rfl

theorem newLine_shifts (here : d.pointer = cellPtr (80 * 24)) (x y : UInt32) :
    (d.put x y 10).isShiftedOnce = true ∧ (d.put x y 10).videoGetColumn = 0 := by
  have chosen : d.put x y 10 = d.videoNewLine.videoShiftOneLine := rfl
  have line := newLine_pointer here (by decide)
  have start : d.videoNewLine.pointer = cellPtr (80 * 24) := by
    rw [line]
    exact shift_pointer (k := 2000) rfl (by decide) (by decide)
  rw [chosen, shift_stays start (by decide)]
  refine ⟨?_, getColumn_cell start (by decide)⟩
  have below : cellPtr 2000 ≥ memory + screenHeight * screenWidth * 2 := by decide
  rw [line, Display.videoShiftOneLine, if_pos below]

theorem newLines_run (ram : Memory.Bytes) (x y : UInt32) (le : n ≤ 24) :
    ∃ trace s, Exec PutcStep (videoInit ram x y) trace s ∧
      trace.map Prod.snd = List.replicate n 10 ∧ s.display.pointer = cellPtr (80 * n) := by
  induction n with
  | zero =>
    refine ⟨[], _, .refl, rfl, ?_⟩
    change memory = cellPtr (80 * 0)
    decide
  | succ n ih =>
    obtain ⟨trace, s, run, sent, here⟩ := ih (by omega)
    have plain := notScrolled_run run
    have step : PutcStep s 10 (videoPutc s 10) := rfl
    refine ⟨_, _, run.next step, ?_, ?_⟩
    · rw [map_append, sent, replicate_succ']
      rfl
    · rw [plain.putc_eq]
      exact newLine_down here (by omega) _ _

theorem newLines_stay_scrolled :
    ∃ trace s, Exec PutcStep (videoInit (fun _ => 0) 0 0) trace s ∧
      trace.map Prod.snd = List.replicate 25 10 ∧
      (videoPutc (videoScrollUp s) 65).isScrolled = true ∧ ¬ Transparent s 65 := by
  obtain ⟨trace, s, run, sent, here⟩ := newLines_run (fun _ => 0) 0 0 (le_refl 24)
  have plain := notScrolled_run run
  obtain ⟨shifted, column⟩ := newLine_shifts here s.lowerBoundX s.lowerBoundY
  have next := plain.putc_eq 10
  have edge : ¬ ((videoPutc s 10).display.videoGetColumn ≠ 0 ∧
      (videoPutc s 10).display.videoGetLine ≠ 0) := by
    rw [next]
    exact fun both => both.1 column
  have once : (videoPutc s 10).display.isShiftedOnce = true := by
    rw [next]
    exact shifted
  have step : PutcStep s 10 (videoPutc s 10) := rfl
  refine ⟨_, _, run.next step, ?_, ?_, not_transparent (plain.putc 10) once edge 65⟩
  · rw [map_append, sent]
    rfl
  · exact scrolledUp_stays (plain.putc 10) once edge 65

end Elaborato.Mentos.Video
