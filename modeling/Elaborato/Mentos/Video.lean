import Mathlib.Data.List.ProdSigma
import Elaborato.Mentos.Memmove

/-!
The text screen (video.c), with 32-bit pointers. The ports of the hardware cursor are left out.
-/
namespace Elaborato.Mentos.Video
open Memory Function

def screenHeight : UInt32 := 25

def screenWidth : UInt32 := 80

/-- `screen.memory`. -/
def memory : UInt32 := 0xb8000

/-- `BLACK`, `GREY` and `WHITE`. -/
def black : UInt8 := 0

def grey : UInt8 := 7

def white : UInt8 := 15

abbrev Rows := ℕ → ℕ → UInt8

def setByte (rows : Rows) (y x : ℕ) (b : UInt8) : Rows :=
  update rows y (update (rows y) x b)

def screenBytes : List (ℕ × ℕ) :=
  (List.range screenHeight.toNat).product (List.range (screenWidth * 2).toNat)

/-- The address of a byte of the screen. -/
def byteAddress (yx : ℕ × ℕ) : UInt32 :=
  memory + UInt32.ofNat ((screenWidth * 2).toNat * yx.1 + yx.2)

structure Display where
  mem : Bytes
  pointer : UInt32
  foregroundColor : UInt8
  backgroundColor : UInt8
  upbuffer : Rows
  isShiftedOnce : Bool

namespace Display

def drawChar (d : Display) (c : UInt8) : Display :=
  let mem := update d.mem d.pointer c
  { d with
    mem := update mem (d.pointer + 1) (d.foregroundColor + 16 * d.backgroundColor)
    pointer := d.pointer + 1 + 1 }

def videoGetColumn (d : Display) : UInt32 :=
  if d.pointer < memory then 0 else (d.pointer - memory) % (screenWidth * 2) / 2

def videoGetLine (d : Display) : UInt32 :=
  if d.pointer < memory then 0 else (d.pointer - memory) / (screenWidth * 2)

def videoRotateScrollBuffer (rows : Rows) : Rows :=
  (List.range' 1 (screenHeight.toNat - 1)).foldl (fun rows y =>
    (List.range (screenWidth * 2).toNat).foldl (fun rows x =>
      setByte rows (y - 1) x (rows y x)) rows) rows

def videoShiftOneLine (d : Display) : Display :=
  if d.pointer ≥ memory + screenHeight * screenWidth * 2 then
    let rows := videoRotateScrollBuffer d.upbuffer
    { d with
      upbuffer := (List.range (screenWidth * 2).toNat).foldl (fun rows index =>
        setByte rows (screenHeight.toNat - 1) index (d.mem (memory + UInt32.ofNat index))) rows
      mem := copyUp ((screenHeight * screenWidth * 2 + screenWidth * 2).toNat + 1) memory
        (memory + screenWidth * 2) d.mem
      pointer := memory + ((d.pointer - memory) / (screenWidth * 2) - 1) * (screenWidth * 2)
      isShiftedOnce := true }
  else d

def videoNewLine (d : Display) : Display :=
  { d with
    pointer := memory + ((d.pointer - memory) / (screenWidth * 2) + 1) * (screenWidth * 2)
  }.videoShiftOneLine

def videoCartridgeReturn (d : Display) : Display :=
  { d with
    pointer := memory + ((d.pointer - memory) / (screenWidth * 2) - 1) * (screenWidth * 2)
  }.videoNewLine.videoShiftOneLine

def drawTabs : ℕ → Display → Display
  | 0, d => d
  | n + 1, d => drawTabs n (d.drawChar 9)

def videoPutTab (d : Display) : Display :=
  let tabs := drawTabs (4 - d.videoGetColumn.toNat % 4)
    { d with foregroundColor := d.backgroundColor }
  { tabs with foregroundColor := d.foregroundColor }

def eraseChar (d : Display) : Display :=
  let drawn := { d with pointer := d.pointer - 2 }.drawChar 32
  { drawn with pointer := drawn.pointer - 2 }

def eraseTabs : ℕ → Display → Display
  | 0, d => d
  | n + 1, d => if d.mem (d.pointer - 2) ≠ 9 then d else eraseTabs n d.eraseChar

def videoDeleteLastCharacter (lowerBoundX lowerBoundY : UInt32) (d : Display) : Display :=
  if lowerBoundY ≠ d.videoGetLine ∨ lowerBoundX < d.videoGetColumn then
    let d := { d with foregroundColor := white, backgroundColor := black }
    if d.mem (d.pointer - 2) = 9 then eraseTabs (4 - d.videoGetColumn.toNat % 4) d
    else d.eraseChar
  else d

def put (lowerBoundX lowerBoundY : UInt32) (d : Display) (c : ℤ) : Display :=
  (if c = 10 then d.videoNewLine
  else if c = 27 then d
  else if c = 9 then d.videoPutTab
  else if c = 8 then d.videoDeleteLastCharacter lowerBoundX lowerBoundY
  else if c = 13 then d.videoCartridgeReturn
  else d.drawChar (UInt8.ofInt c)).videoShiftOneLine

/-- The two loops of `video_clear`. -/
def clearLoop : ℕ → Display → Display
  | 0, d => d
  | n + 1, d => clearLoop n
      { d with
        mem := update (update d.mem d.pointer 32) (d.pointer + 1) 7
        pointer := d.pointer + 1 + 1 }

def videoClear (d : Display) : Display :=
  let cleared := clearLoop (screenHeight * screenWidth).toNat { d with pointer := memory }
  { cleared with pointer := memory }

end Display

structure Screen where
  display : Display
  downbuffer : Rows
  isScrolled : Bool
  storedX : UInt32
  storedY : UInt32
  lowerBoundX : UInt32
  lowerBoundY : UInt32

def videoInit (ram : Bytes) (lowerBoundX lowerBoundY : UInt32) : Screen where
  display := Display.videoClear ⟨ram, memory, grey, black, fun _ _ => 0, false⟩
  downbuffer := fun _ _ => 0
  isScrolled := false
  storedX := 0
  storedY := 0
  lowerBoundX := lowerBoundX
  lowerBoundY := lowerBoundY

def cursorAt (x y : UInt32) : UInt32 := memory + (y * screenWidth * 2 + x * 2)

def swapByte (rows : Rows) (state : Bytes × Rows) (yx : ℕ × ℕ) : Bytes × Rows :=
  (update state.1 (byteAddress yx) (rows yx.1 yx.2),
    setByte state.2 yx.1 yx.2 (state.1 (byteAddress yx)))

def videoScrollUp (s : Screen) : Screen :=
  if s.isScrolled = true ∨ s.display.isShiftedOnce = false then s
  else
    let swapped := screenBytes.foldl (swapByte s.display.upbuffer) (s.display.mem, s.downbuffer)
    { s with
      display := { s.display with
        mem := swapped.1
        pointer := cursorAt screenWidth screenHeight }
      downbuffer := swapped.2
      isScrolled := true
      storedX := s.display.videoGetColumn
      storedY := s.display.videoGetLine }

def videoScrollDown (s : Screen) : Screen :=
  if s.isScrolled = false then s
  else
    { s with
      display := { s.display with
        mem := screenBytes.foldl (fun m yx =>
          update m (byteAddress yx) (s.downbuffer yx.1 yx.2)) s.display.mem
        pointer := cursorAt s.storedX s.storedY }
      isScrolled := false
      storedX := 0
      storedY := 0 }

def videoPutc (s : Screen) (c : ℤ) : Screen :=
  let s := if s.storedX ≠ 0 ∧ s.storedY ≠ 0 then videoScrollDown s else s
  { s with display := s.display.put s.lowerBoundX s.lowerBoundY c }

def PutcStep (s : Screen) (c : ℤ) (t : Screen) : Prop := t = videoPutc s c

end Elaborato.Mentos.Video
