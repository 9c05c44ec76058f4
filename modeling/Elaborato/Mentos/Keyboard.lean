import Elaborato.Foundation.RingQueue
import Elaborato.Mentos.Hashmap

/-!
The buffer of the keyboard (keyboard.c), with calls that run to completion.
-/
namespace Elaborato.Mentos.Keyboard
open Foundation Hashmap

def bufsize : ℕ := 256

/-- `STEP`. -/
def step (x : ℕ) : ℕ := if x = bufsize - 1 then 0 else x + 1

structure Buffer where
  circularBuffer : ℕ → ℤ
  bufR : ℕ
  bufW : ℕ

def emptyBuffer : Buffer := ⟨fun _ => 0, 0, 0⟩

def pushCharacter (s : Buffer) (c : UInt8) : Buffer :=
  let bufR := if step s.bufW = s.bufR then step s.bufR else s.bufR
  ⟨Function.update s.circularBuffer s.bufW (charValue c), bufR, step s.bufW⟩

def keyboardGetc (s : Buffer) : ℤ × Buffer :=
  if s.bufR ≠ s.bufW then (s.circularBuffer s.bufR, { s with bufR := step s.bufR })
  else (-1, s)

inductive KeyCall
  | push (c : UInt8)
  | getc
  deriving DecidableEq, Repr

def returned : List KeyCall → Buffer → List ℤ
  | [], _ => []
  | .push c :: calls, s => returned calls (pushCharacter s c)
  | .getc :: calls, s => (keyboardGetc s).1 :: returned calls (keyboardGetc s).2

def queueReturned (capacity : ℕ) : List KeyCall → List ℤ → List ℤ
  | [], _ => []
  | .push c :: calls, q =>
    queueReturned capacity calls (RingBuffer.enqueue capacity q (charValue c))
  | .getc :: calls, q => q.headD (-1) :: queueReturned capacity calls q.tail

variable {s : Buffer} {q : List ℤ}

def Buffer.ring (s : Buffer) : RingBuffer ℤ := ⟨s.circularBuffer, s.bufR, s.bufW⟩

theorem pushCharacter_ring (s : Buffer) (c : UInt8) :
    (pushCharacter s c).ring = s.ring.push bufsize (charValue c) := rfl

theorem keyboardGetc_ring (s : Buffer) :
    (keyboardGetc s).1 = (s.ring.pop bufsize).1.getD (-1) ∧
      (keyboardGetc s).2.ring = (s.ring.pop bufsize).2 := by
  by_cases empty : s.bufR = s.bufW
  · have meets : ¬ s.ring.r ≠ s.ring.w := not_not.mpr empty
    rw [keyboardGetc, if_neg (not_not.mpr empty), RingBuffer.pop, if_neg meets]
    exact ⟨rfl, rfl⟩
  · have apart : s.ring.r ≠ s.ring.w := empty
    rw [keyboardGetc, if_pos empty, RingBuffer.pop, if_pos apart]
    exact ⟨rfl, rfl⟩

theorem returned_eq (calls : List KeyCall) (rep : s.ring.Represents bufsize q) :
    returned calls s = queueReturned (bufsize - 1) calls q := by
  induction calls generalizing s q with
  | nil => rfl
  | cons call calls ih =>
    cases call with
    | push c =>
      rw [returned, queueReturned]
      apply ih
      rw [pushCharacter_ring]
      exact rep.push (by decide) _
    | getc =>
      obtain ⟨value, rest⟩ := keyboardGetc_ring s
      obtain ⟨head, tail⟩ := rep.pop
      rw [returned, queueReturned, value, head, List.headD_eq_head?_getD, ih (rest ▸ tail)]

/-- A queue of `BUFSIZE - 1` elements, for every sequence of calls. -/
theorem keyboard_fifo (calls : List KeyCall) :
    returned calls emptyBuffer = queueReturned (bufsize - 1) calls [] :=
  returned_eq calls ⟨by decide, by decide, rfl, by simp⟩

end Elaborato.Mentos.Keyboard
