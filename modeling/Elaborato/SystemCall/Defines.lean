import Mathlib.Logic.Function.Basic
import Mathlib.Data.List.Basic
import Mathlib.Algebra.Order.BigOperators.Group.List
import Mathlib.Algebra.Order.Ring.Int

/-!
Data of the transfer (defines.c, semaphore.c, client_0.c): channels, messages, `semop` and the
division of a file into four messages. No system call fails.
-/
namespace Elaborato.SystemCall
open List

inductive Queue
  | fifo1
  | fifo2
  | msgq
  deriving DecidableEq, Repr

inductive Channel
  | queue (q : Queue)
  | shm
  deriving DecidableEq, Repr

def channels : List Channel := [.queue .fifo1, .queue .fifo2, .queue .msgq, .shm]

def byChannel {α : Type*} (a b c d : α) : Channel → α
  | .queue .fifo1 => a
  | .queue .fifo2 => b
  | .queue .msgq => c
  | .shm => d

structure Message where
  msg : List UInt8
  pid : Nat
  index : Nat
  filename : String
  deriving DecidableEq, Repr

structure File where
  path : String
  content : List UInt8
  deriving DecidableEq, Repr

def shmSlots : Nat := 50

def findSHM (shm : Nat → Bool) (value : Bool) : Option Nat :=
  (List.range shmSlots).find? fun i => shm i == value

def semop (value : Nat) (op : Int) : Option Nat :=
  if op = 0 then if value = 0 then some 0 else none
  else if 0 ≤ value + op then some (value + op).toNat
  else none

def admittedSize (charCount : Nat) : Bool :=
  charCount < 4096 && !(charCount < 4 || (charCount > 4 && charCount < 7) || charCount == 9)

def filePartsSize (charCount : Nat) : List Int :=
  let baseSize : Int := if charCount % 4 = 0 then charCount / 4 else charCount / 4 + 1
  [baseSize, baseSize, baseSize, charCount - baseSize * 3]

def readExactly (rest : List UInt8) (size : Int) : Option (List UInt8 × List UInt8) :=
  if 0 ≤ size ∧ size ≤ rest.length then some (rest.take size.toNat, rest.drop size.toNat)
  else none

def readParts (index pid : Nat) (filepath : String) :
    List Int → List UInt8 → Option (List Message)
  | [], _ => some []
  | size :: sizes, rest => do
      let (msg, rest) ← readExactly rest size
      let messages ← readParts index pid filepath sizes rest
      some ({ msg, pid, index, filename := filepath } :: messages)

def childMessages (index pid : Nat) (file : File) : Option (Channel → Message) :=
  match readParts index pid file.path (filePartsSize file.content.length) file.content with
  | some [a, b, c, d] => some (byChannel a b c d)
  | _ => none

theorem mem_channels (ch : Channel) : ch ∈ channels := by
  rcases ch with (_ | _ | _) | _ <;> simp [channels]

variable {shm : Nat → Bool} {i : Nat}

theorem findSHM_some {value : Bool} (found : findSHM shm value = some i) :
    i < shmSlots ∧ shm i = value := by
  have holds := find?_some found
  have bound := mem_of_find?_eq_some found
  exact ⟨mem_range.mp bound, by simpa using holds⟩

theorem findSHM_none {value : Bool} (missing : findSHM shm value = none) (bound : i < shmSlots) :
    shm i = !value := by
  have differs := find?_eq_none.mp missing i (mem_range.mpr bound)
  cases h : shm i <;> cases value <;> simp_all

theorem semop_one (value : Nat) : semop value 1 = some (value + 1) := by
  have : 0 ≤ (value : Int) + 1 := by omega
  simp only [semop, this, if_pos]
  rfl

variable {value value' : Nat}

theorem semop_neg_one : semop value (-1) = some value' ↔ value = value' + 1 := by
  unfold semop
  rw [if_neg (by decide)]
  split
  · rw [Option.some.injEq]
    omega
  · simp only [reduceCtorEq, false_iff]
    omega

theorem semop_neg_one_none : semop value (-1) = none ↔ value = 0 := by
  unfold semop
  rw [if_neg (by decide)]
  split
  · simp only [reduceCtorEq, false_iff]
    omega
  · simp only [true_iff]
    omega

theorem semop_zero : semop value 0 = some value' ↔ value = 0 ∧ value' = 0 := by
  unfold semop
  rw [if_pos rfl]
  split <;> simp_all [eq_comm]

variable {index pid : Nat} {sizes : List Int} {rest : List UInt8}

theorem readParts_spec {filepath : String} {messages : List Message}
    (parts : readParts index pid filepath sizes rest = some messages) :
    ∀ m ∈ messages, m.index = index ∧ m.filename = filepath := by
  induction sizes generalizing rest messages with
  | nil =>
    rw [← Option.some.inj parts]
    simp
  | cons size sizes ih =>
    simp only [readParts, Option.bind_eq_bind, Option.bind_eq_some_iff, Option.some.injEq] at parts
    obtain ⟨⟨msg, rest'⟩, -, later, later_eq, rfl⟩ := parts
    intro m hm
    rcases mem_cons.mp hm with rfl | hm
    · exact ⟨rfl, rfl⟩
    · exact ih later_eq m hm

variable {file : File}

theorem childMessages_spec {messages : Channel → Message}
    (made : childMessages index pid file = some messages) (ch : Channel) :
    (messages ch).index = index ∧ (messages ch).filename = file.path := by
  unfold childMessages at made
  split at made
  case h_2 => cases made
  case h_1 a b c d parts =>
      rw [← Option.some.inj made]
      have all := readParts_spec parts
      rcases ch with (_ | _ | _) | _
      · exact all a (by simp)
      · exact all b (by simp)
      · exact all c (by simp)
      · exact all d (by simp)

theorem readParts_fits (index pid : Nat) (filepath : String) (positive : ∀ size ∈ sizes, 0 ≤ size)
    (fits : sizes.sum ≤ rest.length) :
    ∃ messages, readParts index pid filepath sizes rest = some messages ∧
      messages.length = sizes.length := by
  induction sizes generalizing rest with
  | nil => exact ⟨[], rfl, rfl⟩
  | cons size sizes ih =>
    have first : 0 ≤ size := positive size (by simp)
    have later : 0 ≤ sizes.sum := sum_nonneg fun s hs => positive s (by simp [hs])
    rw [sum_cons] at fits
    have enough : size ≤ rest.length := by omega
    have read : readExactly rest size = some (rest.take size.toNat, rest.drop size.toNat) :=
      if_pos ⟨first, enough⟩
    have left : sizes.sum ≤ (rest.drop size.toNat).length := by
      rw [length_drop]
      omega
    obtain ⟨messages, made, length⟩ := ih (fun s hs => positive s (by simp [hs])) left
    refine ⟨{ msg := rest.take size.toNat, pid, index, filename := filepath } :: messages, ?_, ?_⟩
    · simp [readParts, read, made]
    · simp [length]

theorem childMessages_admitted (index pid : Nat)
    (admitted : admittedSize file.content.length = true) :
    ∃ messages, childMessages index pid file = some messages := by
  have small := admitted
  simp only [admittedSize, Bool.and_eq_true, decide_eq_true_eq, Bool.not_eq_true',
    Bool.or_eq_false_iff, Bool.and_eq_false_iff, decide_eq_false_iff_not, beq_eq_false_iff_ne]
    at small
  have positive : ∀ size ∈ filePartsSize file.content.length, 0 ≤ size := by
    simp only [filePartsSize, mem_cons, not_mem_nil, or_false]
    split <;> (rintro size (rfl | rfl | rfl | rfl) <;> omega)
  have fits : (filePartsSize file.content.length).sum ≤ file.content.length := by
    simp only [filePartsSize, sum_cons, sum_nil]
    omega
  obtain ⟨messages, made, length⟩ := readParts_fits index pid file.path positive fits
  match messages, length with
  | [a, b, c, d], _ => exact ⟨byChannel a b c d, by simp only [childMessages, made]⟩

end Elaborato.SystemCall
