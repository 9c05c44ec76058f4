import Elaborato.SystemCall.Exactness
import Mathlib.Algebra.Order.Group.Nat
import Mathlib.Data.List.TakeWhile

/-!
From the reads of `child` to `write_on_file`: a part is written up to its first zero byte.
-/
namespace Elaborato.SystemCall
open List

def ipcsNames : Channel → String := byChannel "FIFO1" "FIFO2" "msgQueue" "ShdMem"

def cString (msg : List UInt8) : List UInt8 := msg.takeWhile (· != 0)

structure PartOutput where
  header : List UInt8
  body : List UInt8
  ends : List UInt8
  deriving DecidableEq

def newline : List UInt8 := [10]

def partOutput (i : Nat) (ch : Channel) (m : Message) : PartOutput where
  header := ("[Parte " ++ toString i ++ ", del file " ++ m.filename ++ ", spedita dal processo " ++
    toString m.pid ++ " tramite " ++ ipcsNames ch ++ "]").toUTF8.toList ++ newline
  body := cString m.msg
  ends := newline ++ (if i ≠ 3 then newline else [])

def pathOut (pathIn : String) : String :=
  String.ofList (pathIn.toList.take (pathIn.length - 4)) ++ "_out.txt"

def writeOnFile (row : Channel → Message) : String × List PartOutput :=
  (pathOut (row (.queue .fifo1)).filename,
    channels.zipIdx.map fun (ch, i) => partOutput i ch (row ch))

/-- The bytes after the header lines. -/
def writtenBodies (row : Channel → Message) : List UInt8 :=
  ((writeOnFile row).2.map PartOutput.body).flatten

variable {index pid : Nat}

theorem readParts_concat {filepath : String} {sizes : List Int} {rest : List UInt8}
    {messages : List Message} (parts : readParts index pid filepath sizes rest = some messages)
    (whole : sizes.sum = rest.length) : (messages.map Message.msg).flatten = rest := by
  induction sizes generalizing rest messages with
  | nil =>
    cases parts
    exact (length_eq_zero_iff.mp (by simpa using whole.symm)).symm
  | cons size sizes ih =>
    simp only [readParts, Option.bind_eq_bind, Option.bind_eq_some_iff, Option.some.injEq] at parts
    obtain ⟨⟨msg, rest'⟩, read, later, later_eq, rfl⟩ := parts
    rw [readExactly] at read
    split at read
    · next fits =>
        cases read
        rw [sum_cons] at whole
        have left : sizes.sum = (rest.drop size.toNat).length := by
          rw [length_drop]
          omega
        rw [map_cons, flatten_cons, ih later_eq left, take_append_drop]
    · cases read

variable {file : File} {messages : Channel → Message}

theorem childMessages_concat (made : childMessages index pid file = some messages) :
    (channels.map fun ch => (messages ch).msg).flatten = file.content := by
  unfold childMessages at made
  split at made
  case h_2 => cases made
  case h_1 a b c d parts =>
      have whole : (filePartsSize file.content.length).sum = file.content.length := by
        simp only [filePartsSize, sum_cons, sum_nil]
        omega
      have content := readParts_concat parts whole
      cases made
      exact content

theorem cString_length_le (msg : List UInt8) : (cString msg).length ≤ msg.length :=
  (takeWhile_sublist _).length_le

theorem cString_eq_iff (msg : List UInt8) : cString msg = msg ↔ 0 ∉ msg := by
  rw [cString, takeWhile_eq_self_iff]
  constructor
  · intro all zero
    exact absurd (all 0 zero) (by decide)
  · intro none b hb
    exact bne_iff_ne.mpr fun h => none (h ▸ hb)

theorem cStrings_concat_iff (parts : List (List UInt8)) :
    (parts.map cString).flatten = parts.flatten ↔ 0 ∉ parts.flatten := by
  induction parts with
  | nil => simp
  | cons part parts ih =>
    have shorter : ((parts.map cString).flatten).length ≤ parts.flatten.length := by
      rw [length_flatten, length_flatten, map_map]
      exact sum_le_sum fun p _ => cString_length_le p
    rw [map_cons, flatten_cons, flatten_cons, mem_append, not_or, ← cString_eq_iff, ← ih]
    constructor
    · intro same
      have first : (cString part).length = part.length := by
        have total := congrArg List.length same
        have le := cString_length_le part
        rw [length_append, length_append] at total
        omega
      have here : cString part = part := (takeWhile_sublist _).eq_of_length first
      rw [here] at same
      exact ⟨here, append_cancel_left same⟩
    · rintro ⟨here, later⟩
      rw [here, later]

attribute [local simp] channels

theorem writtenBodies_eq (messages : Channel → Message) :
    writtenBodies messages = (channels.map fun ch => cString (messages ch).msg).flatten := by
  simp [writtenBodies, writeOnFile, partOutput]

theorem filePartsSize_bounds {charCount : Nat} (admitted : admittedSize charCount = true) :
    ∀ size ∈ filePartsSize charCount, 1 ≤ size ∧ size ≤ 1024 := by
  simp only [admittedSize, Bool.and_eq_true, decide_eq_true_eq, Bool.not_eq_true',
    Bool.or_eq_false_iff, Bool.and_eq_false_iff, decide_eq_false_iff_not, beq_eq_false_iff_ne]
    at admitted
  simp only [filePartsSize, mem_cons, not_mem_nil, or_false]
  split <;> (rintro size (rfl | rfl | rfl | rfl) <;> omega)

theorem writtenBodies_iff (made : childMessages index pid file = some messages) :
    writtenBodies messages = file.content ↔ 0 ∉ file.content := by
  have parts := cStrings_concat_iff (channels.map fun ch => (messages ch).msg)
  rw [childMessages_concat made, map_map] at parts
  rw [writtenBodies_eq]
  exact parts

/-- The four messages give back the content exactly when it has no zero byte. -/
theorem reassembly_iff (index pid : Nat) (file : File)
    (admitted : admittedSize file.content.length = true) :
    (∀ size ∈ filePartsSize file.content.length, 1 ≤ size ∧ size ≤ 1024) ∧
      (filePartsSize file.content.length).sum = file.content.length ∧
      ∃ messages, childMessages index pid file = some messages ∧
        (writtenBodies messages = file.content ↔ 0 ∉ file.content) := by
  refine ⟨filePartsSize_bounds admitted, ?_, ?_⟩
  · simp only [filePartsSize, sum_cons, sum_nil]
    omega
  · obtain ⟨messages, made⟩ := childMessages_admitted index pid admitted
    exact ⟨messages, made, writtenBodies_iff made⟩

def zeroFile : File := { path := "sendme_z.txt", content := [97, 0, 98, 99, 100, 101, 102, 103] }

theorem reassembly_zeroFile :
    admittedSize zeroFile.content.length = true ∧ ∃ messages,
      childMessages 0 1 zeroFile = some messages ∧
      writtenBodies messages = [97, 98, 99, 100, 101, 102, 103] ∧
      writtenBodies messages ≠ zeroFile.content := by
  refine ⟨rfl, _, rfl, ?_, ?_⟩ <;> simp [writtenBodies_eq, byChannel] <;> decide

theorem reassembly_iff_zeroFile :
    ∃ messages, childMessages 0 1 zeroFile = some messages ∧
      (writtenBodies messages = zeroFile.content ↔ 0 ∉ zeroFile.content) :=
  (reassembly_iff 0 1 zeroFile rfl).2.2

variable {s : State}

theorem sent_messages {row : Nat} {ch : Channel} {m : Message} (sent : s.sent row ch = some m) :
    ∃ c messages, s.children[row]? = some c ∧ c.messages? = some messages ∧ messages ch = m := by
  obtain ⟨c, there, sent⟩ := Option.bind_eq_some_iff.mp sent
  refine ⟨c, ?_⟩
  cases pc : c.pc with
  | writing w =>
    simp only [Child.sent?, pc, Option.ite_none_right_eq_some, Option.some.injEq] at sent
    exact ⟨w.messages, there, by simp [Child.messages?, pc], sent.2⟩
  | exited messages =>
    simp only [Child.sent?, pc, Option.some.injEq] at sent
    exact ⟨messages, there, by simp [Child.messages?, pc], sent⟩
  | _ => simp [Child.sent?, pc] at sent

theorem Exact.written_content (collected : Exact s) (reading : s.serverPc = .reading)
    {e : Nat × (Channel → Option Message)} (call : e ∈ s.reader.written) :
    ∃ file row, s.files[e.1]? = some file ∧
      (∀ ch, e.2 ch = some (row ch) ∧ (row ch).filename = file.path) ∧
      (writtenBodies row = file.content ↔ 0 ∉ file.content) := by
  obtain ⟨-, parts⟩ := collected.written reading e call
  have told : ∀ ch, ∃ c messages, s.children[e.1]? = some c ∧ c.messages? = some messages ∧
      e.2 ch = some (messages ch) := by
    intro ch
    obtain ⟨same, known⟩ := parts ch
    obtain ⟨m, entry⟩ := Option.ne_none_iff_exists'.mp known
    obtain ⟨c, messages, there, made, rfl⟩ := sent_messages (same.symm.trans entry)
    exact ⟨c, messages, there, made, entry⟩
  obtain ⟨c, messages, there, made, -⟩ := told .shm
  obtain ⟨file, listed, built⟩ := collected.made e.1 c messages there made
  refine ⟨file, messages, listed, fun ch => ⟨?_, (childMessages_spec built ch).2⟩,
    writtenBodies_iff built⟩
  obtain ⟨c', messages', there', made', entry⟩ := told ch
  cases there.symm.trans there'
  cases made.symm.trans made'
  exact entry

structure OpenFile where
  content : List UInt8
  offset : Nat
  deriving DecidableEq

def openOut (previous : Option (List UInt8)) : OpenFile := ⟨previous.getD [], 0⟩

def OpenFile.write (f : OpenFile) (bytes : List UInt8) : OpenFile where
  content := f.content.take f.offset ++ bytes ++ f.content.drop (f.offset + bytes.length)
  offset := f.offset + bytes.length

def PartOutput.writes (p : PartOutput) : List (List UInt8) := [p.header, p.body, p.ends]

def outputFile (row : Channel → Message) (previous : Option (List UInt8)) : List UInt8 :=
  (((writeOnFile row).2.flatMap PartOutput.writes).foldl OpenFile.write (openOut previous)).content

def sections (row : Channel → Message) : List UInt8 :=
  newline.intercalate ((writeOnFile row).2.map fun p => p.header ++ p.body ++ newline)

theorem writes_flatten (row : Channel → Message) :
    ((writeOnFile row).2.flatMap PartOutput.writes).flatten = sections row := by
  simp [sections, writeOnFile, partOutput, PartOutput.writes, List.intercalate, List.zipIdx]

def written (old done : List UInt8) : OpenFile := ⟨done ++ old.drop done.length, done.length⟩

theorem write_written (old done bytes : List UInt8) :
    (written old done).write bytes = written old (done ++ bytes) := by
  simp [OpenFile.write, written, drop_append, drop_drop]

theorem foldl_write (old done : List UInt8) (pieces : List (List UInt8)) :
    pieces.foldl OpenFile.write (written old done) = written old (done ++ pieces.flatten) := by
  induction pieces generalizing done with
  | nil => simp
  | cons piece pieces ih =>
    rw [foldl_cons, write_written, ih, flatten_cons, append_assoc]

theorem outputFile_eq (row : Channel → Message) (previous : Option (List UInt8)) :
    outputFile row previous = sections row ++ (previous.getD []).drop (sections row).length := by
  have opened : openOut previous = written (previous.getD []) [] := rfl
  rw [outputFile, opened, foldl_write, nil_append, writes_flatten]
  rfl

/-- Nothing but the sections is left exactly when the path held nothing longer. -/
theorem outputFile_iff (row : Channel → Message) (previous : Option (List UInt8)) :
    outputFile row previous = sections row ↔
      ∀ old ∈ previous, old.length ≤ (sections row).length := by
  rw [outputFile_eq, append_right_eq_self, drop_eq_nil_iff]
  cases previous with
  | none | some old => simp

theorem outputFile_longer :
    let row : Channel → Message := fun _ => ⟨[97], 1, 0, "/h/sendme_a.txt"⟩
    outputFile row (some (sections row ++ [120])) = sections row ++ [120] ∧
      outputFile row (some (sections row ++ [120])) ≠ sections row := by
  intro row
  have kept : outputFile row (some (sections row ++ [120])) = sections row ++ [120] := by
    rw [outputFile_eq, Option.getD_some, drop_left]
  refine ⟨kept, ?_⟩
  rw [kept]
  simp

end Elaborato.SystemCall
