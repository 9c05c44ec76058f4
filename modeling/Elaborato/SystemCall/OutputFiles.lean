import Elaborato.Foundation.Updates
import Elaborato.SystemCall.FileNames

/-!
The output files of a round (server.c): a row is written when its fourth part is there, so the
calls of `write_on_file` come in the order of the interleaving.
-/
namespace Elaborato.SystemCall
open Foundation List

/-- The contents of the files by their paths. -/
abbrev Disk := String → Option (List UInt8)

/-- The row that a call of `write_on_file` is given. -/
def rowOf (e : Nat × (Channel → Option Message)) (ch : Channel) : Message :=
  (e.2 ch).getD blankMessage

def writeRows (disk : Disk) (written : List (Nat × (Channel → Option Message))) : Disk :=
  changeAll (fun e => (writeOnFile (rowOf e)).1) (fun e old => some (outputFile (rowOf e) old))
    disk written

theorem pathOut_injective {p q : String} (admitted : Admitted p.toList)
    (other : Admitted q.toList) (same : pathOut p = pathOut q) : p = q := by
  obtain ⟨dir, stem, whole, out, -⟩ := pathOut_shape admitted
  obtain ⟨dir', stem', whole', out', -⟩ := pathOut_shape other
  rw [same, out', ← append_assoc, ← append_assoc] at out
  refine String.toList_inj.mp ?_
  rw [whole, whole', ← append_assoc, ← append_assoc, append_cancel_right out]

variable {s : State} {e : Nat × (Channel → Option Message)}

theorem Exact.row (collected : Exact s) (reading : s.serverPc = .reading)
    (call : e ∈ s.reader.written) : ∃ file, s.files[e.1]? = some file ∧
      (writeOnFile (rowOf e)).1 = pathOut file.path ∧ (∀ ch, (rowOf e ch).filename = file.path) ∧
      (writtenBodies (rowOf e) = file.content ↔ 0 ∉ file.content) := by
  obtain ⟨file, row, listed, parts, bodies⟩ := collected.written_content reading call
  have same : rowOf e = row := funext fun ch => by rw [rowOf, (parts ch).1, Option.getD_some]
  rw [same]
  exact ⟨file, listed, congrArg pathOut (parts _).2, fun ch => (parts ch).2, bodies⟩

theorem Exact.keys_nodup (collected : Exact s) (reading : s.serverPc = .reading)
    (names : ∀ file ∈ s.files, Admitted file.path.toList)
    (distinct : (s.files.map File.path).Nodup) :
    (s.reader.written.map fun e => (writeOnFile (rowOf e)).1).Nodup := by
  have rows : (s.reader.written.map Prod.fst).Nodup := by
    refine nodup_iff_count_le_one.mpr fun row => ?_
    rw [count, countP_map]
    exact collected.once row
  refine rows.of_map.map_on fun e call e' call' same => ?_
  obtain ⟨file, listed, path, -⟩ := collected.row reading call
  obtain ⟨file', listed', path', -⟩ := collected.row reading call'
  rw [path, path'] at same
  have paths := pathOut_injective (names file (mem_of_getElem? listed))
    (names file' (mem_of_getElem? listed')) same
  refine inj_on_of_nodup_map rows call call' ?_
  refine (getElem?_inj ?_ distinct).mp ?_
  · simpa using (List.getElem?_eq_some_iff.mp listed).1
  · rw [getElem?_map, getElem?_map, listed, listed', Option.map_some, Option.map_some, paths]

/-- Each output file holds the parts of its file, and no other path of the disk changes. -/
theorem writeRows_round {trace : List (State × Act)} (run : Reaches trace s)
    (returned : Returned s) (names : ∀ file ∈ s.files, Admitted file.path.toList)
    (distinct : (s.files.map File.path).Nodup) (disk : Disk) :
    (∀ file ∈ s.files, ∃ row, (∀ ch, (row ch).filename = file.path) ∧
      writeRows disk s.reader.written (pathOut file.path) =
        some (sections row ++ ((disk (pathOut file.path)).getD []).drop (sections row).length) ∧
      (writtenBodies row = file.content ↔ 0 ∉ file.content)) ∧
    ∀ path, (∀ file ∈ s.files, path ≠ pathOut file.path) →
      writeRows disk s.reader.written path = disk path := by
  have collected := (inv_reaches run).exact (transfer_sound (transfer_run run))
  refine ⟨fun file mem => ?_, fun path other => changeAll_of_not_mem fun key => ?_⟩
  · obtain ⟨row, listed⟩ := getElem?_of_mem mem
    have once := collected.complete returned row (List.getElem?_eq_some_iff.mp listed).1
    obtain ⟨e, call, isRow⟩ := countP_pos_iff.mp (once ▸ Nat.one_pos)
    obtain ⟨file', listed', path, filenames, bodies⟩ := collected.row returned.1 call
    rw [of_decide_eq_true isRow, listed] at listed'
    cases listed'
    refine ⟨rowOf e, filenames, ?_, bodies⟩
    rw [← outputFile_eq, ← path]
    exact changeAll_of_mem (collected.keys_nodup returned.1 names distinct) call
  · obtain ⟨e, call, rfl⟩ := mem_map.mp key
    obtain ⟨file, listed, path, -⟩ := collected.row returned.1 call
    exact other file (mem_of_getElem? listed) path

def sendmeFile : File := { path := "/h/sendme_a.txt", content := [1, 2, 3, 4] }

theorem writeRows_round_sendmeFile : ∃ trace t, Reaches trace t ∧ ∃ row,
    writeRows (fun _ => none) t.reader.written (pathOut sendmeFile.path) = some (sections row) ∧
      writtenBodies row = sendmeFile.content := by
  have run : Exec (fun s a t => step s a = some t) (startState (fun _ => blankMessage) 0) _
      { startState (fun _ => blankMessage) 0 with files := [sendmeFile], clientPc := .sendN } :=
    Exec.refl.next (show step _ (.sigint [sendmeFile]) = some _ from rfl)
  obtain ⟨t, continues, returned⟩ :=
    (inv_reaches ⟨_, _, run⟩).completes ⟨by decide, .inr (.inl rfl)⟩
  have files : t.files = [sendmeFile] := continues.files_eq rfl
  obtain ⟨trace, later, -⟩ := continues
  have reach : Reaches _ t := ⟨_, _, exec_trans run later⟩
  have admitted : Admitted sendmeFile.path.toList := by
    have base : baseName sendmeFile.path.toList = "sendme_a.txt".toList := by decide
    rw [Admitted, base]
    exact ⟨⟨by decide, "sendme_a".toList, "txt".toList, by decide, by decide, by decide⟩, by decide⟩
  have held := (writeRows_round reach returned (by simpa [files] using admitted) (by simp [files])
    fun _ => none).1
  obtain ⟨row, -, wrote, bodies⟩ := held sendmeFile (by simp [files])
  exact ⟨_, t, reach, row, by simpa using wrote, bodies.mpr (by decide)⟩

end Elaborato.SystemCall
