import Elaborato.Initscp.Image

/-!
The end mark after boot, which `initfs_init` takes from the last header alone.
-/
namespace Elaborato.Initscp
open Foundation List
open Mentos.Initrd

variable {mountPoints : List Name} {items : List Item} {item : Item} {content : List UInt8}
  {k : Nat}

def Item.counted (item : Item) : List UInt8 := item.bytes.take (item.bytes.length % 2 ^ 32)

theorem length_counted (item : Item) : item.counted.length = item.bytes.length % 2 ^ 32 := by
  rw [Item.counted, length_take, Nat.min_eq_left (Nat.mod_le _ _)]

def countedPosition (items : List Item) (k : Nat) : Nat :=
  tableSize + blockStart (items.map Item.counted) k

theorem blockStart_counted (items : List Item) (k : Nat) :
    blockStart (items.map Item.counted) k % 2 ^ 32 =
      blockStart (items.map Item.bytes) k % 2 ^ 32 := by
  induction items generalizing k with
  | nil => rfl
  | cons item items ih =>
    cases k with
    | zero => rfl
    | succ k =>
      have rest := ih k
      rw [map_cons, map_cons, blockStart_cons_succ, blockStart_cons_succ, length_counted]
      omega

theorem countedPosition_mod (items : List Item) (k : Nat) :
    countedPosition items k % 2 ^ 32 = position items k % 2 ^ 32 := by
  have same := blockStart_counted items k
  unfold countedPosition position
  omega

theorem countedPosition_le {l : Nat} (found : items[k]? = some item) (later : k < l) :
    countedPosition items k + item.bytes.length % 2 ^ 32 ≤ countedPosition items l := by
  have block : (items.map Item.counted)[k]? = some item.counted := by
    rw [getElem?_map, found]
    rfl
  have apart := blockStart_apart block later
  rw [length_counted] at apart
  unfold countedPosition
  omega

theorem placedHeader_stop (found : items[k]? = some item) (file : item.content = some content) :
    (placedHeader mountPoints tableSize items k).stop =
      countedPosition items k % 2 ^ 32 + item.bytes.length % 2 ^ 32 := by
  rw [placedHeader_file found file, Header.stop, countedPosition_mod, Item.bytes, file]
  simp only [UInt32.toNat_ofNat', Option.getD_some]

theorem exists_stop_beyond (beyond : 2 ^ 32 ≤ countedPosition items items.length) :
    ∃ k item content, items[k]? = some item ∧ item.content = some content ∧
      2 ^ 32 ≤ (placedHeader mountPoints tableSize items k).stop := by
  have table : tableSize = 8836 := rfl
  have inside : 2 ^ 32 - 1 - tableSize < blockStart (items.map Item.counted) items.length := by
    unfold countedPosition at beyond
    omega
  obtain ⟨k, block, -, found, low, high⟩ := blockStart_cover inside
  rw [getElem?_map, Option.map_eq_some_iff] at found
  obtain ⟨item, found, rfl⟩ := found
  rw [length_counted] at high
  cases file : item.content with
  | none =>
    simp only [Item.bytes, file, Option.getD_none, length_nil] at high
    omega
  | some content =>
    refine ⟨k, item, content, found, file, ?_⟩
    rw [placedHeader_stop found file, countedPosition]
    omega

/-- The mark that the last header gives. -/
def lastMark (mountPoints : List Name) (items : List Item) : UInt32 :=
  let last := placedHeader mountPoints tableSize items (items.length - 1)
  last.offset + last.length

def EndsInFile (items : List Item) : Prop :=
  (∀ item ∈ items, item.content = none) ∨
    (∃ item content, items.getLast? = some item ∧ item.content = some content) ∧
      tableSize + (items.map fun item => item.bytes.length % 2 ^ 32).sum < 2 ^ 32

theorem countedPosition_length (items : List Item) :
    countedPosition items items.length =
      tableSize + (items.map fun item => item.bytes.length % 2 ^ 32).sum := by
  rw [countedPosition, blockStart, take_of_length_le (by simp), map_map]
  simp only [Function.comp_def, length_counted]

theorem lastMark_directory (last : items.getLast? = some item) (directory : item.content = none) :
    lastMark mountPoints items = 0 := by
  rw [getLast?_eq_getElem?] at last
  rw [lastMark, placedHeader, last]
  simp only [Item.header, directory]
  rfl

theorem lastMark_file (last : items.getLast? = some item) (file : item.content = some content) :
    (lastMark mountPoints items).toNat = countedPosition items items.length % 2 ^ 32 := by
  rw [getLast?_eq_getElem?] at last
  have inside := (List.getElem?_eq_some_iff.mp last).1
  have block : (items.map Item.bytes)[items.length - 1]? = some content := by
    rw [getElem?_map, last]
    simp [Item.bytes, file]
  have whole := blockStart_succ block
  rw [Nat.sub_add_cancel (by omega)] at whole
  rw [lastMark, placedHeader_file last file, countedPosition_mod]
  simp only [UInt32.toNat_add, UInt32.toNat_ofNat', position]
  omega

def MarkBounds (mountPoints : List Name) (items : List Item) : Prop :=
  ∀ k item content, items[k]? = some item → item.content = some content →
    (placedHeader mountPoints tableSize items k).stop ≤ (lastMark mountPoints items).toNat

theorem below_of_markBounds (bounds : MarkBounds mountPoints items) :
    countedPosition items items.length < 2 ^ 32 := by
  refine Nat.lt_of_not_le fun beyond => ?_
  obtain ⟨k, item, content, found, file, stop⟩ := exists_stop_beyond beyond
  have bound := bounds k item content found file
  have word := (lastMark mountPoints items).toNat_lt
  exact absurd (Nat.le_trans stop bound) (Nat.not_le.mpr word)

theorem markBounds_iff (nonempty : items ≠ []) :
    MarkBounds mountPoints items ↔ EndsInFile items := by
  constructor
  · intro bounds
    have below := below_of_markBounds bounds
    have last := getLast?_eq_some_getLast nonempty
    cases file : (items.getLast nonempty).content with
    | some content =>
      rw [countedPosition_length] at below
      exact .inr ⟨⟨_, content, last, file⟩, below⟩
    | none =>
      refine .inl fun item mem => ?_
      obtain ⟨k, found⟩ := mem_iff_getElem?.mp mem
      cases isFile : item.content with
      | none => rfl
      | some content =>
        have bound := bounds k item content found isFile
        have before := countedPosition_le found (List.getElem?_eq_some_iff.mp found).1
        rw [lastMark_directory last file, placedHeader_stop found isFile,
          Nat.mod_eq_of_lt (by omega), countedPosition] at bound
        exact absurd bound
          (Nat.not_le.mpr (Nat.add_pos_left (Nat.add_pos_left (by decide) _) _))
  · rintro (none | ⟨⟨last, content, ends, isFile⟩, below⟩) k item content' found file
    · rw [none item (mem_of_getElem? found)] at file
      cases file
    · rw [← countedPosition_length] at below
      have before := countedPosition_le found (List.getElem?_eq_some_iff.mp found).1
      rw [lastMark_file ends isFile, placedHeader_stop found file, Nat.mod_eq_of_lt below,
        Nat.mod_eq_of_lt (by omega)]
      exact before

variable {source : Name} {dir : Dir} {heap : Nat → UInt8} {image : List UInt8} {mem : ByteMem}
  {uid : UInt32}

theorem walkOf_headerIdx (mountPoints : List Name) (items : List Item) :
    (walkOf mountPoints items).headerIdx = items.length := by
  have walked := (@foldl_put mountPoints initHeaders items tableSize rfl fun _ _ => rfl).1
  rwa [show initHeaders.headerIdx = 0 from rfl, Nat.zero_add] at walked

section
variable (t : SourceTree) (nonempty : listing [] t.dir ≠ [])
  (stored : Stored mem 0 (headerTable (walkOf mountPoints (listing [] t.dir))))
include t nonempty stored

theorem initfsInit_fsEnd :
    (initfsInit mem uid).fsEnd = lastMark mountPoints (listing [] t.dir) := by
  have entries := length_pos_of_ne_nil nonempty
  have few : (listing [] t.dir).length ≤ 32 := t.few
  have nfiles : readWord mem 0 = (listing [] t.dir).length := by
    rw [← walkOf_headerIdx mountPoints]
    exact readWord_stored (stored_append.mp stored).1 (by rw [walkOf_headerIdx]; omega)
  have index : (UInt32.ofNat (listing [] t.dir).length - 1).toNat =
      (listing [] t.dir).length - 1 := by
    rw [UInt32.toNat_sub, UInt32.toNat_ofNat']
    have one : (1 : UInt32).toNat = 1 := rfl
    omega
  have last : headerAt mem (4 + sizeofHeader * ((listing [] t.dir).length - 1)) =
      placedHeader mountPoints tableSize (listing [] t.dir) ((listing [] t.dir).length - 1) :=
    @initfsInit_headers mountPoints t mem uid stored _
      (show (listing [] t.dir).length - 1 < 32 by omega)
  have inside : 4 + sizeofHeader * ((listing [] t.dir).length - 1) < 2 ^ 32 := by
    unfold sizeofHeader
    omega
  unfold initfsInit
  simp only [initDescriptors, nfiles, index, Nat.mod_eq_of_lt inside, last]
  rfl

theorem initfsInit_bounds_iff :
    (∀ i, IsFile (initfsInit mem uid) i →
      ((initfsInit mem uid).headers i).stop ≤ (initfsInit mem uid).fsEnd.toNat) ↔
      MarkBounds mountPoints (listing [] t.dir) := by
  have headers : ∀ i < maxFiles, (initfsInit mem uid).headers i =
      placedHeader mountPoints tableSize (listing [] t.dir) i :=
    fun i => initfsInit_headers stored
  rw [initfsInit_fsEnd t nonempty stored]
  constructor
  · intro bounds k item content found file
    have below := Nat.lt_of_lt_of_le (List.getElem?_eq_some_iff.mp found).1 t.few
    have isFile : IsFile (initfsInit mem uid) k :=
      ⟨below, by rw [headers k below, placedHeader_file found file]⟩
    rw [← headers k below]
    exact bounds k isFile
  · intro bounds i file
    obtain ⟨item, content, found, isFile⟩ := isFile_loaded headers file
    rw [headers i file.1]
    exact bounds i item content found isFile

end

/-- Exactly when there is no file, or the walk met one last and the sizes fit. -/
theorem fsEnd_bounds_iff (valid : dir.Valid) (nonempty : listing [] dir ≠ [])
    (done : initfscp mountPoints heap [(source, dir)] = .ok image) (stored : Stored mem 0 image) :
    (∀ i, IsFile (initfsInit mem uid) i →
      ((initfsInit mem uid).headers i).stop ≤ (initfsInit mem uid).fsEnd.toNat) ↔
      EndsInFile (listing [] dir) := by
  obtain ⟨few, short⟩ := initfscp_room done
  obtain ⟨-, -, rfl⟩ := (initfscp_ok few short).mp done
  rw [← markBounds_iff nonempty]
  exact initfsInit_bounds_iff ⟨dir, valid, few, short⟩ nonempty (stored_append.mp stored).1

theorem fsEnd_bounds_iff_singleFile :
    ∃ image mem, initfscp [] (fun _ => 0) [([], (singleFile [1]).dir)] = .ok image ∧
      Stored mem 0 image ∧
      ((∀ i, IsFile (initfsInit mem 0) i →
        ((initfsInit mem 0).headers i).stop ≤ (initfsInit mem 0).fsEnd.toNat) ↔
        EndsInFile (listing [] (singleFile [1]).dir)) := by
  have done : initfscp [] (fun _ => 0) [([], (singleFile [1]).dir)] = .ok _ :=
    (initfscp_ok (singleFile [1]).few (singleFile [1]).short).mpr ⟨by decide, by decide, rfl⟩
  obtain ⟨mem, stored⟩ := exists_stored _
  exact ⟨_, mem, done, stored, fsEnd_bounds_iff (singleFile [1]).valid (by decide) done stored⟩

def fileThenDirectory : SourceTree where
  dir := .file [97] [1] (.directory [98] .nil .nil)
  valid := ⟨⟨by decide, by decide, by decide⟩, by decide, ⟨by decide, by decide, by decide⟩,
    not_mem_nil, trivial, trivial⟩
  few := show 2 ≤ 32 by decide
  short := by decide

theorem fsEnd_below_fileThenDirectory :
    ∃ image, initfscp [] (fun _ => 0) [([], fileThenDirectory.dir)] = .ok image ∧
      ∀ mem uid, Stored mem 0 image →
        (initfsInit mem uid).fsEnd = 0 ∧ IsFile (initfsInit mem uid) 0 ∧
        ((initfsInit mem uid).headers 0).stop = 8837 := by
  have done : initfscp [] (fun _ => 0) [([], fileThenDirectory.dir)] = .ok _ :=
    (initfscp_ok fileThenDirectory.few fileThenDirectory.short).mpr ⟨by decide, by decide, rfl⟩
  refine ⟨_, done, fun mem uid stored => ?_⟩
  have table := (stored_append.mp stored).1
  have first : (initfsInit mem uid).headers 0 =
      ⟨0xBF, [slash, 97], fsFile, 0, UInt32.ofNat tableSize, 1⟩ :=
    initfsInit_headers table (by decide)
  refine ⟨initfsInit_fsEnd fileThenDirectory (by decide) table, ⟨by decide, ?_⟩, ?_⟩
  · rw [first]
  · rw [first]
    rfl

end Elaborato.Initscp
