import Elaborato.Initscp.Initfscp

/-!
The walk and the copying over the list of the entries that the walk meets.
-/
namespace Elaborato.Initscp
open Foundation List Function
open Mentos.Initrd (Name Header slash fsFile fsDirectory fsMountpoint)

structure Item where
  fileName : Name
  content : Option (List UInt8)

def Item.bytes (item : Item) : List UInt8 := item.content.getD []

def listing : Name → Dir → List Item
  | _, .nil => []
  | directory, .file name content rest =>
    if isDots name then listing directory rest
    else ⟨directory ++ slash :: name, some content⟩ :: listing directory rest
  | directory, .directory name entries rest =>
    if isDots name then listing directory rest
    else
      ⟨directory ++ slash :: name, none⟩ ::
        (listing (directory ++ slash :: name) entries ++ listing directory rest)

section Walking
variable (mountPoints : List Name) {source : Name} {w w' : Walk} {items : List Item} {item : Item}

def itemHeader (w : Walk) (item : Item) : Header :=
  match item.content with
  | some content => fileHeader w item.fileName content
  | none => directoryHeader mountPoints w item.fileName

/-- The walk after one more entry. -/
def put (w : Walk) (item : Item) : Walk where
  headers := update w.headers w.headerIdx (itemHeader mountPoints w item)
  headerIdx := w.headerIdx + 1
  headerOffset := w.headerOffset + UInt32.ofNat item.bytes.length

@[simp] theorem put_headerIdx (w : Walk) (item : Item) :
    (put mountPoints w item).headerIdx = w.headerIdx + 1 := rfl

@[simp] theorem put_headers (w : Walk) (item : Item) : (put mountPoints w item).headers =
    update w.headers w.headerIdx (itemHeader mountPoints w item) := rfl

def meet (source : Name) (w : Walk) (item : Item) : Except Halt Walk := do
  let w ← addHeader w (itemHeader mountPoints w item)
  match item.content with
  | some _ => .ok w
  | none => do
      checkPath source item.fileName
      .ok w

theorem readEntries_eq (source directory : Name) (dir : Dir) (w : Walk) :
    readEntries mountPoints source directory dir w =
      (listing directory dir).foldlM (meet mountPoints source) w := by
  induction dir generalizing directory w with
  | nil => rfl
  | file name content rest ih =>
    rw [readEntries, listing]
    split
    · exact ih directory w
    · rw [foldlM_cons, meet, bind_assoc]
      refine bind_congr fun w => ?_
      exact ih directory w
  | directory name entries rest ihEntries ihRest =>
    rw [readEntries, listing]
    split
    · exact ihRest directory w
    · rw [foldlM_cons, meet, bind_assoc]
      refine bind_congr fun w => ?_
      simp only [bind_assoc]
      refine bind_congr fun _ => ?_
      change _ = List.foldlM _ w (_ ++ _)
      rw [foldlM_append, ihEntries]
      exact bind_congr fun w => ihRest directory w

theorem addHeader_item (w : Walk) (item : Item) :
    addHeader w (itemHeader mountPoints w item) =
      if initfscpMaxFiles ≤ w.headerIdx then .error .headers
      else if initfscpNameMax ≤ item.fileName.length then .error .nameField
      else .ok (put mountPoints w item) := by
  unfold addHeader put itemHeader Item.bytes
  cases item.content with
  | some content | none => rfl

theorem checkPath_ok {path : Name} (fits : (source ++ path).length < absolutePathSize) :
    checkPath source path = .ok () := if_neg (Nat.not_le.mpr fits)

theorem meet_ok (room : w.headerIdx < initfscpMaxFiles)
    (short : item.fileName.length < initfscpNameMax)
    (fits : (source ++ item.fileName).length < absolutePathSize) :
    meet mountPoints source w item = .ok (put mountPoints w item) := by
  rw [meet, addHeader_item, if_neg (Nat.not_le.mpr room), if_neg (Nat.not_le.mpr short)]
  cases content : item.content with
  | some content => rfl
  | none =>
    change (do checkPath source item.fileName; _) = _
    rw [checkPath_ok fits]
    rfl

theorem meet_cases (met : meet mountPoints source w item = .ok w') :
    w.headerIdx < initfscpMaxFiles ∧ item.fileName.length < initfscpNameMax ∧
      w' = put mountPoints w item := by
  rw [meet, addHeader_item] at met
  split at met
  · cases met
  · rename_i room
    split at met
    · cases met
    · rename_i short
      refine ⟨Nat.not_le.mp room, Nat.not_le.mp short, ?_⟩
      cases content : item.content with
      | some content =>
        rw [content] at met
        exact (Except.ok.inj met).symm
      | none =>
        rw [content] at met
        change (do checkPath source item.fileName; _) = _ at met
        unfold checkPath at met
        split at met
        · cases met
        · exact (Except.ok.inj met).symm

theorem foldlM_meet (room : w.headerIdx + items.length ≤ initfscpMaxFiles)
    (short : ∀ item ∈ items, item.fileName.length < initfscpNameMax)
    (fits : ∀ item ∈ items, (source ++ item.fileName).length < absolutePathSize) :
    items.foldlM (meet mountPoints source) w = .ok (items.foldl (put mountPoints) w) := by
  induction items generalizing w with
  | nil => rfl
  | cons item items ih =>
    rw [length_cons] at room
    rw [foldlM_cons, meet_ok mountPoints (by omega) (short item (by simp))
      (fits item (by simp))]
    exact ih (by rw [put_headerIdx]; omega) (fun i hi => short i (mem_cons_of_mem _ hi))
      fun i hi => fits i (mem_cons_of_mem _ hi)

theorem foldlM_meet_cases (met : items.foldlM (meet mountPoints source) w = .ok w')
    (below : w.headerIdx ≤ initfscpMaxFiles) :
    w.headerIdx + items.length ≤ initfscpMaxFiles ∧
      (∀ item ∈ items, item.fileName.length < initfscpNameMax) ∧
      w' = items.foldl (put mountPoints) w := by
  induction items generalizing w with
  | nil => exact ⟨below, fun _ none => absurd none not_mem_nil, (Except.ok.inj met).symm⟩
  | cons item items ih =>
    rw [foldlM_cons] at met
    cases first : meet mountPoints source w item with
    | error halt =>
      rw [first] at met
      cases met
    | ok next =>
      rw [first] at met
      obtain ⟨room, short, rfl⟩ := meet_cases mountPoints first
      obtain ⟨few, others, rfl⟩ := ih met room
      refine ⟨?_, forall_mem_cons.mpr ⟨short, others⟩, rfl⟩
      rw [length_cons]
      rw [put_headerIdx] at few
      omega

/-- The header that `init_headers` leaves. -/
def blank : Header := ⟨0xBF, [], 0, 0, 0, 0⟩

/-- The header of an entry at an offset. -/
def Item.header (item : Item) (offset : Nat) : Header :=
  match item.content with
  | some content =>
    ⟨0xBF, item.fileName, fsFile, 0, UInt32.ofNat offset, UInt32.ofNat content.length⟩
  | none =>
    ⟨0xBF, item.fileName, if isMountPoint mountPoints item.fileName then fsMountpoint
      else fsDirectory, 0, 0, 0⟩

def placedHeader (base : Nat) (items : List Item) (k : Nat) : Header :=
  match items[k]? with
  | some item => item.header mountPoints (base + blockStart (items.map Item.bytes) k)
  | none => blank

theorem itemHeader_eq {base : Nat} (unused : w.headers w.headerIdx = blank)
    (offset : w.headerOffset = UInt32.ofNat base) (item : Item) :
    itemHeader mountPoints w item = item.header mountPoints base := by
  unfold itemHeader Item.header
  cases item.content with
  | some content =>
    simp only [fileHeader, unused, offset, blank]
  | none =>
    simp only [directoryHeader, unused, blank]

theorem foldl_put {base : Nat} (offset : w.headerOffset = UInt32.ofNat base)
    (unused : ∀ i, w.headerIdx ≤ i → w.headers i = blank) :
    (items.foldl (put mountPoints) w).headerIdx = w.headerIdx + items.length ∧
      (∀ i < w.headerIdx, (items.foldl (put mountPoints) w).headers i = w.headers i) ∧
      ∀ k, (items.foldl (put mountPoints) w).headers (w.headerIdx + k) =
        placedHeader mountPoints base items k := by
  induction items generalizing w base with
  | nil => exact ⟨rfl, fun _ _ => rfl, fun k => unused _ (Nat.le_add_right _ _)⟩
  | cons item items ih =>
    have first := itemHeader_eq mountPoints (unused _ (Nat.le_refl _)) offset item
    have next : (put mountPoints w item).headerOffset =
        UInt32.ofNat (base + item.bytes.length) := by
      rw [put, offset, UInt32.ofNat_add]
    have later : ∀ i, (put mountPoints w item).headerIdx ≤ i →
        (put mountPoints w item).headers i = blank := by
      intro i above
      rw [put_headerIdx] at above
      rw [put_headers, update_of_ne (by omega)]
      exact unused i (by omega)
    obtain ⟨count, before, after⟩ := ih next later
    refine ⟨?_, fun i below => ?_, fun k => ?_⟩
    · rw [foldl_cons, count, put_headerIdx, length_cons]
      omega
    · rw [foldl_cons, before i (by rw [put_headerIdx]; omega), put_headers, update_of_ne (by omega)]
    · cases k with
      | zero =>
        rw [foldl_cons, before _ (by rw [put_headerIdx]; omega), put_headers,
          Nat.add_zero, update_self, first, placedHeader, getElem?_cons_zero,
          map_cons, blockStart_zero, Nat.add_zero]
      | succ k =>
        have index : w.headerIdx + (k + 1) = (put mountPoints w item).headerIdx + k := by
          rw [put_headerIdx]
          omega
        rw [foldl_cons, index, after k, placedHeader, placedHeader,
          getElem?_cons_succ, map_cons, blockStart_cons_succ, Nat.add_assoc]

end Walking

variable {heap : Nat → UInt8} {headers : Nat → Header} {source : Name} {dir : Dir}
  {target image : List UInt8}

/-- The bytes that are copied for a header. -/
def piece (heap : Nat → UInt8) (headers : Nat → Header) (dir : Dir) (i : Nat) : List UInt8 :=
  if (headers i).fileType = fsFile then
    ((fopen dir (headers i).fileName).map (copied heap (headers i).length.toNat)).getD []
  else []

theorem writeFile_eq (i : Nat) :
    writeFile heap headers source dir i =
      if absolutePathSize ≤ (source ++ (headers i).fileName).length then .error .pathBuffer
      else .ok (piece heap headers dir i) := by
  unfold writeFile checkPath piece
  split
  · rfl
  · change (if _ then _ else _) = _
    split
    · cases fopen dir (headers i).fileName with
      | none | some content => rfl
    · rfl

theorem foldlM_writeFile (indices : List Nat) :
    indices.foldlM (fun target i => do
        let bytes ← writeFile heap headers source dir i
        .ok (target ++ bytes)) target = .ok image ↔
      (∀ i ∈ indices, (source ++ (headers i).fileName).length < absolutePathSize) ∧
        image = target ++ (indices.map (piece heap headers dir)).flatten := by
  induction indices generalizing target with
  | nil =>
    rw [foldlM_nil]
    constructor
    · intro done
      exact ⟨fun _ h => absurd h not_mem_nil, by simpa using (Except.ok.inj done).symm⟩
    · rintro ⟨-, rfl⟩
      simp [pure, Except.pure]
  | cons i indices ih =>
    rw [foldlM_cons, writeFile_eq]
    by_cases fits : absolutePathSize ≤ (source ++ (headers i).fileName).length
    · rw [if_pos fits]
      constructor
      · intro done
        cases done
      · rintro ⟨all, -⟩
        exact absurd fits (Nat.not_le.mpr (all i (by simp)))
    · rw [if_neg fits]
      change List.foldlM _ (target ++ piece heap headers dir i) indices = _ ↔ _
      rw [ih, forall_mem_cons, map_cons, flatten_cons, append_assoc, and_assoc]
      exact (and_iff_right (Nat.not_le.mp fits)).symm

theorem writeFileSystem_ok :
    writeFileSystem heap headers source dir target = .ok image ↔
      (∀ i < initfscpMaxFiles, (source ++ (headers i).fileName).length < absolutePathSize) ∧
        image = target ++ ((List.range initfscpMaxFiles).map (piece heap headers dir)).flatten := by
  rw [writeFileSystem, foldlM_writeFile]
  simp only [mem_range]

end Elaborato.Initscp
