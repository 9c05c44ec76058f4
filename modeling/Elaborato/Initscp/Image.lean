import Elaborato.Initscp.Walk
import Elaborato.Mentos.InitrdFiles
import Elaborato.Mentos.InitrdRead

/-!
The image of a source tree: the walk and the copying agree on where each file lies.
-/
namespace Elaborato.Initscp
open Foundation List
open Mentos.Initrd

def NameOk (name : Name) : Prop := name ≠ [] ∧ slash ∉ name ∧ 0 ∉ name

def Dir.names : Dir → List Name
  | .nil => []
  | .file name _ rest => name :: rest.names
  | .directory name _ rest => name :: rest.names

def Dir.Valid : Dir → Prop
  | .nil => True
  | .file name _ rest => NameOk name ∧ name ∉ rest.names ∧ rest.Valid
  | .directory name entries rest => NameOk name ∧ name ∉ rest.names ∧ entries.Valid ∧ rest.Valid

structure SourceTree where
  dir : Dir
  valid : dir.Valid
  few : (listing [] dir).length ≤ initfscpMaxFiles
  short : ∀ item ∈ listing [] dir, item.fileName.length < initfscpNameMax

def pathOf (names : List Name) : Name := names.flatMap fun name => slash :: name

theorem pathOf_concat (names : List Name) (name : Name) :
    pathOf (names ++ [name]) = pathOf names ++ slash :: name := by
  simp [pathOf]

variable {names : List Name}

theorem splitOn_pathOf (ok : ∀ name ∈ names, NameOk name) :
    (pathOf names).splitOn slash = [] :: names := by
  have joined : [slash].intercalate ([] :: names) = pathOf names := by
    induction names with
    | nil => rfl
    | cons name names ih =>
      have rest := ih fun n hn => ok n (mem_cons_of_mem _ hn)
      cases names with
      | nil => simp [List.intercalate, pathOf]
      | cons next names =>
        simp only [List.intercalate, List.intersperse, flatten_cons, nil_append,
          pathOf, flatMap_cons] at rest ⊢
        simpa using rest
  rw [← joined, splitOn_intercalate]
  · intro name mem
    rcases mem_cons.mp mem with rfl | mem
    · exact not_mem_nil
    · exact (ok name mem).2.1
  · exact cons_ne_nil _ _

variable {dir : Dir}

theorem find_mem {key : Name} {entry : List UInt8 ⊕ Dir} (found : dir.find key = some entry) :
    key ∈ dir.names := by
  induction dir with
  | nil => cases found
  | file name content rest ih | directory name entries rest _ ih =>
    rw [Dir.find] at found
    split at found
    · rename_i same
      exact mem_cons.mpr (.inl same.symm)
    · exact mem_cons_of_mem _ (ih found)

variable {rest : Dir} {name : Name} {content : List UInt8}

theorem resolve_rest (other : ∀ key, key ≠ name → dir.find key = rest.find key)
    (fresh : name ∉ rest.names) (found : resolve rest names = some content) :
    resolve dir names = some content := by
  cases names with
  | nil => cases found
  | cons key names =>
    have differs : key ≠ name := by
      rintro rfl
      rw [resolve] at found
      cases entry : rest.find key with
      | none =>
        rw [entry] at found
        cases found
      | some e => exact fresh (find_mem entry)
    rw [resolve, other key differs]
    exact found

def Leads (dir : Dir) (above : List Name) (item : Item) : Prop :=
  ∃ names, item.fileName = pathOf (above ++ names) ∧ (∀ name ∈ names, NameOk name) ∧
    ∀ content, item.content = some content → resolve dir names = some content

variable {item : Item}

theorem leads_rest {above : List Name} (other : ∀ key, key ≠ name → dir.find key = rest.find key)
    (fresh : name ∉ rest.names) (leads : Leads rest above item) : Leads dir above item := by
  obtain ⟨names, path, ok, found⟩ := leads
  exact ⟨names, path, ok, fun c hc => resolve_rest other fresh (found c hc)⟩

theorem leads_listing (valid : dir.Valid) (above : List Name)
    (mem : item ∈ listing (pathOf above) dir) : Leads dir above item := by
  induction dir generalizing above with
  | nil => exact absurd mem not_mem_nil
  | file name content rest ih =>
    obtain ⟨nameOk, fresh, validRest⟩ := valid
    have later : item ∈ listing (pathOf above) rest → Leads (.file name content rest) above item :=
      fun mem => leads_rest (fun key differs => if_neg (Ne.symm differs)) fresh
        (ih validRest above mem)
    rw [listing] at mem
    split at mem
    · exact later mem
    · rcases mem_cons.mp mem with rfl | mem
      · refine ⟨[name], (pathOf_concat above name).symm, by simpa using nameOk, fun c hc => ?_⟩
        rw [resolve, Dir.find, if_pos rfl]
        simpa using hc
      · exact later mem
  | directory name entries rest ihEntries ihRest =>
    obtain ⟨nameOk, fresh, validEntries, validRest⟩ := valid
    have later : item ∈ listing (pathOf above) rest →
        Leads (.directory name entries rest) above item :=
      fun mem => leads_rest (fun key differs => if_neg (Ne.symm differs)) fresh
        (ihRest validRest above mem)
    rw [listing] at mem
    split at mem
    · exact later mem
    · rcases mem_cons.mp mem with rfl | mem
      · exact ⟨[name], (pathOf_concat above name).symm, by simpa using nameOk, by simp⟩
      · rcases mem_append.mp mem with mem | mem
        · rw [← pathOf_concat] at mem
          obtain ⟨names, path, ok, found⟩ := ihEntries validEntries _ mem
          refine ⟨name :: names, by simpa using path, forall_mem_cons.mpr ⟨nameOk, ok⟩,
            fun c hc => ?_⟩
          rw [resolve, Dir.find, if_pos rfl]
          exact found c hc
        · exact later mem

theorem listing_fileName (valid : dir.Valid) (mem : item ∈ listing [] dir) : 0 ∉ item.fileName := by
  obtain ⟨names, path, ok, -⟩ := leads_listing valid [] mem
  rw [path, nil_append, pathOf, mem_flatMap]
  rintro ⟨name, hn, zero⟩
  rcases mem_cons.mp zero with zero | zero
  · exact absurd zero (by decide)
  · exact (ok name hn).2.2 zero

theorem fopen_listing (valid : dir.Valid) (mem : item ∈ listing [] dir)
    (file : item.content = some content) : fopen dir item.fileName = some content := by
  obtain ⟨names, path, ok, found⟩ := leads_listing valid [] mem
  have kept : names.filter (fun name => name != []) = names := by
    rw [filter_eq_self]
    intro name hn
    simpa using (ok name hn).1
  rw [fopen, path, nil_append, splitOn_pathOf ok, filter_cons_of_neg (by simp), kept]
  exact found content file

variable {m : ByteMem} {a : Nat} {h : Header} {w : Walk}

theorem length_headerBytes (short : h.fileName.length < initfscpNameMax) :
    (headerBytes h).length = sizeofHeader := by
  have limit : initfscpNameMax = 255 := rfl
  simp only [headerBytes, length_append, length_bytesOf, length_replicate,
    length_cons, length_nil, sizeofHeader]
  omega

theorem takeWhile_padded {name : Name} (noNul : 0 ∉ name) (n : Nat) :
    (name ++ List.replicate n 0).takeWhile (fun b => b != 0) = name := by
  rw [takeWhile_append_of_pos]
  · cases n with
    | zero => simp
    | succ n => simp [replicate_succ]
  · intro b hb
    have other : b ≠ 0 := by
      rintro rfl
      exact noNul hb
    simpa using other

theorem headerAt_stored (stored : Stored m a (headerBytes h))
    (short : h.fileName.length < initfscpNameMax) (noNul : 0 ∉ h.fileName) :
    headerAt m a = h := by
  have limit : initfscpNameMax = 255 := rfl
  have width : (h.fileName ++ List.replicate (initfscpNameMax - h.fileName.length) 0).length =
      nameMax := by
    rw [length_append, length_replicate, nameMax]
    omega
  simp only [headerBytes, stored_append, length_append, length_bytesOf, length_cons,
    length_nil] at stored
  rw [← length_append, width] at stored
  obtain ⟨⟨⟨⟨⟨⟨⟨magic, name⟩, -⟩, fileType⟩, -⟩, uid⟩, offset⟩, length⟩ := stored
  have type : (m (a + 260)).toNat + 2 ^ 8 * (m (a + 261)).toNat = h.fileType.toNat := by
    have low := stored_bytesOf fileType (show 0 < 2 by omega)
    have high := stored_bytesOf fileType (show 1 < 2 by omega)
    have small := h.fileType.toNat_lt
    simp only [nameMax] at low high
    have first : (m (a + 260)).toNat = h.fileType.toNat / 2 ^ (8 * 0) % 2 ^ 8 := low
    have second : (m (a + 261)).toNat = h.fileType.toNat / 2 ^ (8 * 1) % 2 ^ 8 := high
    omega
  have text := stored_map (stored_append.mpr name)
  rw [width] at text
  simp only [headerAt, readWord_stored magic h.magic.toNat_lt, text, takeWhile_padded noNul, type]
  have owner : readWord m (a + 264) = h.uid.toNat := readWord_stored uid h.uid.toNat_lt
  have start : readWord m (a + 268) = h.offset.toNat := readWord_stored offset h.offset.toNat_lt
  have size : readWord m (a + 272) = h.length.toNat := readWord_stored length h.length.toNat_lt
  rw [owner, start, size]
  simp

variable {s : Fs} {fildes : Int} {d it : Nat}

section
variable (found : lookup s fildes = .ok (d, it)) (first : (s.descriptors d).curPos = 0)
include found first

theorem initfsRead_first (low : (s.headers it).length.toNat < 2 ^ 31) (nbyte : UInt32)
    (buf : Nat → UInt8) :
    ∃ ret s', initfsRead s fildes buf nbyte = .ok (ret, fun i =>
      if i < min nbyte.toNat (s.headers it).length.toNat
      then s.image ((s.headers it).offset.toNat + i) else buf i, s') := by
  by_cases none : nbyte = 0
  · subst none
    refine ⟨0, s, ?_⟩
    simp [initfsRead]
  · have read := initfsRead_eq found none buf
    have loop := @readLoop_spec s.image (s.headers it).offset.toNat (s.headers it).length.toNat 0
      (Nat.zero_le _) nbyte.toNat 0 buf
    simp only [first, signed_of_lt low] at read
    rw [Int.natCast_zero] at loop
    rw [loop] at read
    simp only [Nat.zero_add, Nat.sub_zero, Nat.add_zero, Nat.zero_le, true_and] at read
    exact ⟨_, _, read⟩

theorem initfsRead_huge (high : 2 ^ 31 ≤ (s.headers it).length.toNat) (buf : Nat → UInt8) :
    ∃ ret s', initfsRead s fildes buf 1 = .ok (ret, buf, s') := by
  have read := initfsRead_eq found (by decide : (1 : UInt32) ≠ 0) buf
  have small := (s.headers it).length.toNat_lt
  simp only [first, signed_of_le high] at read
  rw [readLoop_ended (by omega)] at read
  exact ⟨_, _, read⟩

end

def Reads (s : Fs) (it : Nat) (content : List UInt8) : Prop :=
  ∀ (v : Fs) (fildes : Int) (d : Nat), v.headers = s.headers → v.image = s.image →
    lookup v fildes = .ok (d, it) → (v.descriptors d).curPos = 0 → ∀ nbyte buf,
      ∃ ret v', initfsRead v fildes buf nbyte = .ok (ret, fun i =>
        if i < min nbyte.toNat content.length then content.getD i 0 else buf i, v')

theorem reads_stored (low : content.length < 2 ^ 31)
    (length : (s.headers it).length = UInt32.ofNat content.length)
    (stored : Stored s.image (s.headers it).offset.toNat content) : Reads s it content := by
  have size : (s.headers it).length.toNat = content.length := by
    rw [length, UInt32.toNat_ofNat']
    omega
  intro v fildes d headers image found first nbyte buf
  obtain ⟨ret, v', read⟩ := initfsRead_first found first (by rw [headers]; omega) nbyte buf
  refine ⟨ret, v', ?_⟩
  rw [read, headers, image, size]
  refine congrArg (fun b => Except.ok (ret, b, v')) (funext fun i => ?_)
  split
  · rename_i inside
    have below : i < content.length := (Nat.lt_min.mp inside).2
    rw [getD_eq_getElem?_getD, getElem?_eq_getElem below]
    exact stored i _ (getElem?_eq_getElem below)
  · rfl

theorem not_reads_huge (file : it < maxFiles) (high : 2 ^ 31 ≤ (s.headers it).length.toNat)
    (some : content ≠ []) : ¬ Reads s it content := by
  intro reads
  obtain ⟨b, bytes, rfl⟩ := exists_cons_of_ne_nil some
  have found : Mentos.Initrd.lookup { s with descriptors := fun _ => ⟨it, 0⟩ } 0 = .ok (0, it) := by
    unfold Mentos.Initrd.lookup
    rw [if_pos (by decide)]
    simp [file]
  obtain ⟨ret, v', read⟩ := reads { s with descriptors := fun _ => ⟨it, 0⟩ } 0 0 rfl rfl found rfl 1
    fun _ => b + 1
  obtain ⟨ret', v'', nothing⟩ := initfsRead_huge found rfl high fun _ => b + 1
  have same := congrFun (Prod.mk.inj (Prod.mk.inj (Except.ok.inj (read.symm.trans nothing))).2).1 0
  simp at same

variable {mountPoints : List Name} {heap : Nat → UInt8} {source : Name} {items : List Item}
  {image : List UInt8} {k : Nat}

/-- Where the walk puts an entry. -/
def position (items : List Item) (k : Nat) : Nat :=
  tableSize + blockStart (items.map Item.bytes) k

structure HoldsFiles (items : List Item) (image : List UInt8) (s : Fs) : Prop where
  outside : ∀ i, IsFile s i → ∀ x, InExtent (s.headers i) x → tableSize ≤ x
  apart : ExtentsApart s
  only : ∀ i, IsFile s i → ∃ item content, items[i]? = some item ∧ item.content = some content
  files : ∀ k item content, items[k]? = some item → item.content = some content →
    IsFile s k ∧ (s.headers k).fileName = item.fileName ∧
      (image.drop (s.headers k).offset.toNat).take (s.headers k).length.toNat = content
  reads : ∀ k item content, items[k]? = some item → item.content = some content →
    Reads s k content

structure Fits (source : Name) (items : List Item) : Prop where
  root : source.length < absolutePathSize
  paths : ∀ item ∈ items, (source ++ item.fileName).length < absolutePathSize
  sizes : ∀ item ∈ items, ∀ content, item.content = some content → content.length < 2 ^ 31
  starts : ∀ k item content, items[k]? = some item → item.content = some content →
    content ≠ [] → position items k < 2 ^ 32

/-- The walk over a source. -/
def walkOf (mountPoints : List Name) (items : List Item) : Walk :=
  items.foldl (put mountPoints) initHeaders

theorem walkOf_headers (mountPoints : List Name) (items : List Item) (k : Nat) :
    (walkOf mountPoints items).headers k = placedHeader mountPoints tableSize items k := by
  have placed := (@foldl_put mountPoints initHeaders items tableSize rfl fun _ _ => rfl).2.2 k
  rwa [show initHeaders.headerIdx + k = k from Nat.zero_add k] at placed

theorem createFileHeaders_ok {w : Walk}
    (done : createFileHeaders mountPoints source dir initHeaders = .ok w) :
    source.length < absolutePathSize ∧ (listing [] dir).length ≤ initfscpMaxFiles ∧
      (∀ item ∈ listing [] dir, item.fileName.length < initfscpNameMax) ∧
      w = walkOf mountPoints (listing [] dir) := by
  unfold createFileHeaders checkPath at done
  rw [append_nil] at done
  split at done
  · cases done
  · rename_i fits
    have walked : readEntries mountPoints source [] dir initHeaders = .ok w := done
    rw [readEntries_eq] at walked
    obtain ⟨few, short, made⟩ := foldlM_meet_cases mountPoints walked (Nat.zero_le _)
    exact ⟨Nat.not_le.mp fits, by simpa [initHeaders] using few, short, made⟩

theorem initfscp_single : initfscp mountPoints heap [(source, dir)] = (do
    let w ← createFileHeaders mountPoints source dir initHeaders
    writeFileSystem heap w.headers source dir (headerTable w)) := by
  simp only [initfscp, foldlM_cons, foldlM_nil, bind_pure]

theorem initfscp_room (done : initfscp mountPoints heap [(source, dir)] = .ok image) :
    (listing [] dir).length ≤ initfscpMaxFiles ∧
      ∀ item ∈ listing [] dir, item.fileName.length < initfscpNameMax := by
  rw [initfscp_single] at done
  cases walked : createFileHeaders mountPoints source dir initHeaders with
  | error halt =>
    rw [walked] at done
    cases done
  | ok w =>
    obtain ⟨-, few, short, -⟩ := createFileHeaders_ok walked
    exact ⟨few, short⟩

theorem initfscp_ok (few : (listing [] dir).length ≤ initfscpMaxFiles)
    (short : ∀ item ∈ listing [] dir, item.fileName.length < initfscpNameMax) :
    let w := walkOf mountPoints (listing [] dir)
    initfscp mountPoints heap [(source, dir)] = .ok image ↔
      source.length < absolutePathSize ∧
      (∀ item ∈ listing [] dir, (source ++ item.fileName).length < absolutePathSize) ∧
      image = headerTable w ++
        ((List.range initfscpMaxFiles).map (piece heap w.headers dir)).flatten := by
  intro w
  rw [initfscp_single]
  constructor
  · intro done
    cases walked : createFileHeaders mountPoints source dir initHeaders with
    | error halt =>
      rw [walked] at done
      cases done
    | ok w' =>
      rw [walked] at done
      obtain ⟨root, -, -, rfl⟩ := createFileHeaders_ok walked
      obtain ⟨fits, image⟩ := writeFileSystem_ok.mp done
      refine ⟨root, fun item mem => ?_, image⟩
      obtain ⟨k, below, rfl⟩ := mem_iff_getElem.mp mem
      have here := fits k (Nat.lt_of_lt_of_le below few)
      rw [walkOf_headers, placedHeader, getElem?_eq_getElem below] at here
      simp only [Item.header] at here
      split at here <;> exact here
  · rintro ⟨root, paths, image⟩
    have walked : createFileHeaders mountPoints source dir initHeaders = .ok w := by
      rw [createFileHeaders, checkPath_ok (by simpa using root)]
      change readEntries mountPoints source [] dir initHeaders = _
      rw [readEntries_eq]
      exact foldlM_meet mountPoints (by simpa [initHeaders] using few) short paths
    rw [walked]
    refine writeFileSystem_ok.mpr ⟨fun k _ => ?_, image⟩
    rw [walkOf_headers, placedHeader]
    cases found : (listing [] dir)[k]? with
    | none => simpa [blank] using root
    | some item =>
      have fits := paths item (mem_of_getElem? found)
      simp only [Item.header]
      split <;> exact fits

theorem placedHeader_fileName (found : items[k]? = some item) :
    (placedHeader mountPoints tableSize items k).fileName = item.fileName := by
  rw [placedHeader, found]
  simp only [Item.header]
  split <;> rfl

theorem placedHeader_file (found : items[k]? = some item) (file : item.content = some content) :
    placedHeader mountPoints tableSize items k = ⟨0xBF, item.fileName, fsFile, 0,
      UInt32.ofNat (position items k), UInt32.ofNat content.length⟩ := by
  rw [placedHeader, found]
  simp only [Item.header, file, position]

theorem placedHeader_none (beyond : items[k]? = none) :
    placedHeader mountPoints tableSize items k = blank := by
  rw [placedHeader, beyond]

theorem placedHeader_isFile
    (file : (placedHeader mountPoints tableSize items k).fileType = fsFile) :
    ∃ item content, items[k]? = some item ∧ item.content = some content := by
  cases found : items[k]? with
  | none =>
    rw [placedHeader_none found] at file
    exact absurd file (by decide)
  | some item =>
    cases isFile : item.content with
    | some content => exact ⟨item, content, rfl, isFile⟩
    | none =>
      rw [placedHeader, found] at file
      simp only [Item.header, isFile] at file
      split at file <;> exact absurd file (by decide)

variable {t : SourceTree}

theorem placedHeader_proper (t : SourceTree) (k : Nat) :
    (placedHeader mountPoints tableSize (listing [] t.dir) k).fileName.length < initfscpNameMax ∧
      0 ∉ (placedHeader mountPoints tableSize (listing [] t.dir) k).fileName := by
  cases found : (listing [] t.dir)[k]? with
  | none =>
    rw [placedHeader_none found]
    decide
  | some item =>
    have mem := mem_of_getElem? found
    rw [placedHeader_fileName found]
    exact ⟨t.short item mem, listing_fileName t.valid mem⟩

theorem length_placedHeader {b : List UInt8} (mem : b ∈ (List.range initfscpMaxFiles).map fun i =>
    headerBytes ((walkOf mountPoints (listing [] t.dir)).headers i)) : b.length = sizeofHeader := by
  obtain ⟨j, -, rfl⟩ := mem_map.mp mem
  rw [walkOf_headers]
  exact length_headerBytes (placedHeader_proper t j).1

theorem length_headerTable :
    (headerTable (walkOf mountPoints (listing [] t.dir))).length = tableSize := by
  rw [headerTable, length_append, length_bytesOf, length_flatten,
    map_congr_left fun b mem => length_placedHeader mem, map_const',
    length_map, length_range]
  rfl

theorem initfsInit_headers {mem : ByteMem} {uid : UInt32}
    (stored : Stored mem 0 (headerTable (walkOf mountPoints (listing [] t.dir)))) {i : Nat}
    (below : i < initfscpMaxFiles) : (initfsInit mem uid).headers i =
      placedHeader mountPoints tableSize (listing [] t.dir) i := by
  have table := (stored_append.mp stored).2
  rw [length_bytesOf, Nat.zero_add] at table
  have here := stored_flatten table (k := i) (by
    rw [getElem?_map, getElem?_range below]
    rfl)
  rw [blockStart_const (fun b mem => length_placedHeader mem)
    (by simpa using Nat.le_of_lt below)] at here
  simp only [walkOf_headers] at here
  exact headerAt_stored here (placedHeader_proper t i).1 (placedHeader_proper t i).2

theorem copied_small (small : content.length < 2 ^ 32) :
    copied heap (UInt32.ofNat content.length).toNat content = content := by
  rw [UInt32.toNat_ofNat', Nat.mod_eq_of_lt small, copied]
  simp

theorem flatten_piece (sizes : ∀ item ∈ listing [] t.dir, ∀ content,
      item.content = some content → content.length < 2 ^ 32) :
    ((List.range initfscpMaxFiles).map
      (piece heap (walkOf mountPoints (listing [] t.dir)).headers t.dir)).flatten =
        ((listing [] t.dir).map Item.bytes).flatten := by
  have few := t.few
  have pieces : (List.range initfscpMaxFiles).map
      (piece heap (walkOf mountPoints (listing [] t.dir)).headers t.dir) =
        (listing [] t.dir).map Item.bytes ++
          List.replicate (initfscpMaxFiles - (listing [] t.dir).length) [] := by
    refine ext_getElem (by simp; omega) fun k below _ => ?_
    rw [length_map, length_range] at below
    rw [getElem_map, getElem_range, piece, walkOf_headers]
    cases found : (listing [] t.dir)[k]? with
    | none =>
      rw [placedHeader_none found, if_neg (by decide),
        getElem_append_right (by simpa using found), getElem_replicate]
    | some item =>
      have mem := mem_of_getElem? found
      obtain ⟨inside, here⟩ := List.getElem?_eq_some_iff.mp found
      rw [getElem_append_left (by simpa using inside), getElem_map, here, Item.bytes]
      cases isFile : item.content with
      | some content =>
        rw [placedHeader_file found isFile, if_pos rfl, fopen_listing t.valid mem isFile]
        exact copied_small (sizes item mem content isFile)
      | none =>
        refine if_neg fun file => ?_
        obtain ⟨item', content, found', isFile'⟩ := placedHeader_isFile file
        rw [found] at found'
        obtain rfl := Option.some.inj found'
        rw [isFile] at isFile'
        cases isFile'
  rw [pieces, flatten_append, flatten_replicate_nil, append_nil]

section
variable (found : items[k]? = some item) (file : item.content = some content)
include found file

theorem position_le {l : Nat} (later : k < l) :
    position items k + content.length ≤ position items l := by
  have here : (items.map Item.bytes)[k]? = some content := by
    rw [getElem?_map, found]
    simp [Item.bytes, file]
  have apart := blockStart_apart here later
  unfold position
  omega

theorem inExtent_placed {x : Nat} (start : position items k < 2 ^ 32)
    (size : content.length < 2 ^ 32) :
    InExtent (placedHeader mountPoints tableSize items k) x ↔
      position items k ≤ x ∧ x < position items k + content.length := by
  rw [placedHeader_file found file, InExtent, Header.stop]
  simp only [UInt32.toNat_ofNat', Nat.mod_eq_of_lt start, Nat.mod_eq_of_lt size]

end

section Loaded
variable (headers : ∀ i < maxFiles, s.headers i = placedHeader mountPoints tableSize items i)
include headers

variable {i : Nat}

theorem isFile_loaded (file : IsFile s i) :
    ∃ item content, items[i]? = some item ∧ item.content = some content := by
  have type := file.2
  rw [headers i file.1] at type
  exact placedHeader_isFile type

variable {x : Nat}

theorem inExtent_nonempty (below : i < maxFiles) (found : items[i]? = some item)
    (file : item.content = some content) (inside : InExtent (s.headers i) x) : content ≠ [] := by
  rintro rfl
  rw [headers i below, placedHeader_file found file] at inside
  exact absurd inside.2 (Nat.not_lt.mpr inside.1)

theorem inExtent_loaded (fits : Fits source items) (file : IsFile s i)
    (inside : InExtent (s.headers i) x) :
    ∃ item content, items[i]? = some item ∧ item.content = some content ∧
      position items i ≤ x ∧ x < position items i + content.length := by
  obtain ⟨item, content, found, isFile⟩ := isFile_loaded headers file
  have small := fits.sizes item (mem_of_getElem? found) content isFile
  have start := fits.starts i item content found isFile
    (inExtent_nonempty headers file.1 found isFile inside)
  rw [headers i file.1, inExtent_placed found isFile start (by omega)] at inside
  exact ⟨item, content, found, isFile, inside⟩

theorem extentsApart_loaded (fits : Fits source items) : ExtentsApart s := by
  intro i j fileI fileJ different x inI inJ
  obtain ⟨_, _, foundI, isFileI, lowI, highI⟩ := inExtent_loaded headers fits fileI inI
  obtain ⟨_, _, foundJ, isFileJ, lowJ, highJ⟩ := inExtent_loaded headers fits fileJ inJ
  rcases Nat.lt_or_gt_of_ne different with before | before
  · have apart := position_le foundI isFileI before
    omega
  · have apart := position_le foundJ isFileJ before
    omega

theorem holdsFiles_of_fits (fits : Fits source items) (few : items.length ≤ maxFiles)
    {table : List UInt8} (length : table.length = tableSize)
    (stored : Stored s.image 0 (table ++ (items.map Item.bytes).flatten)) :
    HoldsFiles items (table ++ (items.map Item.bytes).flatten) s := by
  rw [stored_append, length, Nat.zero_add] at stored
  have placed : ∀ k item content, items[k]? = some item → item.content = some content →
      s.headers k = ⟨0xBF, item.fileName, fsFile, 0, UInt32.ofNat (position items k),
        UInt32.ofNat content.length⟩ ∧ k < maxFiles ∧ content.length < 2 ^ 31 ∧
        (items.map Item.bytes)[k]? = some content := by
    intro k item content found isFile
    have below := Nat.lt_of_lt_of_le (List.getElem?_eq_some_iff.mp found).1 few
    refine ⟨by rw [headers k below, placedHeader_file found isFile], below,
      fits.sizes item (mem_of_getElem? found) content isFile, ?_⟩
    rw [getElem?_map, found]
    simp [Item.bytes, isFile]
  refine ⟨fun i file x inside => ?_, extentsApart_loaded headers fits,
    fun i file => isFile_loaded headers file, fun k item content found isFile => ?_,
    fun k item content found isFile => ?_⟩
  · obtain ⟨_, _, _, _, low, -⟩ := inExtent_loaded headers fits file inside
    exact Nat.le_trans (Nat.le_add_right _ _) low
  · obtain ⟨header, below, small, block⟩ := placed k item content found isFile
    refine ⟨⟨below, by rw [header]⟩, by rw [header], ?_⟩
    have size : (UInt32.ofNat content.length).toNat = content.length := by
      rw [UInt32.toNat_ofNat']
      omega
    rw [header]
    simp only [size]
    by_cases nonempty : content = []
    · rw [nonempty]
      rfl
    · have start := fits.starts k item content found isFile nonempty
      rw [UInt32.toNat_ofNat', Nat.mod_eq_of_lt start, position, ← length, ← drop_drop, drop_left]
      exact drop_blockStart block
  · obtain ⟨header, -, small, block⟩ := placed k item content found isFile
    refine reads_stored small (by rw [header]) ?_
    rw [header]
    by_cases nonempty : content = []
    · rw [nonempty]
      exact fun i b none => by cases none
    · have start := fits.starts k item content found isFile nonempty
      simp only [UInt32.toNat_ofNat', Nat.mod_eq_of_lt start]
      exact stored_flatten stored.2 block

variable (few : items.length ≤ maxFiles) (holds : HoldsFiles items image s)
  (found : items[k]? = some item)
include few holds found

theorem sizes_of_holds (file : item.content = some content) : content.length < 2 ^ 31 := by
  have below := Nat.lt_of_lt_of_le (List.getElem?_eq_some_iff.mp found).1 few
  have header := (headers k below).trans (placedHeader_file found file)
  have length : (s.headers k).length.toNat = content.length % 2 ^ 32 := by
    rw [header]
    exact UInt32.toNat_ofNat'
  have taken := congrArg List.length (holds.files k item content found file).2.2
  rw [length_take, length] at taken
  by_contra huge
  refine not_reads_huge below ?_ ?_ (holds.reads k item content found file)
  · rw [length]
    omega
  · rintro rfl
    exact huge (by simp)

theorem starts_of_holds (file : item.content = some content) (nonempty : content ≠ []) :
    position items k < 2 ^ 32 := by
  have below := Nat.lt_of_lt_of_le (List.getElem?_eq_some_iff.mp found).1 few
  have small := sizes_of_holds headers few holds found file
  have some := length_pos_of_ne_nil nonempty
  by_contra far
  have inside : InExtent (s.headers k) (position items k % 2 ^ 32) := by
    rw [headers k below, placedHeader_file found file, InExtent, Header.stop]
    simp only [UInt32.toNat_ofNat']
    omega
  have isFile := (holds.files k item content found file).1
  have outside := holds.outside k isFile _ inside
  have between : position items k % 2 ^ 32 - tableSize <
      blockStart (items.map Item.bytes) k := by
    unfold position at far outside ⊢
    omega
  obtain ⟨l, b, earlier, block, low, high⟩ := blockStart_cover between
  rw [getElem?_map, Option.map_eq_some_iff] at block
  obtain ⟨item', found', rfl⟩ := block
  obtain ⟨content', file'⟩ : ∃ content', item'.content = .some content' := by
    cases isFile' : item'.content with
    | none =>
      simp only [Item.bytes, isFile', Option.getD_none, length_nil] at high
      omega
    | some content' => exact ⟨content', rfl⟩
  have below' : l < maxFiles := Nat.lt_trans earlier below
  have small' := sizes_of_holds headers few holds found' file'
  simp only [Item.bytes, file', Option.getD_some] at high
  have inside' : InExtent (s.headers l) (position items k % 2 ^ 32) := by
    rw [headers l below', inExtent_placed found' file' (by unfold position; omega) (by omega)]
    unfold position at *
    omega
  exact holds.apart l k (holds.files l item' content' found' file').1 isFile (by omega) _ inside'
    inside

end Loaded

/-- The image holds every file exactly when the paths and the sizes fit. -/
theorem initfscp_holds_iff (t : SourceTree) (source : Name) (mountPoints : List Name)
    (heap : Nat → UInt8) :
    (∃ image, initfscp mountPoints heap [(source, t.dir)] = .ok image ∧
      ∀ mem uid, Stored mem 0 image →
        HoldsFiles (listing [] t.dir) image (initfsInit mem uid)) ↔
      Fits source (listing [] t.dir) := by
  constructor
  · rintro ⟨image, done, holds⟩
    obtain ⟨root, paths, made⟩ := (initfscp_ok t.few t.short).mp done
    obtain ⟨mem, stored⟩ := exists_stored image
    have here := holds mem 0 stored
    rw [made] at stored
    have headers : ∀ i < maxFiles, (initfsInit mem 0).headers i =
        placedHeader mountPoints tableSize (listing [] t.dir) i :=
      fun i => initfsInit_headers (stored_append.mp stored).1
    refine ⟨root, paths, fun item mem content file => ?_, fun k item content found file => ?_⟩
    · obtain ⟨k, found⟩ := mem_iff_getElem?.mp mem
      exact sizes_of_holds headers t.few here found file
    · exact starts_of_holds headers t.few here found file
  · intro fits
    have made : initfscp mountPoints heap [(source, t.dir)] = .ok _ :=
      (initfscp_ok t.few t.short).mpr ⟨fits.root, fits.paths, rfl⟩
    rw [flatten_piece fun item mem content file => by
      have := fits.sizes item mem content file; omega] at made
    refine ⟨_, made, fun mem uid stored => ?_⟩
    have headers : ∀ i < maxFiles, (initfsInit mem uid).headers i =
        placedHeader mountPoints tableSize (listing [] t.dir) i :=
      fun i => initfsInit_headers (stored_append.mp stored).1
    exact holdsFiles_of_fits headers fits t.few length_headerTable stored

def singleFile (content : List UInt8) : SourceTree where
  dir := .file (List.replicate 10 98) content .nil
  valid := ⟨⟨by decide, by decide, by decide⟩, not_mem_nil, trivial⟩
  few := show 1 ≤ 32 by decide
  short item mem := by
    obtain rfl := mem_singleton.mp mem
    exact (by decide : (slash :: List.replicate 10 98).length < initfscpNameMax)

theorem initfscp_not_holds :
    (∀ image,
      initfscp [] (fun _ => 0) [(List.replicate 250 97, (singleFile []).dir)] ≠ .ok image) ∧
      ∀ image mem uid, initfscp [] (fun _ => 0)
        [([], (singleFile (List.replicate (2 ^ 31) 0)).dir)] = .ok image → Stored mem 0 image →
        ¬ HoldsFiles (listing [] (singleFile (List.replicate (2 ^ 31) 0)).dir) image
          (initfsInit mem uid) := by
  refine ⟨fun image done => ?_, fun image mem uid done stored holds => ?_⟩
  · obtain ⟨-, paths, -⟩ := (initfscp_ok (singleFile []).few (singleFile []).short).mp done
    have fits := paths ⟨slash :: List.replicate 10 98, some []⟩ (mem_singleton.mpr rfl)
    rw [length_append, length_replicate, length_cons, length_replicate] at fits
    exact absurd fits (by decide)
  · have few := (singleFile (List.replicate (2 ^ 31) 0)).few
    obtain ⟨-, -, made⟩ := (initfscp_ok few (singleFile (List.replicate (2 ^ 31) 0)).short).mp done
    rw [made] at stored
    have small := sizes_of_holds (fun i => initfsInit_headers (stored_append.mp stored).1) few holds
      (k := 0) rfl rfl
    rw [length_replicate] at small
    exact Nat.lt_irrefl _ small

end Elaborato.Initscp
