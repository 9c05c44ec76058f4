import Elaborato.Mentos.InitrdDescriptors
import Mathlib.Data.Finset.Card

/-!
Where the files lie over runs, and which of them the first `nfiles` headers lead to.
-/
namespace Elaborato.Mentos.Initrd
open Foundation List Function

inductive FsEvent
  | openPath (path : Name) (flags : UInt32)
  | write (heap : Nat → UInt8) (fildes : Int) (buf : Name) (nbyte : UInt32)
  | remove (path : Name)
  | mkdir (path : Name)
  | rmdir (path : Name)
  | close (fildes : Int)

def fsStep (s : Fs) : FsEvent → Except FsHalt (Int × Fs)
  | .openPath path flags => initfsOpen s path flags
  | .write heap fildes buf nbyte => initrdWrite s heap fildes buf nbyte
  | .remove path => .ok (initfsRemove s path)
  | .mkdir path => initrdMkdir s path
  | .rmdir path => .ok (initrdRmdir s path)
  | .close fildes => initrdClose s fildes

def FsStep (s : Fs) (e : FsEvent) (s' : Fs) : Prop := ∃ ret, fsStep s e = .ok (ret, s')

variable {s s' : Fs} {e : FsEvent} {path : Name} {ret : Int}

/-- A header that is new in the table. -/
structure Created (s s' : Fs) (path : Name) (fileType : UInt16) (free : Nat) : Prop where
  found : getFreeHeader s = some free
  headers : s'.headers = update s.headers free
    ⟨0xBF, path, fileType, s.currentUid, s.fsEnd + 1, 0⟩
  nfiles : s'.nfiles = s.nfiles + 1

/-- A header that is cleared. -/
structure Cleared (s s' : Fs) (path : Name) (i : Nat) : Prop where
  found : getInitrdFile s path = some i
  headers : s'.headers = update s.headers i ⟨0, [], 0, 0, 0, 0⟩
  nfiles : s'.nfiles = s.nfiles - 1

inductive Change (s s' : Fs) : FsEvent → Prop
  | kept (e : FsEvent) : s'.headers = s.headers → s'.nfiles = s.nfiles → Change s s' e
  | made (path : Name) (flags : UInt32) (free : Nat) : hasFlag flags oCreat = true →
      scanFiles s path = .ok none → Created s s' path fsFile free →
      Change s s' (.openPath path flags)
  | madeDir (path : Name) (free : Nat) : getInitrdFile s path = none →
      Created s s' path fsDirectory free → Change s s' (.mkdir path)
  | removed (path : Name) (i : Nat) : (s.headers i).fileType = fsFile →
      Cleared s s' path i → Change s s' (.remove path)
  | removedDir (path : Name) (i : Nat) : (s.headers i).fileType = fsDirectory →
      notEmpty s (s.headers i).fileName = false → Cleared s s' path i → Change s s' (.rmdir path)
  | grown (heap : Nat → UInt8) (fildes : Int) (buf : Name) (nbyte : UInt32) (k lfd : Nat) :
      nbyte ≠ 0 → lookup s fildes = .ok (k, lfd) →
      s'.headers = update s.headers lfd
        { s.headers lfd with length := (s.headers lfd).length + (nbyte + 1) } →
      s'.nfiles = s.nfiles → Change s s' (.write heap fildes buf nbyte)

variable {free : Nat}

theorem createHeader_ok {fileType : UInt16} (found : getFreeHeader s = some free)
    (done : createHeader s path fileType free = .ok s') : Created s s' path fileType free := by
  unfold createHeader at done
  split at done
  · cases done
  · cases done
    exact ⟨found, rfl, rfl⟩

theorem change_openCreate {fd : Int} (done : openCreate s path = .ok (fd, s')) :
    (s'.headers = s.headers ∧ s'.nfiles = s.nfiles) ∨ ∃ free, Created s s' path fsFile free := by
  unfold openCreate at done
  split at done
  · cases done
    exact .inl ⟨rfl, rfl⟩
  · split at done
    · cases done
      exact .inl ⟨rfl, rfl⟩
    · rename_i free found
      cases made : createHeader s path fsFile free with
      | error halt =>
        rw [made] at done
        cases done
      | ok s₁ =>
        rw [made] at done
        obtain ⟨-, -, rfl⟩ := takeDescriptor_ok done
        obtain ⟨-, headers, nfiles⟩ := createHeader_ok found made
        exact .inr ⟨free, found, headers, nfiles⟩

theorem change_open {flags : UInt32} (done : initfsOpen s path flags = .ok (ret, s')) :
    Change s s' (.openPath path flags) := by
  unfold initfsOpen at done
  cases scanned : scanFiles { s with curIrdfd := nextDescriptor s } path with
  | error halt =>
    simp only [scanned] at done
    cases done
  | ok found =>
    simp only [scanned] at done
    cases found with
    | some it =>
      change openExisting _ _ _ = _ at done
      unfold openExisting at done
      split at done
      · cases done
        exact .kept _ rfl rfl
      · split at done
        · cases done
          exact .kept _ rfl rfl
        · obtain ⟨-, -, rfl⟩ := takeDescriptor_ok done
          exact .kept _ rfl rfl
    | none =>
      change (if hasFlag flags oCreat then openCreate _ path else _) = _ at done
      split at done
      · rename_i create
        rcases change_openCreate done with ⟨headers, nfiles⟩ | ⟨free, created⟩
        · exact .kept _ headers nfiles
        · exact .made path flags free create scanned ⟨created.1, created.2, created.3⟩
      · cases done
        exact .kept _ rfl rfl

theorem change_mkdir (done : initrdMkdir s path = .ok (ret, s')) : Change s s' (.mkdir path) := by
  unfold initrdMkdir at done
  split at done
  · cases done
    exact .kept _ rfl rfl
  · rename_i absent
    split at done
    · cases done
      exact .kept _ rfl rfl
    · split at done
      · cases done
        exact .kept _ rfl rfl
      · rename_i free found
        cases made : createHeader s path fsDirectory free with
        | error halt =>
          rw [made] at done
          cases done
        | ok s₁ =>
          rw [made] at done
          cases done
          exact .madeDir path free (by simpa using absent) (createHeader_ok found made)

theorem change_remove : Change s (initfsRemove s path).2 (.remove path) := by
  unfold initfsRemove
  split
  · exact .kept _ rfl rfl
  · rename_i i found
    split
    · exact .kept _ rfl rfl
    · rename_i file
      exact .removed path i (not_not.mp file) ⟨found, rfl, rfl⟩

theorem change_rmdir : Change s (initrdRmdir s path).2 (.rmdir path) := by
  unfold initrdRmdir
  split
  · exact .kept _ rfl rfl
  · rename_i i found
    split
    · exact .kept _ rfl rfl
    · rename_i directory
      split
      · exact .kept _ rfl rfl
      · rename_i empty
        exact .removedDir path i (not_not.mp directory) (by simpa using empty) ⟨found, rfl, rfl⟩

variable {heap : Nat → UInt8} {fildes : Int} {buf : Name} {nbyte : UInt32}

section
variable (done : initrdWrite s heap fildes buf nbyte = .ok (ret, s'))
include done

theorem initrdWrite_ok (some : nbyte ≠ 0) :
    ∃ k lfd, lookup s fildes = .ok (k, lfd) ∧
      s'.headers = update s.headers lfd
        { s.headers lfd with length := (s.headers lfd).length + (nbyte + 1) } ∧
      s'.nfiles = s.nfiles := by
  unfold initrdWrite at done
  rw [if_neg some] at done
  cases found : lookup s fildes with
  | error halt =>
    rw [found] at done
    cases done
  | ok place =>
    obtain ⟨k, lfd⟩ := place
    rw [found] at done
    change (if _ then _ else _) = _ at done
    split at done
    · cases done
    · split at done
      · cases done
      · cases done
        exact ⟨k, lfd, rfl, rfl, rfl⟩

theorem change_write : Change s s' (.write heap fildes buf nbyte) := by
  by_cases some : nbyte = 0
  · rw [initrdWrite, if_pos some] at done
    cases done
    exact .kept _ rfl rfl
  · obtain ⟨k, lfd, found, headers, nfiles⟩ := initrdWrite_ok done some
    exact .grown heap fildes buf nbyte k lfd some found headers nfiles

end

theorem change_close (done : initrdClose s fildes = .ok (ret, s')) :
    Change s s' (.close fildes) := by
  unfold initrdClose at done
  split at done
  · cases done
    exact .kept _ rfl rfl
  · cases done

theorem fsStep_change (step : FsStep s e s') : Change s s' e := by
  obtain ⟨ret, done⟩ := step
  cases e with
  | openPath path flags => exact change_open done
  | write heap fildes buf nbyte => exact change_write done
  | mkdir path => exact change_mkdir done
  | remove path =>
    obtain rfl : (initfsRemove s path).2 = s' := congrArg Prod.snd (Except.ok.inj done)
    exact change_remove
  | rmdir path =>
    obtain rfl : (initrdRmdir s path).2 = s' := congrArg Prod.snd (Except.ok.inj done)
    exact change_rmdir
  | close fildes => exact change_close done

theorem getFreeHeader_some (found : getFreeHeader s = some free) :
    free < maxFiles ∧ (s.headers free).fileType = 0 ∧ ∀ i < free, (s.headers i).fileType ≠ 0 := by
  obtain ⟨unused, below, first⟩ := find?_range_eq_some.mp found
  refine ⟨mem_range.mp below, by simpa using unused, fun i lower => ?_⟩
  simpa using first i lower

variable {i : Nat}

theorem getInitrdFile_some (found : getInitrdFile s path = some i) :
    i < maxFiles ∧ (s.headers i).fileName = path := by
  obtain ⟨named, below, -⟩ := find?_range_eq_some.mp found
  exact ⟨mem_range.mp below, (by simpa using named : path = _).symm⟩

theorem getInitrdFile_none (absent : getInitrdFile s path = none) (below : i < maxFiles) :
    (s.headers i).fileName ≠ path := by
  have other := find?_range_eq_none.mp absent i below
  intro same
  simp [same] at other

theorem scanFiles_none (absent : scanFiles s path = .ok none) (below : i < s.nfiles.toNat)
    (inside : i < maxFiles) : (s.headers i).fileName ≠ path := by
  unfold scanFiles at absent
  split at absent
  · cases absent
  · rename_i nowhere
    have other := find?_range_eq_none.mp nowhere i (Nat.lt_min.mpr ⟨below, inside⟩)
    intro same
    simp [same] at other

variable {start : Fs} {trace : List (Fs × FsEvent)}

/-- The end of the extent of a file. -/
def Header.stop (h : Header) : Nat := h.offset.toNat + h.length.toNat

def InExtent (h : Header) (x : Nat) : Prop := h.offset.toNat ≤ x ∧ x < h.stop

def IsFile (s : Fs) (i : Nat) : Prop := i < maxFiles ∧ (s.headers i).fileType = fsFile

def ExtentsApart (s : Fs) : Prop :=
  ∀ i j, IsFile s i → IsFile s j → i ≠ j → ∀ x, InExtent (s.headers i) x →
    ¬ InExtent (s.headers j) x

structure Laid (s : Fs) : Prop where
  apart : ExtentsApart s
  outside : ∀ i, IsFile s i → ∀ x, InExtent (s.headers i) x → tableSize ≤ x
  below : ∀ i, IsFile s i → ∀ x, InExtent (s.headers i) x → x < s.fsEnd.toNat

def twoFiles : Fs where
  nfiles := 2
  headers i :=
    if i = 0 then ⟨0xBF, [slash, 97], fsFile, 0, 8836, 2⟩
    else if i = 1 then ⟨0xBF, [slash, 98], fsFile, 0, 8838, 2⟩
    else ⟨0, [], 0, 0, 0, 0⟩
  image _ := 0
  fsEnd := 8840
  descriptors _ := ⟨-1, 0⟩
  curIrdfd := 0
  currentUid := 0

theorem isFile_twoFiles {i : Nat} (file : IsFile twoFiles i) : i = 0 ∨ i = 1 := by
  by_contra other
  obtain ⟨notFirst, notSecond⟩ := not_or.mp other
  have unused : (twoFiles.headers i).fileType = 0 := by simp [twoFiles, notFirst, notSecond]
  exact absurd (unused.symm.trans file.2) (by decide)

def openedFile (it : Int) : Fs :=
  { twoFiles with
    descriptors := update twoFiles.descriptors 0 ⟨it, 0⟩
    curIrdfd := 1 }

variable {n : Nat} {h : Header}

/-- The headers in use. -/
def used (s : Fs) : Finset Nat :=
  (Finset.range maxFiles).filter fun i => (s.headers i).fileType ≠ 0

def Distinct (s : Fs) : Prop :=
  ∀ i ∈ used s, ∀ j ∈ used s, i ≠ j → (s.headers i).fileName ≠ (s.headers j).fileName

def Openable (s : Fs) : Prop :=
  ∀ i, IsFile s i → ∀ flags, hasFlag flags oCreat = false → ∀ descriptors curIrdfd,
    (∃ k < maxInitrdDescriptors, isFree { s with descriptors, curIrdfd } k = true) →
    ∃ fd s', 0 ≤ fd ∧
      initfsOpen { s with descriptors, curIrdfd } (s.headers i).fileName flags = .ok (fd, s')

structure Packed (s : Fs) : Prop where
  distinct : Distinct s
  few : s.nfiles.toNat ≤ maxFiles
  first : ∀ i < maxFiles, (s.headers i).fileType ≠ 0 ↔ i < s.nfiles.toNat

def LastRemoved (s : Fs) : FsEvent → Prop
  | .openPath path flags => hasFlag flags oCreat = true →
      ∀ j ∈ used s, s.nfiles.toNat ≤ j → (s.headers j).fileName ≠ path
  | .remove path => ∀ i, getInitrdFile s path = some i → (s.headers i).fileType = fsFile →
      ∀ k, IsFile s k → k ≠ i → k + 1 < s.nfiles.toNat
  | .rmdir path => ∀ i, getInitrdFile s path = some i → (s.headers i).fileType = fsDirectory →
      notEmpty s (s.headers i).fileName = false → ∀ k, IsFile s k → k + 1 < s.nfiles.toNat
  | _ => True

structure Counted (s : Fs) : Prop where
  distinct : Distinct s
  early : ∀ i, IsFile s i → i < s.nfiles.toNat
  card : (used s).card = s.nfiles.toNat

theorem mem_used : i ∈ used s ↔ i < maxFiles ∧ (s.headers i).fileType ≠ 0 := by
  rw [used, Finset.mem_filter, Finset.mem_range]

theorem isFile_used (file : IsFile s i) : i ∈ used s := by
  refine mem_used.mpr ⟨file.1, ?_⟩
  rw [file.2]
  decide

theorem counted_packed (packed : Packed s) : Counted s := by
  have all : used s = Finset.range s.nfiles.toNat := by
    ext i
    rw [mem_used, Finset.mem_range]
    constructor
    · rintro ⟨below, inUse⟩
      exact (packed.first i below).mp inUse
    · intro below
      have inside := Nat.lt_of_lt_of_le below packed.few
      exact ⟨inside, (packed.first i inside).mpr below⟩
  refine ⟨packed.distinct, fun i file => ?_, ?_⟩
  · exact Finset.mem_range.mp (all ▸ isFile_used file)
  · rw [all, Finset.card_range]

theorem nextDescriptor_lt (free : ∃ k < maxInitrdDescriptors, isFree s k = true) :
    nextDescriptor s < maxInitrdDescriptors := by
  unfold nextDescriptor
  split
  · cases first : (List.range maxInitrdDescriptors).find? (isFree s) with
    | none =>
      obtain ⟨k, below, isFree⟩ := free
      exact absurd isFree (find?_eq_none.mp first k (mem_range.mpr below))
    | some k => exact mem_range.mp (mem_of_find?_eq_some first)
  · rename_i before
    exact Nat.lt_of_not_le before

theorem scanFiles_some (below : i < s.nfiles.toNat) (inside : i < maxFiles)
    (named : (s.headers i).fileName = path) :
    ∃ it, scanFiles s path = .ok (some it) ∧ it < maxFiles ∧ (s.headers it).fileName = path := by
  unfold scanFiles
  split
  · rename_i it found
    obtain ⟨same, mem, -⟩ := find?_range_eq_some.mp found
    refine ⟨it, rfl, (Nat.lt_min.mp (mem_range.mp mem)).2, ?_⟩
    exact (by simpa using same : path = _).symm
  · rename_i nowhere
    have other := find?_range_eq_none.mp nowhere i (Nat.lt_min.mpr ⟨below, inside⟩)
    simp [named] at other

theorem initfsOpen_found {flags : UInt32} {it : Nat} {descriptors curIrdfd}
    (scanned : scanFiles s path = .ok (some it)) (notDirectory : isDirectory (s.headers it) = false)
    (noCreate : hasFlag flags oCreat = false)
    (next : nextDescriptor { s with descriptors, curIrdfd } < maxInitrdDescriptors) :
    ∃ s', initfsOpen { s with descriptors, curIrdfd } path flags =
      .ok (↑(nextDescriptor { s with descriptors, curIrdfd }), s') := by
  have scanned' : scanFiles { s with
      descriptors
      curIrdfd := nextDescriptor { s with descriptors, curIrdfd } } path = .ok (some it) := scanned
  simp only [initfsOpen, scanned']
  change ∃ s', openExisting _ _ _ = .ok (_, s')
  simp [openExisting, notDirectory, noCreate, takeDescriptor, next]

theorem openable_counted (counted : Counted s) : Openable s := by
  intro i file flags noCreate descriptors curIrdfd free
  have next := nextDescriptor_lt free
  obtain ⟨it, scanned, inside, named⟩ := scanFiles_some (counted.early i file) file.1 rfl
  have notDirectory : isDirectory (s.headers it) = false := by
    by_cases same : it = i
    · rw [same, isDirectory, file.2]
      decide
    · by_cases unused : (s.headers it).fileType = 0
      · rw [isDirectory, unused]
        decide
      · exact absurd named (counted.distinct it (mem_used.mpr ⟨inside, unused⟩) i
          (isFile_used file) same)
  obtain ⟨s', opened⟩ := initfsOpen_found scanned notDirectory noCreate next
  exact ⟨_, s', Int.natCast_nonneg _, opened⟩

section Update
variable (below : n < maxFiles) (headers : s'.headers = update s.headers n h)
include below headers

theorem mem_used_update {i : Nat} : i ∈ used s' ↔ i = n ∧ h.fileType ≠ 0 ∨ i ≠ n ∧ i ∈ used s := by
  rw [mem_used, headers]
  by_cases same : i = n
  · subst same
    simp [below]
  · rw [update_of_ne same, mem_used]
    simp [same]

theorem used_update_insert (inUse : h.fileType ≠ 0) : used s' = insert n (used s) := by
  ext i
  rw [mem_used_update below headers, Finset.mem_insert]
  by_cases same : i = n
  · simp [same, inUse]
  · simp [same]

theorem used_update_erase (unused : h.fileType = 0) : used s' = (used s).erase n := by
  ext i
  rw [mem_used_update below headers, Finset.mem_erase]
  simp [unused]

theorem distinct_update (distinct : Distinct s)
    (other : h.fileType ≠ 0 → ∀ j ∈ used s, j ≠ n → (s.headers j).fileName ≠ h.fileName) :
    Distinct s' := by
  have new : s'.headers n = h := by rw [headers, update_self]
  have old : ∀ i, i ≠ n → s'.headers i = s.headers i := by
    intro i differs
    rw [headers, update_of_ne differs]
  intro i usedI j usedJ different
  rcases (mem_used_update below headers).mp usedI with ⟨rfl, inUse⟩ | ⟨differsI, usedI⟩
  · rcases (mem_used_update below headers).mp usedJ with ⟨rfl, -⟩ | ⟨differsJ, usedJ⟩
    · exact absurd rfl different
    · rw [new, old j differsJ]
      exact Ne.symm (other inUse j usedJ differsJ)
  · rcases (mem_used_update below headers).mp usedJ with ⟨rfl, inUse⟩ | ⟨differsJ, usedJ⟩
    · rw [new, old i differsI]
      exact other inUse i usedI differsI
    · rw [old i differsI, old j differsJ]
      exact distinct i usedI j usedJ different

end Update

theorem getFreeHeader_le (found : getFreeHeader s = some n) : n ≤ (used s).card := by
  obtain ⟨below, -, lower⟩ := getFreeHeader_some found
  rw [← Finset.card_range n]
  refine Finset.card_le_card fun i mem => ?_
  have before := Finset.mem_range.mp mem
  exact mem_used.mpr ⟨Nat.lt_trans before below, lower i before⟩

theorem card_used_le (s : Fs) : (used s).card ≤ maxFiles := by
  rw [← Finset.card_range maxFiles]
  exact Finset.card_le_card (Finset.filter_subset _ _)

variable {fileType : UInt16}

theorem card_created (card : (used s).card = s.nfiles.toNat)
    (created : Created s s' path fileType n) (inUse : fileType ≠ 0) :
    (used s').card = s.nfiles.toNat + 1 ∧ s'.nfiles.toNat = s.nfiles.toNat + 1 := by
  obtain ⟨below, unused, -⟩ := getFreeHeader_some created.found
  have new : n ∉ used s := fun mem => (mem_used.mp mem).2 unused
  have more : (used s').card = s.nfiles.toNat + 1 := by
    rw [used_update_insert below created.headers inUse, Finset.card_insert_of_notMem new, card]
  have most := card_used_le s'
  have limit : maxFiles = 32 := rfl
  refine ⟨more, ?_⟩
  rw [created.nfiles, UInt32.toNat_add, UInt32.toNat_one, Nat.mod_eq_of_lt (by omega)]

theorem card_cleared (card : (used s).card = s.nfiles.toNat) (cleared : Cleared s s' path n)
    (inUse : (s.headers n).fileType ≠ 0) :
    (used s').card = s.nfiles.toNat - 1 ∧ s'.nfiles.toNat = s.nfiles.toNat - 1 := by
  obtain ⟨below, -⟩ := getInitrdFile_some cleared.found
  have member : n ∈ used s := mem_used.mpr ⟨below, inUse⟩
  have some := Finset.card_pos.mpr ⟨n, member⟩
  rw [card] at some
  have one : (1 : UInt32) ≤ s.nfiles := UInt32.le_iff_toNat_le.mpr some
  refine ⟨?_, ?_⟩
  · rw [used_update_erase below cleared.headers rfl, Finset.card_erase_of_mem member, card]
  · rw [cleared.nfiles, UInt32.toNat_sub_of_le _ _ one]
    rfl

section
variable (counted : Counted s)
include counted

theorem counted_created (created : Created s s' path fileType n) (inUse : fileType ≠ 0)
    (fresh : ∀ j ∈ used s, (s.headers j).fileName ≠ path) : Counted s' := by
  obtain ⟨below, -, -⟩ := getFreeHeader_some created.found
  obtain ⟨card, nfiles⟩ := card_created counted.card created inUse
  refine ⟨distinct_update below created.headers counted.distinct fun _ j mem _ => fresh j mem,
    fun i file => ?_, by rw [card, nfiles]⟩
  rw [nfiles]
  by_cases same : i = n
  · have lowest := getFreeHeader_le created.found
    rw [counted.card] at lowest
    omega
  · have kept : s'.headers i = s.headers i := by rw [created.headers, update_of_ne same]
    exact Nat.lt_succ_of_lt (counted.early i ⟨file.1, kept ▸ file.2⟩)

theorem counted_cleared (cleared : Cleared s s' path n) (inUse : (s.headers n).fileType ≠ 0)
    (last : ∀ k, IsFile s k → k ≠ n → k + 1 < s.nfiles.toNat) : Counted s' := by
  obtain ⟨below, -⟩ := getInitrdFile_some cleared.found
  obtain ⟨card, nfiles⟩ := card_cleared counted.card cleared inUse
  refine ⟨distinct_update below cleared.headers counted.distinct fun zero => absurd rfl zero,
    fun i file => ?_, by rw [card, nfiles]⟩
  · have other : i ≠ n := by
      rintro rfl
      rw [IsFile, cleared.headers, update_self] at file
      exact absurd file.2 (by decide)
    have kept : s'.headers i = s.headers i := by
      rw [cleared.headers, update_of_ne other]
    have early := last i ⟨file.1, kept ▸ file.2⟩ other
    omega

theorem counted_kept (nfiles : s'.nfiles = s.nfiles)
    (names : ∀ i, (s'.headers i).fileName = (s.headers i).fileName)
    (types : ∀ i, (s'.headers i).fileType = (s.headers i).fileType) : Counted s' := by
  have same : used s' = used s := by
    ext i
    rw [mem_used, mem_used, types]
  refine ⟨fun i usedI j usedJ different => ?_, fun i file => ?_, ?_⟩
  · rw [names, names]
    exact counted.distinct i (same ▸ usedI) j (same ▸ usedJ) different
  · rw [nfiles]
    exact counted.early i ⟨file.1, types i ▸ file.2⟩
  · rw [same, nfiles]
    exact counted.card

theorem counted_step (step : FsStep s e s') (allowed : LastRemoved s e) : Counted s' := by
  cases fsStep_change step with
  | kept e headers nfiles =>
    exact counted_kept counted nfiles (fun i => by rw [headers]) fun i => by rw [headers]
  | made path flags free create absent created =>
    refine counted_created counted created (by decide) fun j mem => ?_
    by_cases scanned : j < s.nfiles.toNat
    · exact scanFiles_none absent scanned (mem_used.mp mem).1
    · exact allowed create j mem (Nat.not_lt.mp scanned)
  | madeDir path free absent created =>
    refine counted_created counted created (by decide) fun j mem => ?_
    exact getInitrdFile_none absent (mem_used.mp mem).1
  | removed path i file cleared =>
    refine counted_cleared counted cleared ?_ (allowed i cleared.found file)
    rw [file]
    decide
  | removedDir path i directory empty cleared =>
    refine counted_cleared counted cleared ?_ fun k fileK _ =>
      allowed i cleared.found directory empty k fileK
    rw [directory]
    decide
  | grown heap fildes buf nbyte k lfd some found headers nfiles =>
    refine counted_kept counted nfiles (fun i => ?_) fun i => ?_
    · rw [headers, apply_update (fun _ h => Header.fileName h), update_eq_self]
    · rw [headers, apply_update (fun _ h => Header.fileType h), update_eq_self]

end

/-- No name is there twice and every file can be opened, if removals leave no gap. -/
theorem openable_run (packed : Packed start) (run : Exec FsStep start trace s)
    (allowed : ∀ e ∈ trace, LastRemoved e.1 e.2) :
    Always (fun s => Distinct s ∧ Openable s) trace s := by
  have preserved : ∀ s e s', Counted s → FsStep s e s' → LastRemoved s e → Counted s' :=
    fun _ _ _ => counted_step
  obtain ⟨before, last⟩ := exec_invariant (counted_packed packed) preserved run allowed
  refine ⟨fun e he => ?_, last.distinct, openable_counted last⟩
  exact ⟨(before e he).distinct, openable_counted (before e he)⟩

theorem packed_twoFiles : Packed twoFiles := by
  have inUse : ∀ i, (twoFiles.headers i).fileType ≠ 0 ↔ i < 2 := by
    intro i
    match i with
    | 0 | 1 => decide
    | i + 2 => exact iff_of_false (not_not.mpr rfl) (by omega)
  refine ⟨fun i usedI j usedJ different => ?_, by decide, fun i _ => inUse i⟩
  have lowI := (inUse i).mp (mem_used.mp usedI).2
  have lowJ := (inUse j).mp (mem_used.mp usedJ).2
  match i, j with
  | 0, 1 | 1, 0 => decide
  | 0, 0 | 1, 1 => exact absurd rfl different

theorem openable_run_last : ∃ s s', FsStep twoFiles (.remove [slash, 98]) s ∧
    FsStep s (.openPath [slash, 98] oCreat) s' ∧ Distinct s' ∧ Openable s' := by
  have removed : FsStep twoFiles (.remove [slash, 98]) (clearHeader twoFiles 1) := ⟨0, rfl⟩
  refine ⟨_, _, removed, ⟨0, rfl⟩, ?_⟩
  have created : FsStep (clearHeader twoFiles 1) (.openPath [slash, 98] oCreat) _ := ⟨0, rfl⟩
  refine (openable_run packed_twoFiles ((Exec.refl.next removed).next created) ?_).2
  intro e he
  rcases mem_pair.mp he with rfl | rfl
  · intro i found _ k file other
    obtain rfl : 1 = i := Option.some.inj found
    rcases isFile_twoFiles file with rfl | rfl
    · decide
    · exact absurd rfl other
  · intro _ j
    revert j
    decide

theorem not_openable_removed : Packed twoFiles ∧
    FsStep twoFiles (.remove [slash, 97]) (clearHeader twoFiles 0) ∧
    ¬ Openable (clearHeader twoFiles 0) ∧
    ∃ s', FsStep (clearHeader twoFiles 0) (.openPath [slash, 98] oCreat) s' ∧ ¬ Distinct s' := by
  refine ⟨packed_twoFiles, ⟨0, rfl⟩, fun openable => ?_, _, ⟨0, rfl⟩, fun distinct => ?_⟩
  · obtain ⟨fd, s', success, opened⟩ := openable 1 ⟨by decide, rfl⟩ 0 rfl
      (clearHeader twoFiles 0).descriptors 0 ⟨0, by decide, rfl⟩
    obtain ⟨rfl, -⟩ := Prod.mk.inj (Except.ok.inj opened)
    exact absurd success (by decide)
  · refine distinct 0 ?_ 1 ?_ (by decide) rfl
    · exact mem_used.mpr ⟨by decide, by decide⟩
    · exact mem_used.mpr ⟨by decide, by decide⟩

end Elaborato.Mentos.Initrd
