import Elaborato.Mentos.InitrdTable
import Mathlib.Data.Fintype.EquivFin

/-!
A `sys_open` that fails: `sys_close` then gives back a descriptor that was never set up.
-/
namespace Elaborato.Mentos.Initrd
open Foundation List Function

inductive Table
  | fdList
  | mountpointList
  | irdDescriptors
  deriving DecidableEq, Repr

def Table.size : Table → Nat
  | .fdList => maxOpenFd
  | .mountpointList => maxMountpoint
  | .irdDescriptors => maxInitrdDescriptors

/-- The index lies in its array. -/
def Inside (index : Table × Int) : Prop := 0 ≤ index.2 ∧ index.2 < index.1.size

/-- The indices that a loop from 0 on uses. -/
def scanned (table : Table) (n : Nat) : List (Table × Int) :=
  (List.range n).map fun i : Nat => (table, (i : Int))

/-- The indices that `sys_close` uses. -/
def sysCloseIndices (v : Vfs) (fd : Int) : List (Table × Int) :=
  if fd < 0 then []
  else
    let entry := v.fdList fd.toNat
    (.fdList, fd) ::
      if entry.fsSpecId < -1 then []
      else
        (.mountpointList, entry.mountpointId) ::
          if 0 ≤ entry.mountpointId ∧ hasOperations entry.mountpointId.toNat then
            [(.irdDescriptors, entry.fsSpecId)]
          else []

def initfsOpenFails (s : Fs) (path : Name) (flags : UInt32) : Bool :=
  match initfsOpen s path flags with
  | .ok (ret, _) => ret == -1
  | .error _ => false

def initfsOpenIndices (s : Fs) (path : Name) (flags : UInt32) : List (Table × Int) :=
  (if maxInitrdDescriptors ≤ s.curIrdfd then scanned .irdDescriptors (nextDescriptor s + 1)
    else []) ++
    if initfsOpenFails s path flags then []
    else [(Table.irdDescriptors, (nextDescriptor s : Int))]

/-- The indices that `sys_open` uses. -/
def sysOpenIndices (cwd path : Name) (flags : UInt32) (v : Vfs) : List (Table × Int) :=
  match absolutePath cwd path with
  | none => []
  | some absolute =>
    let fd := firstUnused v
    scanned .fdList (min (fd + 1) maxOpenFd) ++
      if fd = maxOpenFd then []
      else
        let mpId := getMountpointId absolute
        scanned .mountpointList maxMountpoint ++
          if mpId < 0 then []
          else (.mountpointList, mpId) ::
            if !hasOperations mpId.toNat then sysCloseIndices v fd
            else
              initfsOpenIndices v.fs absolute flags ++
                if initfsOpenFails v.fs absolute flags then sysCloseIndices v fd
                else [(.fdList, (fd : Int))]

theorem inside_scanned {table : Table} {n : Nat} (few : n ≤ table.size) :
    ∀ index ∈ scanned table n, Inside index := by
  intro index mem
  obtain ⟨i, below, rfl⟩ := mem_map.mp mem
  have lower := mem_range.mp below
  exact ⟨Int.natCast_nonneg i, Int.ofNat_lt.mpr (Nat.lt_of_lt_of_le lower few)⟩

variable {s s' : Fs} {v v' : Vfs} {cwd path : Name} {flags : UInt32} {ret fd : Int}

theorem initfsOpen_taken (done : initfsOpen s path flags = .ok (ret, s')) (success : ret ≠ -1) :
    nextDescriptor s < maxInitrdDescriptors ∧ ret = nextDescriptor s ∧
      ∃ (it : Nat) (pos : Int), s'.descriptors =
        update s.descriptors (nextDescriptor s) ⟨it, pos⟩ := by
  cases scanned : scanFiles s path with
  | error halt =>
    have scanned' : scanFiles { s with curIrdfd := nextDescriptor s } path = .error halt := scanned
    simp only [initfsOpen, scanned'] at done
    cases done
  | ok found =>
    cases found with
    | some it =>
      obtain ⟨below, id, rfl⟩ := initfsOpen_existing scanned done success
      exact ⟨below, id, it, _, rfl⟩
    | none =>
      rw [initfsOpen_absent scanned] at done
      split at done
      · by_cases can : CanCreate { s with curIrdfd := nextDescriptor s } path
        · obtain ⟨free, equation⟩ := openCreate_accepted can
          rw [equation, createHeader] at done
          split at done
          · cases done
          · obtain ⟨below, id, rfl⟩ := takeDescriptor_ok done
            exact ⟨below, id, free, 0, rfl⟩
        · rw [openCreate_refused can] at done
          cases done
          exact absurd rfl success
      · cases done
        exact absurd rfl success

theorem getMountpointId_eq (path : Name) :
    getMountpointId path = if path.take 1 = [slash] then 0 else -1 := by
  have root : getMountpointId path =
      (if path.take 1 = [slash] then ((1 : Nat), (0 : Int)) else (0, -1)).2 := by
    simp [getMountpointId, maxMountpoint, range_succ, mountpoint]
  rw [root]
  split <;> rfl

theorem getMountpointId_root (mounted : 0 ≤ getMountpointId path) : getMountpointId path = 0 := by
  rw [getMountpointId_eq] at mounted ⊢
  split
  · rfl
  · rename_i other
    rw [if_neg other] at mounted
    omega

def opened (v : Vfs) (flags : UInt32) (id : Int) (fs : Fs) : Except FsHalt (Int × Vfs) :=
  if id = -1 then openFails { v with fs, currentFd := firstUnused v }
  else
    .ok (firstUnused v, { v with
      fs
      fdList := update v.fdList (firstUnused v) ⟨id, 0, 0, flags⟩
      currentFd := firstUnused v + 1 })

variable {absolute : Name}

theorem sysOpen_early (resolved : absolutePath cwd path = some absolute)
    (stops : firstUnused v = maxOpenFd ∨ getMountpointId absolute < 0) :
    sysOpen cwd path flags v = .ok (-1, { v with currentFd := firstUnused v }) := by
  simp only [sysOpen, resolved]
  split
  · rfl
  · rename_i unused
    rw [if_pos (stops.resolve_left unused)]

theorem sysOpen_inside (resolved : absolutePath cwd path = some absolute)
    (unused : firstUnused v ≠ maxOpenFd) (mounted : 0 ≤ getMountpointId absolute) :
    sysOpen cwd path flags v =
      (initfsOpen v.fs absolute flags).bind fun r => opened v flags r.1 r.2 := by
  have root := getMountpointId_root mounted
  simp only [sysOpen, resolved, if_neg unused, root]
  rfl

theorem sysClose_outside_iff (v : Vfs) (fd : Int) :
    sysClose v fd = .error .outOfBounds ↔ ∃ index ∈ sysCloseIndices v fd, ¬ Inside index := by
  unfold sysClose sysCloseIndices
  by_cases negative : fd < 0
  · simp [negative]
  · rw [if_neg negative, if_neg negative]
    by_cases beyond : (maxOpenFd : Int) ≤ fd
    · rw [if_pos beyond]
      refine iff_of_true rfl ⟨(.fdList, fd), mem_cons_self, fun inside => ?_⟩
      exact absurd inside.2 (Int.not_lt.mpr beyond)
    · rw [if_neg beyond]
      have own : Inside (.fdList, fd) := ⟨Int.not_lt.mp negative, Int.not_le.mp beyond⟩
      simp only [exists_mem_cons_iff, not_not.mpr own, false_or]
      by_cases skipped : (v.fdList fd.toNat).fsSpecId < -1
      · simp [skipped]
      · simp only [if_neg skipped, exists_mem_cons_iff]
        by_cases mounted : (v.fdList fd.toNat).mountpointId < 0 ∨
            (maxMountpoint : Int) ≤ (v.fdList fd.toNat).mountpointId
        · rw [if_pos mounted]
          refine iff_of_true rfl (.inl fun inside => ?_)
          have low := inside.1
          have high : (v.fdList fd.toNat).mountpointId < maxMountpoint := inside.2
          omega
        · obtain ⟨low, high⟩ := not_or.mp mounted
          have inside : Inside (.mountpointList, (v.fdList fd.toNat).mountpointId) :=
            ⟨Int.not_lt.mp low, Int.not_le.mp high⟩
          rw [if_neg mounted]
          simp only [not_not.mpr inside, false_or]
          cases operations : hasOperations (v.fdList fd.toNat).mountpointId.toNat with
          | false =>
            refine iff_of_false (fun halt => ?_) (by simp)
            cases halt
          | true =>
            rw [if_pos rfl, if_pos ⟨Int.not_lt.mp low, rfl⟩]
            simp only [mem_singleton, exists_eq_left]
            by_cases own : 0 ≤ (v.fdList fd.toNat).fsSpecId ∧
                (v.fdList fd.toNat).fsSpecId < maxInitrdDescriptors
            · rw [initrdClose, if_pos own]
              refine iff_of_false (fun halt => ?_) (not_not.mpr own)
              cases halt
            · rw [initrdClose, if_neg own]
              exact iff_of_true rfl own

theorem sysClose_unset {fd : Nat} (unset : (v.fdList fd).mountpointId = -1 ∧
    (v.fdList fd).fsSpecId = -1) :
    sysClose v fd = .error .outOfBounds ∧ (.mountpointList, -1) ∈ sysCloseIndices v fd := by
  have index : (.mountpointList, -1) ∈ sysCloseIndices v fd := by
    simp [sysCloseIndices, unset.1, unset.2]
  refine ⟨(sysClose_outside_iff v fd).mpr ⟨_, index, fun inside => ?_⟩, index⟩
  exact absurd inside.1 (by decide)

inductive VfsEvent
  | openPath (cwd path : Name) (flags : UInt32)
  | close (fd : Int)

def vfsStep (v : Vfs) : VfsEvent → Except FsHalt (Int × Vfs)
  | .openPath cwd path flags => sysOpen cwd path flags v
  | .close fd => sysClose v fd

def VfsStep (v : Vfs) (e : VfsEvent) (v' : Vfs) : Prop := ∃ ret, vfsStep v e = .ok (ret, v')

structure TablesSet (v : Vfs) : Prop where
  entry : ∀ fd < maxOpenFd, (v.fdList fd).mountpointId = -1 ∧ (v.fdList fd).fsSpecId = -1 ∨
    (v.fdList fd).mountpointId = 0 ∧ ∃ k < maxInitrdDescriptors, (v.fdList fd).fsSpecId = k
  owned : ∀ k < maxInitrdDescriptors, isFree v.fs k = false →
    ∃ fd, IsOpen v fd ∧ (v.fdList fd).fsSpecId = k
  card : (used v.fs).card = v.fs.nfiles.toNat

variable {fs : Fs}

section
variable (tables : TablesSet v)
include tables

section
variable (unused : firstUnused v ≠ maxOpenFd)
include unused

theorem TablesSet.unset :
    firstUnused v < maxOpenFd ∧ (v.fdList (firstUnused v)).mountpointId = -1 ∧
      (v.fdList (firstUnused v)).fsSpecId = -1 := by
  obtain ⟨below, closed⟩ := firstUnused_unused unused
  rcases tables.entry _ below with unset | ⟨mounted, -⟩
  · exact ⟨below, unset⟩
  · omega

theorem TablesSet.free : ∃ k < maxInitrdDescriptors, isFree v.fs k = true := by
  obtain ⟨below, closed, -⟩ := tables.unset unused
  refine Classical.byContradiction fun none => ?_
  have owner : ∀ k : Fin maxInitrdDescriptors, ∃ fd : Fin maxOpenFd,
      (v.fdList fd).mountpointId ≠ -1 ∧ (v.fdList fd).fsSpecId = (k : Nat) := by
    intro k
    have inUse : isFree v.fs k = false := Bool.eq_false_iff.mpr fun free => none ⟨k, k.isLt, free⟩
    obtain ⟨fd, ⟨inside, isOpen⟩, spec⟩ := tables.owned k k.isLt inUse
    exact ⟨⟨fd, inside⟩, isOpen, spec⟩
  choose owner isOpen spec using owner
  -- as many descriptors as entries: distinct owners would use up all the entries
  have distinct : Function.Injective owner := by
    intro k k' same
    have specs := (spec k).symm.trans (same ▸ spec k')
    exact Fin.ext (Int.natCast_inj.mp specs)
  obtain ⟨k, last⟩ := Finite.injective_iff_surjective.mp distinct ⟨firstUnused v, below⟩
  have set := isOpen k
  rw [last] at set
  exact set closed

theorem openFails_halts :
    openFails { v with fs, currentFd := firstUnused v } = .error .outOfBounds := by
  obtain ⟨below, unset⟩ := tables.unset unused
  have closed := (@sysClose_unset { v with fs, currentFd := firstUnused v } _ unset).1
  simp only [openFails, closed]
  rfl

end

omit tables in
theorem sysOpen_cases (cwd path : Name) (flags : UInt32) (v : Vfs) :
    sysOpen cwd path flags v = .ok (-1, v) ∨
      sysOpen cwd path flags v = .ok (-1, { v with currentFd := firstUnused v }) ∨
      ∃ absolute, absolutePath cwd path = some absolute ∧ firstUnused v ≠ maxOpenFd ∧
        0 ≤ getMountpointId absolute ∧ sysOpen cwd path flags v =
          (initfsOpen v.fs absolute flags).bind fun r => opened v flags r.1 r.2 := by
  cases resolved : absolutePath cwd path with
  | none =>
    refine .inl ?_
    simp only [sysOpen, resolved]
  | some absolute =>
    refine .inr ?_
    by_cases stops : firstUnused v = maxOpenFd ∨ getMountpointId absolute < 0
    · exact .inl (sysOpen_early resolved stops)
    · obtain ⟨unused, mounted⟩ := not_or.mp stops
      rw [Int.not_lt] at mounted
      exact .inr ⟨absolute, rfl, unused, mounted, sysOpen_inside resolved unused mounted⟩

theorem sysOpen_returned (done : sysOpen cwd path flags v = .ok (ret, v')) :
    ret = -1 ∧ v'.fs = v.fs ∧ v'.fdList = v.fdList ∨
      ret ≠ -1 ∧ firstUnused v ≠ maxOpenFd ∧ ∃ absolute id,
        initfsOpen v.fs absolute flags = .ok (id, v'.fs) ∧ id ≠ -1 ∧
        v'.fdList = update v.fdList (firstUnused v) ⟨id, 0, 0, flags⟩ := by
  rcases sysOpen_cases cwd path flags v with stops | stops | ⟨absolute, -, unused, -, equation⟩
  · rw [stops] at done
    cases done
    exact .inl ⟨rfl, rfl, rfl⟩
  · rw [stops] at done
    cases done
    exact .inl ⟨rfl, rfl, rfl⟩
  · rw [equation] at done
    cases inner : initfsOpen v.fs absolute flags with
    | error halt =>
      rw [inner] at done
      cases done
    | ok answer =>
      obtain ⟨id, fs⟩ := answer
      rw [inner] at done
      change opened v flags id fs = _ at done
      unfold opened at done
      split at done
      · rw [openFails_halts tables unused] at done
        cases done
      · rename_i success
        cases done
        exact .inr ⟨by omega, unused, absolute, id, inner, success, rfl⟩

theorem tablesSet_open (done : sysOpen cwd path flags v = .ok (ret, v')) : TablesSet v' := by
  rcases sysOpen_returned tables done with
    ⟨-, fs, fdList⟩ | ⟨-, unused, absolute, id, inner, success, fdList⟩
  · refine ⟨?_, ?_, ?_⟩
    · rw [fdList]
      exact tables.entry
    · unfold IsOpen
      rw [fs, fdList]
      exact tables.owned
    · rw [fs]
      exact tables.card
  · obtain ⟨below, closed, -⟩ := tables.unset unused
    obtain ⟨inside, rfl, it, pos, descriptors⟩ := initfsOpen_taken inner success
    have isOpen : ∀ fd, IsOpen v fd → fd ≠ firstUnused v := by
      rintro fd hfd rfl
      exact hfd.2 closed
    refine ⟨fun fd hfd => ?_, fun k hk inUse => ?_, ?_⟩
    · rw [fdList]
      by_cases same : fd = firstUnused v
      · rw [same, update_self]
        exact .inr ⟨rfl, _, inside, rfl⟩
      · rw [update_of_ne same]
        exact tables.entry fd hfd
    · by_cases same : k = nextDescriptor v.fs
      · refine ⟨firstUnused v, ⟨below, ?_⟩, ?_⟩
        · rw [fdList, update_self]
          exact (by decide : (0 : Int) ≠ -1)
        · rw [fdList, update_self, same]
      · have before : isFree v.fs k = false := by
          unfold isFree at inUse ⊢
          rwa [descriptors, update_of_ne same] at inUse
        obtain ⟨fd, hfd, spec⟩ := tables.owned k hk before
        refine ⟨fd, ⟨hfd.1, ?_⟩, ?_⟩
        · rw [fdList, update_of_ne (isOpen fd hfd)]
          exact hfd.2
        · rw [fdList, update_of_ne (isOpen fd hfd)]
          exact spec
    · exact card_step tables.card (e := .openPath absolute flags) ⟨_, inner⟩

theorem sysClose_returned (done : sysClose v fd = .ok (ret, v')) : v' = v ∨
      ∃ n < maxOpenFd, ∃ k < maxInitrdDescriptors, (v.fdList n).fsSpecId = k ∧
        v' = { v with
          fs := { v.fs with descriptors := update v.fs.descriptors k ⟨-1, 0⟩ }
          fdList := update v.fdList n
            { v.fdList n with fsSpecId := -1, mountpointId := -1 } } := by
  by_cases negative : fd < 0
  · rw [sysClose, if_pos negative] at done
    cases done
    exact .inl rfl
  · obtain ⟨n, rfl⟩ := Int.eq_ofNat_of_zero_le (Int.not_lt.mp negative)
    by_cases below : n < maxOpenFd
    · rcases tables.entry n below with unset | ⟨mounted, k, inside, spec⟩
      · rw [(sysClose_unset unset).1] at done
        cases done
      · refine .inr ⟨n, below, k, inside, spec, ?_⟩
        exact congrArg Prod.snd (Except.ok.inj
          (done.symm.trans (sysClose_open below mounted inside spec)))
    · rw [sysClose, if_neg negative, if_pos (by omega)] at done
      cases done

theorem tablesSet_close (done : sysClose v fd = .ok (ret, v')) : TablesSet v' := by
  rcases sysClose_returned tables done with rfl | ⟨n, below, k, inside, spec, rfl⟩
  · exact tables
  · refine ⟨fun fd hfd => ?_, fun k' hk inUse => ?_, tables.card⟩
    · by_cases same : fd = n
      · subst same
        exact .inl (by simp)
      · simpa [same] using tables.entry fd hfd
    · have other : k' ≠ k := by
        rintro rfl
        simp [isFree] at inUse
      obtain ⟨fd, hfd, spec'⟩ := tables.owned k' hk (by simpa [isFree, other] using inUse)
      have apart : fd ≠ n := by
        rintro rfl
        exact other (Int.natCast_inj.mp (spec'.symm.trans spec))
      exact ⟨fd, by simpa [IsOpen, apart] using hfd, by simpa [apart] using spec'⟩

theorem tablesSet_step {e : VfsEvent} (step : VfsStep v e v') : TablesSet v' := by
  obtain ⟨ret, done⟩ := step
  cases e with
  | openPath cwd path flags => exact tablesSet_open tables done
  | close fd => exact tablesSet_close tables done

end

theorem tablesSet_init (counted : fs.nfiles.toNat = initrdNfiles fs) :
    TablesSet (vfsInit (initDescriptors fs)) := by
  rw [initrdNfiles_eq] at counted
  exact ⟨fun _ _ => .inl ⟨rfl, rfl⟩, fun _ _ inUse => absurd inUse (by simp [isFree, vfsInit,
    initDescriptors]), counted.symm⟩

theorem tablesSet_run {trace : List (Vfs × VfsEvent)} (counted : fs.nfiles.toNat = initrdNfiles fs)
    (run : Exec VfsStep (vfsInit (initDescriptors fs)) trace v) : TablesSet v :=
  (exec_keeps (tablesSet_init counted) (fun _ _ _ tables step => tablesSet_step tables step) run).2

structure FailsCleanly (cwd path : Name) (flags : UInt32) (v : Vfs) : Prop where
  inside : ∀ index ∈ sysOpenIndices cwd path flags v, Inside index
  same : ∀ v', sysOpen cwd path flags v = .ok (-1, v') → v'.fdList = v.fdList ∧
    v'.fs.descriptors = v.fs.descriptors ∧ v'.fs.headers = v.fs.headers

def OpensIfCalled (cwd path : Name) (flags : UInt32) (v : Vfs) : Prop :=
  ∀ absolute, absolutePath cwd path = some absolute → firstUnused v ≠ maxOpenFd →
    0 ≤ getMountpointId absolute → CanOpen v.fs absolute flags

theorem initfsOpenFails_iff (few : s.nfiles.toNat ≤ maxFiles) :
    initfsOpenFails s path flags = true ↔ ¬ CanOpen s path flags := by
  unfold initfsOpenFails
  by_cases can : CanOpen s path flags
  · cases done : initfsOpen s path flags with
    | error halt => simp [can]
    | ok answer => simpa [can] using initfsOpen_accepted few can done
  · simp [initfsOpen_refused few can, can]

theorem sysOpenIndices_stops (resolved : absolutePath cwd path = some absolute)
    (stops : firstUnused v = maxOpenFd ∨ getMountpointId absolute < 0) :
    ∀ index ∈ sysOpenIndices cwd path flags v, Inside index := by
  have fds := @inside_scanned .fdList (min (firstUnused v + 1) maxOpenFd) (Nat.min_le_right _ _)
  have mountpoints := @inside_scanned .mountpointList maxMountpoint (Nat.le_refl _)
  simp only [sysOpenIndices, resolved]
  split
  · rwa [append_nil]
  · rename_i unused
    rw [if_pos (stops.resolve_left unused), append_nil]
    exact forall_mem_append.mpr ⟨fds, mountpoints⟩

theorem sysOpenIndices_inside (resolved : absolutePath cwd path = some absolute)
    (unused : firstUnused v ≠ maxOpenFd) (mounted : 0 ≤ getMountpointId absolute) :
    sysOpenIndices cwd path flags v =
      scanned .fdList (min (firstUnused v + 1) maxOpenFd) ++
        (scanned .mountpointList maxMountpoint ++
          (.mountpointList, 0) :: (initfsOpenIndices v.fs absolute flags ++
            if initfsOpenFails v.fs absolute flags then sysCloseIndices v (firstUnused v)
            else [(.fdList, (firstUnused v : Int))])) := by
  have root := getMountpointId_root mounted
  simp only [sysOpenIndices, resolved, if_neg unused, root]
  rfl

theorem initfsOpenIndices_inside (next : nextDescriptor s < maxInitrdDescriptors) :
    ∀ index ∈ initfsOpenIndices s path flags, Inside index := by
  refine forall_mem_append.mpr ⟨?_, ?_⟩
  · split
    · exact @inside_scanned .irdDescriptors (nextDescriptor s + 1) next
    · exact fun _ none => absurd none not_mem_nil
  · split
    · exact fun _ none => absurd none not_mem_nil
    · refine forall_mem_singleton.mpr ⟨Int.natCast_nonneg _, ?_⟩
      exact Int.ofNat_lt.mpr next

theorem sysOpenIndices_opens (tables : TablesSet v)
    (resolved : absolutePath cwd path = some absolute) (unused : firstUnused v ≠ maxOpenFd)
    (mounted : 0 ≤ getMountpointId absolute) (can : CanOpen v.fs absolute flags) :
    ∀ index ∈ sysOpenIndices cwd path flags v, Inside index := by
  have few : v.fs.nfiles.toNat ≤ maxFiles := tables.card ▸ card_used_le v.fs
  have opens : initfsOpenFails v.fs absolute flags ≠ true :=
    fun fails => (initfsOpenFails_iff few).mp fails can
  have below := (tables.unset unused).1
  rw [sysOpenIndices_inside resolved unused mounted, if_neg opens]
  refine forall_mem_append.mpr ⟨inside_scanned (Nat.min_le_right _ _),
    forall_mem_append.mpr ⟨inside_scanned (Nat.le_refl _),
      forall_mem_cons.mpr ⟨⟨by decide, by decide⟩, forall_mem_append.mpr
        ⟨initfsOpenIndices_inside (nextDescriptor_lt (tables.free unused)), ?_⟩⟩⟩⟩
  exact forall_mem_singleton.mpr ⟨Int.natCast_nonneg _, Int.ofNat_lt.mpr below⟩

/-- Without a trace exactly when it does not fail after `initfs_open`. -/
theorem failsCleanly_run_iff {fs : Fs} {trace : List (Vfs × VfsEvent)}
    (counted : fs.nfiles.toNat = initrdNfiles fs)
    (run : Exec VfsStep (vfsInit (initDescriptors fs)) trace v) (cwd path : Name)
    (flags : UInt32) : FailsCleanly cwd path flags v ↔ OpensIfCalled cwd path flags v := by
  have tables := tablesSet_run counted run
  constructor
  · intro clean absolute resolved unused mounted
    refine Classical.byContradiction fun refused => ?_
    have few : v.fs.nfiles.toNat ≤ maxFiles := tables.card ▸ card_used_le v.fs
    have fails := (initfsOpenFails_iff few).mpr refused
    obtain ⟨below, unset⟩ := tables.unset unused
    have index := (sysClose_unset unset).2
    have inside := clean.inside (.mountpointList, -1) (by
      rw [sysOpenIndices_inside resolved unused mounted, if_pos fails]
      simp [index])
    exact absurd inside.1 (by decide)
  · intro opens
    refine ⟨?_, fun v' done => ?_⟩
    · cases resolved : absolutePath cwd path with
      | none =>
        simp only [sysOpenIndices, resolved]
        exact fun _ none => absurd none not_mem_nil
      | some absolute =>
        by_cases stops : firstUnused v = maxOpenFd ∨ getMountpointId absolute < 0
        · exact sysOpenIndices_stops resolved stops
        · obtain ⟨unused, mounted⟩ := not_or.mp stops
          rw [Int.not_lt] at mounted
          exact sysOpenIndices_opens tables resolved unused mounted
            (opens absolute resolved unused mounted)
    · rcases sysOpen_returned tables done with ⟨-, fs, fdList⟩ | ⟨failed, -⟩
      · exact ⟨fdList, by rw [fs], by rw [fs]⟩
      · exact absurd rfl failed

theorem failsCleanly_run_iff_openA : ∃ v,
    VfsStep (vfsInit (initDescriptors oneFile)) (.openPath [slash] [slash, 97] 0) v ∧
    (FailsCleanly [slash] [slash, 97] 0 v ↔ OpensIfCalled [slash] [slash, 97] 0 v) := by
  have step : VfsStep (vfsInit (initDescriptors oneFile)) (.openPath [slash] [slash, 97] 0) _ :=
    ⟨0, rfl⟩
  exact ⟨_, step, failsCleanly_run_iff (by decide) (Exec.refl.next step) [slash] [slash, 97] 0⟩

theorem sysOpen_absent_outside :
    (.mountpointList, -1) ∈ sysOpenIndices [slash] [slash, 98] 0
      (vfsInit (initDescriptors oneFile)) ∧
    ¬ FailsCleanly [slash] [slash, 98] 0 (vfsInit (initDescriptors oneFile)) := by
  have index : (.mountpointList, -1) ∈ sysOpenIndices [slash] [slash, 98] 0
      (vfsInit (initDescriptors oneFile)) := by decide
  exact ⟨index, fun clean => absurd (clean.inside _ index).1 (by decide)⟩

end Elaborato.Mentos.Initrd
