import Elaborato.Foundation.Execution
import Elaborato.Mentos.Initrd

/-!
The two tables of descriptors, and the counter by which `initfs_open` takes entries.
-/
namespace Elaborato.Mentos.Initrd
open Foundation List Function

variable {s s' : Fs} {v v' : Vfs} {cwd path absolute : Name} {flags : UInt32} {id fd : Int}
  {it : Nat}

theorem takeDescriptor_ok {pos : Int} (done : takeDescriptor s it pos = .ok (id, s')) :
    s.curIrdfd < maxInitrdDescriptors ∧ id = s.curIrdfd ∧
      s' = { s with
        descriptors := update s.descriptors s.curIrdfd ⟨it, pos⟩
        curIrdfd := s.curIrdfd + 1 } := by
  unfold takeDescriptor at done
  split at done
  · rename_i below
    cases done
    exact ⟨below, rfl, rfl⟩
  · cases done

def openPos (s : Fs) (flags : UInt32) (it : Nat) : Int :=
  if hasFlag flags oAppend then signed (s.headers it).length else 0

theorem initfsOpen_existing (found : scanFiles s path = .ok (some it))
    (done : initfsOpen s path flags = .ok (id, s')) (success : id ≠ -1) :
    nextDescriptor s < maxInitrdDescriptors ∧ id = nextDescriptor s ∧
      s' = { s with
        descriptors := update s.descriptors (nextDescriptor s) ⟨it, openPos s flags it⟩
        curIrdfd := nextDescriptor s + 1 } := by
  have scanned : scanFiles { s with curIrdfd := nextDescriptor s } path = .ok (some it) := found
  simp only [initfsOpen, scanned] at done
  change openExisting _ _ _ = _ at done
  unfold openExisting at done
  split at done
  · cases done
    exact absurd rfl success
  · split at done
    · cases done
      exact absurd rfl success
    · exact takeDescriptor_ok done

theorem scanFiles_lt (found : scanFiles s path = .ok (some it)) : it < maxFiles := by
  unfold scanFiles at found
  split at found
  · rename_i it' first
    cases found
    exact Nat.lt_of_lt_of_le (mem_range.mp (mem_of_find?_eq_some first))
      (Nat.min_le_right _ _)
  · split at found <;> cases found

theorem nextDescriptor_free (below : nextDescriptor s < maxInitrdDescriptors)
    (counter : s.curIrdfd < maxInitrdDescriptors → isFree s s.curIrdfd = true) :
    isFree s (nextDescriptor s) = true := by
  unfold nextDescriptor at below ⊢
  split
  · rename_i atEnd
    rw [if_pos atEnd] at below
    cases first : (List.range maxInitrdDescriptors).find? (isFree s) with
    | none =>
      rw [first] at below
      exact absurd below (Nat.lt_irrefl _)
    | some k => exact find?_some first
  · rename_i before
    exact counter (Nat.lt_of_not_le before)

theorem firstUnused_unused (below : firstUnused v ≠ maxOpenFd) :
    firstUnused v < maxOpenFd ∧ (v.fdList (firstUnused v)).mountpointId = -1 := by
  unfold firstUnused at below ⊢
  cases first : (List.range maxOpenFd).find? fun fd => (v.fdList fd).mountpointId == -1 with
  | none =>
    rw [first] at below
    exact absurd rfl below
  | some fd =>
    refine ⟨mem_range.mp (mem_of_find?_eq_some first), ?_⟩
    simpa using find?_some first

theorem openFails_fails (done : openFails v = .ok (fd, v')) : fd = -1 := by
  unfold openFails at done
  cases closed : sysClose v v.currentFd with
  | error halt =>
    rw [closed] at done
    cases done
  | ok result =>
    rw [closed] at done
    cases done
    rfl

theorem sysOpen_ok (done : sysOpen cwd path flags v = .ok (fd, v')) (success : fd ≠ -1) :
    ∃ absolute id fs, absolutePath cwd path = some absolute ∧ firstUnused v ≠ maxOpenFd ∧
      initfsOpen v.fs absolute flags = .ok (id, fs) ∧ id ≠ -1 ∧ fd = firstUnused v ∧
      v' = { v with
        fs
        fdList := update v.fdList (firstUnused v) ⟨id, 0, 0, flags⟩
        currentFd := firstUnused v + 1 } := by
  unfold sysOpen at done
  cases resolved : absolutePath cwd path with
  | none =>
    rw [resolved] at done
    cases done
    exact absurd rfl success
  | some absolute =>
    simp only [resolved] at done
    split at done
    · cases done
      exact absurd rfl success
    · rename_i unused
      split at done
      · cases done
        exact absurd rfl success
      · rename_i notNegative
        split at done
        · exact absurd (openFails_fails done) success
        · rename_i mounted
          have root : getMountpointId absolute = 0 := by
            have zero : (getMountpointId absolute).toNat = 0 := by
              simpa [hasOperations] using mounted
            omega
          cases opened : initfsOpen v.fs absolute flags with
          | error halt =>
            rw [opened] at done
            cases done
          | ok result =>
            obtain ⟨id, fs⟩ := result
            rw [opened] at done
            change (if id = -1 then _ else _) = _ at done
            split at done
            · exact absurd (openFails_fails done) success
            · rename_i other
              rw [root] at done
              cases done
              exact ⟨absolute, id, fs, rfl, unused, opened, other, rfl, rfl⟩

theorem sysClose_open {n k : Nat} (below : n < maxOpenFd)
    (mounted : (v.fdList n).mountpointId = 0) (inside : k < maxInitrdDescriptors)
    (spec : (v.fdList n).fsSpecId = k) :
    sysClose v n = .ok (0, { v with
      fs := { v.fs with descriptors := update v.fs.descriptors k ⟨-1, 0⟩ }
      fdList := update v.fdList n
        { v.fdList n with fsSpecId := -1, mountpointId := -1 } }) := by
  have closed : initrdClose v.fs k = .ok (0, { v.fs with
      descriptors := update v.fs.descriptors k ⟨-1, 0⟩ }) :=
    if_pos ⟨Int.natCast_nonneg k, Int.ofNat_lt.mpr inside⟩
  rw [sysClose, if_neg (by omega), if_neg (by omega)]
  simp only [Int.toNat_natCast, spec, mounted, closed]
  rw [if_neg (by omega), if_neg (by decide)]
  rfl

theorem sysClose_ok {fd : Nat} (root : (v.fdList fd).mountpointId = 0)
    (done : sysClose v fd = .ok (0, v')) :
    v' = { v with
      fs := { v.fs with
        descriptors := update v.fs.descriptors (v.fdList fd).fsSpecId.toNat ⟨-1, 0⟩ }
      fdList := update v.fdList fd
        { v.fdList fd with fsSpecId := -1, mountpointId := -1 } } := by
  unfold sysClose at done
  rw [if_neg (by omega)] at done
  split at done
  · cases done
  · simp only [Int.toNat_natCast] at done
    split at done
    · cases done
    · rw [if_neg (by rw [root]; decide), root] at done
      simp only [hasOperations, Int.toNat_zero, BEq.rfl, if_true] at done
      cases closed : initrdClose v.fs (v.fdList fd).fsSpecId with
      | error halt =>
        rw [closed] at done
        cases done
      | ok result =>
        rw [closed] at done
        unfold initrdClose at closed
        split at closed
        · cases closed
          cases done
          rfl
        · cases closed

/-- The descriptors after `vfs_init`. -/
def vfsInit (fs : Fs) : Vfs := ⟨fs, fun _ => ⟨-1, -1, 0, 0⟩, 0⟩

inductive FdEvent
  | openFile (cwd path : Name) (flags : UInt32)
  | closeFd (fd : Nat)

structure OpenRun where
  vfs : Vfs
  openedOn : Nat → Nat

def fdStep (s : OpenRun) : FdEvent → Option OpenRun
  | .openFile cwd path flags =>
    match absolutePath cwd path with
    | none => none
    | some absolute =>
      match scanFiles s.vfs.fs absolute, sysOpen cwd path flags s.vfs with
      | .ok (some it), .ok (fd, vfs) =>
        if fd = -1 then none
        else some { vfs, openedOn := update s.openedOn fd.toNat it }
      | _, _ => none
  | .closeFd fd =>
    if fd < maxOpenFd ∧ (s.vfs.fdList fd).mountpointId ≠ -1 then
      match sysClose s.vfs fd with
      | .ok (0, vfs) => some { s with vfs }
      | _ => none
    else none

def FdStep (s : OpenRun) (e : FdEvent) (s' : OpenRun) : Prop := fdStep s e = some s'

def IsOpen (v : Vfs) (fd : Nat) : Prop := fd < maxOpenFd ∧ (v.fdList fd).mountpointId ≠ -1

def FilesSeparate (s : OpenRun) : Prop :=
  (∀ fd, IsOpen s.vfs fd → ∃ k < maxInitrdDescriptors, (s.vfs.fdList fd).fsSpecId = k ∧
    (s.vfs.fs.descriptors k).fileDescriptor = s.openedOn fd) ∧
  ∀ fd fd', IsOpen s.vfs fd → IsOpen s.vfs fd' → fd ≠ fd' →
    (s.vfs.fdList fd).fsSpecId ≠ (s.vfs.fdList fd').fsSpecId

def CounterFree (s : OpenRun) : FdEvent → Prop
  | .openFile _ _ _ => s.vfs.fs.curIrdfd < maxInitrdDescriptors →
      (s.vfs.fs.descriptors s.vfs.fs.curIrdfd).fileDescriptor = -1
  | .closeFd _ => True

structure TablesMatch (s : OpenRun) : Prop where
  separate : FilesSeparate s
  mounted : ∀ fd, IsOpen s.vfs fd → (s.vfs.fdList fd).mountpointId = 0
  owned : ∀ k < maxInitrdDescriptors, (s.vfs.fs.descriptors k).fileDescriptor ≠ -1 →
    ∃ fd, IsOpen s.vfs fd ∧ (s.vfs.fdList fd).fsSpecId = k

variable {s s' : OpenRun} {e : FdEvent}

theorem fdStep_open (step : FdStep s (.openFile cwd path flags) s') : ∃ (it : Nat) (pos : Int),
      firstUnused s.vfs ≠ maxOpenFd ∧ nextDescriptor s.vfs.fs < maxInitrdDescriptors ∧
      s'.vfs.fdList = update s.vfs.fdList (firstUnused s.vfs)
        ⟨nextDescriptor s.vfs.fs, 0, 0, flags⟩ ∧
      s'.vfs.fs.descriptors = update s.vfs.fs.descriptors (nextDescriptor s.vfs.fs)
        ⟨it, pos⟩ ∧
      s'.openedOn = update s.openedOn (firstUnused s.vfs) it := by
  simp only [FdStep, fdStep] at step
  split at step
  · cases step
  · rename_i absolute resolved
    split at step
    · rename_i it fd vfs found opened
      split at step
      · cases step
      · rename_i success
        cases step
        obtain ⟨absolute', id, fs, resolved', unused, opened', other, rfl, rfl⟩ :=
          sysOpen_ok opened success
        obtain rfl := Option.some.inj (resolved.symm.trans resolved')
        obtain ⟨below, rfl, rfl⟩ := initfsOpen_existing found opened' other
        exact ⟨it, _, unused, below, rfl, rfl, rfl⟩
    · cases step

variable {fd : Nat}

section
variable (tables : TablesMatch s)
include tables

theorem fdStep_close (step : FdStep s (.closeFd fd) s') :
    IsOpen s.vfs fd ∧
      s'.vfs.fdList = update s.vfs.fdList fd
        { s.vfs.fdList fd with fsSpecId := -1, mountpointId := -1 } ∧
      s'.vfs.fs.descriptors = update s.vfs.fs.descriptors
        (s.vfs.fdList fd).fsSpecId.toNat ⟨-1, 0⟩ ∧
      s'.openedOn = s.openedOn := by
  simp only [FdStep, fdStep] at step
  split at step
  · rename_i isOpen
    split at step
    · rename_i vfs closed
      cases step
      have left := sysClose_ok (tables.mounted fd isOpen) closed
      subst left
      exact ⟨isOpen, rfl, rfl, rfl⟩
    · cases step
  · cases step

theorem tablesMatch_open (step : FdStep s (.openFile cwd path flags) s')
    (counter : CounterFree s (.openFile cwd path flags)) : TablesMatch s' := by
  obtain ⟨it, pos, unused, below, fdList, descriptors, openedOn⟩ := fdStep_open step
  obtain ⟨new, closed⟩ := firstUnused_unused unused
  generalize firstUnused s.vfs = n at *
  have free : (s.vfs.fs.descriptors (nextDescriptor s.vfs.fs)).fileDescriptor = -1 := by
    have counter' : s.vfs.fs.curIrdfd < maxInitrdDescriptors →
        isFree s.vfs.fs s.vfs.fs.curIrdfd = true := fun h => beq_iff_eq.mpr (counter h)
    exact beq_iff_eq.mp (nextDescriptor_free below counter')
  generalize nextDescriptor s.vfs.fs = k at *
  have isOpen : ∀ fd, IsOpen s'.vfs fd ↔ fd = n ∨ IsOpen s.vfs fd := by
    intro fd
    rw [IsOpen, IsOpen, fdList]
    by_cases same : fd = n
    · subst same
      simp [new]
    · simp [same]
  -- the entry taken is not that of another open descriptor, since those are in use
  have apart : ∀ fd, IsOpen s.vfs fd → fd ≠ n ∧ (s.vfs.fdList fd).fsSpecId ≠ k := by
    intro fd hfd
    refine ⟨fun same => hfd.2 (same ▸ closed), fun same => ?_⟩
    obtain ⟨k', -, own, leads⟩ := tables.separate.1 fd hfd
    rw [own, Int.natCast_inj] at same
    rw [same, free] at leads
    omega
  refine ⟨⟨?_, ?_⟩, ?_, ?_⟩
  · intro fd hfd
    rw [fdList, descriptors, openedOn]
    rcases (isOpen fd).mp hfd with rfl | old
    · exact ⟨k, below, by simp, by simp⟩
    · obtain ⟨other, otherId⟩ := apart fd old
      obtain ⟨k', lt, own, leads⟩ := tables.separate.1 fd old
      have differs : k' ≠ k := fun same => otherId (own.trans (congrArg _ same))
      exact ⟨k', lt, by simpa [other] using own, by simpa [other, differs] using leads⟩
  · intro fd fd' hfd hfd' different
    rw [fdList]
    rcases (isOpen fd).mp hfd with rfl | old
    · have old' := ((isOpen fd').mp hfd').resolve_left (Ne.symm different)
      simpa [Ne.symm different] using (apart fd' old').2.symm
    · rcases (isOpen fd').mp hfd' with rfl | old'
      · simpa [different] using (apart fd old).2
      · have before := tables.separate.2 fd fd' old old' different
        simpa [(apart fd old).1, (apart fd' old').1] using before
  · intro fd hfd
    rw [fdList]
    rcases (isOpen fd).mp hfd with rfl | old
    · simp
    · simpa [(apart fd old).1] using tables.mounted fd old
  · intro k' lt used
    rw [descriptors] at used
    rw [fdList]
    by_cases same : k' = k
    · exact ⟨n, (isOpen n).mpr (.inl rfl), by simp [same]⟩
    · obtain ⟨fd, old, own⟩ := tables.owned k' lt (by simpa [same] using used)
      exact ⟨fd, (isOpen fd).mpr (.inr old), by simpa [(apart fd old).1] using own⟩

theorem tablesMatch_close (step : FdStep s (.closeFd fd) s') : TablesMatch s' := by
  obtain ⟨was, fdList, descriptors, openedOn⟩ := fdStep_close tables step
  obtain ⟨k, below, own, leads⟩ := tables.separate.1 fd was
  rw [own, Int.toNat_natCast] at descriptors
  have isOpen : ∀ fd', IsOpen s'.vfs fd' ↔ fd' ≠ fd ∧ IsOpen s.vfs fd' := by
    intro fd'
    rw [IsOpen, IsOpen, fdList]
    by_cases same : fd' = fd <;> simp [same]
  refine ⟨⟨?_, ?_⟩, ?_, ?_⟩
  · intro fd' hfd'
    obtain ⟨other, old⟩ := (isOpen fd').mp hfd'
    obtain ⟨k', lt, own', leads'⟩ := tables.separate.1 fd' old
    have differs : k' ≠ k := by
      rintro rfl
      exact tables.separate.2 fd' fd old was other (own'.trans own.symm)
    rw [fdList, descriptors, openedOn]
    exact ⟨k', lt, by simpa [other] using own', by simpa [differs] using leads'⟩
  · intro a b ha hb different
    obtain ⟨aOther, aOld⟩ := (isOpen a).mp ha
    obtain ⟨bOther, bOld⟩ := (isOpen b).mp hb
    rw [fdList]
    simpa [aOther, bOther] using tables.separate.2 a b aOld bOld different
  · intro fd' hfd'
    obtain ⟨other, old⟩ := (isOpen fd').mp hfd'
    rw [fdList]
    simpa [other] using tables.mounted fd' old
  · intro k' lt used
    rw [descriptors] at used
    have differs : k' ≠ k := by
      rintro rfl
      simp at used
    obtain ⟨fd', old, own'⟩ := tables.owned k' lt (by simpa [differs] using used)
    have other : fd' ≠ fd := by
      rintro rfl
      exact differs (Int.natCast_inj.mp (own'.symm.trans own))
    refine ⟨fd', (isOpen fd').mpr ⟨other, old⟩, ?_⟩
    rw [fdList]
    simpa [other] using own'

theorem tablesMatch_step (step : FdStep s e s') (counter : CounterFree s e) : TablesMatch s' := by
  cases e with
  | openFile cwd path flags => exact tablesMatch_open tables step counter
  | closeFd fd => exact tablesMatch_close tables step

theorem not_filesSeparate_of_taken (step : FdStep s e s') (taken : ¬ CounterFree s e) :
    ¬ FilesSeparate s' := by
  cases e with
  | closeFd fd => exact absurd trivial taken
  | openFile cwd path flags =>
    obtain ⟨before, used⟩ := Classical.not_imp.mp taken
    obtain ⟨it, pos, unused, below, fdList, descriptors, openedOn⟩ := fdStep_open step
    obtain ⟨new, closed⟩ := firstUnused_unused unused
    obtain ⟨fd, old, own⟩ := tables.owned _ before used
    have next : nextDescriptor s.vfs.fs = s.vfs.fs.curIrdfd := if_neg (Nat.not_le.mpr before)
    have other : fd ≠ firstUnused s.vfs := fun same => old.2 (same ▸ closed)
    rintro ⟨-, separate⟩
    refine separate fd (firstUnused s.vfs) ?_ ?_ other ?_
    · rw [IsOpen, fdList]
      simpa [other] using And.intro old.1 old.2
    · rw [IsOpen, fdList]
      simp [new]
    · rw [fdList, next]
      simpa [other] using own

end

theorem tablesMatch_init (fs : Fs) (openedOn : Nat → Nat) :
    TablesMatch ⟨vfsInit (initDescriptors fs), openedOn⟩ :=
  ⟨⟨fun _ h => absurd rfl h.2, fun _ _ h => absurd rfl h.2⟩, fun _ h => absurd rfl h.2,
    fun _ _ h => absurd rfl h⟩

variable {fs : Fs} {openedOn : Nat → Nat} {trace : List (OpenRun × FdEvent)}

/-- Files stay apart exactly when each open finds the counter at a free entry or the end. -/
theorem filesSeparate_run_iff
    (run : Exec FdStep ⟨vfsInit (initDescriptors fs), openedOn⟩ trace s) :
    Always FilesSeparate trace s ↔ ∀ e ∈ trace, CounterFree e.1 e.2 :=
  exec_always_iff (tablesMatch_init fs openedOn) (fun _ tables => tables.separate)
    (fun _ _ _ => tablesMatch_step) (fun _ _ _ => not_filesSeparate_of_taken) run

/-- An image with the one file `/a`. -/
def oneFile : Fs where
  nfiles := 1
  headers i := if i = 0 then ⟨0xBF, [slash, 97], fsFile, 0, 8836, 2⟩ else ⟨0, [], 0, 0, 0, 0⟩
  image _ := 0
  fsEnd := 8838
  descriptors _ := ⟨-1, 0⟩
  curIrdfd := 0
  currentUid := 0

def openA : FdEvent := .openFile [slash] [slash, 97] 0

def oneFileRun : OpenRun := ⟨vfsInit (initDescriptors oneFile), fun _ => 0⟩

theorem filesSeparate_run_iff_openA : ∃ s, FdStep oneFileRun openA s ∧
    IsOpen s.vfs 0 ∧ Always FilesSeparate [(oneFileRun, openA)] s := by
  have accepted : (fdStep oneFileRun openA).map (fun s => (s.vfs.fdList 0).mountpointId) =
      some 0 := by decide
  obtain ⟨s, step, mounted⟩ := Option.map_eq_some_iff.mp accepted
  have run : Exec FdStep oneFileRun [(oneFileRun, openA)] s := Exec.refl.next step
  refine ⟨s, step, ⟨by decide, by rw [mounted]; decide⟩, (filesSeparate_run_iff run).mpr ?_⟩
  intro e he
  rw [mem_singleton.mp he]
  exact fun _ => rfl

theorem filesSeparate_reopened : ∃ trace s, Exec FdStep oneFileRun trace s ∧
    IsOpen s.vfs 0 ∧ IsOpen s.vfs 1 ∧ (s.vfs.fdList 0).fsSpecId = 1 ∧
    (s.vfs.fdList 1).fsSpecId = 1 ∧ ¬ FilesSeparate s := by
  have accepted : ([openA, openA, openA, openA, .closeFd 0, openA, .closeFd 0, openA].foldlM
      fdStep oneFileRun).map (fun s => (s.vfs.fdList 0, s.vfs.fdList 1)) =
        some (⟨1, 0, 0, 0⟩, ⟨1, 0, 0, 0⟩) := by decide
  obtain ⟨s, done, tables⟩ := Option.map_eq_some_iff.mp accepted
  obtain ⟨first, second⟩ := Prod.mk.inj tables
  obtain ⟨trace, run⟩ := exec_of_foldlM done
  have isOpen : IsOpen s.vfs 0 := ⟨by decide, by rw [first]; decide⟩
  have isOpen' : IsOpen s.vfs 1 := ⟨by decide, by rw [second]; decide⟩
  refine ⟨trace, s, run, isOpen, isOpen', by rw [first], by rw [second], fun separate => ?_⟩
  exact separate.2 0 1 isOpen isOpen' (by decide) (by rw [first, second])

end Elaborato.Mentos.Initrd
