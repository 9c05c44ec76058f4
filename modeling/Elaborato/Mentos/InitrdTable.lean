import Elaborato.Mentos.InitrdFiles

/-!
The bookkeeping of the header table: `nfiles` counts the headers in use in every state.
-/
namespace Elaborato.Mentos.Initrd
open Foundation List Function

variable {s s' : Fs} {path : Name} {flags : UInt32} {ret : Int}

def CanCreate (s : Fs) (path : Name) : Prop :=
  (atTop path = true ∨ (getInitrdFile s (dirname path)).isSome = true) ∧
    (getFreeHeader s).isSome = true

inductive CanOpen (s : Fs) (path : Name) (flags : UInt32) : Prop
  | there (it : Nat) : it < s.nfiles.toNat → (s.headers it).fileName = path →
      (∀ j < it, (s.headers j).fileName ≠ path) → isDirectory (s.headers it) = false →
      hasFlag flags oCreat = false → CanOpen s path flags
  | makes : (∀ i < s.nfiles.toNat, (s.headers i).fileName ≠ path) →
      hasFlag flags oCreat = true → CanCreate s path → CanOpen s path flags

theorem scanFiles_cases (few : s.nfiles.toNat ≤ maxFiles) (path : Name) :
    (∃ it < s.nfiles.toNat, (s.headers it).fileName = path ∧
      (∀ j < it, (s.headers j).fileName ≠ path) ∧ scanFiles s path = .ok (some it)) ∨
    (∀ i < s.nfiles.toNat, (s.headers i).fileName ≠ path) ∧ scanFiles s path = .ok none := by
  unfold scanFiles
  rw [Nat.min_eq_left few]
  cases found : (List.range s.nfiles.toNat).find? fun it => path == (s.headers it).fileName with
  | some it =>
    obtain ⟨named, below, first⟩ := find?_range_eq_some.mp found
    refine .inl ⟨it, mem_range.mp below, (by simpa using named : path = _).symm,
      fun j lower same => ?_, rfl⟩
    simpa [same] using first j lower
  | none =>
    refine .inr ⟨fun i below same => ?_, if_pos few⟩
    simpa [same] using find?_range_eq_none.mp found i below

theorem initfsOpen_there {it : Nat} (scanned : scanFiles s path = .ok (some it)) :
    initfsOpen s path flags = openExisting { s with curIrdfd := nextDescriptor s } flags it := by
  have scanned' : scanFiles { s with curIrdfd := nextDescriptor s } path = .ok (some it) := scanned
  simp only [initfsOpen, scanned']
  rfl

theorem initfsOpen_absent (scanned : scanFiles s path = .ok none) :
    initfsOpen s path flags =
      if hasFlag flags oCreat then openCreate { s with curIrdfd := nextDescriptor s } path
      else .ok (-1, { s with curIrdfd := nextDescriptor s }) := by
  have scanned' : scanFiles { s with curIrdfd := nextDescriptor s } path = .ok none := scanned
  simp only [initfsOpen, scanned']
  rfl

theorem openCreate_refused (refused : ¬ CanCreate s path) : openCreate s path = .ok (-1, s) := by
  unfold openCreate
  split
  · rfl
  · rename_i parent
    cases found : getFreeHeader s with
    | none => rfl
    | some free =>
      refine absurd ⟨?_, by rw [found]; rfl⟩ refused
      cases top : atTop path with
      | true => exact .inl rfl
      | false =>
        rw [top, Bool.not_false, Bool.true_and, Bool.not_eq_true,
          Option.isNone_eq_false_iff] at parent
        exact .inr parent

theorem openCreate_accepted (can : CanCreate s path) : ∃ free,
    openCreate s path = (createHeader s path fsFile free).bind (takeDescriptor · free 0) := by
  obtain ⟨parent, unused⟩ := can
  obtain ⟨free, found⟩ := Option.isSome_iff_exists.mp unused
  refine ⟨free, ?_⟩
  unfold openCreate
  rw [if_neg, found]
  · rfl
  · rcases parent with top | named
    · simp [top]
    · simp [Option.isNone_eq_false_iff.mpr named]

theorem takeDescriptor_ret {it : Nat} {pos : Int}
    (done : takeDescriptor s it pos = .ok (ret, s')) : ret ≠ -1 := by
  obtain ⟨-, rfl, -⟩ := takeDescriptor_ok done
  omega

section
variable (few : s.nfiles.toNat ≤ maxFiles)
include few

theorem initfsOpen_refused (refused : ¬ CanOpen s path flags) :
    initfsOpen s path flags = .ok (-1, { s with curIrdfd := nextDescriptor s }) := by
  rcases scanFiles_cases few path with ⟨it, below, named, first, scanned⟩ | ⟨absent, scanned⟩
  · rw [initfsOpen_there scanned, openExisting]
    split
    · rfl
    · rename_i notDirectory
      split
      · rfl
      · rename_i noCreate
        exact absurd (.there it below named first (by simpa using notDirectory)
          (by simpa using noCreate)) refused
  · rw [initfsOpen_absent scanned]
    split
    · rename_i create
      exact openCreate_refused fun can => refused (.makes absent create can)
    · rfl

theorem initfsOpen_accepted (can : CanOpen s path flags)
    (done : initfsOpen s path flags = .ok (ret, s')) : ret ≠ -1 := by
  rcases scanFiles_cases few path with ⟨it, below, named, first, scanned⟩ | ⟨absent, scanned⟩
  · cases can with
    | there it' below' named' first' notDirectory noCreate =>
      obtain rfl : it = it' := by
        rcases Nat.lt_trichotomy it it' with before | same | before
        · exact absurd named (first' it before)
        · exact same
        · exact absurd named' (first it' before)
      rw [initfsOpen_there scanned, openExisting, if_neg (by simpa using notDirectory),
        if_neg (by simpa using noCreate)] at done
      exact takeDescriptor_ret done
    | makes absent => exact absurd named (absent it below)
  · cases can with
    | there it below named => exact absurd named (absent it below)
    | makes _ create can =>
      rw [initfsOpen_absent scanned, if_pos create] at done
      have can' : CanCreate { s with curIrdfd := nextDescriptor s } path := can
      obtain ⟨free, equation⟩ := openCreate_accepted can'
      rw [equation] at done
      cases made : createHeader { s with curIrdfd := nextDescriptor s } path fsFile free with
      | error halt =>
        rw [made] at done
        cases done
      | ok s₁ =>
        rw [made] at done
        exact takeDescriptor_ret done

theorem initfsOpen_returns (short : path.length < nameMax)
    (next : nextDescriptor s < maxInitrdDescriptors) :
    ∃ ret s', initfsOpen s path flags = .ok (ret, s') := by
  rcases scanFiles_cases few path with ⟨it, below, named, first, scanned⟩ | ⟨absent, scanned⟩
  · rw [initfsOpen_there scanned, openExisting]
    split
    · exact ⟨_, _, rfl⟩
    · split
      · exact ⟨_, _, rfl⟩
      · exact ⟨_, _, if_pos next⟩
  · rw [initfsOpen_absent scanned]
    split
    · by_cases can : CanCreate { s with curIrdfd := nextDescriptor s } path
      · obtain ⟨free, equation⟩ := openCreate_accepted can
        rw [equation, createHeader, if_neg (Nat.not_le.mpr short)]
        exact ⟨_, _, if_pos next⟩
      · exact ⟨_, _, openCreate_refused can⟩
    · exact ⟨_, _, rfl⟩

end

variable {start : Fs} {e : FsEvent} {trace : List (Fs × FsEvent)}

def initrdNfiles (s : Fs) : Nat :=
  (List.range maxFiles).foldl
    (fun nfiles i => if (s.headers i).fileType ≠ 0 then nfiles + 1 else nfiles) 0

theorem initrdNfiles_eq (s : Fs) : initrdNfiles s = (used s).card := by
  have scanned : ∀ n k, (List.range n).foldl
      (fun nfiles i => if (s.headers i).fileType ≠ 0 then nfiles + 1 else nfiles) k =
        k + ((Finset.range n).filter fun i => (s.headers i).fileType ≠ 0).card := by
    intro n k
    induction n with
    | zero => simp
    | succ n ih =>
      rw [range_succ, foldl_append, ih, Finset.range_add_one, Finset.filter_insert]
      by_cases inUse : (s.headers n).fileType ≠ 0
      · rw [if_pos inUse, Finset.card_insert_of_notMem (by simp)]
        simp [inUse, Nat.add_assoc]
      · rw [if_neg inUse]
        simp [inUse]
  rw [initrdNfiles, scanned, Nat.zero_add, used]

def TableCall (s : Fs) : FsEvent → Prop
  | .openPath path _ => path.length < nameMax ∧ ∃ k < maxInitrdDescriptors, isFree s k = true
  | .mkdir path => path.length < nameMax
  | .rmdir path => path.length < nameMax
  | .remove path => path.length < nameMax
  | .close fildes => 0 ≤ fildes ∧ fildes < maxInitrdDescriptors
  | .write _ _ _ _ => False

def ClearsOne (s s' : Fs) (i : Nat) : Prop :=
  i ∈ used s ∧ s'.headers = update s.headers i ⟨0, [], 0, 0, 0, 0⟩

/-- What an operation on the table leaves. -/
structure TableKept (s : Fs) (e : FsEvent) (ret : Int) (s' : Fs) : Prop where
  failed : ret = -1 → s'.headers = s.headers ∧ s'.nfiles = s.nfiles
  remove : ∀ path, e = .remove path → ret ≠ -1 → ∃ i, ClearsOne s s' i
  rmdir : ∀ path, e = .rmdir path → ret ≠ -1 → ∃ i, ClearsOne s s' i ∧
    (s.headers i).fileType = fsDirectory ∧
    ∀ j ∈ used s, dirname (s.headers j).fileName ≠ (s.headers i).fileName

theorem card_step (card : (used s).card = s.nfiles.toNat) (step : FsStep s e s') :
    (used s').card = s'.nfiles.toNat := by
  cases fsStep_change step with
  | kept e headers nfiles => rw [used, headers, nfiles, ← card, used]
  | made path flags free create absent created | madeDir path free absent created =>
    obtain ⟨more, nfiles⟩ := card_created card created (by decide)
    rw [more, nfiles]
  | removed path i file cleared =>
    obtain ⟨less, nfiles⟩ := card_cleared card cleared (by rw [file]; decide)
    rw [less, nfiles]
  | removedDir path i directory empty cleared =>
    obtain ⟨less, nfiles⟩ := card_cleared card cleared (by rw [directory]; decide)
    rw [less, nfiles]
  | grown heap fildes buf nbyte k lfd some found headers nfiles =>
    have types : ∀ i, (s'.headers i).fileType = (s.headers i).fileType := by
      intro i
      rw [headers, apply_update (fun _ h => Header.fileType h), update_eq_self]
    rw [used, nfiles, ← card, used]
    simp only [types]

theorem dirname_dot : dirname dot = dot := rfl

theorem notEmpty_used {i : Nat} (inside : i < maxFiles)
    (empty : notEmpty s (s.headers i).fileName = false) :
    ∀ j ∈ used s, dirname (s.headers j).fileName ≠ (s.headers i).fileName := by
  have scanned : ∀ j < maxFiles, (s.headers j).fileName ≠ [] →
      dirname (s.headers j).fileName ≠ (s.headers i).fileName := by
    intro j below named same
    have passed := any_eq_false.mp empty j (mem_range.mpr below)
    simp [named, same] at passed
  intro j mem
  by_cases named : (s.headers j).fileName = []
  · rw [named]
    intro same
    have top : (s.headers i).fileName = dot := same.symm
    exact scanned i inside (by rw [top]; decide) (by rw [top, dirname_dot])
  · exact scanned j (mem_used.mp mem).1 named

theorem initrdRmdir_cases (path : Name) :
    initrdRmdir s path = (-1, s) ∨ ∃ i, ClearsOne s (clearHeader s i) i ∧
      (s.headers i).fileType = fsDirectory ∧ notEmpty s (s.headers i).fileName = false ∧
      initrdRmdir s path = (0, clearHeader s i) := by
  unfold initrdRmdir
  split
  · exact .inl rfl
  · rename_i i found
    split
    · exact .inl rfl
    · rename_i directory
      rw [not_not] at directory
      split
      · exact .inl rfl
      · rename_i empty
        refine .inr ⟨i, ⟨mem_used.mpr ⟨(getInitrdFile_some found).1, ?_⟩, rfl⟩, directory,
          by simpa using empty, rfl⟩
        rw [directory]
        decide

theorem initfsRemove_cases (path : Name) :
    initfsRemove s path = (-1, s) ∨ ∃ i, ClearsOne s (clearHeader s i) i ∧
      initfsRemove s path = (0, clearHeader s i) := by
  unfold initfsRemove
  split
  · exact .inl rfl
  · rename_i i found
    split
    · exact .inl rfl
    · rename_i file
      rw [not_not] at file
      refine .inr ⟨i, ⟨mem_used.mpr ⟨(getInitrdFile_some found).1, ?_⟩, rfl⟩, rfl⟩
      rw [file]
      decide

theorem initrdMkdir_cases (short : path.length < nameMax) :
    initrdMkdir s path = .ok (-1, s) ∨ ∃ s', initrdMkdir s path = .ok (1, s') := by
  unfold initrdMkdir
  split
  · exact .inl rfl
  · split
    · exact .inl rfl
    · split
      · exact .inl rfl
      · rw [createHeader, if_neg (Nat.not_le.mpr short)]
        exact .inr ⟨_, rfl⟩

theorem TableKept.of_failed (failed : ret = -1 → s'.headers = s.headers ∧ s'.nfiles = s.nfiles)
    (other : ∀ path, e ≠ .remove path ∧ e ≠ .rmdir path) : TableKept s e ret s' :=
  ⟨failed, fun path same => absurd same (other path).1, fun path same => absurd same (other path).2⟩

theorem tableKept_call (card : (used s).card = s.nfiles.toNat) (call : TableCall s e) :
    ∃ ret s', fsStep s e = .ok (ret, s') ∧ TableKept s e ret s' := by
  have few : s.nfiles.toNat ≤ maxFiles := card ▸ card_used_le s
  cases e with
  | openPath path flags =>
    by_cases can : CanOpen s path flags
    · obtain ⟨ret, s', done⟩ := @initfsOpen_returns s path flags few call.1
        (nextDescriptor_lt call.2)
      refine ⟨ret, s', done, .of_failed (fun failed => ?_) fun _ => ⟨by simp, by simp⟩⟩
      exact absurd failed (initfsOpen_accepted few can done)
    · refine ⟨_, _, initfsOpen_refused few can, .of_failed (fun _ => ⟨rfl, rfl⟩) fun _ => ?_⟩
      exact ⟨by simp, by simp⟩
  | mkdir path =>
    rcases @initrdMkdir_cases s path call with failed | ⟨s', done⟩
    · exact ⟨_, _, failed, .of_failed (fun _ => ⟨rfl, rfl⟩) fun _ => ⟨by simp, by simp⟩⟩
    · refine ⟨1, s', done, .of_failed (fun failed => ?_) fun _ => ⟨by simp, by simp⟩⟩
      exact absurd failed (by decide)
  | remove path =>
    rcases @initfsRemove_cases s path with failed | ⟨i, clears, done⟩
    · refine ⟨-1, s, by rw [fsStep, failed], fun _ => ⟨rfl, rfl⟩, ?_, ?_⟩
      · exact fun _ _ success => absurd rfl success
      · exact fun _ other => by cases other
    · refine ⟨0, _, by rw [fsStep, done], fun failed => absurd failed (by decide), ?_, ?_⟩
      · exact fun _ _ _ => ⟨i, clears⟩
      · exact fun _ other => by cases other
  | rmdir path =>
    rcases @initrdRmdir_cases s path with failed | ⟨i, clears, directory, empty, done⟩
    · refine ⟨-1, s, by rw [fsStep, failed], fun _ => ⟨rfl, rfl⟩, ?_, ?_⟩
      · exact fun _ other => by cases other
      · exact fun _ _ success => absurd rfl success
    · refine ⟨0, _, by rw [fsStep, done], fun failed => absurd failed (by decide), ?_, ?_⟩
      · exact fun _ other => by cases other
      · exact fun _ _ _ =>
          ⟨i, clears, directory, notEmpty_used (mem_used.mp clears.1).1 empty⟩
  | close fildes =>
    refine ⟨0, _, if_pos call, .of_failed (fun _ => ⟨rfl, rfl⟩) fun _ => ⟨by simp, by simp⟩⟩
  | write heap fildes buf nbyte => exact call.elim

/-- Along every run `nfiles` counts the headers in use, and failures leave the table. -/
theorem table_run (counted : start.nfiles.toNat = initrdNfiles start)
    (run : Exec FsStep start trace s) (calls : ∀ e ∈ trace, TableCall e.1 e.2) :
    Always (fun s => s.nfiles.toNat = initrdNfiles s ∧ initrdNfiles s ≤ maxFiles) trace s ∧
      ∀ e, TableCall s e → ∃ ret s', fsStep s e = .ok (ret, s') ∧ TableKept s e ret s' := by
  have preserved : ∀ s e s', (used s).card = s.nfiles.toNat → FsStep s e s' → TableCall s e →
      (used s').card = s'.nfiles.toNat := fun _ _ _ card step _ => card_step card step
  rw [initrdNfiles_eq] at counted
  have always : Always (fun s => (used s).card = s.nfiles.toNat) trace s :=
    exec_invariant counted.symm preserved run calls
  have counts : ∀ s, (used s).card = s.nfiles.toNat →
      s.nfiles.toNat = initrdNfiles s ∧ initrdNfiles s ≤ maxFiles := by
    intro s card
    rw [initrdNfiles_eq]
    exact ⟨card.symm, card_used_le s⟩
  exact ⟨⟨fun e he => counts _ (always.1 e he), counts _ always.2⟩,
    fun e call => tableKept_call always.2 call⟩

theorem table_run_made : ∃ s, FsStep twoFiles (.mkdir [slash, 100]) s ∧
    s.nfiles.toNat = initrdNfiles s ∧
    ∃ ret s', fsStep s (.rmdir [slash, 100]) = .ok (ret, s') ∧
      TableKept s (.rmdir [slash, 100]) ret s' := by
  have made : FsStep twoFiles (.mkdir [slash, 100]) _ := ⟨1, rfl⟩
  refine ⟨_, made, ?_⟩
  have calls : ∀ e ∈ [(twoFiles, FsEvent.mkdir [slash, 100])], TableCall e.1 e.2 := by
    intro e he
    rw [mem_singleton.mp he]
    exact (by decide : [slash, 100].length < nameMax)
  obtain ⟨counts, kept⟩ := table_run (by decide) (Exec.refl.next made) calls
  exact ⟨counts.2.1, kept _ (by decide : [slash, 100].length < nameMax)⟩

end Elaborato.Mentos.Initrd
