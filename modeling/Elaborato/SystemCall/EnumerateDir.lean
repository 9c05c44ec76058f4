import Elaborato.Foundation.Gather
import Elaborato.SystemCall.Defines
import Mathlib.Data.List.Nodup

/-!
`enumerate_dir` (defines.c): all levels share one counter, and every call sets it to 0.
-/
namespace Elaborato.SystemCall
open Foundation List Function

abbrev Path := List Char

def pathMax : Nat := 4096

inductive Entries
  | nil
  | dir (name : Path) (sub rest : Entries)
  | reg (name : Path) (size : Nat) (leftover : Bool) (rest : Entries)
  | other (name : Path) (rest : Entries)
  deriving DecidableEq

def strrchr (c : Char) : Path → Option Path
  | [] => none
  | x :: xs =>
    match strrchr c xs with
    | some point => some point
    | none => if x = c then some (x :: xs) else none

def hasValidFilename (leftover : Bool) (str : Path) : Bool :=
  let hasValidPrefix := str.take 7 == "sendme_".toList
  let hasValidExtension :=
    match strrchr '.' str with
    | some point => point == ".txt".toList
    | none => leftover
  hasValidPrefix && hasValidExtension

def contains (str substr : Path) : Bool := str.tails.any fun rest => substr.isPrefixOf rest

def validName (leftover : Bool) (name : Path) : Bool :=
  hasValidFilename leftover name && !contains name "_out".toList

def isDots (name : Path) : Bool := name == ".".toList || name == "..".toList

def entryPath (directory name : Path) : Option Path :=
  let path := directory ++ '/' :: name
  if path.length < pathMax then some path else none

structure Listing where
  count : Nat
  files : Nat → Path

def Listing.add (l : Listing) (path : Path) : Listing :=
  { count := l.count + 1, files := update l.files l.count path }

def enumerateEntries : Entries → Path → Listing → Option Listing
  | .nil, _, l => some l
  | .dir name sub rest, directory, l =>
    if l.count < 100 then
      if isDots name then enumerateEntries rest directory l
      else (entryPath directory name).bind fun newDir =>
        (enumerateEntries sub newDir { l with count := 0 }).bind (enumerateEntries rest directory)
    else some l
  | .reg name size leftover rest, directory, l =>
    if l.count < 100 then
      if validName leftover name then (entryPath directory name).bind fun filepath =>
        enumerateEntries rest directory (if admittedSize size then l.add filepath else l)
      else enumerateEntries rest directory l
    else some l
  | .other _ rest, directory, l =>
    if l.count < 100 then enumerateEntries rest directory l else some l

def enumerateDir (directory : Path) (entries : Entries) (l : Listing) : Option Listing :=
  enumerateEntries entries directory { l with count := 0 }

def Listing.listed (l : Listing) : List Path := (List.range l.count).map l.files

def qualifying : Entries → Path → List Path
  | .nil, _ => []
  | .dir name sub rest, directory =>
    (if isDots name then [] else qualifying sub (directory ++ '/' :: name)) ++
      qualifying rest directory
  | .reg name size leftover rest, directory =>
    (if validName leftover name && admittedSize size then [directory ++ '/' :: name] else []) ++
      qualifying rest directory
  | .other _ rest, directory => qualifying rest directory

def visits : Entries → Path → List (Mark Path)
  | .nil, _ => []
  | .dir name sub rest, directory =>
    (if isDots name then []
      else match entryPath directory name with
        | some newDir => .clear :: visits sub newDir
        | none => [.abort]) ++ visits rest directory
  | .reg name size leftover rest, directory =>
    (if validName leftover name then
      match entryPath directory name with
        | some filepath => if admittedSize size then [.item filepath] else []
        | none => [.abort]
      else []) ++ visits rest directory
  | .other _ rest, directory => visits rest directory

def Entries.names : Entries → List Path
  | .nil => []
  | .dir name _ rest | .reg name _ _ rest | .other name rest => name :: rest.names

def Entries.Proper : Entries → Prop
  | .nil => True
  | .dir name sub rest => '/' ∉ name ∧ name ∉ rest.names ∧ sub.Proper ∧ rest.Proper
  | .reg name _ _ rest | .other name rest => '/' ∉ name ∧ name ∉ rest.names ∧ rest.Proper

structure Directory where
  entries : Entries
  proper : entries.Proper

def Enumerates (files listed : List Path) : Prop :=
  listed.Nodup ∧
    if files.length ≤ 100 then ∀ p, p ∈ listed ↔ p ∈ files
    else listed.length = 100 ∧ ∀ p ∈ listed, p ∈ files

@[simp] theorem Listing.listed_length (l : Listing) : l.listed.length = l.count := by
  simp [listed]

@[simp] theorem Listing.listed_reset (l : Listing) : { l with count := 0 : Listing }.listed = [] :=
  rfl

theorem Listing.listed_add (l : Listing) (path : Path) :
    (l.add path).listed = l.listed ++ [path] := by
  have before : (List.range l.count).map (update l.files l.count path) =
      (List.range l.count).map l.files := by
    apply map_congr_left
    intro i hi
    exact update_of_ne (Nat.ne_of_lt (mem_range.mp hi)) _ _
  simp [listed, add, range_succ, before]

variable {directory name : Path}

theorem entryPath_some {path : Path} (fits : entryPath directory name = some path) :
    path = directory ++ '/' :: name := by
  simp only [entryPath] at fits
  split at fits
  · exact (Option.some.inj fits).symm
  · cases fits

attribute [local simp] Mark.apply gather

theorem enumerateEntries_gather (entries : Entries) (directory : Path) (l : Listing) :
    (enumerateEntries entries directory l).map Listing.listed =
      gather 100 (visits entries directory) l.listed := by
  induction entries generalizing directory l with
  | nil => rfl
  | dir name sub rest ihSub ihRest =>
    by_cases room : l.count < 100
    · simp only [enumerateEntries, if_pos room, visits]
      cases isDots name with
      | true => exact ihRest directory l
      | false =>
        cases entryPath directory name with
        | none => simp [room]
        | some newDir =>
          have inner := ihSub newDir { l with count := 0 }
          rw [Listing.listed_reset] at inner
          simp only [Bool.false_eq_true, if_false, Option.bind_some, cons_append, gather,
            Listing.listed_length, if_pos room, Mark.apply, gather_append, ← inner]
          cases enumerateEntries sub newDir { l with count := 0 } with
          | none => rfl
          | some l' => exact ihRest directory l'
    · rw [enumerateEntries, if_neg room]
      exact (gather_full (by simpa using room)).symm
  | reg name size leftover rest ihRest =>
    by_cases room : l.count < 100
    · simp only [enumerateEntries, if_pos room, visits]
      cases validName leftover name with
      | false => exact ihRest directory l
      | true =>
        cases entryPath directory name with
        | none => simp [room]
        | some filepath =>
          cases admittedSize size with
          | false => exact ihRest directory l
          | true =>
            refine (ihRest directory (l.add filepath)).trans ?_
            simp [room, Listing.listed_add]
    · rw [enumerateEntries, if_neg room]
      exact (gather_full (by simpa using room)).symm
  | other name rest ihRest =>
    by_cases room : l.count < 100
    · rw [enumerateEntries, if_pos room]
      exact ihRest directory l
    · rw [enumerateEntries, if_neg room]
      exact (gather_full (by simpa using room)).symm

theorem items_visits_sublist (entries : Entries) (directory : Path) :
    (items (visits entries directory)).Sublist (qualifying entries directory) := by
  induction entries generalizing directory with
  | nil => exact .slnil
  | dir name sub rest ihSub ihRest =>
    rw [visits, items_append, qualifying]
    refine .append ?_ (ihRest directory)
    cases isDots name with
    | true => exact .slnil
    | false =>
      cases fits : entryPath directory name with
      | none => exact nil_sublist _
      | some newDir =>
        rw [← entryPath_some fits]
        exact ihSub newDir
  | reg name size leftover rest ihRest =>
    rw [visits, items_append, qualifying]
    refine .append ?_ (ihRest directory)
    cases validName leftover name with
    | false => exact .slnil
    | true =>
      cases fits : entryPath directory name with
      | none => exact nil_sublist _
      | some filepath =>
        rw [← entryPath_some fits]
        cases admittedSize size <;> exact List.Sublist.refl _
  | other name rest ihRest => exact ihRest directory

variable {tail : Path}

theorem takeWhile_name (slash : '/' ∉ name) (ends : tail = [] ∨ ∃ below, tail = '/' :: below) :
    (name ++ tail).takeWhile (· != '/') = name := by
  induction name with
  | nil => rcases ends with rfl | ⟨below, rfl⟩ <;> rfl
  | cons c name ih =>
    obtain ⟨away, slash⟩ := not_or.mp (mem_cons.not.mp slash)
    have other : (c != '/') = true := bne_iff_ne.mpr (Ne.symm away)
    rw [cons_append, takeWhile_cons, if_pos other, ih slash]

variable {entries : Entries}

theorem qualifying_name {p : Path} (proper : entries.Proper)
    (file : p ∈ qualifying entries directory) :
    ∃ below, p = directory ++ '/' :: below ∧ below.takeWhile (· != '/') ∈ entries.names := by
  induction entries generalizing directory with
  | nil => cases file
  | dir name sub rest ihSub ihRest =>
    obtain ⟨slash, -, properSub, properRest⟩ := proper
    rcases mem_append.mp file with file | file
    · cases hdots : isDots name with
      | true => simp [hdots] at file
      | false =>
        rw [hdots] at file
        obtain ⟨below, rfl, -⟩ := ihSub properSub file
        refine ⟨name ++ '/' :: below, by simp, ?_⟩
        rw [takeWhile_name slash (.inr ⟨below, rfl⟩)]
        exact mem_cons_self
    · obtain ⟨below, rfl, known⟩ := ihRest properRest file
      exact ⟨below, rfl, mem_cons_of_mem _ known⟩
  | reg name size leftover rest ihRest =>
    obtain ⟨slash, -, properRest⟩ := proper
    rcases mem_append.mp file with file | file
    · obtain ⟨-, at_file⟩ := mem_ite_nil_right.mp file
      refine ⟨name, mem_singleton.mp at_file, ?_⟩
      have whole := takeWhile_name slash (.inl (rfl : ([] : Path) = []))
      rw [append_nil] at whole
      rw [whole]
      exact mem_cons_self
    · obtain ⟨below, rfl, known⟩ := ihRest properRest file
      exact ⟨below, rfl, mem_cons_of_mem _ known⟩
  | other name rest ihRest =>
    obtain ⟨below, rfl, known⟩ := ihRest proper.2.2 file
    exact ⟨below, rfl, mem_cons_of_mem _ known⟩

theorem qualifying_apart {rest : Entries} (proper : rest.Proper) (slash : '/' ∉ name)
    (once : name ∉ rest.names) (ends : tail = [] ∨ ∃ below, tail = '/' :: below) :
    directory ++ '/' :: (name ++ tail) ∉ qualifying rest directory := by
  intro file
  obtain ⟨below, same, known⟩ := qualifying_name proper file
  obtain rfl : name ++ tail = below := by simpa using same
  rw [takeWhile_name slash ends] at known
  exact once known

theorem qualifying_nodup (directory : Path) (proper : entries.Proper) :
    (qualifying entries directory).Nodup := by
  induction entries generalizing directory with
  | nil => exact nodup_nil
  | dir name sub rest ihSub ihRest =>
    obtain ⟨slash, once, properSub, properRest⟩ := proper
    refine nodup_append'.mpr ⟨?_, ihRest directory properRest, ?_⟩
    · cases isDots name with
      | true => exact nodup_nil
      | false => exact ihSub _ properSub
    · cases isDots name with
      | true => exact disjoint_nil_left _
      | false =>
        intro p inner later
        obtain ⟨below, rfl, -⟩ := qualifying_name properSub inner
        rw [append_assoc, cons_append] at later
        exact qualifying_apart properRest slash once (.inr ⟨below, rfl⟩) later
  | reg name size leftover rest ihRest =>
    obtain ⟨slash, once, properRest⟩ := proper
    refine nodup_append'.mpr ⟨?_, ihRest directory properRest, ?_⟩
    · split <;> simp
    · intro p here later
      obtain ⟨-, at_file⟩ := mem_ite_nil_right.mp here
      rw [mem_singleton.mp at_file, ← append_nil name] at later
      exact qualifying_apart properRest slash once (.inl rfl) later
  | other name rest ihRest => exact ihRest directory proper.2.2

theorem enumerates_iff_length {files listed : List Path} (nodup : files.Nodup)
    (part : listed.Sublist files) :
    Enumerates files listed ↔ listed.length = min 100 files.length := by
  have distinct := nodup.sublist part
  have fewer := part.length_le
  rw [Enumerates]
  split
  · next few =>
      rw [Nat.min_eq_right few]
      constructor
      · rintro ⟨-, same⟩
        exact ((perm_ext_iff_of_nodup distinct nodup).mpr same).length_eq
      · intro length
        rw [part.eq_of_length length]
        exact ⟨nodup, fun _ => Iff.rfl⟩
  · next many =>
      rw [Nat.min_eq_left (by omega)]
      exact ⟨fun h => h.2.1, fun length => ⟨distinct, length, fun p hp => part.subset hp⟩⟩

/-- Every file is listed exactly when no directory is entered between the files or after them. -/
theorem enumerateDir_iff (root : Path) (tree : Directory) (l : Listing) :
    (∃ l', enumerateDir root tree.entries l = some l' ∧
        Enumerates (qualifying tree.entries root) l'.listed) ↔
      Uninterrupted 100 (qualifying tree.entries root).length (visits tree.entries root) := by
  have part := items_visits_sublist tree.entries root
  have nodup := qualifying_nodup root tree.proper
  have result := enumerateEntries_gather tree.entries root { l with count := 0 }
  rw [Listing.listed_reset] at result
  rw [← gather_length_iff part.length_le, ← result]
  have exact_iff : ∀ l', enumerateDir root tree.entries l = some l' →
      (Enumerates (qualifying tree.entries root) l'.listed ↔
        l'.listed.length = min 100 (qualifying tree.entries root).length) := by
    intro l' made
    rw [enumerateDir] at made
    rw [made, Option.map_some] at result
    exact enumerates_iff_length nodup ((gather_sublist result.symm).trans part)
  constructor
  · rintro ⟨l', made, right⟩
    exact ⟨l'.listed, by rw [← enumerateDir, made, Option.map_some], (exact_iff l' made).mp right⟩
  · rintro ⟨out, made, length⟩
    obtain ⟨l', made', rfl⟩ := Option.map_eq_some_iff.mp made
    exact ⟨l', made', (exact_iff l' made').mpr length⟩

def fileThenDirectory : Directory where
  entries := .reg "sendme_a.txt".toList 10 false
    (.dir "d".toList (.reg "sendme_b.txt".toList 10 false .nil) .nil)
  proper := by simp [Entries.Proper, Entries.names]

theorem enumerateDir_fileThenDirectory :
    (enumerateDir "/h".toList fileThenDirectory.entries ⟨0, fun _ => []⟩).map Listing.listed =
        some ["/h/d/sendme_b.txt".toList] ∧
      qualifying fileThenDirectory.entries "/h".toList =
        ["/h/sendme_a.txt".toList, "/h/d/sendme_b.txt".toList] ∧
      ¬ Enumerates (qualifying fileThenDirectory.entries "/h".toList)
        ["/h/d/sendme_b.txt".toList] := by
  have files : qualifying fileThenDirectory.entries "/h".toList =
      ["/h/sendme_a.txt".toList, "/h/d/sendme_b.txt".toList] := by decide
  refine ⟨by decide, files, ?_⟩
  rw [files]
  rintro ⟨-, same⟩
  have missing := (same "/h/sendme_a.txt".toList).mpr (by simp)
  simp at missing

end Elaborato.SystemCall
