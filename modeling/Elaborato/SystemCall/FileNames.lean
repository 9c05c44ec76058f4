import Elaborato.SystemCall.EnumerateDir
import Elaborato.SystemCall.WriteOnFile
import Mathlib.Data.List.Infix

/-!
Names: the test of `enumerate_dir`, the field of a message, and the name of the output file.
-/
namespace Elaborato.SystemCall
open Foundation List

variable {c : Char} {str point : Path}

theorem strrchr_eq_none : strrchr c str = none ↔ c ∉ str := by
  induction str with
  | nil => simp [strrchr]
  | cons x xs ih =>
    rw [strrchr]
    cases later : strrchr c xs with
    | some point =>
      have mem : c ∈ xs := by
        by_contra out
        rw [ih.mpr out] at later
        cases later
      simp [mem]
    | none =>
      have out := ih.mp later
      by_cases here : x = c
      · simp [here]
      · simp [here, out, Ne.symm here]

theorem strrchr_eq_some : strrchr c str = some point ↔
    ∃ stem ext, str = stem ++ point ∧ point = c :: ext ∧ c ∉ ext := by
  induction str with
  | nil =>
    simp only [strrchr, reduceCtorEq, false_iff]
    rintro ⟨stem, ext, whole, rfl, -⟩
    simp at whole
  | cons x xs ih =>
    rw [strrchr]
    cases later : strrchr c xs with
    | some point' =>
      rw [later] at ih
      simp only [Option.some.injEq] at ih ⊢
      constructor
      · rintro rfl
        obtain ⟨stem, ext, rfl, rest⟩ := ih.mp rfl
        exact ⟨x :: stem, ext, rfl, rest⟩
      · rintro ⟨stem, ext, whole, rfl, out⟩
        cases stem with
        | nil =>
          obtain ⟨rfl, rfl⟩ := List.cons.inj whole
          rw [strrchr_eq_none.mpr out] at later
          cases later
        | cons y stem =>
          exact ih.mpr ⟨stem, ext, (List.cons.inj whole).2, rfl, out⟩
    | none =>
      have out := strrchr_eq_none.mp later
      by_cases here : x = c
      · subst here
        simp only [if_true, Option.some.injEq]
        constructor
        · rintro rfl
          exact ⟨[], xs, rfl, rfl, out⟩
        · rintro ⟨stem, ext, whole, rfl, -⟩
          cases stem with
          | nil => exact whole
          | cons y stem => exact absurd (by simp [(List.cons.inj whole).2]) out
      · simp only [here, if_false, reduceCtorEq, false_iff]
        rintro ⟨stem, ext, whole, rfl, -⟩
        cases stem with
        | nil => exact here (List.cons.inj whole).1
        | cons y stem => exact out (by simp [(List.cons.inj whole).2])

def IsSendme (name : Path) : Prop :=
  "sendme_".toList <+: name ∧
    ∃ stem ext, name = stem ++ '.' :: ext ∧ '.' ∉ ext ∧ '.' :: ext = ".txt".toList

variable {name : Path}

theorem strrchr_dot : strrchr '.' name = some ".txt".toList ↔
    ∃ stem ext, name = stem ++ '.' :: ext ∧ '.' ∉ ext ∧ '.' :: ext = ".txt".toList := by
  rw [strrchr_eq_some]
  constructor
  · rintro ⟨stem, ext, whole, point, out⟩
    exact ⟨stem, ext, by rw [whole, point], out, point.symm⟩
  · rintro ⟨stem, ext, whole, out, point⟩
    exact ⟨stem, ext, by rw [whole, point], point.symm, out⟩

theorem take_sendme : (name.take 7 == "sendme_".toList) = true ↔ "sendme_".toList <+: name := by
  rw [beq_iff_eq, prefix_iff_eq_take, eq_comm]
  rfl

theorem hasValidFilename_dot (dot : '.' ∈ name) (leftover : Bool) :
    hasValidFilename leftover name = true ↔ IsSendme name := by
  cases last : strrchr '.' name with
  | none => exact absurd dot (strrchr_eq_none.mp last)
  | some point =>
    rw [hasValidFilename, last, Bool.and_eq_true, take_sendme, IsSendme, ← strrchr_dot, last,
      beq_iff_eq, Option.some.injEq]

theorem hasValidFilename_noDot (dot : '.' ∉ name) (leftover : Bool) :
    hasValidFilename leftover name = true ↔ "sendme_".toList <+: name ∧ leftover = true := by
  rw [hasValidFilename, strrchr_eq_none.mpr dot, Bool.and_eq_true, take_sendme]

/-- Right exactly for the names that have a dot or do not start with `sendme_`. -/
theorem hasValidFilename_iff (name : Path) :
    (∀ leftover, hasValidFilename leftover name = true ↔ IsSendme name) ↔
      '.' ∈ name ∨ ¬ "sendme_".toList <+: name := by
  by_cases dot : '.' ∈ name
  · exact iff_of_true (hasValidFilename_dot dot) (.inl dot)
  · have noName : ¬ IsSendme name := by
      rintro ⟨-, stem, ext, rfl, -⟩
      simp at dot
    simp only [hasValidFilename_noDot dot, noName, iff_false, dot, false_or, not_and,
      Bool.not_eq_true]
    constructor
    · intro all start
      cases all true start
    · intro other leftover start
      exact absurd start other

theorem hasValidFilename_leftover : hasValidFilename true "sendme_a".toList = true ∧
    hasValidFilename false "sendme_a".toList = false ∧ ¬ IsSendme "sendme_a".toList := by
  refine ⟨by decide, by decide, ?_⟩
  rintro ⟨-, stem, ext, whole, -⟩
  have dot : '.' ∈ "sendme_a".toList := by simp [whole]
  revert dot
  decide

def baseName (path : Path) : Path := (path.reverse.takeWhile (· != '/')).reverse

def Admitted (path : Path) : Prop :=
  IsSendme (baseName path) ∧ contains (baseName path) "_out".toList = false

theorem baseName_append {dir base : Path} (slash : '/' ∉ base)
    (ends : dir.reverse.takeWhile (· != '/') = []) : baseName (dir ++ base) = base := by
  have all : ∀ x ∈ base.reverse, (x != '/') = true := by
    intro x mem
    refine bne_iff_ne.mpr ?_
    rintro rfl
    exact slash (mem_reverse.mp mem)
  rw [baseName, reverse_append, takeWhile_append_of_pos all, ends, append_nil, reverse_reverse]

theorem exists_baseName (path : Path) : ∃ dir, path = dir ++ baseName path ∧
    dir.reverse.takeWhile (· != '/') = [] ∧ '/' ∉ baseName path := by
  refine ⟨(path.reverse.dropWhile (· != '/')).reverse, ?_, ?_, fun slash => ?_⟩
  · rw [baseName, ← reverse_append, takeWhile_append_dropWhile, reverse_reverse]
  · rw [reverse_reverse]
    have first := head?_dropWhile_not (· != '/') path.reverse
    cases rest : path.reverse.dropWhile (· != '/') with
    | nil => rfl
    | cons x xs =>
      rw [rest] at first
      exact takeWhile_cons_of_neg (by simpa using first)
  · have other := mem_takeWhile_imp (mem_reverse.mp slash)
    exact absurd other (by decide)

theorem contains_append (first sub last : Path) : contains (first ++ (sub ++ last)) sub = true := by
  rw [contains, any_eq_true]
  refine ⟨sub ++ last, (mem_tails _ _).mpr (suffix_append first _), ?_⟩
  exact isPrefixOf_iff_prefix.mpr (prefix_append sub last)

theorem pathOut_shape {p : String} (admitted : Admitted p.toList) :
    ∃ dir stem, p.toList = dir ++ (stem ++ ".txt".toList) ∧
      (pathOut p).toList = dir ++ (stem ++ "_out.txt".toList) ∧
      baseName (pathOut p).toList = stem ++ "_out.txt".toList := by
  obtain ⟨⟨-, stem, ext, base, -, txt⟩, -⟩ := admitted
  obtain ⟨dir, whole, ends, slash⟩ := exists_baseName p.toList
  rw [txt] at base
  rw [base] at whole slash
  have length : p.length - 4 = (dir ++ stem).length := by
    rw [← String.length_toList, whole]
    simp
    omega
  have out : (pathOut p).toList = dir ++ (stem ++ "_out.txt".toList) := by
    rw [pathOut, String.toList_append, String.toList_ofList, length, whole, ← append_assoc,
      take_left, append_assoc]
  refine ⟨dir, stem, whole, out, ?_⟩
  rw [out]
  refine baseName_append ?_ ends
  rw [mem_append, not_or] at slash ⊢
  exact ⟨slash.1, by decide⟩

/-- Output paths of different inputs differ, and none is an input. -/
theorem pathOut_apart {p : String} (admitted : Admitted p.toList) :
    (∀ q : String, Admitted q.toList → pathOut p = pathOut q → p = q) ∧
      (∀ leftover, validName leftover (baseName (pathOut p).toList) = false) ∧
      ∀ (q : String) (leftover : Bool), validName leftover (baseName q.toList) = true →
        pathOut p ≠ q := by
  obtain ⟨dir, stem, whole, out, base⟩ := pathOut_shape admitted
  have rejected : ∀ leftover, validName leftover (baseName (pathOut p).toList) = false := by
    intro leftover
    have has : contains (stem ++ "_out.txt".toList) "_out".toList = true :=
      contains_append stem "_out".toList ".txt".toList
    rw [base, validName, has, Bool.not_true, Bool.and_false]
  refine ⟨fun q other same => ?_, rejected, fun q leftover valid same => ?_⟩
  · obtain ⟨dir', stem', whole', out', -⟩ := pathOut_shape other
    have stems : dir' ++ stem' = dir ++ stem := by
      rw [same, out', ← append_assoc, ← append_assoc] at out
      exact append_cancel_right out
    refine String.toList_inj.mp ?_
    rw [whole, whole', ← append_assoc, ← append_assoc, stems]
  · rw [← same, rejected] at valid
    cases valid

theorem pathOut_apart_sendme :
    (∀ q : String, Admitted q.toList → pathOut "/h/sendme_a.txt" = pathOut q →
        "/h/sendme_a.txt" = q) ∧
      (∀ leftover, validName leftover (baseName (pathOut "/h/sendme_a.txt").toList) = false) ∧
      ∀ (q : String) (leftover : Bool), validName leftover (baseName q.toList) = true →
        pathOut "/h/sendme_a.txt" ≠ q := by
  have base : baseName "/h/sendme_a.txt".toList = "sendme_a.txt".toList := by decide
  refine pathOut_apart ⟨?_, ?_⟩
  · rw [base]
    exact ⟨by decide, "sendme_a".toList, "txt".toList, by decide, by decide, by decide⟩
  · rw [base]
    decide

end Elaborato.SystemCall
