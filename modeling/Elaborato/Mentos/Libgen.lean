import Mathlib.Data.List.Find
import Mathlib.Data.List.Induction
import Elaborato.Mentos.Initrd

/-!
`dirname` before a trailing slash: the source looks for the first slash, not the last.
-/
namespace Elaborato.Mentos.Initrd
open List

variable {p d f : Name} {c ch : UInt8}

theorem strrchr_concat (p : Name) (c ch : UInt8) :
    strrchr (p ++ [c]) ch = if c = ch then some p.length else strrchr p ch := by
  have inside : ∀ i ∈ (List.range p.length).reverse,
      ((p ++ [c])[i]? == some ch) = (p[i]? == some ch) := by
    intro i mem
    rw [mem_reverse, mem_range] at mem
    rw [getElem?_append_left mem]
  rw [strrchr, length_append, length_singleton, range_succ, reverse_append,
    reverse_singleton, singleton_append, find?_cons, getElem?_concat_length]
  by_cases same : c = ch
  · rw [if_pos same, same]
    simp
  · have other : (some c == some ch) = false := by simpa using same
    rw [if_neg same, other]
    exact find?_congr inside

theorem strrchr_absent (absent : ch ∉ p) : strrchr p ch = none := by
  induction p using List.reverseRecOn with
  | nil => rfl
  | append_singleton p c ih =>
    rw [mem_append, mem_singleton, not_or] at absent
    rw [strrchr_concat, if_neg (Ne.symm absent.2)]
    exact ih absent.1

theorem strrchr_last (absent : ch ∉ f) : strrchr (d ++ ch :: f) ch = some d.length := by
  induction f using List.reverseRecOn with
  | nil => rw [strrchr_concat, if_pos rfl]
  | append_singleton f c ih =>
    rw [mem_append, mem_singleton, not_or] at absent
    rw [← cons_append, ← append_assoc, strrchr_concat, if_neg (Ne.symm absent.2)]
    exact ih absent.1

theorem memchr_absent {n : Nat} (absent : ch ∉ p.take n) : memchr p ch n = none := by
  rw [memchr, find?_eq_none]
  intro i mem found
  rw [mem_range] at mem
  refine absent (mem_of_getElem? (i := i) ?_)
  rw [getElem?_take_of_lt mem]
  exact eq_of_beq found

theorem memchr_first {n : Nat} (absent : ch ∉ d) (inside : d.length < n) :
    memchr (d ++ ch :: f) ch n = some d.length := by
  rw [memchr, find?_range_eq_some]
  refine ⟨by simp, mem_range.mpr inside, fun i below => ?_⟩
  rw [getElem?_append_left below]
  have other : d[i]? ≠ some ch := fun same => absent (mem_of_getElem? same)
  simpa using other

theorem exists_last_slash (mem : ch ∈ p) : ∃ d f, p = d ++ ch :: f ∧ ch ∉ f := by
  obtain ⟨f, d, split, absent⟩ := eq_append_cons_of_mem (mem_reverse.mpr mem)
  refine ⟨d.reverse, f.reverse, ?_, by rwa [mem_reverse]⟩
  rw [← reverse_reverse p, split]
  simp

theorem dirname_plain (plain : slash ∉ p) : dirname p = dot := by
  rw [dirname, strrchr_absent plain]

theorem dirname_split (absent : slash ∉ f) (file : f ≠ []) :
    dirname (d ++ slash :: f) = if d = [] then [slash] else d := by
  have short : d.length + 1 ≠ (d ++ slash :: f).length := by
    have := length_pos_iff.mpr file
    rw [length_append, length_cons]
    omega
  rw [dirname, strrchr_last absent]
  by_cases top : d = []
  · rw [if_pos top, top]
    rfl
  · have inner : d.length ≠ 0 := fun zero => top (length_eq_zero_iff.mp zero)
    simp only [if_neg inner, if_neg short, if_neg top, take_left]

theorem dirname_trailing (nonempty : p ≠ []) : dirname (p ++ [slash]) =
    (memchr (p ++ [slash]) slash p.length).elim dot fun i => (p ++ [slash]).take i := by
  have inner : p.length ≠ 0 := fun zero => nonempty (length_eq_zero_iff.mp zero)
  have last : p.length + 1 = (p ++ [slash]).length := by simp
  rw [dirname, strrchr_last not_mem_nil]
  simp only [if_neg inner, if_pos last]
  cases memchr (p ++ [slash]) slash p.length with
  | none | some i => rfl

theorem dirname_trailing_plain (nonempty : p ≠ []) (plain : slash ∉ p) :
    dirname (p ++ [slash]) = dot := by
  rw [dirname_trailing nonempty, memchr_absent (by rwa [take_left])]
  rfl

theorem dirname_trailing_first (absent : slash ∉ d) : dirname (d ++ slash :: f ++ [slash]) = d := by
  have inside : d.length < (d ++ slash :: f).length := by simp
  have split : d ++ slash :: f ++ [slash] = d ++ slash :: (f ++ [slash]) := by simp
  rw [dirname_trailing (by simp), split, memchr_first absent inside]
  exact take_left

structure DirnameOf (p : Name) : Prop where
  plain : slash ∉ p → dirname p = dot
  top : ∀ f, p = slash :: f → slash ∉ f → dirname p = [slash]
  inner : ∀ d f, d ≠ [] → p = d ++ slash :: f → slash ∉ f → dirname p = d
  trailing : dirname (p ++ [slash]) = dirname p

def OneLevel (p : Name) : Prop :=
  slash ∉ p ∨ ∃ d f, d ≠ [] ∧ p = d ++ slash :: f ∧ slash ∉ d ∧ slash ∉ f

theorem file_of_unended (unended : p.getLast? ≠ some slash) (split : p = d ++ slash :: f) :
    f ≠ [] := by
  rintro rfl
  exact unended (by simp [split])

theorem dirname_trailing_iff (nonempty : p ≠ []) (unended : p.getLast? ≠ some slash) :
    dirname (p ++ [slash]) = dirname p ↔ OneLevel p := by
  constructor
  · intro same
    by_cases mem : slash ∈ p
    · obtain ⟨d, f, split, absent⟩ := exists_last_slash mem
      obtain ⟨d', f', split', absent'⟩ := eq_append_cons_of_mem mem
      have first : dirname (p ++ [slash]) = d' := by rw [split', dirname_trailing_first absent']
      have last := dirname_split (d := d) absent (file_of_unended unended split)
      rw [← split, ← same, first] at last
      by_cases top : d = []
      · rw [if_pos top] at last
        exact absurd (last ▸ mem_cons_self) absent'
      · rw [if_neg top] at last
        exact .inr ⟨d, f, top, split, last ▸ absent', absent⟩
    · exact .inl mem
  · rintro (plain | ⟨d, f, inner, split, absent', absent⟩)
    · rw [dirname_plain plain, dirname_trailing_plain nonempty plain]
    · have file := file_of_unended unended split
      rw [split, dirname_trailing_first absent', dirname_split absent file, if_neg inner]

theorem dirnameOf_iff (nonempty : p ≠ []) (unended : p.getLast? ≠ some slash) :
    DirnameOf p ↔ OneLevel p := by
  rw [← dirname_trailing_iff nonempty unended]
  refine ⟨DirnameOf.trailing, fun trailing => ⟨dirname_plain, ?_, ?_, trailing⟩⟩
  · intro f split absent
    have split' : p = [] ++ slash :: f := split
    rw [split', dirname_split absent (file_of_unended unended split'), if_pos rfl]
  · intro d f inner split absent
    rw [split, dirname_split absent (file_of_unended unended split), if_neg inner]

theorem dirnameOf_iff_oneLevel : DirnameOf [97, slash, 98] :=
  (dirnameOf_iff (by decide) (by decide)).mpr
    (.inr ⟨[97], [98], by decide, rfl, by decide, by decide⟩)

theorem dirname_trailing_wrong :
    dirname [97, slash, 98, slash, 99] = [97, slash, 98] ∧
    dirname [97, slash, 98, slash, 99, slash] = [97] ∧
    dirname [slash, 97] = [slash] ∧ dirname [slash, 97, slash] = [] := by
  decide

end Elaborato.Mentos.Initrd
