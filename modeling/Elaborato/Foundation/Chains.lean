import Mathlib.Data.List.Nodup
import Mathlib.Logic.Function.Basic

/-!
Chains of cells in a memory, and the data of their cells as an association list.
-/
namespace Foundation
open List

variable {E N D : Type*}

def Linked (data : N → D) (next : N → Option E) (m : E → Option N) :
    Option E → List (E × D) → Option E → Prop
  | x, [], y => x = y
  | x, (a, d) :: cells, y =>
    x = some a ∧ ∃ n, m a = some n ∧ data n = d ∧ Linked data next m (next n) cells y

variable {data : N → D} {next : N → Option E} {m m' : E → Option N} {x y z : Option E}
  {cells cells' : List (E × D)} {a : E} {d : D} {n : N}

theorem linked_append : Linked data next m x (cells ++ cells') z ↔
    ∃ y, Linked data next m x cells y ∧ Linked data next m y cells' z := by
  induction cells generalizing x with
  | nil => exact ⟨fun linked => ⟨x, rfl, linked⟩, fun ⟨_, same, linked⟩ => same ▸ linked⟩
  | cons cell cells ih =>
    constructor
    · rintro ⟨here, n, found, same, linked⟩
      obtain ⟨y, before, after⟩ := ih.mp linked
      exact ⟨y, ⟨here, n, found, same, before⟩, after⟩
    · rintro ⟨y, ⟨here, n, found, same, before⟩, after⟩
      exact ⟨here, n, found, same, ih.mpr ⟨y, before, after⟩⟩

theorem Linked.congr (linked : Linked data next m x cells y)
    (same : ∀ c ∈ cells, m' c.1 = m c.1) : Linked data next m' x cells y := by
  induction cells generalizing x with
  | nil => exact linked
  | cons cell cells ih =>
    obtain ⟨here, n, found, carried, linked⟩ := linked
    refine ⟨here, n, (same cell mem_cons_self).trans found, carried, ih linked ?_⟩
    exact fun c mem => same c (mem_cons_of_mem _ mem)

theorem Linked.cell (linked : Linked data next m x cells y) {c : E × D} (mem : c ∈ cells) :
    ∃ n, m c.1 = some n ∧ data n = c.2 := by
  induction cells generalizing x with
  | nil => exact absurd mem not_mem_nil
  | cons cell cells ih =>
    obtain ⟨here, n, found, carried, linked⟩ := linked
    rcases mem_cons.mp mem with rfl | mem
    · exact ⟨n, found, carried⟩
    · exact ih linked mem

theorem Linked.nil_iff (linked : Linked data next m x cells none) : x = none ↔ cells = [] := by
  cases cells with
  | nil => exact iff_of_true linked rfl
  | cons cell cells =>
    refine iff_of_false ?_ (cons_ne_nil _ _)
    rw [linked.1]
    exact Option.some_ne_none _

theorem Linked.relast (linked : Linked data next m x (cells ++ [(a, d)]) y)
    (same : ∀ c ∈ cells, m' c.1 = m c.1) (last : m' a = some n) (carried : data n = d) :
    Linked data next m' x (cells ++ [(a, d)]) (next n) := by
  obtain ⟨z, before, here, -⟩ := linked_append.mp linked
  exact linked_append.mpr ⟨z, before.congr same, here, n, last, carried, rfl⟩

variable {K W : Type*} [DecidableEq K] {k key : K} {w : W} {pairs pairs' : List (K × W)}

theorem lookup_none_iff : pairs.lookup key = none ↔ key ∉ pairs.map Prod.fst := by
  rw [lookup_eq_none_iff, mem_map]
  constructor
  · rintro none ⟨p, mem, rfl⟩
    simpa using none p mem
  · intro none p mem
    simpa using fun same => none ⟨p, mem, same.symm⟩

theorem lookup_between (first : key ∉ pairs.map Prod.fst) :
    (pairs ++ (key, w) :: pairs').lookup k =
      if k = key then some w else (pairs ++ pairs').lookup k := by
  rw [lookup_append, lookup_append, lookup_cons]
  by_cases same : k = key
  · subst same
    simp [lookup_none_iff.mpr first]
  · have other : (k == key) = false := beq_eq_false_iff_ne.mpr same
    simp [same, other]

end Foundation
