import Elaborato.Foundation.Execution
import Mathlib.Data.List.Sublists

/-!
Taking turns in a cyclic order while members join and leave; two that stay alternate.
-/
namespace Foundation
open List

variable {α : Type*}

def Before (x y : α) (l : List α) : Prop := [x, y].Sublist l

variable {x y h : α} {l l' rest : List α}

theorem Before.mono (before : Before x y l) (sub : l.Sublist l') : Before x y l' :=
  List.Sublist.trans before sub

theorem before_cons : Before x y (h :: rest) ↔ (x = h ∧ y ∈ rest) ∨ Before x y rest := by
  constructor
  · intro before
    cases before with
    | cons _ inner => exact .inr inner
    | cons_cons _ inner => exact .inl ⟨rfl, singleton_sublist.mp inner⟩
  · rintro (⟨rfl, later⟩ | before)
    · exact (singleton_sublist.mpr later).cons_cons x
    · exact before.cons h

theorem Before.right_mem (before : Before x y l) : y ∈ l := List.Sublist.subset before (by simp)

theorem before_concat (mem : x ∈ l) (y : α) : Before x y (l ++ [y]) :=
  List.Sublist.append (singleton_sublist.mpr mem) (List.Sublist.refl [y])

theorem before_of_concat {c : α} (before : Before x y (l ++ [c])) (other : y ≠ c) :
    Before x y l := by
  obtain ⟨l₁, l₂, whole, left, right⟩ := sublist_append_iff.mp before
  rcases sublist_singleton.mp right with rfl | rfl
  · rw [append_nil] at whole
    subst whole
    exact left
  · have last := congrArg List.getLast? whole
    rw [getLast?_concat] at last
    simp only [getLast?_cons_cons, getLast?_singleton, Option.some.injEq] at last
    exact absurd last other

def Turn (l l' : List α) (h : α) : Prop :=
  ∃ rest, l' = rest ++ [h] ∧ (h :: rest).Nodup ∧
    ∀ x y, x ∈ h :: rest → y ∈ h :: rest → Before x y l → Before x y (h :: rest)

theorem Turn.phase (turn : Turn l l' h) (hx : x ∈ l') (hy : y ∈ l') (before : Before x y l) :
    (h = x ∧ Before y x l') ∨ (h ≠ x ∧ h ≠ y ∧ Before x y l') := by
  obtain ⟨rest, rfl, nodup, kept⟩ := turn
  have stays : ∀ z, z ∈ rest ++ [h] → z ∈ h :: rest := by
    intro z hz
    simpa [or_comm] using hz
  obtain ⟨once, -⟩ := nodup_cons.mp nodup
  rcases before_cons.mp (kept x y (stays x hx) (stays y hy) before) with ⟨rfl, later⟩ | inner
  · exact .inl ⟨rfl, before_concat later x⟩
  · have first : x ∈ rest := List.Sublist.subset inner (by simp)
    have second : y ∈ rest := inner.right_mem
    exact .inr ⟨fun same => once (same ▸ first), fun same => once (same ▸ second),
      inner.mono (sublist_append_left rest [h])⟩

section Queue
variable [DecidableEq α]

def upcoming (order : List α) (c : α) : List α :=
  (order.dropWhile (· ≠ c)).tail ++ (order.takeWhile (· ≠ c) ++ [c])

variable {c new : α} {as bs order : List α}

theorem upcoming_split (out : c ∉ as) : upcoming (as ++ c :: bs) c = bs ++ (as ++ [c]) := by
  have all : ∀ a ∈ as, decide (a ≠ c) = true := by
    intro a ha
    exact decide_eq_true fun same => out (same ▸ ha)
  rw [upcoming, dropWhile_append_of_pos all, takeWhile_append_of_pos all]
  simp

variable (mem : c ∈ order) (nodup : order.Nodup)
include mem nodup

theorem queue_split :
    ∃ as bs, order = as ++ c :: bs ∧ c ∉ as ∧ upcoming order c = bs ++ (as ++ [c]) := by
  obtain ⟨as, bs, rfl⟩ := append_of_mem mem
  have out : c ∉ as := fun h => (nodup_append.mp nodup).2.2 c h c (by simp) rfl
  exact ⟨as, bs, rfl, out, upcoming_split out⟩

theorem upcoming_perm : (upcoming order c).Perm order := by
  obtain ⟨as, bs, rfl, out, upcoming_eq⟩ := queue_split mem nodup
  rw [upcoming_eq]
  have : (as ++ c :: bs) = (as ++ [c]) ++ bs := by simp
  rw [this]
  exact perm_append_comm

variable (next : upcoming order c = h :: rest)
include next

theorem upcoming_mem : h ∈ order := by
  refine (upcoming_perm mem nodup).subset ?_
  rw [next]
  exact mem_cons_self

theorem upcoming_ne {d : α} (hd : d ∈ order) (other : d ≠ c) : h ≠ c := by
  obtain ⟨as, bs, rfl, out, upcoming_eq⟩ := queue_split mem nodup
  rw [upcoming_eq] at next
  cases bs with
  | nil =>
    cases as with
    | nil => exact absurd (mem_singleton.mp hd) other
    | cons a as =>
      obtain ⟨rfl, -⟩ := List.cons.inj next
      exact fun same => out (same ▸ mem_cons_self)
  | cons b bs =>
    obtain ⟨rfl, -⟩ := List.cons.inj next
    obtain ⟨once, -⟩ := nodup_cons.mp (nodup_append.mp nodup).2.1
    exact fun same => once (same ▸ mem_cons_self)

omit next in
theorem before_current {u : α} (hu : u ∈ order) (other : u ≠ c) :
    Before u c (upcoming order c) := by
  obtain ⟨as, bs, rfl, -, upcoming_eq⟩ := queue_split mem nodup
  rw [upcoming_eq, ← append_assoc]
  refine before_concat ?_ c
  rcases mem_append.mp hu with h | h
  · exact mem_append_right _ h
  · exact mem_append_left _ ((mem_cons.mp h).resolve_left other)

theorem upcoming_next : upcoming order h = rest ++ [h] := by
  obtain ⟨as, bs, rfl, out, upcoming_eq⟩ := queue_split mem nodup
  rw [upcoming_eq] at next
  cases bs with
  | nil =>
    cases as with
    | nil =>
      obtain ⟨rfl, rfl⟩ : c = h ∧ [] = rest := by simpa using next
      exact upcoming_split not_mem_nil
    | cons a as =>
      obtain ⟨rfl, rfl⟩ : a = h ∧ as ++ [c] = rest := by simpa using next
      exact upcoming_split not_mem_nil
  | cons b bs =>
    obtain ⟨rfl, rfl⟩ : b = h ∧ bs ++ (as ++ [c]) = rest := by simpa using next
    have away : b ∉ as ++ [c] := by
      intro earlier
      rw [append_cons] at nodup
      exact (nodup_append.mp nodup).2.2 b earlier b (by simp) rfl
    rw [append_cons, upcoming_split away, ← append_assoc]

theorem turn_keep : Turn (upcoming order c) (upcoming order h) h := by
  refine ⟨rest, upcoming_next mem nodup next, ?_, fun x y _ _ before => next ▸ before⟩
  rw [← next]
  exact (upcoming_perm mem nodup).nodup_iff.mpr nodup

omit mem nodup in
omit next in
theorem turn_join (mem : c ∈ order) (nodup : (order ++ [new]).Nodup)
    (next : upcoming (order ++ [new]) c = h :: rest) :
    Turn (upcoming order c) (upcoming (order ++ [new]) h) h := by
  have mem' : c ∈ order ++ [new] := mem_append_left _ mem
  obtain ⟨rest', same, nodup', kept⟩ := turn_keep mem' nodup next
  refine ⟨rest', same, nodup', fun x y hx hy before => kept x y hx hy (before.mono ?_)⟩
  obtain ⟨as, bs, rfl, out, upcoming_eq⟩ := queue_split mem (nodup_append.mp nodup).1
  rw [upcoming_eq, append_assoc, cons_append, upcoming_split out]
  exact (sublist_append_left bs [new]).append (List.Sublist.refl _)

theorem turn_leave (other : h ≠ c) : Turn (upcoming order c) (upcoming (order.erase c) h) h := by
  obtain ⟨as, bs, rfl, out, upcoming_eq⟩ := queue_split mem nodup
  rw [upcoming_eq, ← append_assoc] at next ⊢
  rw [erase_append_right _ out, erase_cons_head]
  obtain ⟨nodupA, nodupB, apart⟩ := nodup_append.mp nodup
  obtain ⟨outB, nodupB⟩ := nodup_cons.mp nodupB
  have others : (bs ++ as).Nodup := nodup_append.mpr ⟨nodupB, nodupA,
    fun b hb a ha same => apart a ha b (by simp [hb]) same.symm⟩
  have notIn : c ∉ bs ++ as := by simp [out, outB]
  have left : ∀ x y, y ∈ bs ++ as → Before x y (bs ++ as ++ [c]) → Before x y (bs ++ as) :=
    fun x y hy before => before_of_concat before fun same => notIn (same ▸ hy)
  cases bs with
  | nil =>
    cases as with
    | nil =>
      obtain ⟨same, -⟩ : c = h ∧ rest = [] := by simpa using next
      exact absurd same.symm other
    | cons a as =>
      obtain ⟨rfl, -⟩ : a = h ∧ as ++ [c] = rest := by simpa using next
      refine ⟨as, ?_, by simpa using others, fun x y _ hy => left x y hy⟩
      rw [append_nil]
      exact upcoming_split not_mem_nil
  | cons b bs =>
    obtain ⟨rfl, -⟩ : b = h ∧ bs ++ as ++ [c] = rest := by simpa using next
    have away : b ∉ as := fun ha => apart b ha b (by simp) rfl
    refine ⟨bs ++ as, ?_, others, fun x y _ hy => left x y hy⟩
    rw [upcoming_split away, append_assoc]

end Queue

variable {S A : Type*} {step : S → A → S → Prop} {start s : S} {trace : List (S × A)} {curr : S → α}
  {line : S → List α} {Inv : S → Prop} {t u : α}

/-- Who is picked by the steps of a run. -/
def picks (curr : S → α) (trace : List (S × A)) (last : S) : List α :=
  (trace.map (fun e => curr e.1) ++ [curr last]).tail

theorem picks_next (curr : S → α) (trace : List (S × A)) (s s' : S) (a : A) :
    picks curr (trace ++ [(s, a)]) s' = picks curr trace s ++ [curr s'] := by
  cases trace <;> simp [picks]

variable [DecidableEq α]

variable (init : Inv start)
  (turns : ∀ s a s', Inv s → step s a s' → Inv s' ∧ Turn (line s) (line s') (curr s'))
  (run : Exec step start trace s)
include init turns run

variable (stayT : Always (t ∈ line ·) trace s) (stayU : Always (u ∈ line ·) trace s)
include stayT stayU

theorem picks_alternate (first : Before u t (line start)) (none : t ∉ picks curr trace s) : Inv s ∧
      (((picks curr trace s).count u = 0 ∧ Before u t (line s)) ∨
        ((picks curr trace s).count u = 1 ∧ Before t u (line s))) := by
  induction run with
  | refl => exact ⟨init, .inl ⟨by simp [picks], first⟩⟩
  | @next trace s s' a run hstep ih =>
    rw [picks_next] at none ⊢
    obtain ⟨none, notNow⟩ := not_or.mp (mem_append.not.mp none)
    have notT : curr s' ≠ t := fun same => notNow (by simp [same])
    obtain ⟨inv, phases⟩ := ih (always_before stayT) (always_before stayU) none
    obtain ⟨inv', turn⟩ := turns s a s' inv hstep
    refine ⟨inv', ?_⟩
    rw [count_append, count_singleton]
    rcases phases with ⟨count, order⟩ | ⟨count, order⟩
    · rcases turn.phase stayU.2 stayT.2 order with ⟨now, order'⟩ | ⟨notU, -, order'⟩
      · exact .inr ⟨by simp [count, now], order'⟩
      · exact .inl ⟨by simp [count, notU], order'⟩
    · rcases turn.phase stayT.2 stayU.2 order with ⟨now, -⟩ | ⟨-, notU, order'⟩
      · exact absurd now notT
      · exact .inr ⟨by simp [count, notU], order'⟩

theorem picks_between (other : u ≠ t) (first : Before u t (line start)) {between : List α}
    (picked : picks curr trace s = between ++ [t]) (none : t ∉ between) : between.count u = 1 := by
  cases run with
  | refl => simp [picks] at picked
  | next run hstep =>
    rw [picks_next] at picked
    obtain ⟨rfl, now⟩ := append_inj' picked rfl
    rw [singleton_inj] at now
    obtain ⟨inv, phases⟩ := picks_alternate init turns run (always_before stayT)
      (always_before stayU) first none
    obtain ⟨-, turn⟩ := turns _ _ _ inv hstep
    rcases phases with ⟨-, order⟩ | ⟨count, -⟩
    · rcases turn.phase stayU.2 stayT.2 order with ⟨same, -⟩ | ⟨-, notT, -⟩
      · exact absurd (same.symm.trans now) other
      · exact absurd now notT
    · exact count

end Foundation
