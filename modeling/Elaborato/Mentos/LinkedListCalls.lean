import Elaborato.Mentos.LinkedList

/-!
The functions on a well-formed list, which is a ring with NULL as one more node.
-/
namespace Elaborato.Mentos.LinkedList
open Foundation List Function

variable {P L V : Type} {s s' : Store P L V} {list list' : ListT P} {xs ys : List P} {p q r : P}
  {n : ListNode P V}

def linksOf (s : Store P L V) (list : ListT P) : Links (Option P) where
  prev p := p.elim list.tail fun p => prevOf s (some p)
  next p := p.elim list.head fun p => nextOf s (some p)

theorem prevOf_congr (same : s'.node p = s.node p) : prevOf s' (some p) = prevOf s (some p) :=
  congrArg (Option.bind · ListNode.prev) same

theorem nextOf_congr (same : s'.node p = s.node p) : nextOf s' (some p) = nextOf s (some p) :=
  congrArg (Option.bind · ListNode.next) same

structure Spine (s : Store P L V) (list : ListT P) (xs : List P) : Prop where
  ring : Ring (linksOf s list) none (xs.map some)
  nodup : xs.Nodup
  allocated : ∀ p ∈ xs, (s.node p).isSome
  size : list.size.toNat = xs.length

theorem map_some_headD (xs : List P) : (xs.map some).headD none = xs.head? := by
  cases xs with
  | nil | cons x xs => rfl

theorem none_not_mem (xs : List P) : none ∉ xs.map some := by simp

theorem map_some_nodup (nodup : xs.Nodup) : (xs.map some).Nodup :=
  nodup.map fun _ _ same => Option.some.inj same

section
variable (spine : Spine s list xs)
include spine

theorem Spine.head : list.head = xs.head? := spine.ring.2.trans (map_some_headD xs)

theorem Spine.tail : list.tail = xs.getLast? := by
  have last : list.tail = (xs.map some).reverse.headD none := (ring_swap spine.ring).2
  rw [last, ← map_reverse, map_some_headD, head?_reverse]

theorem Spine.hasNodes [DecidableEq P] : HasNodes s list xs := by
  have forward := walk_ring spine.ring (none_not_mem xs)
  have backward := walk_ring (ring_swap spine.ring) (by simp)
  rw [length_map] at forward
  rw [length_reverse, length_map, ← map_reverse] at backward
  have forth : ∀ x ≠ none, nextOf s x = (linksOf s list).next x := by
    rintro (_ | x) away
    · exact absurd rfl away
    · rfl
  have back : ∀ x ≠ none, prevOf s x = (linksOf s list).swap.next x := by
    rintro (_ | x) away
    · exact absurd rfl away
    · rfl
  refine ⟨spine.size.symm, spine.tail, ?_, ?_, spine.allocated⟩
  · rw [spine.size, walk_congr forth]
    exact forward
  · rw [spine.size, walk_congr back]
    exact backward

theorem Spine.congr (same : ∀ p ∈ xs, s'.node p = s.node p) : Spine s' list xs := by
  refine ⟨⟨trail_congr spine.ring.1 rfl ?_ ?_, spine.ring.2⟩, spine.nodup, fun p mem => ?_,
    spine.size⟩
  · intro x mem
    obtain ⟨p, inside, rfl⟩ := mem_map.mp mem
    exact prevOf_congr (same p inside)
  · intro x mem
    obtain ⟨p, inside, rfl⟩ := mem_map.mp mem
    exact nextOf_congr (same p inside)
  · rw [same p mem]
    exact spine.allocated p mem

end

theorem deref_of_node (here : s.node p = some n) : deref s (some p) = .ok (p, n) := by
  simp [deref, here]

section
variable (spine : Spine s list (xs ++ p :: ys))
include spine

theorem Spine.node : ∃ n, s.node p = some n ∧ n.prev = xs.getLast? ∧ n.next = ys.head? := by
  obtain ⟨n, here⟩ := Option.isSome_iff_exists.mp (spine.allocated p (by simp))
  have ring := spine.ring
  rw [map_append, map_cons] at ring
  have forth := trail_next ring.1
  have swapped := (ring_swap ring).1
  rw [reverse_append, reverse_cons, append_assoc, singleton_append] at swapped
  have back := trail_next swapped
  rw [map_some_headD] at forth
  rw [← map_reverse, map_some_headD, head?_reverse] at back
  refine ⟨n, here, ?_, ?_⟩
  · simpa [Links.swap, linksOf, prevOf, here] using back
  · simpa [linksOf, nextOf, here] using forth

omit spine in
theorem Spine.first (spine : Spine s list (p :: ys)) :
    ∃ n, s.node p = some n ∧ n.prev = none ∧ n.next = ys.head? := by
  have spine' : Spine s list ([] ++ p :: ys) := spine
  exact spine'.node

theorem Spine.neighbour (here : s.node p = some n) (side : n.prev = some q ∨ n.next = some q) :
    q ∈ xs ++ ys := by
  obtain ⟨n', here', prev, next⟩ := spine.node
  cases here.symm.trans here'
  rw [prev, next] at side
  exact mem_append.mpr (side.imp mem_of_getLast? mem_of_head?)

theorem Spine.other (mem : q ∈ xs ++ ys) : q ≠ p ∧ ∃ m, s.node q = some m := by
  have nodup := nodup_cons.mp (nodup_middle.mp spine.nodup)
  have inside := perm_middle.mem_iff.mpr (mem_cons_of_mem p mem)
  refine ⟨?_, Option.isSome_iff_exists.mp (spine.allocated q inside)⟩
  rintro rfl
  exact nodup.1 mem

end

variable [DecidableEq P] [DecidableEq L] {l : L}

structure Changed (s : Store P L V) (l : L) (xs : List P) (s' : Store P L V) (xs' : List P) :
    Prop where
  list : ∃ list', s'.list = update s.list l (some list') ∧ Spine s' list' xs'
  new : ∀ p ∈ xs', p ∈ xs ∨ s.node p = none
  lost : ∀ p ∈ xs, p ∉ xs' → ∀ n, s'.node p = some n → n.next = none
  others : ∀ p, p ∉ xs → p ∉ xs' → s'.node p = s.node p

def withPrev (s : Store P L V) (at? prev : Option P) : Store P L V :=
  { s with node := fun x => (s.node x).map fun m =>
      { m with prev := if at? = some x then prev else m.prev } }

def withNext (s : Store P L V) (at? next : Option P) : Store P L V :=
  { s with node := fun x => (s.node x).map fun m =>
      { m with next := if at? = some x then next else m.next } }

def relinked (s : Store P L V) (n : ListNode P V) : Store P L V :=
  withNext (withPrev s n.next n.prev) n.prev n.next

omit [DecidableEq L] in
theorem relinked_of_first (prev : n.prev = none) : relinked s n = withPrev s n.next none := by
  simp [relinked, prev, withNext]

attribute [local simp] withPrev setList freeNode setNode callocNode

omit [DecidableEq L] in
theorem relinked_of_last (next : n.next = none) : relinked s n = withNext s n.prev none := by
  simp [relinked, next]

section
omit [DecidableEq L]
variable {x : P} {at? v : Option P}

theorem withPrev_other (away : at? ≠ some x) : (withPrev s at? v).node x = s.node x := by
  cases here : s.node x with
  | none | some m => simp [here, away]

theorem withNext_other (away : at? ≠ some x) : (withNext s at? v).node x = s.node x := by
  cases here : s.node x with
  | none | some m => simp [withNext, here, away]

theorem relinked_other (notSide : ¬ (n.prev = some x ∨ n.next = some x)) :
    (relinked s n).node x = s.node x := by
  obtain ⟨notPrev, notNext⟩ := not_or.mp notSide
  exact (withNext_other notPrev).trans (withPrev_other notNext)

theorem prevOf_withNext : prevOf (withNext s at? v) = prevOf s := by
  funext x
  cases x with
  | none => rfl
  | some x =>
    cases here : s.node x with
    | none | some m => simp [prevOf, withNext, here]

theorem nextOf_withPrev : nextOf (withPrev s at? v) = nextOf s := by
  funext x
  cases x with
  | none => rfl
  | some x =>
    cases here : s.node x with
    | none | some m => simp [nextOf, here]

end

structure Unlinked (s : Store P L V) (list : ListT P) (p : P) (n : ListNode P V)
    (s' : Store P L V) (list' : ListT P) : Prop where
  head : list'.head = if n.prev = none then n.next else list.head
  tail : list'.tail = if n.next = none then n.prev else list.tail
  size : list'.size = list.size - 1
  nodes : ∀ x ≠ p, s'.node x = (relinked s n).node x
  gone : ∀ k, s'.node p = some k → k.next = none

section
variable (unlinked : Unlinked s list p n s' list') (spine : Spine s list (xs ++ p :: ys))
  (here : s.node p = some n)
include unlinked spine here

omit [DecidableEq L] in
theorem Unlinked.removed : Removed (linksOf s list) (linksOf s' list') (some p) := by
  have forth : (linksOf s list).next (some p) = n.next := by simp [linksOf, nextOf, here]
  have back : (linksOf s list).prev (some p) = n.prev := by simp [linksOf, prevOf, here]
  constructor
  · rw [forth, back]
    cases isNext : n.next with
    | none => simp [linksOf, unlinked.tail, isNext]
    | some x =>
      obtain ⟨other, m, there⟩ := spine.other (spine.neighbour here (.inr isNext))
      simp [linksOf, prevOf, unlinked.nodes x other, there, relinked, withNext, isNext]
  · rw [forth, back]
    cases isPrev : n.prev with
    | none => simp [linksOf, unlinked.head, isPrev]
    | some x =>
      obtain ⟨other, m, there⟩ := spine.other (spine.neighbour here (.inl isPrev))
      simp [linksOf, nextOf, unlinked.nodes x other, there, relinked, withNext, isPrev]
  · rw [forth]
    rintro (_ | x) notNext notNode
    · simp [linksOf, unlinked.tail, Ne.symm notNext]
    · have other : x ≠ p := fun same => notNode (same ▸ rfl)
      calc prevOf s' (some x) = prevOf (relinked s n) (some x) :=
            prevOf_congr (unlinked.nodes x other)
        _ = prevOf (withPrev s n.next n.prev) (some x) := congrFun prevOf_withNext _
        _ = prevOf s (some x) := prevOf_congr (withPrev_other (Ne.symm notNext))
  · rw [back]
    rintro (_ | x) notPrev notNode
    · simp [linksOf, unlinked.head, Ne.symm notPrev]
    · have other : x ≠ p := fun same => notNode (same ▸ rfl)
      calc nextOf s' (some x) = nextOf (relinked s n) (some x) :=
            nextOf_congr (unlinked.nodes x other)
        _ = nextOf (withPrev s n.next n.prev) (some x) :=
            nextOf_congr (withNext_other (Ne.symm notPrev))
        _ = nextOf s (some x) := congrFun nextOf_withPrev _

theorem Unlinked.changed (lists : s'.list = update s.list l (some list')) :
    Changed s l (xs ++ p :: ys) s' (xs ++ ys) := by
  have ring := spine.ring
  have nodup := nodup_middle.mp spine.nodup
  have out := none_not_mem (xs ++ p :: ys)
  have before := spine.size
  rw [map_append, map_cons] at ring out
  rw [length_append, length_cons] at before
  have inside : ∀ x ∈ xs ++ ys, x ∈ xs ++ p :: ys := fun x mem =>
    perm_middle.mem_iff.mpr (mem_cons_of_mem p mem)
  have one : (1 : UInt32) ≤ list.size := by
    rw [UInt32.le_iff_toNat_le, before]
    exact Nat.le_add_left 1 _
  have others : ∀ x ∉ xs ++ p :: ys, s'.node x = s.node x := by
    intro x outside
    have other : x ≠ p := by
      rintro rfl
      exact outside (by simp)
    rw [unlinked.nodes x other]
    exact relinked_other fun side => outside (inside x (spine.neighbour here side))
  refine ⟨⟨list', lists, ?_, (nodup_cons.mp nodup).2, fun x mem => ?_, ?_⟩,
    fun x mem => .inl (inside x mem), fun x mem gone => ?_, fun x outside _ => others x outside⟩
  · rw [map_append]
    refine ring_removed (unlinked.removed spine here) ring ?_ out
    rw [← map_cons, ← map_append]
    exact map_some_nodup spine.nodup
  · rw [unlinked.nodes x (spine.other mem).1]
    simpa [relinked, withNext] using spine.allocated x (inside x mem)
  · rw [unlinked.size, UInt32.toNat_sub_of_le _ _ one, before, length_append]
    rfl
  · rcases mem_cons.mp (perm_middle.mem_iff.mp mem) with rfl | mem
    · exact unlinked.gone
    · exact absurd mem gone

end

omit [DecidableEq L] in
theorem setPrevIf_ok (s : Store P L V) (at? prev : Option P)
    (there : ∀ x, at? = some x → ∃ m, s.node x = some m) :
    setPrevIf s at? prev = .ok (withPrev s at? prev) := by
  cases at? with
  | none => simp [setPrevIf]
  | some y =>
    obtain ⟨m, here⟩ := there y rfl
    rw [setPrevIf, deref_of_node here, bind_ok]
    refine congrArg (fun node => Except.ok (Store.mk node s.list)) (funext fun x => ?_)
    by_cases isY : x = y
    · simp [isY, here]
    · simp [isY, Ne.symm isY]

omit [DecidableEq L] in
theorem setNextIf_ok (s : Store P L V) (at? next : Option P)
    (there : ∀ x, at? = some x → ∃ m, s.node x = some m) :
    setNextIf s at? next = .ok (withNext s at? next) := by
  cases at? with
  | none => simp [setNextIf, withNext]
  | some y =>
    obtain ⟨m, here⟩ := there y rfl
    rw [setNextIf, deref_of_node here, bind_ok]
    refine congrArg (fun node => Except.ok (Store.mk node s.list)) (funext fun x => ?_)
    by_cases isY : x = y
    · simp [isY, here]
    · simp [isY, Ne.symm isY]

theorem listRemoveFront_changed (found : s.list l = some list)
    (spine : Spine s list (p :: q :: ys)) :
    ∃ v s', listRemoveFront s l = .ok (v, s') ∧ Changed s l (p :: q :: ys) s' (q :: ys) := by
  have spine' : Spine s list ([] ++ p :: q :: ys) := spine
  obtain ⟨n, here, prev, next⟩ := spine'.node
  have head : list.head = some p := spine.head
  have linked := setPrevIf_ok s n.next none fun x isNext =>
    (spine'.other (spine'.neighbour here (.inr isNext))).2
  rw [← relinked_of_first prev] at linked
  have called : listRemoveFront s l = .ok (n.value, setList (freeNode (relinked s n) p) l
      { list with head := n.next, size := list.size - 1 }) := by
    rw [listRemoveFront, getList, found, bind_ok]
    simp only [head, deref_of_node here, bind_ok, linked]
  refine ⟨_, _, called, ?_⟩
  change Changed s l ([] ++ p :: q :: ys) _ ([] ++ q :: ys)
  refine Unlinked.changed ⟨?_, ?_, rfl, fun x other => ?_, ?_⟩ spine' here rfl
  · simp [prev]
  · simp [next]
  · simp [other]
  · simp

omit [DecidableEq L] in
theorem Spine.back (spine : Spine s list ((xs ++ [q]) ++ [p])) :
    ∃ n h, s.node p = some n ∧ n.prev = some q ∧ n.next = none ∧ list.tail = some p ∧
      list.head = some h ∧ setNextIf s n.prev none = .ok (relinked s n) := by
  obtain ⟨n, here, prev, next⟩ := spine.node
  have linked := setNextIf_ok s n.prev none fun x isPrev =>
    (spine.other (spine.neighbour here (.inl isPrev))).2
  rw [← relinked_of_last next] at linked
  obtain ⟨h, head⟩ : ∃ h, list.head = some h := by
    rw [spine.head]
    cases xs with
    | nil => exact ⟨q, rfl⟩
    | cons x xs => exact ⟨x, rfl⟩
  exact ⟨n, h, here, by simpa using prev, next, by simp [spine.tail], head, linked⟩

section
variable (found : s.list l = some list) (spine : Spine s list ((xs ++ [q]) ++ [p]))
include found spine

theorem listRemoveBack_changed :
    ∃ v s', listRemoveBack s l = .ok (v, s') ∧
      Changed s l ((xs ++ [q]) ++ [p]) s' ((xs ++ [q]) ++ []) := by
  obtain ⟨n, h, here, prev, next, tail, head, linked⟩ := spine.back
  have called : listRemoveBack s l = .ok (n.value, setList (freeNode (relinked s n) p) l
      { list with tail := n.prev, size := list.size - 1 }) := by
    rw [listRemoveBack, getList, found, bind_ok]
    simp only [head, tail, deref_of_node here, bind_ok, linked]
  refine ⟨_, _, called, Unlinked.changed ⟨?_, ?_, rfl, fun x other => ?_, ?_⟩ spine here rfl⟩
  · simp [prev]
  · simp [next]
  · simp [other]
  · simp

theorem listPopBack_changed :
    ∃ r s', listPopBack s l = .ok (r, s') ∧
      Changed s l ((xs ++ [q]) ++ [p]) s' ((xs ++ [q]) ++ []) := by
  obtain ⟨n, h, here, prev, next, tail, head, linked⟩ := spine.back
  have called : listPopBack s l = .ok (some p, setList (relinked s n) l
      { list with tail := n.prev, size := list.size - 1 }) := by
    rw [listPopBack, getList, found, bind_ok]
    simp only [head, tail, deref_of_node here, bind_ok, linked]
  refine ⟨_, _, called, Unlinked.changed ⟨?_, ?_, rfl, fun x other => ?_, ?_⟩ spine here rfl⟩
  · simp [prev]
  · simp [next]
  · rfl
  · simp [relinked, withNext, here, next]

end

omit [DecidableEq P] [DecidableEq L] in
theorem Spine.head_ne (spine : Spine s list ((xs ++ [r]) ++ p :: ys)) : list.head ≠ some p := by
  have head := spine.head
  intro same
  cases xs with
  | nil =>
    obtain rfl : r = p := Option.some.inj (head.symm.trans same)
    exact (spine.other (by simp)).1 rfl
  | cons x xs =>
    obtain rfl : x = p := Option.some.inj (head.symm.trans same)
    exact (spine.other (by simp)).1 rfl

omit [DecidableEq P] [DecidableEq L] in
theorem Spine.tail_ne (spine : Spine s list (xs ++ p :: q :: ys)) : list.tail ≠ some p := by
  have tail := spine.tail
  rw [getLast?_append_of_ne_nil _ (by simp), getLast?_cons_cons] at tail
  intro same
  have mem := mem_of_getLast? (tail.symm.trans same)
  exact (spine.other (mem_append_right xs mem)).1 rfl

theorem listRemoveNode_between {list₂ : ListT P} (found : s.list l = some list₂)
    (notHead : list₂.head ≠ some p) (notTail : list₂.tail ≠ some p)
    (spine : Spine s list ((xs ++ [r]) ++ p :: q :: ys)) (here : s.node p = some n) :
    listRemoveNode s l p = .ok (n.value, freeNode (setList (relinked s n) l
      { list₂ with size := list₂.size - 1 }) p) := by
  obtain ⟨n', here', prev, next⟩ := spine.node
  cases here.symm.trans here'
  rw [getLast?_concat] at prev
  rw [head?_cons] at next
  obtain ⟨-, m, there⟩ := spine.other (spine.neighbour here (.inr next))
  obtain ⟨-, k, there'⟩ := spine.other (spine.neighbour here (.inl prev))
  have first : setNode s q { m with prev := some r } = withPrev s (some q) (some r) := by
    have linked := setPrevIf_ok s (some q) (some r)
      (by rintro x ⟨⟩; exact ⟨m, there⟩)
    rw [setPrevIf, deref_of_node there] at linked
    exact Except.ok.inj linked
  obtain ⟨k', there''⟩ : ∃ k', (withPrev s (some q) (some r)).node r = some k' :=
    ⟨_, congrArg (Option.map _) there'⟩
  have second : setNode (withPrev s (some q) (some r)) r { k' with next := some q } =
      relinked s n := by
    have linked := setNextIf_ok (withPrev s (some q) (some r)) (some r) (some q)
      (by rintro x ⟨⟩; exact ⟨k', there''⟩)
    rw [setNextIf, deref_of_node there''] at linked
    rw [relinked, prev, next]
    exact Except.ok.inj linked
  rw [listRemoveNode, getList, found, bind_ok, if_neg notHead, if_neg notTail, deref_of_node here]
  simp only [bind_ok, next, prev, deref_of_node there, first, deref_of_node there'', second]

theorem listRemoveNode_changed (found : s.list l = some list)
    (spine : Spine s list ((xs ++ [r]) ++ p :: q :: ys)) :
    ∃ v s', listRemoveNode s l p = .ok (v, s') ∧
      Changed s l ((xs ++ [r]) ++ p :: q :: ys) s' ((xs ++ [r]) ++ q :: ys) := by
  obtain ⟨n, here, prev, next⟩ := spine.node
  have called := listRemoveNode_between found spine.head_ne spine.tail_ne spine here
  refine ⟨_, _, called, Unlinked.changed ⟨?_, ?_, rfl, fun x other => ?_, ?_⟩ spine here rfl⟩
  · simp [prev]
  · simp [next]
  · simp [other]
  · simp

theorem listRemoveNode_member (found : s.list l = some list) (spine : Spine s list (xs ++ p :: ys))
    (several : xs ++ ys ≠ []) :
    ∃ v s', listRemoveNode s l p = .ok (v, s') ∧ Changed s l (xs ++ p :: ys) s' (xs ++ ys) := by
  rcases eq_nil_or_concat' xs with rfl | ⟨zs, r, rfl⟩
  · cases ys with
    | nil => exact absurd rfl several
    | cons q ys =>
      have head : list.head = some p := spine.head
      rw [listRemoveNode, getList, found, bind_ok, if_pos head]
      exact listRemoveFront_changed found spine
  · cases ys with
    | nil =>
      rw [listRemoveNode, getList, found, bind_ok, if_neg spine.head_ne,
        if_pos (by simp [spine.tail])]
      exact listRemoveBack_changed found spine
    | cons q ys => exact listRemoveNode_changed found spine

omit [DecidableEq P] [DecidableEq L] in
theorem Spine.fresh_ne (spine : Spine s list xs) (fresh : s.node p = none) : p ∉ xs := by
  intro mem
  simpa [fresh] using spine.allocated p mem

omit [DecidableEq P] [DecidableEq L] in
theorem Spine.head_none_iff (spine : Spine s list xs) : list.head = none ↔ list.tail = none := by
  rw [spine.head, spine.tail, head?_eq_none_iff, getLast?_eq_none_iff]

/-- The new last node and the links to it. -/
structure Appended (s : Store P L V) (list : ListT P) (p : P) (v : V) (s' : Store P L V)
    (list' : ListT P) : Prop where
  head : list'.head = if list.head.isNone then some p else list.head
  tail : list'.tail = some p
  size : list'.size = list.size + 1
  new : s'.node p = some ⟨some v, list.tail, none⟩
  nodes : ∀ x ≠ p, s'.node x = (withNext s list.tail (some p)).node x

omit [DecidableEq L] in
theorem Appended.inserted {v : V} (appended : Appended s list p v s' list')
    (spine : Spine s list xs) (fresh : s.node p = none) :
    Inserted (linksOf s list) (linksOf s' list') (some p) none := by
  constructor
  · exact appended.tail
  · simp [linksOf, prevOf, appended.new]
  · simp [linksOf, nextOf, appended.new]
  · change (linksOf s' list').next list.tail = some p
    cases last : list.tail with
    | none => simp [linksOf, appended.head, spine.head_none_iff.mpr last]
    | some t =>
      have mem : t ∈ xs := mem_of_getLast? (spine.tail.symm.trans last)
      have other : t ≠ p := fun same => spine.fresh_ne fresh (same ▸ mem)
      obtain ⟨m, here⟩ := Option.isSome_iff_exists.mp (spine.allocated t mem)
      simp [linksOf, nextOf, appended.nodes t other, withNext, here, last]
  · rintro (_ | x) notEnd notNew
    · exact absurd rfl notEnd
    · have other : x ≠ p := fun same => notNew (same ▸ rfl)
      exact (prevOf_congr (appended.nodes x other)).trans (congrFun prevOf_withNext _)
  · change ∀ x, x ≠ list.tail → _
    rintro (_ | x) notLast notNew
    · have inhabited : list.head ≠ none := fun none => notLast (spine.head_none_iff.mp none).symm
      simp [linksOf, appended.head, inhabited]
    · have other : x ≠ p := fun same => notNew (same ▸ rfl)
      exact nextOf_congr ((appended.nodes x other).trans (withNext_other (Ne.symm notLast)))

structure Prepended (s : Store P L V) (list : ListT P) (p : P) (v : V) (s' : Store P L V)
    (list' : ListT P) : Prop where
  head : list'.head = some p
  tail : list'.tail = list.tail
  size : list'.size = list.size + 1
  new : s'.node p = some ⟨some v, none, list.head⟩
  nodes : ∀ x ≠ p, s'.node x = (withPrev s list.head (some p)).node x

omit [DecidableEq L] in
theorem Prepended.inserted {v : V} (prepended : Prepended s list p v s' list')
    (spine : Spine s list (q :: xs)) (fresh : s.node p = none) :
    Inserted (linksOf s list).swap (linksOf s' list').swap (some p) none := by
  have first : list.head = some q := spine.head
  constructor
  · exact prepended.head
  · simp [Links.swap, linksOf, nextOf, prepended.new]
  · simp [Links.swap, linksOf, prevOf, prepended.new]
  · change (linksOf s' list').prev list.head = some p
    have other : q ≠ p := fun same => spine.fresh_ne fresh (same ▸ mem_cons_self)
    obtain ⟨m, here⟩ := Option.isSome_iff_exists.mp (spine.allocated q mem_cons_self)
    simp [linksOf, prevOf, prepended.nodes q other, here, first]
  · rintro (_ | x) notEnd notNew
    · exact absurd rfl notEnd
    · have other : x ≠ p := fun same => notNew (same ▸ rfl)
      exact (nextOf_congr (prepended.nodes x other)).trans (congrFun nextOf_withPrev _)
  · change ∀ x, x ≠ list.head → _
    rintro (_ | x) notFirst notNew
    · exact prepended.tail
    · have other : x ≠ p := fun same => notNew (same ▸ rfl)
      exact prevOf_congr ((prepended.nodes x other).trans (withPrev_other (Ne.symm notFirst)))

omit [DecidableEq P] in
theorem changed_insert {xs' : List P} (spine : Spine s list xs) (fresh : s.node p = none)
    (ring : Ring (linksOf s' list') none (xs'.map some)) (perm : xs'.Perm (p :: xs))
    (size : list'.size = list.size + 1) (room : xs.length + 1 < 2 ^ 32)
    (new : (s'.node p).isSome) (kept : ∀ x ≠ p, (s'.node x).isSome = (s.node x).isSome)
    (others : ∀ x ≠ p, x ∉ xs → s'.node x = s.node x)
    (lists : s'.list = update s.list l (some list')) : Changed s l xs s' xs' := by
  have absent := spine.fresh_ne fresh
  refine ⟨⟨list', lists, ring, ?_, fun x mem => ?_, ?_⟩, fun x mem => ?_, fun x mem out => ?_,
    fun x out out' => ?_⟩
  · exact perm.nodup_iff.mpr (nodup_cons.mpr ⟨absent, spine.nodup⟩)
  · rcases mem_cons.mp (perm.mem_iff.mp mem) with rfl | mem
    · exact new
    · rw [kept x fun same => absent (same ▸ mem)]
      exact spine.allocated x mem
  · rw [size, UInt32.toNat_add, spine.size, perm.length_eq, length_cons]
    exact Nat.mod_eq_of_lt room
  · rcases mem_cons.mp (perm.mem_iff.mp mem) with rfl | mem
    · exact .inr fresh
    · exact .inl mem
  · exact absurd (perm.mem_iff.mpr (mem_cons_of_mem p mem)) out
  · refine others x ?_ out
    rintro rfl
    exact out' (perm.mem_iff.mpr mem_cons_self)

theorem Appended.changed {v : V} (appended : Appended s list p v s' list')
    (spine : Spine s list xs) (fresh : s.node p = none) (room : xs.length + 1 < 2 ^ 32)
    (lists : s'.list = update s.list l (some list')) : Changed s l xs s' (xs ++ [p]) := by
  have ring := ring_inserted (appended.inserted spine fresh) spine.ring
    (map_some_nodup spine.nodup) (none_not_mem xs) (by simpa using spine.fresh_ne fresh)
    (Option.some_ne_none p)
  rw [← map_singleton, ← map_append] at ring
  refine changed_insert spine fresh ring perm_append_comm appended.size room
    (by simp [appended.new]) (fun x other => ?_) (fun x other out => ?_) lists
  · simp [appended.nodes x other, withNext]
  · have notLast : list.tail ≠ some x := fun last =>
      out (mem_of_getLast? (spine.tail.symm.trans last))
    exact (appended.nodes x other).trans (withNext_other notLast)

theorem Prepended.changed {v : V} (prepended : Prepended s list p v s' list')
    (spine : Spine s list (q :: xs)) (fresh : s.node p = none)
    (room : (q :: xs).length + 1 < 2 ^ 32)
    (lists : s'.list = update s.list l (some list')) :
    Changed s l (q :: xs) s' (p :: q :: xs) := by
  have nodup : ((q :: xs).map some).reverse.Nodup := nodup_reverse.mpr (map_some_nodup spine.nodup)
  have ring := ring_swap (ring_inserted (prepended.inserted spine fresh) (ring_swap spine.ring)
    nodup (by simp) (by simpa [and_comm] using spine.fresh_ne fresh) (Option.some_ne_none p))
  rw [reverse_append, reverse_reverse] at ring
  refine changed_insert (p := p) spine fresh ring (List.Perm.refl _) prepended.size room
    (by simp [prepended.new]) (fun x other => ?_) (fun x other out => ?_) lists
  · simp [prepended.nodes x other]
  · have notFirst : list.head ≠ some x := fun first =>
      out (mem_of_head? (spine.head.symm.trans first))
    exact (prepended.nodes x other).trans (withPrev_other notFirst)

omit [DecidableEq L] in
theorem callocNode_node (s : Store P L V) (p : P) :
    (callocNode s (some p)).node p = some ⟨none, none, none⟩ :=
  update_self ..

theorem listInsertBack_appended (v : V) (found : s.list l = some list) (spine : Spine s list xs)
    (fresh : s.node p = none) :
    ∃ s' list', listInsertBack s l (some p) v = .ok (p, s') ∧ Appended s list p v s' list' ∧
      s'.list = update s.list l (some list') := by
  have notLast : list.tail ≠ some p := fun last =>
    spine.fresh_ne fresh (mem_of_getLast? (spine.tail.symm.trans last))
  obtain ⟨s₁, made⟩ : ∃ s₁, s₁ = setNode (callocNode s (some p)) p ⟨none, list.tail, none⟩ :=
    ⟨_, rfl⟩
  have other : ∀ x ≠ p, s₁.node x = s.node x := fun x other => by
    simp [made, other]
  have linked : setNextIf s₁ list.tail (some p) = .ok (withNext s₁ list.tail (some p)) := by
    refine setNextIf_ok s₁ list.tail (some p) fun x last => ?_
    rw [other x fun same => notLast (same ▸ last)]
    exact Option.isSome_iff_exists.mp
      (spine.allocated x (mem_of_getLast? (spine.tail.symm.trans last)))
  have new : (withNext s₁ list.tail (some p)).node p = some ⟨none, list.tail, none⟩ := by
    simp [made, withNext, notLast]
  have called : listInsertBack s l (some p) v = .ok (p,
      setList (setNode (withNext s₁ list.tail (some p)) p ⟨some v, list.tail, none⟩) l
        { head := if list.head.isNone then some p else list.head, tail := some p,
          size := list.size + 1 }) := by
    simp only [listInsertBack, getList, found, bind_ok, deref_of_node (callocNode_node s p),
      ← made, linked, deref_of_node new]
  refine ⟨_, ⟨_, _, _⟩, called, ⟨rfl, rfl, rfl, by simp, fun x isOther => ?_⟩, by rw [made]; rfl⟩
  simp [isOther, withNext, other x isOther]

theorem listInsertFront_prepended (v : V) (found : s.list l = some list)
    (spine : Spine s list (q :: xs)) (fresh : s.node p = none) :
    ∃ s' list', listInsertFront s l (some p) v = .ok (p, s') ∧ Prepended s list p v s' list' ∧
      s'.list = update s.list l (some list') := by
  have first : list.head = some q := spine.head
  have other : q ≠ p := fun same => spine.fresh_ne fresh (same ▸ mem_cons_self)
  obtain ⟨m, here⟩ := Option.isSome_iff_exists.mp (spine.allocated q mem_cons_self)
  have called : listInsertFront s l (some p) v = .ok (p,
      setList (setNode (setNode (callocNode s (some p)) q { m with prev := some p }) p
        ⟨some v, none, some q⟩) l
        { head := some p, tail := list.tail, size := list.size + 1 }) := by
    simp [listInsertFront, getList, found, first, deref, other, here, Ne.symm other]
  refine ⟨_, ⟨_, _, _⟩, called, ⟨rfl, rfl, rfl, by simp [first], fun x isOther => ?_⟩, rfl⟩
  by_cases isFirst : x = q
  · simp [isFirst, other, first, here]
  · rw [withPrev_other (by rw [first]; simpa using Ne.symm isFirst)]
    simp [isOther, isFirst]

end Elaborato.Mentos.LinkedList
