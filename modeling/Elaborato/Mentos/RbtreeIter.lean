import Elaborato.Foundation.Execution
import Elaborato.Mentos.RbtreeHeap

/-!
The iterators: a path has the nodes above its own, and is long enough below 2^32 nodes.
-/
namespace Elaborato.Mentos.Rbtree
open Foundation Foundation.ColorTree List

variable {P V : Type} [DecidableEq P] {m : Heap P V} {whole t : ColorTree P V}
  {ctx : List (TreeFrame P V)} {a : P} {d : Bool} {fuel : Nat}

omit [DecidableEq P] in
theorem leaf_of_root (none : t.root = none) : t = .leaf := by
  cases t with
  | leaf => rfl
  | node => cases none

omit [DecidableEq P] in
theorem height_pos_of_root (some : t.root = some a) : 0 < t.height := by
  cases t with
  | leaf => cases some
  | node => exact Nat.succ_pos _

omit [DecidableEq P] in
theorem holds_of_plug (holds : Holds m (plug ctx t)) : Holds m t := by
  induction ctx generalizing t with
  | nil => exact holds
  | cons f ctx ih => exact (holds_pair.mp (ih holds)).2.1

omit [DecidableEq P] in
theorem nodup_of_plug (nodup : (plug ctx t).labels.Nodup) : t.labels.Nodup := by
  induction ctx generalizing t with
  | nil => exact nodup
  | cons f ctx ih =>
    have inner := labels_pair_perm.nodup_iff.mp (ih nodup)
    exact (nodup_append.mp (nodup_cons.mp inner).2).1

def Visiting (whole : ColorTree P V) (d : Bool) (r : Option V × RbIter P) (rest : List V) : Prop :=
  r.1 = none ∧ rest = [] ∨
  ∃ ctx a c v kids, plug ctx (.node a c v kids) = whole ∧
    r = (some v, ⟨some a, ctx.map TreeFrame.label⟩) ∧
    rest = v :: along d (kids d) ++ ahead d ctx

omit [DecidableEq P] in
theorem node_of_plug {c : Bool} {v : V} {kids : Bool → ColorTree P V} (holds : Holds m whole)
    (here : plug ctx (.node a c v kids) = whole) :
    m a = ⟨c, fun b => (kids b).root, v⟩ := by
  subst here
  exact (holds_of_plug holds).1

omit [DecidableEq P] in
theorem iterDescend_visiting (holds : Holds m whole) (low : whole.height ≤ iterMaxHeight)
    (here : plug ctx t = whole) (root : t.root = some a) (enough : t.height ≤ fuel) :
    ∃ it, iterDescend m (!d) fuel a (ctx.map TreeFrame.label) = .ok it ∧
      Visiting whole d (iterResult m it) (along d t ++ ahead d ctx) := by
  induction t generalizing ctx a fuel with
  | leaf => cases root
  | node a c v kids ih =>
    cases root
    have node := node_of_plug holds here
    have link : (m a).link (!d) = (kids !d).root := congrFun (congrArg RbNode.link node) _
    have depth := height_plug ctx (.node a c v kids)
    have lower := height_kid a c v kids !d
    obtain ⟨fuel, rfl⟩ := Nat.exists_eq_add_one.mpr
      (Nat.lt_of_lt_of_le (Nat.zero_lt_of_lt lower) enough)
    rw [iterDescend, link, along_node]
    cases next : (kids !d).root with
    | none =>
      refine ⟨_, rfl, .inr ⟨ctx, a, c, v, kids, here, ?_, by simp [leaf_of_root next]⟩⟩
      simp [iterResult, node]
    | some b =>
      have positive := height_pos_of_root next
      have room : (ctx.map TreeFrame.label).length < iterMaxHeight := by
        rw [length_map]
        rw [here] at depth
        omega
      obtain ⟨it, done, visiting⟩ := ih (!d) ((plug_down ctx a c v kids !d).trans here) next
        (Nat.le_of_lt_succ (Nat.lt_of_lt_of_le lower enough))
      refine ⟨it, ?_, ?_⟩
      · simp only [pushPath, if_pos room, bind_ok]
        exact done
      · have turned : (!d) ≠ d := Bool.not_not_eq.mpr rfl
        rw [ahead_cons, if_neg turned, Bool.not_not] at visiting
        simpa using visiting

theorem iterClimb_visiting (holds : Holds m whole) (nodup : whole.labels.Nodup)
    (here : plug ctx t = whole) (root : t.root = some a) :
    Visiting whole d (iterResult m (iterClimb m d (ctx.map TreeFrame.label) a)) (ahead d ctx) := by
  induction ctx generalizing t a with
  | nil =>
    refine .inl ⟨rfl, ?_⟩
    cases d with
    | false | true => rfl
  | cons f ctx ih =>
    have place : plug ctx (f.node t) = whole := here
    have node : m f.label = ⟨f.red, fun b => (pair f.dir t f.sib b).root, f.value⟩ :=
      node_of_plug holds place
    have link : (m f.label).link d = (pair f.dir t f.sib d).root :=
      congrFun (congrArg RbNode.link node) d
    rw [map_cons, iterClimb, link, ahead_cons]
    by_cases same : f.dir = d
    · rw [if_pos same, same, pair_self, if_pos root]
      exact ih (t := f.node t) here rfl
    · have other : d = !f.dir := by cases d <;> cases dir : f.dir <;> simp_all
      have inner : (f.node t).labels.Nodup := by
        rw [← place] at nodup
        exact nodup_of_plug nodup
      have apart : f.sib.root ≠ some a := by
        intro sib
        have labels := (nodup_cons.mp (labels_pair_perm.nodup_iff.mp inner)).2
        exact (nodup_append.mp labels).2.2 a (root_mem root) a (root_mem sib) rfl
      rw [if_neg same, other, pair_not, if_neg apart]
      refine .inr ⟨ctx, f.label, f.red, f.value, pair f.dir t f.sib, here, ?_, ?_⟩
      · simp [iterResult, node]
      · rw [pair_not]

omit [DecidableEq P] in
theorem rbtreeIterStart_visiting {self : RbTree P} (holds : Holds m t) (root : self.root = t.root)
    (low : t.height ≤ iterMaxHeight) (enough : t.height ≤ fuel) :
    ∃ r, rbtreeIterStart m fuel self (!d) = .ok r ∧ Visiting t d r (along d t) := by
  rw [rbtreeIterStart, root]
  cases start : t.root with
  | none =>
    refine ⟨_, rfl, .inl ⟨rfl, ?_⟩⟩
    rw [leaf_of_root start, along_leaf]
  | some a =>
    have top : plug ([] : List (TreeFrame P V)) t = t := rfl
    obtain ⟨it, done, visiting⟩ := iterDescend_visiting (d := d) holds low top start enough
    refine ⟨_, congrArg (Except.map _) done, ?_⟩
    have nothing : ahead d ([] : List (TreeFrame P V)) = [] := by
      cases d with
      | false | true => rfl
    rwa [nothing, append_nil] at visiting

theorem rbtreeIterMove_visiting {v : V} {it : RbIter P} {rest : List V} (holds : Holds m whole)
    (nodup : whole.labels.Nodup) (low : whole.height ≤ iterMaxHeight)
    (enough : whole.height ≤ fuel) (visiting : Visiting whole d (some v, it) (v :: rest)) :
    ∃ r, rbtreeIterMove m fuel it d = .ok r ∧ Visiting whole d r rest := by
  rcases visiting with ⟨none, -⟩ | ⟨ctx, a, c, v', kids, here, same, values⟩
  · cases none
  · cases same
    obtain rfl : rest = along d (kids d) ++ ahead d ctx := (List.cons.inj values).2
    have node := node_of_plug holds here
    have link : (m a).link d = (kids d).root := congrFun (congrArg RbNode.link node) d
    rw [rbtreeIterMove]
    simp only [link]
    cases next : (kids d).root with
    | none =>
      refine ⟨_, rfl, ?_⟩
      rw [leaf_of_root next, along_leaf, nil_append]
      exact iterClimb_visiting holds nodup here rfl
    | some b =>
      have depth := height_plug ctx (.node a c v kids)
      have lower := height_kid a c v kids d
      have positive := height_pos_of_root next
      rw [here] at depth
      have room : (ctx.map TreeFrame.label).length < iterMaxHeight := by
        rw [length_map]
        omega
      have short : (kids d).height ≤ fuel := by omega
      obtain ⟨it, done, visiting⟩ := iterDescend_visiting (d := d) holds low
        ((plug_down ctx a c v kids d).trans here) next short
      refine ⟨iterResult m it, ?_, ?_⟩
      · simp only [pushPath, if_pos room, bind_ok]
        exact congrArg (Except.map _) done
      · rwa [ahead_cons, if_pos rfl, nil_append] at visiting

def visit (move : RbIter P → Except IterHalt (Option V × RbIter P)) :
    Nat → Option V × RbIter P → Except IterHalt (List V)
  | _, (none, _) => .ok []
  | 0, (some _, _) => .error .fuel
  | n + 1, (some v, it) => do
      let r ← move it
      let rest ← visit move n r
      .ok (v :: rest)

theorem visit_visiting {r : Option V × RbIter P} {rest : List V} {n : Nat} (holds : Holds m whole)
    (nodup : whole.labels.Nodup) (low : whole.height ≤ iterMaxHeight)
    (enough : whole.height ≤ fuel) (visiting : Visiting whole d r rest)
    (rounds : rest.length ≤ n) : visit (fun it => rbtreeIterMove m fuel it d) n r = .ok rest := by
  induction rest generalizing r n with
  | nil =>
    rcases visiting with ⟨none, -⟩ | ⟨ctx, a, c, v, kids, -, -, values⟩
    · obtain ⟨v, it⟩ := r
      cases none
      rw [visit]
    · cases values
  | cons v rest ih =>
    obtain ⟨n, rfl⟩ := Nat.exists_eq_add_one.mpr (Nat.zero_lt_of_lt rounds)
    have current : ∃ it, r = (some v, it) := by
      rcases visiting with ⟨-, values⟩ | ⟨ctx, a, c, v', kids, -, rfl, values⟩
      · cases values
      · exact ⟨_, by rw [(List.cons.inj values).1]⟩
    obtain ⟨it, rfl⟩ := current
    obtain ⟨r, moved, visiting⟩ := rbtreeIterMove_visiting holds nodup low enough visiting
    rw [visit, moved, bind_ok, ih visiting (Nat.le_of_succ_le_succ rounds)]
    rfl

variable {cmp : V → V → Int} {self : RbTree P} {n : Nat}

omit [DecidableEq P] in
theorem height_le_max (tree : IsRbTree cmp m self t) (few : t.labels.length < 2 ^ 32) :
    t.height ≤ iterMaxHeight := by
  obtain ⟨h, balanced⟩ := tree.balanced
  have blacks : h ≤ 32 := by
    refine (Nat.pow_le_pow_iff_right (a := 2) (by decide)).mp ?_
    have many := balanced.two_pow_le
    omega
  have high := balanced.height_le
  rw [tree.black, if_neg Bool.false_ne_true] at high
  rw [iterMaxHeight]
  omega

/-- All values in increasing order, and backwards; no path is overrun. -/
theorem iteration_ordered (tree : IsRbTree cmp m self t) (few : t.labels.length < 2 ^ 32)
    (enough : t.height ≤ fuel) (rounds : t.labels.length ≤ n) :
    (rbtreeIterFirst m fuel self >>= visit (rbtreeIterNext m fuel) n) = .ok t.toList ∧
    (rbtreeIterLast m fuel self >>= visit (rbtreeIterPrev m fuel) n) = .ok t.toList.reverse ∧
    Increasing cmp t.toList := by
  have low := height_le_max tree few
  rw [length_labels] at rounds
  refine ⟨?_, ?_, tree.increasing⟩
  · obtain ⟨r, started, visiting⟩ := rbtreeIterStart_visiting (d := true) tree.holds tree.root low
      enough
    have first : rbtreeIterFirst m fuel self = .ok r := started
    rw [first, bind_ok]
    exact visit_visiting tree.holds tree.distinct low enough visiting rounds
  · obtain ⟨r, started, visiting⟩ := rbtreeIterStart_visiting (d := false) tree.holds tree.root low
      enough
    have last : rbtreeIterLast m fuel self = .ok r := started
    rw [last, bind_ok]
    refine visit_visiting tree.holds tree.distinct low enough visiting ?_
    rw [length_reverse]
    exact rounds

theorem iteration_ordered_threeNodes :
    (rbtreeIterFirst threeHeap 2 ⟨some 0, 3⟩ >>= visit (rbtreeIterNext threeHeap 2) 3) =
      .ok [1, 2, 3] :=
  (iteration_ordered isRbTree_threeNodes (by decide) (by decide) (by decide)).1

end Elaborato.Mentos.Rbtree
