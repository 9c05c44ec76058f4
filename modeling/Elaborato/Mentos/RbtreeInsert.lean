import Elaborato.Mentos.RbtreeHeap

/-!
Insertion: the loop keeps the tree red-black at every turn.
-/
namespace Elaborato.Mentos.Rbtree
open Foundation Foundation.ColorTree List Function

variable {P V : Type} {S : Search P V} {node a : P} {m m' : Heap P V} {c : Bool} {u : V}
  {s : Insert P V} {ctx rest : List (TreeFrame P V)} {t q : ColorTree P V}
  {kids : Bool → ColorTree P V} {h n : Nat} {f g : TreeFrame P V}

structure Spot (S : Search P V) (node : P) (m : Heap P V) (ctx : List (TreeFrame P V))
    (t : ColorTree P V) (h : Nat) : Prop where
  lies : LiesAt m S.head ctx t
  balanced : RedBlack t h
  fills : Fills ctx h t.isRed
  between : Between (fun x => S.cmp x S.value < 0) (fun x => 0 < S.cmp x S.value) ctx
  list : (plug ctx t).toList = S.values
  fresh : node ∉ t.labels ++ placeLabels S.head ctx
  new : m node = ⟨true, fun _ => none, S.value⟩

structure Inserted (S : Search P V) (m : Heap P V) (t : ColorTree P V) : Prop where
  lies : LiesAt m S.head [] t
  balanced : ∃ h, RedBlack t h
  some : t.root ≠ none
  list : (∃ u ∈ S.values, S.cmp u S.value = 0) ∧ t.toList = S.values ∨
    ∃ l r, S.values = l ++ r ∧ (∀ x ∈ l, S.cmp x S.value < 0) ∧
      (∀ x ∈ r, 0 < S.cmp x S.value) ∧ t.toList = l ++ S.value :: r

theorem root_plug (some : t.root ≠ none) : (plug ctx t).root ≠ none := by
  induction ctx generalizing t with
  | nil => exact some
  | cons f ctx ih => exact ih (t := f.node t) (Option.some_ne_none _)

attribute [local simp] pair toList

theorem Spot.found (spot : Spot S node m ctx (.node a c u kids) h) (equal : S.cmp u S.value = 0) :
    Inserted S m (plug ctx (.node a c u kids)) := by
  refine ⟨spot.lies.top, redBlack_plug spot.fills spot.balanced fun red => red,
    root_plug (Option.some_ne_none _), .inl ⟨⟨u, ?_, equal⟩, spot.list⟩⟩
  rw [← spot.list, toList_plug]
  simp

theorem Spot.down (spot : Spot S node m ctx (.node a c u kids) h) (differs : S.cmp u S.value ≠ 0) :
    ∃ h', Spot S node m (⟨a, c, u, S.dirOf u, kids !S.dirOf u⟩ :: ctx) (kids (S.dirOf u)) h' := by
  obtain ⟨h', balanced, -, fills⟩ := spot.fills.down spot.balanced (S.dirOf u)
  refine ⟨h', spot.lies.down _, balanced, fills, ?_, ?_, ?_, spot.new⟩
  · refine spot.between.down (by rw [spot.list]; exact S.increasing) (fun down => ?_) fun up => ?_
    · have below : S.cmp u S.value < 0 := of_decide_eq_true down
      exact ⟨below, fun x less => S.order.lt_of_lt_of_le less (by omega)⟩
    · have notBelow : ¬ S.cmp u S.value < 0 := of_decide_eq_false up
      exact ⟨by omega, fun x more => S.order.pos_of_lt (by omega) more⟩
  · rw [plug_down, spot.list]
  · exact fun mem => spot.fresh ((labels_down_perm ..).mem_iff.mpr mem)

theorem dirOf_frame (between : Between (fun x => S.cmp x S.value < 0)
    (fun x => 0 < S.cmp x S.value) (f :: ctx)) : S.dirOf f.value = f.dir := by
  cases dir : f.dir with
  | true => exact decide_eq_true (between.left _ (by simp [before, dir]))
  | false =>
    have above := between.right f.value (by simp [Foundation.after, dir])
    exact decide_eq_false (by omega)

section Modes

/-- A black node with black kids. -/
def Calm (t : ColorTree P V) : Prop :=
  ∃ a u kids, t = .node a false u kids ∧ ∀ b, (kids b).isRed = false

structure Pointers (s : Insert P V) (ctx : List (TreeFrame P V)) (q : ColorTree P V) : Prop where
  here : s.q = q.root
  parent : s.p = ctx.head?.map TreeFrame.label
  dir : ∀ f rest, ctx = f :: rest → s.dir = f.dir

structure Aligned (S : Search P V) (s : Insert P V) (ctx : List (TreeFrame P V))
    (q : ColorTree P V) : Prop where
  pointers : Pointers s ctx q
  grand : s.g = ctx.tail.head?.map TreeFrame.label
  great : s.t = above S.head (ctx.drop 2)
  last : ∀ f g rest, ctx = f :: g :: rest → s.last = g.dir
  sibling : q.isRed = true → ∃ f rest, ctx = f :: rest ∧ f.sib.isRed = false
  uncle : ∀ f rest, ctx = f :: rest → f.red = true →
    ∃ g rest', rest = g :: rest' ∧ g.sib.isRed = false
  root : ctx = [] → q.root ≠ none

structure Settled (S : Search P V) (s : Insert P V) (ctx : List (TreeFrame P V))
    (q : ColorTree P V) : Prop where
  pointers : Pointers s ctx q
  grand : s.g = ctx.tail.head?.map TreeFrame.label
  great : ctx.tail = [] → s.t = S.head
  calm : Calm q

inductive Ready (S : Search P V) (node : P) : Nat → Insert P V → Prop
  | aligned {n : Nat} {s : Insert P V} {ctx : List (TreeFrame P V)} {q : ColorTree P V} {h : Nat} :
      Spot S node s.mem ctx q h → Aligned S s ctx q → 2 * q.height + 1 ≤ n → Ready S node n s
  | settled {n : Nat} {s : Insert P V} {ctx : List (TreeFrame P V)} {q : ColorTree P V} {h : Nat} :
      Spot S node s.mem ctx q h → Settled S s ctx q → 2 * q.height ≤ n → Ready S node n s
  | turned {n : Nat} {s : Insert P V} {ctx : List (TreeFrame P V)} {h : Nat} {a : P} {u : V}
      {kids : Bool → ColorTree P V} :
      Spot S node s.mem ctx (.node a true u kids) h → Pointers s ctx (.node a true u kids) →
      ctx ≠ [] → (∀ b, (kids b).isRed = false) → Calm (kids (S.dirOf u)) →
      2 * (kids (S.dirOf u)).height + 1 ≤ n → Ready S node n s

variable [DecidableEq P]

def Continues (S : Search P V) (node : P) (n : Nat) (s : Insert P V) : Prop :=
  (∃ m t, insertLoop S.cmp node (n + 1) s = .ok m ∧ Inserted S m t) ∨
    ∃ s', insertLoop S.cmp node (n + 1) s = insertLoop S.cmp node n s' ∧ Ready S node n s'

variable {s₁ s₂ : Insert P V}

section
variable (first : insertOrFlip node s = .ok (a, s₁)) (second : fixViolation a s₁ = .ok s₂)
include first second

theorem insertLoop_succ (n : Nat) :
    insertLoop S.cmp node (n + 1) s =
      if S.cmp (s₂.mem a).value (s₂.mem node).value = 0 then .ok s₂.mem
      else insertLoop S.cmp node n
        (moveDown a (S.cmp (s₂.mem a).value (s₂.mem node).value < 0) s₂) := by
  rw [insertLoop, first]
  change (do let s ← fixViolation a s₁; _) = _
  rw [second]
  rfl

theorem continues_of_spot (spot : Spot S node s₂.mem ctx (.node a c u kids) h)
    (ready : ∀ h', S.cmp u S.value ≠ 0 →
      Spot S node s₂.mem (⟨a, c, u, S.dirOf u, kids !S.dirOf u⟩ :: ctx) (kids (S.dirOf u)) h' →
      Ready S node n (moveDown a (S.dirOf u) s₂)) : Continues S node n s := by
  have turn := insertLoop_succ first second n (S := S)
  rw [spot.new, spot.lies.tree.1] at turn
  by_cases equal : S.cmp u S.value = 0
  · rw [if_pos equal] at turn
    exact .inl ⟨_, _, turn, spot.found equal⟩
  · rw [if_neg equal] at turn
    obtain ⟨h', spot'⟩ := spot.down equal
    exact .inr ⟨_, turn, ready h' equal spot'⟩

end

section
variable (lies : LiesAt s.mem S.head ctx (.node a c u kids))
include lies

theorem insertOrFlip_calm (here : s.q = some a)
    (calm : (kids false).isRed = false ∨ (kids true).isRed = false) :
    insertOrFlip node s = .ok (a, s) := by
  have red : ∀ b, rbtreeNodeIsRed s.mem ((s.mem a).link b) = (kids b).isRed := fun b => by
    rw [holds_link lies.tree, isRed_root (lies.tree.2 b)]
  rw [insertOrFlip, here]
  refine if_neg ?_
  rw [red, red]
  rcases calm with calm | calm <;> simp [calm]

theorem fixViolation_fills (fills : Fills ctx h c) (parent : s.p = ctx.head?.map TreeFrame.label) :
    fixViolation a s = .ok s := by
  refine if_neg fun violation => ?_
  rw [Bool.and_eq_true] at violation
  have isRed : c = true := by
    rw [← violation.1]
    exact (congrArg RbNode.red lies.tree.1).symm
  subst isRed
  cases fills with
  | nil =>
    rw [parent] at violation
    exact absurd violation.2 Bool.false_ne_true
  | black black =>
    rw [parent] at violation
    have red := violation.2
    rw [head?_cons, Option.map_some, rbtreeNodeIsRed, lies.place.1, black] at red
    exact absurd red Bool.false_ne_true

omit [DecidableEq P] in
theorem pointers_down (d : Bool) :
    Pointers (moveDown a d s) (⟨a, c, u, d, kids !d⟩ :: ctx) (kids d) := by
  refine ⟨holds_link lies.tree d, rfl, fun f rest same => ?_⟩
  rw [← (List.cons.inj same).1]
  rfl

omit [DecidableEq P] in
theorem settled_down (d : Bool) (parent : s.p = ctx.head?.map TreeFrame.label)
    (great : ctx = [] → s.g.getD s.t = S.head) (calm : Calm (kids d)) :
    Settled S (moveDown a d s) (⟨a, c, u, d, kids !d⟩ :: ctx) (kids d) :=
  ⟨pointers_down lies d, parent, great, calm⟩

omit [DecidableEq P] in
theorem aligned_down (d : Bool) (pointers : Pointers s ctx q)
    (grand : s.g = ctx.tail.head?.map TreeFrame.label) (great : ctx.tail = [] → s.t = S.head)
    (sibling : (kids d).isRed = true → (kids !d).isRed = false)
    (uncle : c = true → ∃ g rest, ctx = g :: rest ∧ g.sib.isRed = false) :
    Aligned S (moveDown a d s) (⟨a, c, u, d, kids !d⟩ :: ctx) (kids d) := by
  refine ⟨pointers_down lies d, pointers.parent, ?_, fun f g rest same => ?_,
    fun red => ⟨_, _, rfl, sibling red⟩, fun f rest same red => ?_, fun none => by cases none⟩
  · change s.g.getD s.t = above S.head (ctx.drop 1)
    rw [grand, drop_one]
    cases behind : ctx.tail with
    | nil => exact great behind
    | cons g rest => rfl
  · exact pointers.dir g rest (List.cons.inj same).2
  · obtain ⟨rfl, rfl⟩ := List.cons.inj same
    exact uncle red

end

theorem settled_step (spot : Spot S node s.mem ctx q h) (settled : Settled S s ctx q)
    (enough : 2 * q.height ≤ n + 1) : Continues S node n s := by
  obtain ⟨a, u, kids, rfl, black⟩ := settled.calm
  refine continues_of_spot (insertOrFlip_calm spot.lies settled.pointers.here (.inl (black _)))
    (fixViolation_fills spot.lies spot.fills settled.pointers.parent) spot fun h' _ spot' => ?_
  refine .aligned spot' (aligned_down spot.lies _ settled.pointers settled.grand settled.great
    (fun _ => black _) fun red => by cases red) ?_
  have lower := height_kid a false u kids (S.dirOf u)
  omega

theorem turned_step (spot : Spot S node s.mem ctx (.node a true u kids) h)
    (pointers : Pointers s ctx (.node a true u kids)) (inside : ctx ≠ [])
    (black : ∀ b, (kids b).isRed = false) (calm : Calm (kids (S.dirOf u)))
    (enough : 2 * (kids (S.dirOf u)).height + 1 ≤ n + 1) : Continues S node n s := by
  refine continues_of_spot (insertOrFlip_calm spot.lies pointers.here (.inl (black _)))
    (fixViolation_fills spot.lies spot.fills pointers.parent) spot fun h' _ spot' => ?_
  refine .settled spot' (settled_down spot.lies _ pointers.parent (fun none => ?_) calm) (by omega)
  exact absurd none inside

theorem aligned_step_plain (spot : Spot S node s.mem ctx (.node a c u kids) h)
    (aligned : Aligned S s ctx (.node a c u kids))
    (calm : (kids false).isRed = false ∨ (kids true).isRed = false)
    (enough : 2 * (ColorTree.node a c u kids).height ≤ n) : Continues S node n s := by
  refine continues_of_spot (insertOrFlip_calm spot.lies aligned.pointers.here calm)
    (fixViolation_fills spot.lies spot.fills aligned.pointers.parent) spot fun h' _ spot' => ?_
  refine .aligned spot' (aligned_down spot.lies _ aligned.pointers aligned.grand (fun none => ?_)
    (fun red => ?_) aligned.sibling) ?_
  · rw [aligned.great, ← drop_drop (i := 1) (j := 1), drop_one, drop_one, none]
    rfl
  · cases d : S.dirOf u with
    | true | false =>
      rw [d] at red
      simpa [red] using calm
  · have lower := height_kid a c u kids (S.dirOf u)
    omega

end Modes

section Rotating
variable [DecidableEq P]

theorem insertOrFlip_flip (node : P) (lies : LiesAt s.mem S.head ctx (.node a c u kids))
    (here : s.q = some a) (red : ∀ b, (kids b).isRed = true) :
    ∃ m', insertOrFlip node s = .ok (a, { s with mem := m' }) ∧
      Reshaped s.mem (.node a c u kids) m' (.node a true u fun b => (kids b).paint false) := by
  have isRed : ∀ b, rbtreeNodeIsRed s.mem ((s.mem a).link b) = true := fun b => by
    rw [holds_link lies.tree, isRed_root (lies.tree.2 b), red b]
  have someKid : ∀ b, ∃ l, (kids b).root = some l := by
    intro b
    cases kid : kids b with
    | leaf => simpa [kid, ColorTree.isRed] using red b
    | node l c v k => exact ⟨l, rfl⟩
  obtain ⟨l, left⟩ := someKid false
  obtain ⟨r, right⟩ := someKid true
  have first := reshaped_setRed lies.tree lies.nodup true
  have nodup₁ := first.labels.nodup_iff.mpr lies.nodup
  have second := reshaped_paintKid first.tree nodup₁ left false
  refine ⟨_, ?_, first.trans (reshaped_blackenKids first.tree nodup₁ left right)⟩
  rw [insertOrFlip, here]
  refine (if_pos (by rw [isRed, isRed]; rfl)).trans ?_
  have link₁ := (holds_link first.tree false).trans left
  have link₂ := (holds_link second.tree true).trans right
  simp only [link₁, link₂, deref_bind]

theorem insertOrFlip_leaf (spot : Spot S node s.mem (f :: rest) .leaf h)
    (pointers : Pointers s (f :: rest) .leaf) :
    ∃ m', insertOrFlip node s = .ok (node, { s with mem := m', q := some node }) ∧
      LiesAt m' S.head (f :: rest) (.node node true S.value fun _ => .leaf) := by
  refine ⟨setLink s.mem f.label f.dir (some node), ?_, ?_⟩
  · rw [insertOrFlip, pointers.here, pointers.parent, pointers.dir f rest rfl]
    rfl
  · have tree : Holds s.mem (.node node true S.value fun _ => .leaf) :=
      ⟨spot.new, fun _ => trivial⟩
    exact spot.lies.place.put tree (nodup_cons.mpr ⟨spot.fresh, spot.lies.distinct⟩)

structure Violation (S : Search P V) (s : Insert P V) (f g : TreeFrame P V)
    (rest : List (TreeFrame P V)) (a : P) (u : V) (kids : Bool → ColorTree P V) : Prop where
  lies : LiesAt s.mem S.head (f :: g :: rest) (.node a true u kids)
  red : f.red = true
  parent : s.p = some f.label
  grand : s.g = some g.label
  great : s.t = above S.head rest
  last : s.last = g.dir

theorem Violation.fix (violation : Violation S s f g rest a u kids) {r : Option P}
    (rotated : (if f.dir = g.dir then rbtreeNodeRotate s.mem s.g (!s.last)
      else rbtreeNodeRotate2 s.mem s.g (!s.last)) = .ok (r, m)) :
    fixViolation a s = .ok { s with mem := setLink m (above S.head rest) (aboveDir rest) r } := by
  obtain ⟨lies, red, parent, grand, great, last⟩ := violation
  have isRed : rbtreeNodeIsRed s.mem (some a) = true := isRed_root lies.tree
  have isRed' : rbtreeNodeIsRed s.mem s.p = true := by
    rw [parent, rbtreeNodeIsRed, lies.place.1, red]
  have dir2 : decide ((s.mem s.t).link true = s.g) = aboveDir rest := by
    rw [great, grand]
    exact aboveDir_eq lies.up.up rfl
  have side : (s.mem f.label).link s.last = some a ↔ f.dir = g.dir := by
    rw [last, lies.place.1]
    constructor
    · intro same
      by_contra other
      have link : pair f.dir (some a) f.sib.root g.dir = f.sib.root := if_neg (Ne.symm other)
      have inside : a ∈ f.sib.labels := root_mem (link.symm.trans same)
      refine (nodup_append.mp lies.distinct).2.2 a mem_cons_self a ?_ rfl
      simp [placeLabels, inside]
    · intro same
      rw [← same]
      exact pair_self ..
  rw [fixViolation, if_pos (by rw [isRed, isRed']; rfl)]
  simp only [dir2, parent, deref_bind, side]
  rw [great]
  by_cases same : f.dir = g.dir
  · rw [if_pos same] at rotated ⊢
    rw [rotated]
    rfl
  · rw [if_neg same] at rotated ⊢
    rw [rotated]
    rfl

def rotatedFrame (f g : TreeFrame P V) : TreeFrame P V :=
  ⟨f.label, false, f.value, g.dir, .node g.label true g.value (pair g.dir f.sib g.sib)⟩

def turnedNode (f g : TreeFrame P V) (a : P) (u : V) (kids : Bool → ColorTree P V) :
    ColorTree P V :=
  .node a false u (pair g.dir (.node f.label true f.value (pair g.dir f.sib (kids g.dir)))
    (.node g.label true g.value (pair g.dir (kids !g.dir) g.sib)))

theorem Violation.single (violation : Violation S s f g rest a u kids) (same : f.dir = g.dir) :
    ∃ m', fixViolation a s = .ok { s with mem := m' } ∧
      LiesAt m' S.head (rotatedFrame f g :: rest) (.node a true u kids) ∧
      ∀ x, x ∉ (ColorTree.node a true u kids).labels ++ placeLabels S.head (f :: g :: rest) →
        m' x = s.mem x ∧
        x ∉ (ColorTree.node a true u kids).labels ++
          placeLabels S.head (rotatedFrame f g :: rest) := by
  have lies := violation.lies.up.up
  have shape : g.node (f.node (.node a true u kids)) = .node g.label g.red g.value
      (pair (!g.dir) g.sib (.node f.label f.red f.value
        (pair (!g.dir) f.sib (.node a true u kids)))) := by
    rw [TreeFrame.node, TreeFrame.node, same, pair_flip, pair_flip]
  have perm := ((labels_up_perm S.head g rest (f.node (.node a true u kids))).trans
    (labels_up_perm S.head f (g :: rest) (.node a true u kids)))
  rw [shape] at lies perm
  obtain ⟨m₁, rotated, reshaped⟩ := rotate_reshaped lies.tree lies.nodup
  have rotatedNode : ColorTree.node f.label false f.value (pair (!g.dir)
      (.node g.label true g.value (pair (!g.dir) g.sib f.sib)) (.node a true u kids)) =
        (rotatedFrame f g).node (.node a true u kids) := by
    rw [TreeFrame.node, rotatedFrame, pair_flip, pair_flip]
  rw [rotatedNode] at reshaped
  refine ⟨_, violation.fix (by rw [if_pos same, violation.grand, violation.last, rotated]; rfl),
    (lies.replace reshaped).into, fun x out => ?_⟩
  obtain ⟨kept, out'⟩ := reshaped.outside fun mem => out (perm.mem_iff.mp mem)
  exact ⟨kept, fun mem => out' ((labels_up_perm _ _ _ _).mem_iff.mpr mem)⟩

theorem Violation.double (violation : Violation S s f g rest a u kids) (other : f.dir ≠ g.dir) :
    ∃ m', fixViolation a s = .ok { s with mem := m' } ∧
      LiesAt m' S.head rest (turnedNode f g a u kids) ∧
      ∀ x, x ∉ (ColorTree.node a true u kids).labels ++ placeLabels S.head (f :: g :: rest) →
        m' x = s.mem x ∧
        x ∉ (turnedNode f g a u kids).labels ++ placeLabels S.head rest := by
  have lies := violation.lies.up.up
  have dir : f.dir = !g.dir := by
    cases first : f.dir <;> cases second : g.dir <;> simp_all
  have shape : g.node (f.node (.node a true u kids)) = .node g.label g.red g.value
      (pair (!g.dir) g.sib (.node f.label f.red f.value
        (pair (!g.dir) (.node a true u (pair (!g.dir) (kids !g.dir) (kids g.dir))) f.sib))) := by
    simp only [TreeFrame.node, dir, pair_flip, pair_eta]
  have perm := ((labels_up_perm S.head g rest (f.node (.node a true u kids))).trans
    (labels_up_perm S.head f (g :: rest) (.node a true u kids)))
  rw [shape] at lies perm
  obtain ⟨m₁, rotated, reshaped⟩ := rotate2_reshaped lies.tree lies.nodup
  have turned : ColorTree.node a false u (pair (!g.dir)
      (.node g.label true g.value (pair (!g.dir) g.sib (kids !g.dir)))
      (.node f.label true f.value (pair (!g.dir) (kids g.dir) f.sib))) =
        turnedNode f g a u kids := by
    rw [turnedNode, pair_flip, pair_flip, pair_flip]
  rw [turned] at reshaped
  refine ⟨_, violation.fix (by rw [if_neg other, violation.grand, violation.last, rotated]; rfl),
    lies.replace reshaped, fun x out => ?_⟩
  exact reshaped.outside fun mem => out (perm.mem_iff.mp mem)

inductive Fixed (S : Search P V) (s : Insert P V) (ctx : List (TreeFrame P V)) (a : P) (u : V)
    (kids : Bool → ColorTree P V) (h : Nat) : List (TreeFrame P V) → ColorTree P V → Prop
  | level {ctx' : List (TreeFrame P V)} : Fills ctx' h true →
      s.p = ctx'.head?.map TreeFrame.label → (ctx' = [] → s.g.getD s.t = S.head) →
      before ctx' = before ctx → after ctx' = after ctx →
      Fixed S s ctx a u kids h ctx' (.node a true u kids)
  | turned {f g : TreeFrame P V} {rest : List (TreeFrame P V)} : ctx = f :: g :: rest →
      f.dir ≠ g.dir → RedBlack (turnedNode f g a u kids) (h + 1) → Fills rest (h + 1) false →
      Fixed S s ctx a u kids h rest (turnedNode f g a u kids)

omit [DecidableEq P] in
theorem before_rotatedFrame (rest : List (TreeFrame P V)) (same : f.dir = g.dir) :
    before (rotatedFrame f g :: rest) = before (f :: g :: rest) ∧
      after (rotatedFrame f g :: rest) = after (f :: g :: rest) := by
  cases dir : g.dir with
  | false | true => simp [before, Foundation.after, rotatedFrame, dir, same]

omit [DecidableEq P] in
theorem toList_turnedNode (other : f.dir ≠ g.dir) :
    (turnedNode f g a u kids).toList = (g.node (f.node (.node a true u kids))).toList := by
  cases dir : g.dir with
  | false =>
    have dir' : f.dir = true := by simpa [dir] using other
    simp [turnedNode, TreeFrame.node, dir, dir']
  | true =>
    have dir' : f.dir = false := by simpa [dir] using other
    simp [turnedNode, TreeFrame.node, dir, dir']

omit [DecidableEq P] in
theorem redBlack_turnedNode (balanced : RedBlack (.node a true u kids) h)
    (sib : RedBlack f.sib h) (black : f.sib.isRed = false) (sib' : RedBlack g.sib h)
    (black' : g.sib.isRed = false) : RedBlack (turnedNode f g a u kids) (h + 1) := by
  cases balanced with
  | red kids blackKids =>
    exact redBlack_black_pair (redBlack_red_pair sib (kids _) black (blackKids _))
      (redBlack_red_pair (kids _) sib' (blackKids _) black')

def Mended (S : Search P V) (s : Insert P V) (ctx : List (TreeFrame P V)) (a : P) (u : V)
    (kids : Bool → ColorTree P V) (h : Nat) : Prop :=
  ∃ m' ctx' t', fixViolation a s = .ok { s with mem := m' } ∧ LiesAt m' S.head ctx' t' ∧
    Fixed S s ctx a u kids h ctx' t' ∧
    ∀ x, x ∉ (ColorTree.node a true u kids).labels ++ placeLabels S.head ctx →
      m' x = s.mem x ∧ x ∉ t'.labels ++ placeLabels S.head ctx'

theorem fixViolation_red (lies : LiesAt s.mem S.head ctx (.node a true u kids))
    (balanced : RedBlack (.node a true u kids) h) (fills : Fills ctx h false)
    (parent : s.p = ctx.head?.map TreeFrame.label)
    (grand : s.g = ctx.tail.head?.map TreeFrame.label) (great : s.t = above S.head (ctx.drop 2))
    (last : ∀ f g rest, ctx = f :: g :: rest → s.last = g.dir)
    (uncle : ∀ f rest, ctx = f :: rest → f.red = true →
      ∃ g rest', rest = g :: rest' ∧ g.sib.isRed = false) : Mended S s ctx a u kids h := by
  have level : Fills ctx h true → Mended S s ctx a u kids h := by
    intro right
    refine ⟨s.mem, ctx, _, fixViolation_fills lies right parent, lies,
      .level right parent (fun none => ?_) rfl rfl, fun x out => ⟨rfl, out⟩⟩
    rw [grand, great, none]
    rfl
  cases fills with
  | nil => exact level .nil
  | black black sib fills => exact level (.black black sib fills)
  | @red f rest _ red sib black fills =>
    obtain ⟨g, rest, rfl, black'⟩ := uncle f rest rfl red
    have violation : Violation S s f g rest a u kids :=
      ⟨lies, red, parent, grand, great, last f g rest rfl⟩
    cases fills with
    | @black _ _ _ _ isBlack sib' fills' =>
      by_cases same : f.dir = g.dir
      · obtain ⟨m', fixed, lies', kept⟩ := violation.single same
        obtain ⟨left, right⟩ := before_rotatedFrame rest same
        refine ⟨m', _, _, fixed, lies', .level (.black rfl ?_ fills') parent nofun left right, kept⟩
        exact redBlack_red_pair sib sib' black black'
      · obtain ⟨m', fixed, lies', kept⟩ := violation.double same
        exact ⟨m', _, _, fixed, lies', .turned rfl same
          (redBlack_turnedNode balanced sib black sib' black') fills', kept⟩

variable {ctx' : List (TreeFrame P V)} {t' : ColorTree P V}

section
variable (fixed : Fixed S s ctx a u kids h ctx' t')
include fixed

omit [DecidableEq P] in
theorem Fixed.balanced (balanced : RedBlack (.node a true u kids) h) :
    ∃ h', RedBlack t' h' ∧ Fills ctx' h' t'.isRed := by
  cases fixed with
  | level fills => exact ⟨h, balanced, fills⟩
  | turned _ _ turned fills => exact ⟨h + 1, turned, fills⟩

omit [DecidableEq P] in
theorem Fixed.toList : (plug ctx' t').toList = (plug ctx (.node a true u kids)).toList := by
  cases fixed with
  | level _ _ _ left right => rw [toList_plug, toList_plug, left, right]
  | @turned f g rest same other =>
    rw [same, plug_cons, plug_cons, toList_plug, toList_plug, toList_turnedNode other]

omit [DecidableEq P] in
theorem Fixed.between {lo hi : V → Prop} (between : Between lo hi ctx) : Between lo hi ctx' := by
  cases fixed with
  | level _ _ _ left right => exact ⟨left ▸ between.left, right ▸ between.right⟩
  | turned same =>
    subst same
    exact between.tail.tail

omit [DecidableEq P] in
theorem Fixed.root : t'.root = some a := by
  cases fixed with
  | level | turned => rfl

end

omit [DecidableEq P] in
theorem turnedNode_kid (kids : Bool → ColorTree P V)
    (between : Between (fun x => S.cmp x S.value < 0) (fun x => 0 < S.cmp x S.value)
      (f :: g :: rest)) (other : f.dir ≠ g.dir) (d : Bool) :
    ∃ b v k, pair g.dir (ColorTree.node f.label true f.value (pair g.dir f.sib (kids g.dir)))
      (.node g.label true g.value (pair g.dir (kids !g.dir) g.sib)) d = .node b true v k ∧
      k (S.dirOf v) = kids d := by
  have dirF := dirOf_frame between
  have dirG := dirOf_frame between.tail
  by_cases side : d = g.dir
  · subst side
    refine ⟨_, _, _, pair_self .., ?_⟩
    have away : S.dirOf f.value = !g.dir := by
      rw [dirF]
      cases first : f.dir <;> cases second : g.dir <;> simp_all
    rw [away, pair_not]
  · obtain rfl : d = !g.dir := by cases d <;> cases second : g.dir <;> simp_all
    refine ⟨_, _, _, pair_not .., ?_⟩
    rw [dirG, pair_self]

omit [DecidableEq P] in
theorem calm_paint (balanced : RedBlack t h) (red : t.isRed = true) : Calm (t.paint false) := by
  cases balanced with
  | leaf => cases red
  | red _ black => exact ⟨_, _, _, rfl, black⟩
  | black => cases red

omit [DecidableEq P] in
theorem redBlack_flip (balanced : RedBlack (.node a c u kids) h)
    (red : ∀ b, (kids b).isRed = true) :
    RedBlack (.node a true u fun b => (kids b).paint false) h ∧
      ∀ b, Calm ((kids b).paint false) := by
  cases balanced with
  | red _ black => exact absurd (red true) (by simp [black true])
  | @black _ _ _ h balanced =>
    exact ⟨.red (fun b => redBlack_blacken_red (balanced b) (red b)) fun b => isRed_blacken _,
      fun b => calm_paint (balanced b) (red b)⟩

theorem aligned_step_flip (spot : Spot S node s.mem ctx (.node a c u kids) h)
    (aligned : Aligned S s ctx (.node a c u kids)) (red : ∀ b, (kids b).isRed = true)
    (enough : 2 * (ColorTree.node a c u kids).height ≤ n) : Continues S node n s := by
  obtain ⟨m₁, first, reshaped⟩ := insertOrFlip_flip node spot.lies aligned.pointers.here red
  obtain ⟨balanced, calm⟩ := redBlack_flip spot.balanced red
  have black : c = false := by
    cases below : spot.balanced with
    | red _ black => exact absurd (red true) (by simp [black true])
    | black => rfl
  have fills : Fills ctx h false := black ▸ spot.fills
  obtain ⟨m₂, ctx', t', second, lies, fixed, kept⟩ :=
    fixViolation_red (s := { s with mem := m₁ }) (spot.lies.reshape reshaped rfl) balanced fills
      aligned.pointers.parent aligned.grand aligned.great aligned.last aligned.uncle
  have out : node ∉ (ColorTree.node a true u fun b => (kids b).paint false).labels ++
      placeLabels S.head ctx := fun mem =>
    spot.fresh ((reshaped.labels.append_right _).mem_iff.mp mem)
  have list : (plug ctx' t').toList = S.values := by
    rw [fixed.toList, ← spot.list, toList_plug, toList_plug]
    simp
  have new : m₂ node = ⟨true, fun _ => none, S.value⟩ := by
    rw [(kept node out).1, ← spot.new]
    exact reshaped.off node fun mem => spot.fresh (mem_append_left _ mem)
  obtain ⟨h', balanced', fills'⟩ := fixed.balanced balanced
  have spot' : Spot S node m₂ ctx' t' h' :=
    ⟨lies, balanced', fills', fixed.between spot.between, list, (kept node out).2, new⟩
  have lower := height_kid a c u kids (S.dirOf u)
  cases fixed with
  | level _ parent great =>
    refine continues_of_spot first second spot' fun h'' _ spot'' => ?_
    have settled := settled_down (s := { s with mem := m₂ }) lies (S.dirOf u) parent great
      (calm _)
    refine .settled spot'' settled ?_
    rw [height_paint]
    omega
  | @turned f g rest same other =>
    refine continues_of_spot first second spot' fun h'' _ spot'' => ?_
    obtain ⟨b, v, k, kid, back⟩ := turnedNode_kid (fun b => (kids b).paint false)
      (same ▸ spot.between) other (S.dirOf u)
    have pointers := pointers_down (s := { s with mem := m₂ }) lies (S.dirOf u)
    rw [kid] at spot'' pointers
    refine .turned spot'' pointers (cons_ne_nil _ _) ?_ (back ▸ calm _) ?_
    · cases spot''.balanced with
      | red _ black => exact black
    · rw [back, height_paint]
      omega

theorem aligned_step_leaf (spot : Spot S node s.mem ctx .leaf h) (aligned : Aligned S s ctx .leaf) :
    ∃ m t, insertLoop S.cmp node (n + 1) s = .ok m ∧ Inserted S m t := by
  cases ctx with
  | nil => exact absurd rfl (aligned.root rfl)
  | cons f rest =>
    obtain ⟨m₁, first, lies⟩ := insertOrFlip_leaf spot aligned.pointers
    cases spot.balanced with
    | leaf =>
      have balanced : RedBlack (.node node true S.value fun _ => .leaf) 0 :=
        .red (fun _ => .leaf) fun _ => rfl
      obtain ⟨m₂, ctx', t', second, lies', fixed, -⟩ :=
        fixViolation_red (s := { s with mem := m₁, q := some node }) lies balanced spot.fills
          aligned.pointers.parent aligned.grand aligned.great aligned.last aligned.uncle
      have turn := insertLoop_succ first second n (S := S)
      rw [if_pos (S.order.self_eq _)] at turn
      obtain ⟨h', balanced', fills'⟩ := fixed.balanced balanced
      have some : t'.root ≠ none := by
        rw [fixed.root]
        exact Option.some_ne_none _
      refine ⟨_, _, turn, lies'.top, redBlack_plug fills' balanced' fun red => red,
        root_plug some, .inr ⟨before (f :: rest), after (f :: rest), ?_, spot.between.left,
          spot.between.right, ?_⟩⟩
      · rw [← spot.list, toList_plug]
        simp
      · rw [fixed.toList, toList_plug]
        simp

theorem ready_step (ready : Ready S node (n + 1) s) : Continues S node n s := by
  cases ready with
  | settled spot settled enough => exact settled_step spot settled enough
  | turned spot pointers inside black calm enough =>
    exact turned_step spot pointers inside black calm enough
  | @aligned ctx q h spot aligned enough =>
    cases q with
    | leaf => exact .inl (aligned_step_leaf spot aligned)
    | node a c u kids =>
      by_cases calm : (kids false).isRed = false ∨ (kids true).isRed = false
      · exact aligned_step_plain spot aligned calm (by omega)
      · refine aligned_step_flip spot aligned (fun b => ?_) (by omega)
        cases b with
        | false => simpa using fun black => calm (.inl black)
        | true => simpa using fun black => calm (.inr black)

theorem insertLoop_inserted (ready : Ready S node n s) :
    ∃ m t, insertLoop S.cmp node n s = .ok m ∧ Inserted S m t := by
  induction n generalizing s with
  | zero =>
    cases ready with
    | aligned _ _ enough => omega
    | settled _ settled enough =>
      obtain ⟨a, u, kids, rfl, -⟩ := settled.calm
      have lower := height_kid a false u kids true
      omega
    | turned _ _ _ _ _ enough => omega
  | succ n ih =>
    rcases ready_step ready with done | ⟨s', turn, ready'⟩
    · exact done
    · rw [turn]
      exact ih ready'

end Rotating

variable [DecidableEq P] {cmp : V → V → Int} {null value : V} {head : P} {self : RbTree P}

omit [DecidableEq P] in
theorem Inserted.increasing (inserted : Inserted S m t) : Increasing S.cmp t.toList := by
  rcases inserted.list with ⟨-, same⟩ | ⟨l, r, values, less, more, same⟩
  · exact same ▸ S.increasing
  · have parts := S.increasing
    rw [values, Increasing, pairwise_append] at parts
    rw [same, Increasing, pairwise_append, pairwise_cons]
    refine ⟨parts.1, ⟨fun x mem => (S.order.swap x S.value).mpr (more x mem), parts.2.1⟩, ?_⟩
    intro x left y right
    rcases mem_cons.mp right with rfl | right
    · exact less x left
    · exact parts.2.2 x left y right

omit [DecidableEq P] in
theorem Inserted.mem (inserted : Inserted S m t) (x : V) : x ∈ t.toList ↔
    x ∈ S.values ∨ x = S.value ∧ ∀ y ∈ S.values, S.cmp y S.value ≠ 0 := by
  rcases inserted.list with ⟨⟨y, present, equal⟩, same⟩ | ⟨l, r, values, less, more, same⟩
  · rw [same]
    exact ⟨.inl, fun either => either.elim id fun absent => absurd equal (absent.2 y present)⟩
  · have absent : ∀ y ∈ S.values, S.cmp y S.value ≠ 0 := by
      rw [values]
      intro y mem
      rcases mem_append.mp mem with left | right
      · exact Int.ne_of_lt (less y left)
      · exact Int.ne_of_gt (more y right)
    rw [same]
    simp only [values, mem_append, mem_cons] at absent ⊢
    constructor
    · rintro (left | rfl | right)
      · exact .inl (.inl left)
      · exact .inr ⟨rfl, absent⟩
      · exact .inl (.inr right)
    · rintro ((left | right) | ⟨rfl, -⟩)
      · exact .inl left
      · exact .inr (.inr right)
      · exact .inr (.inl rfl)

theorem ready_start (null value : V) (order : IsOrder cmp) (tree : IsRbTree cmp m self t)
    (some : t.root ≠ none) (outHead : head ∉ t.labels) (outNode : node ∉ t.labels)
    (apart : head ≠ node) (enough : 2 * t.height + 1 ≤ n) :
    Ready ⟨cmp, order, head, value, t.toList, tree.increasing⟩ node n
      ⟨setLink (update (rbtreeNodeInit m node value) head ⟨false, fun _ => none, null⟩)
        head true t.root, head, none, none, t.root, false, false⟩ := by
  obtain ⟨h, balanced⟩ := tree.balanced
  have holds : Holds (rbtreeNodeInit m node value) t := by
    refine holds_congr tree.holds fun a mem => update_of_ne ?_ _ _
    rintro rfl
    exact outNode mem
  refine .aligned ⟨liesAt_falseRoot holds tree.distinct outHead, balanced, .nil, ⟨nofun, nofun⟩,
    rfl, ?_, ?_⟩ ⟨⟨rfl, rfl, nofun⟩, rfl, rfl, nofun, ?_, nofun, fun _ => some⟩ enough
  · simp [placeLabels, outNode, Ne.symm apart]
  · change setLink _ head true t.root node = _
    rw [setLink_of_ne (Ne.symm apart), update_of_ne (Ne.symm apart)]
    exact update_self ..
  · intro red
    rw [tree.black] at red
    cases red

theorem insertEnd_inserted (inserted : Inserted S m t) (size : UInt32) :
    ∃ m' self', insertEnd m ((m S.head).link true) size = .ok (1, m', self') ∧
      IsRbTree S.cmp m' self' (t.paint false) := by
  obtain ⟨r, root⟩ := Option.ne_none_iff_exists'.mp inserted.some
  have link : (m S.head).link true = some r := (holdsPlace_link inserted.lies.place).trans root
  have painted := reshaped_paint inserted.lies.tree inserted.lies.nodup root false
  obtain ⟨h, balanced⟩ := inserted.balanced
  rw [link]
  refine ⟨_, _, rfl, (root_paint ..).trans root |>.symm, painted.tree, ?_, ?_,
    redBlack_blacken balanced, isRed_blacken _⟩
  · rw [labels_paint]
    exact inserted.lies.nodup
  · rw [toList_paint]
    exact inserted.increasing

theorem rbtreeTreeInsert_tree (null value : V) (order : IsOrder cmp) (tree : IsRbTree cmp m self t)
    (outHead : head ∉ t.labels) (outNode : node ∉ t.labels) (apart : head ≠ node)
    (enough : 2 * t.height + 1 ≤ n) :
    ∃ m' self' t', rbtreeTreeInsert cmp null head n m self node value = .ok (1, m', self') ∧
      IsRbTree cmp m' self' t' ∧
      ∀ x, x ∈ t'.toList ↔ x ∈ t.toList ∨ x = value ∧ ∀ y ∈ t.toList, cmp y value ≠ 0 := by
  cases t with
  | leaf =>
    have one : Holds (setRed (rbtreeNodeInit m node value) node false)
        (.node node false value fun _ => .leaf) := by
      refine ⟨?_, fun _ => trivial⟩
      simp [setRed, rbtreeNodeInit, root]
    refine ⟨_, ⟨some node, self.size + 1⟩, _, ?_, ⟨rfl, one, by simp [labels], ?_,
      ⟨1, .black fun _ => .leaf⟩, rfl⟩, by simp⟩
    · rw [rbtreeTreeInsert, rbtreeTreeInsertNode, tree.root]
      rfl
    · simp [Increasing]
  | node a c v kids =>
    have ready := ready_start null value order tree (Option.some_ne_none _) outHead outNode
      apart enough
    obtain ⟨m₁, t₁, done, inserted⟩ := insertLoop_inserted ready
    obtain ⟨m₂, self', ended, valid⟩ := insertEnd_inserted inserted self.size
    refine ⟨m₂, self', t₁.paint false, ?_, valid, fun x => ?_⟩
    · rw [rbtreeTreeInsert, rbtreeTreeInsertNode, tree.root]
      exact (congrArg (· >>= fun m => insertEnd m ((m head).link true) self.size) done).trans
        ended
    · rw [toList_paint]
      exact inserted.mem x

/-- An insertion keeps order and rules and adds the value unless there is an equal one. -/
theorem rbtreeTreeInsert_spec (order : IsOrder cmp) (tree : IsRbTree cmp m self t)
    (outHead : head ∉ t.labels) (outNode : node ∉ t.labels) (apart : head ≠ node)
    (values : null ∉ t.toList) (nonNull : value ≠ null) (enough : 2 * t.height + 1 ≤ n) :
    ∃ m' self' t', rbtreeTreeInsert cmp null head n m self node value = .ok (1, m', self') ∧
      IsRbTree cmp m' self' t' ∧
      (∀ x, x ∈ t'.toList ↔ x ∈ t.toList ∨ x = value ∧ ∀ y ∈ t.toList, cmp y value ≠ 0) ∧
      ∀ w k, t'.height ≤ k → ∃ r, rbtreeTreeFind cmp null k m' self' w = .ok r ∧
        (r ≠ null ↔ ∃ x ∈ t'.toList, cmp x w = 0) ∧ (r ≠ null → r ∈ t'.toList ∧ cmp r w = 0) := by
  obtain ⟨m', self', t', inserted, tree', mem⟩ :=
    rbtreeTreeInsert_tree null value order tree outHead outNode apart enough
  refine ⟨m', self', t', inserted, tree', mem, fun w k enough' => ?_⟩
  refine rbtreeTreeFind_spec order tree' (fun isNull => ?_) enough' w
  rcases (mem null).mp isNull with old | ⟨rfl, -⟩
  · exact values old
  · exact nonNull rfl

theorem rbtreeTreeInsert_spec_threeNodes :
    ∃ m' self' t', rbtreeTreeInsert (fun a b : Int => a - b) 0 8 5 threeHeap ⟨some 0, 3⟩ 9 4 =
        .ok (1, m', self') ∧
      IsRbTree (fun a b : Int => a - b) m' self' t' ∧
      (∀ x, x ∈ t'.toList ↔ x ∈ threeNodes.toList ∨ x = 4 ∧ ∀ y ∈ threeNodes.toList, y - 4 ≠ 0) ∧
      ∀ w k, t'.height ≤ k → ∃ r, rbtreeTreeFind (fun a b : Int => a - b) 0 k m' self' w = .ok r ∧
        (r ≠ 0 ↔ ∃ x ∈ t'.toList, x - w = 0) ∧ (r ≠ 0 → r ∈ t'.toList ∧ r - w = 0) :=
  rbtreeTreeInsert_spec isOrder_sub isRbTree_threeNodes (by decide) (by decide) (by decide)
    (by decide) (by decide) (by decide)

end Elaborato.Mentos.Rbtree
