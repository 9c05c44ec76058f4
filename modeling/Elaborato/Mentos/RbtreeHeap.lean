import Elaborato.Foundation.RedBlack
import Elaborato.Mentos.Rbtree

/-!
Trees in the memory: a subtree can be exchanged at its place. Then `rbtree_tree_find`.
-/
namespace Elaborato.Mentos.Rbtree
open Foundation Foundation.ColorTree List Function

variable {P V : Type} {m m' m'' : Heap P V} {head a b : P} {c c' : Bool} {v v' : V} {d : Bool}
  {t t' t'' x y z : ColorTree P V} {kids : Bool → ColorTree P V}
  {f : TreeFrame P V} {ctx : List (TreeFrame P V)}

theorem deref_bind {α : Type} (p : P) (k : P → Except RbHalt α) :
    (deref (some p) >>= k) = k p := rfl

def Holds (m : Heap P V) : ColorTree P V → Prop
  | .leaf => True
  | .node a c v kids => m a = ⟨c, fun b => (kids b).root, v⟩ ∧ ∀ b, Holds m (kids b)

def HoldsPlace (m : Heap P V) (head : P) : List (TreeFrame P V) → Option P → Prop
  | [], r => (m head).link = pair true r none
  | f :: ctx, r => m f.label = ⟨f.red, pair f.dir r f.sib.root, f.value⟩ ∧ Holds m f.sib ∧
      HoldsPlace m head ctx (some f.label)

def placeLabels (head : P) : List (TreeFrame P V) → List P
  | [] => [head]
  | f :: ctx => f.label :: (f.sib.labels ++ placeLabels head ctx)

structure LiesAt (m : Heap P V) (head : P) (ctx : List (TreeFrame P V)) (t : ColorTree P V) :
    Prop where
  tree : Holds m t
  place : HoldsPlace m head ctx t.root
  distinct : (t.labels ++ placeLabels head ctx).Nodup

theorem holds_congr (holds : Holds m t) (same : ∀ a ∈ t.labels, m' a = m a) : Holds m' t := by
  induction t with
  | leaf => trivial
  | node a c v kids ih =>
    refine ⟨(same a (by simp [labels])).trans holds.1, fun b => ih b (holds.2 b) fun x hx => ?_⟩
    refine same x ((labels_perm a c v kids b).mem_iff.mpr ?_)
    exact mem_cons_of_mem _ (mem_append_left _ hx)

attribute [local simp] placeLabels setLink setRed toList

theorem holdsPlace_congr {r : Option P} (holds : HoldsPlace m head ctx r)
    (same : ∀ a ∈ placeLabels head ctx, m' a = m a) : HoldsPlace m' head ctx r := by
  induction ctx generalizing r with
  | nil =>
    rw [HoldsPlace, same head (by simp)]
    exact holds
  | cons f ctx ih =>
    obtain ⟨node, sib, above⟩ := holds
    refine ⟨(same _ (by simp)).trans node, holds_congr sib fun x hx => ?_, ih above fun x hx => ?_⟩
    · exact same x (by simp [hx])
    · exact same x (by simp [hx])

theorem holds_pair : Holds m (.node a c v (pair d x y)) ↔
    m a = ⟨c, pair d x.root y.root, v⟩ ∧ Holds m x ∧ Holds m y := by
  rw [Holds, comp_pair root, forall_pair (P := Holds m)]

theorem holds_link (holds : Holds m (.node a c v kids)) (d : Bool) :
    (m a).link d = (kids d).root := by
  rw [holds.1]

theorem isRed_root (holds : Holds m t) : rbtreeNodeIsRed m t.root = t.isRed := by
  cases t with
  | leaf => rfl
  | node a c v kids => exact congrArg RbNode.red holds.1

theorem root_mem (root : t.root = some a) : a ∈ t.labels := by
  cases t with
  | leaf => cases root
  | node b c v kids =>
    cases root
    exact mem_cons_self

theorem labels_pair_perm : (node a c v (pair d x y)).labels.Perm
    (a :: (x.labels ++ y.labels)) := by
  simpa using labels_perm a c v (pair d x y) d

theorem labels_down_perm (head : P) (ctx : List (TreeFrame P V)) (a : P) (c : Bool) (v : V)
    (kids : Bool → ColorTree P V) (d : Bool) :
    ((node a c v kids).labels ++ placeLabels head ctx).Perm
      ((kids d).labels ++ placeLabels head (⟨a, c, v, d, kids !d⟩ :: ctx)) := by
  refine ((labels_perm a c v kids d).append_right _).trans ?_
  rw [placeLabels, cons_append, append_assoc]
  exact perm_middle.symm

theorem labels_up_perm (head : P) (f : TreeFrame P V) (ctx : List (TreeFrame P V))
    (t : ColorTree P V) : ((f.node t).labels ++ placeLabels head ctx).Perm
      (t.labels ++ placeLabels head (f :: ctx)) := by
  have perm := labels_down_perm head ctx f.label f.red f.value (pair f.dir t f.sib) f.dir
  rwa [pair_self, pair_not] at perm

theorem LiesAt.down (lies : LiesAt m head ctx (.node a c v kids)) (d : Bool) :
    LiesAt m head (⟨a, c, v, d, kids !d⟩ :: ctx) (kids d) := by
  refine ⟨lies.tree.2 d, ⟨?_, lies.tree.2 !d, lies.place⟩,
    (labels_down_perm head ctx a c v kids d).nodup_iff.mp lies.distinct⟩
  rw [lies.tree.1, pair_eta d fun b => (kids b).root]

theorem LiesAt.up (lies : LiesAt m head (f :: ctx) t) : LiesAt m head ctx (f.node t) := by
  obtain ⟨tree, ⟨node, sib, above⟩, distinct⟩ := lies
  exact ⟨holds_pair.mpr ⟨node, tree, sib⟩, above,
    (labels_up_perm head f ctx t).nodup_iff.mpr distinct⟩

theorem LiesAt.into (lies : LiesAt m head ctx (f.node t)) : LiesAt m head (f :: ctx) t := by
  have kid := lies.down f.dir
  rwa [pair_self, pair_not] at kid

variable {inner outer : List (TreeFrame P V)}

theorem LiesAt.leave (lies : LiesAt m head (inner ++ outer) t) :
    LiesAt m head outer (plug inner t) := by
  induction inner generalizing t with
  | nil => exact lies
  | cons f inner ih => exact ih lies.up

theorem LiesAt.enter (lies : LiesAt m head outer (plug inner t)) :
    LiesAt m head (inner ++ outer) t := by
  induction inner generalizing t with
  | nil => exact lies
  | cons f inner ih => exact (ih lies).into

theorem LiesAt.top (lies : LiesAt m head ctx t) : LiesAt m head [] (plug ctx t) :=
  LiesAt.leave (by rwa [append_nil])

theorem labels_plug_perm (head : P) (ctx : List (TreeFrame P V)) (t : ColorTree P V) :
    ((plug ctx t).labels ++ [head]).Perm (t.labels ++ placeLabels head ctx) := by
  induction ctx generalizing t with
  | nil => exact List.Perm.refl _
  | cons f ctx ih => exact (ih (f.node t)).trans (labels_up_perm head f ctx t)

theorem LiesAt.nodup (lies : LiesAt m head ctx t) : t.labels.Nodup :=
  (nodup_append.mp lies.distinct).1

structure Reshaped (m : Heap P V) (t : ColorTree P V) (m' : Heap P V) (t' : ColorTree P V) :
    Prop where
  tree : Holds m' t'
  off : ∀ a, a ∉ t.labels → m' a = m a
  labels : t'.labels.Perm t.labels

theorem Reshaped.trans (first : Reshaped m t m' t') (second : Reshaped m' t' m'' t'') :
    Reshaped m t m'' t'' := by
  refine ⟨second.tree, fun a out => ?_, second.labels.trans first.labels⟩
  rw [second.off a (fun h => out (first.labels.mem_iff.mp h)), first.off a out]

/-- The node above a place. -/
def above (head : P) : List (TreeFrame P V) → P
  | [] => head
  | f :: _ => f.label

def aboveDir : List (TreeFrame P V) → Bool
  | [] => true
  | f :: _ => f.dir

attribute [local simp] above

theorem above_mem : above head ctx ∈ placeLabels head ctx := by
  cases ctx with
  | nil | cons f ctx => simp

theorem holdsPlace_link {r : Option P} (place : HoldsPlace m head ctx r) :
    (m (above head ctx)).link (aboveDir ctx) = r := by
  cases ctx with
  | nil =>
    have link : (m head).link = pair true r none := place
    rw [above, aboveDir, link, pair_self]
  | cons f ctx =>
    rw [above, aboveDir, place.1]
    exact pair_self ..

theorem aboveDir_eq [DecidableEq P] (lies : LiesAt m head ctx t) (root : t.root = some a) :
    decide ((m (above head ctx)).link true = some a) = aboveDir ctx := by
  have place := lies.place
  have out : a ∉ placeLabels head ctx := fun inside =>
    (nodup_append.mp lies.distinct).2.2 a (root_mem root) a inside rfl
  rw [root] at place
  cases ctx with
  | nil =>
    have link : (m head).link = pair true (some a) none := place
    simp [aboveDir, link]
  | cons f ctx =>
    rw [above, aboveDir, place.1]
    cases f.dir with
    | true => simp
    | false =>
      refine decide_eq_false fun same => out ?_
      have inSib := root_mem (t := f.sib) (by simpa [pair] using same)
      simp [inSib]

section Links
variable [DecidableEq P]

theorem setLink_of_ne (other : a ≠ b) (r : Option P) : setLink m b d r a = m a :=
  update_of_ne other _ _

variable {r : Option P}

theorem setLink_same (link : (m a).link d = r) : setLink m a d r = m := by
  rw [setLink, ← link, update_eq_self, update_eq_self]

theorem HoldsPlace.put (place : HoldsPlace m head ctx r) (tree : Holds m t)
    (distinct : (t.labels ++ placeLabels head ctx).Nodup) :
    LiesAt (setLink m (above head ctx) (aboveDir ctx) t.root) head ctx t := by
  obtain ⟨-, nodup, apart⟩ := nodup_append.mp distinct
  refine ⟨holds_congr tree fun a mem => ?_, ?_, distinct⟩
  · exact setLink_of_ne (fun same => apart a mem _ above_mem same) _
  · cases ctx with
    | nil =>
      change ((setLink m head true t.root) head).link = pair true t.root none
      have link : (m head).link = pair true r none := place
      simp [link]
    | cons f ctx =>
      obtain ⟨node, sib, rest⟩ := place
      rw [placeLabels, nodup_cons] at nodup
      refine ⟨?_, holds_congr sib fun a mem => ?_, holdsPlace_congr rest fun a mem => ?_⟩
      · simp [aboveDir, node]
      · refine setLink_of_ne (fun same : a = f.label => nodup.1 ?_) _
        exact mem_append_left _ (same ▸ mem)
      · refine setLink_of_ne (fun same : a = f.label => nodup.1 ?_) _
        exact mem_append_right _ (same ▸ mem)

theorem LiesAt.replace (lies : LiesAt m head ctx t) (reshaped : Reshaped m t m' t') :
    LiesAt (setLink m' (above head ctx) (aboveDir ctx) t'.root) head ctx t' := by
  have apart := (nodup_append.mp lies.distinct).2.2
  have place := holdsPlace_congr lies.place fun a mem =>
    reshaped.off a fun inside => apart a inside a mem rfl
  exact place.put reshaped.tree
    ((List.Perm.nodup_iff (reshaped.labels.append_right _)).mpr lies.distinct)

theorem Reshaped.outside (reshaped : Reshaped m t m' t')
    (out : a ∉ t.labels ++ placeLabels head ctx) :
    setLink m' (above head ctx) (aboveDir ctx) t'.root a = m a ∧
      a ∉ t'.labels ++ placeLabels head ctx := by
  refine ⟨?_, fun mem => out ((reshaped.labels.append_right _).mem_iff.mp mem)⟩
  have other : a ≠ above head ctx := by
    rintro rfl
    exact out (mem_append_right _ above_mem)
  rw [setLink_of_ne other, reshaped.off a fun mem => out (mem_append_left _ mem)]

theorem LiesAt.reshape (lies : LiesAt m head ctx t) (reshaped : Reshaped m t m' t')
    (root : t'.root = t.root) : LiesAt m' head ctx t' := by
  have replaced := lies.replace reshaped
  have kept : m' (above head ctx) = m (above head ctx) :=
    reshaped.off _ fun inside => (nodup_append.mp lies.distinct).2.2 _ inside _ above_mem rfl
  rwa [setLink_same (by rw [kept, holdsPlace_link lies.place, root])] at replaced

section
variable (holds : Holds m (.node a c v kids)) (nodup : (node a c v kids).labels.Nodup)
include holds nodup

theorem reshaped_update (c' : Bool) (v' : V) :
    Reshaped m (.node a c v kids) (update m a ⟨c', (m a).link, v'⟩)
      (.node a c' v' kids) := by
  refine ⟨⟨?_, fun b => holds_congr (holds.2 b) fun x mem => ?_⟩, fun x out => ?_, List.Perm.refl _⟩
  · simp [holds.1]
  · refine update_of_ne ?_ _ _
    rintro rfl
    have perm := (List.Perm.nodup_iff (labels_perm x c v kids b)).mp nodup
    exact (nodup_cons.mp perm).1 (mem_append_left _ mem)
  · refine update_of_ne ?_ _ _
    rintro rfl
    exact out (by simp [labels])

theorem reshaped_setRed (c' : Bool) :
    Reshaped m (.node a c v kids) (setRed m a c') (.node a c' v kids) := by
  have value : (m a).value = v := congrArg RbNode.value holds.1
  have reshaped := reshaped_update holds nodup c' v
  rwa [← value] at reshaped ⊢

theorem reshaped_setValue (v' : V) :
    Reshaped m (.node a c v kids) (setValue m a v') (.node a c v' kids) := by
  have red : (m a).red = c := congrArg RbNode.red holds.1
  have reshaped := reshaped_update holds nodup c v'
  rwa [← red] at reshaped ⊢

omit [DecidableEq P] in
omit holds nodup in
theorem kid_nodup (nodup : (node a c v kids).labels.Nodup) (b : Bool) :
    (kids b).labels.Nodup ∧ a ∉ (kids b).labels ∧
      ∀ w ∈ (kids !b).labels, w ∉ (kids b).labels ∧ w ≠ a := by
  obtain ⟨out, apart⟩ := nodup_cons.mp ((labels_perm a c v kids b).nodup_iff.mp nodup)
  obtain ⟨first, -, other⟩ := nodup_append.mp apart
  refine ⟨first, fun mem => out (mem_append_left _ mem), fun w mem => ⟨fun inside => ?_, ?_⟩⟩
  · exact other w inside w mem rfl
  · rintro rfl
    exact out (mem_append_right _ mem)

theorem reshaped_link (reshaped : Reshaped m (kids d) m' t') :
    Reshaped m (.node a c v kids) (setLink m' a d t'.root)
      (.node a c v (update kids d t')) := by
  obtain ⟨-, out, other⟩ := kid_nodup nodup d
  have perm := labels_perm a c v kids d
  have perm' := labels_perm a c v (update kids d t') d
  have kept : update kids d t' (!d) = kids !d := update_of_ne (by cases d <;> decide) _ _
  rw [update_self, kept] at perm'
  refine ⟨⟨?_, fun b => ?_⟩, fun w outside => ?_, ?_⟩
  · rw [setLink, update_self, reshaped.off a out, holds.1]
    refine congrArg (fun link => RbNode.mk c link v) (funext fun b => ?_)
    exact (apply_update (fun _ => root) kids d t' b).symm
  · by_cases here : b = d
    · subst here
      rw [update_self]
      refine holds_congr reshaped.tree fun w mem => setLink_of_ne ?_ _
      rintro rfl
      exact out (reshaped.labels.mem_iff.mp mem)
    · obtain rfl : b = !d := by cases b <;> cases d <;> simp_all
      rw [kept]
      refine holds_congr (holds.2 _) fun w mem => ?_
      rw [setLink_of_ne (other w mem).2, reshaped.off w (other w mem).1]
  · rw [perm.mem_iff] at outside
    simp only [mem_cons, mem_append, not_or] at outside
    rw [setLink_of_ne outside.1, reshaped.off w outside.2.1]
  · exact perm'.trans (((reshaped.labels.append_right _).cons a).trans perm.symm)

theorem reshaped_kid (reshaped : Reshaped m (kids d) m' t') (root : t'.root = (kids d).root) :
    Reshaped m (.node a c v kids) m' (.node a c v (update kids d t')) := by
  have linked := reshaped_link holds nodup reshaped
  have kept := reshaped.off a (kid_nodup nodup d).2.1
  rwa [setLink_same (by rw [kept, root, holds_link holds])] at linked

omit holds nodup in
theorem reshaped_paint (holds : Holds m t) (nodup : t.labels.Nodup) (root : t.root = some a)
    (c : Bool) : Reshaped m t (setRed m a c) (t.paint c) := by
  cases t with
  | leaf => cases root
  | node b c' v kids =>
    cases root
    exact reshaped_setRed holds nodup c

theorem reshaped_paintKid (root : (kids d).root = some b) (c' : Bool) :
    Reshaped m (.node a c v kids) (setRed m b c')
      (.node a c v (update kids d ((kids d).paint c'))) :=
  reshaped_kid holds nodup (reshaped_paint (holds.2 d) (kid_nodup nodup d).1 root c')
    (root_paint ..)

omit holds nodup in
theorem LiesAt.withValue {inner outer : List (TreeFrame P V)}
    (lies : LiesAt m head (inner ++ f :: outer) t) (v : V) :
    LiesAt (setValue m f.label v) head (inner ++ { f with value := v } :: outer) t := by
  have up := lies.leave.up
  have changed := up.reshape (reshaped_setValue up.tree up.nodup v) rfl
  exact LiesAt.enter (changed.into (f := { f with value := v }))

theorem reshaped_blackenKids {l r : P} (left : (kids false).root = some l)
    (right : (kids true).root = some r) :
    Reshaped m (.node a c v kids) (setRed (setRed m l false) r false)
      (.node a c v fun b => (kids b).paint false) := by
  have first := reshaped_paintKid holds nodup left false
  have nodup' := first.labels.nodup_iff.mpr nodup
  have right' : (update kids false ((kids false).paint false) true).root = some r := right
  have second := reshaped_paintKid first.tree nodup' right' false
  have same : update (update kids false ((kids false).paint false)) true
      ((kids true).paint false) = fun b => (kids b).paint false := by
    funext b
    cases b with
    | false | true => rfl
  exact same ▸ first.trans second

end

theorem liesAt_falseRoot {null : V} (holds : Holds m t) (distinct : t.labels.Nodup)
    (out : head ∉ t.labels) :
    LiesAt (setLink (update m head ⟨false, fun _ => none, null⟩) head true t.root)
      head [] t := by
  refine ⟨holds_congr holds fun a mem => ?_, ?_, ?_⟩
  · have other : a ≠ head := fun same => out (same ▸ mem)
    rw [setLink_of_ne other, update_of_ne other]
  · change (setLink (update m head ⟨false, fun _ => none, null⟩) head true t.root
      head).link = _
    simp only [setLink, update_self]
    funext b
    cases b with
    | false | true => rfl
  · refine nodup_append.mpr ⟨distinct, by simp, fun a mem b isHead => ?_⟩
    rintro rfl
    exact out (mem_singleton.mp isHead ▸ mem)

end Links

section Rotations
variable [DecidableEq P] {e : P} {c'' : Bool} {v'' : V}

theorem rotate_reshaped
    (holds : Holds m (.node a c v (pair d z (.node b c' v' (pair d x y)))))
    (nodup : (node a c v (pair d z (.node b c' v' (pair d x y)))).labels.Nodup) :
    ∃ m', rbtreeNodeRotate m (some a) d = .ok (some b, m') ∧
      Reshaped m (.node a c v (pair d z (.node b c' v' (pair d x y)))) m'
        (.node b false v' (pair d (.node a true v (pair d z x)) y)) := by
  have perm := (labels_pair_perm.trans ((labels_pair_perm.append_left z.labels).cons a) :
    (ColorTree.node a c v (pair d z (.node b c' v' (pair d x y)))).labels.Perm _)
  have distinct := (List.Perm.nodup_iff perm).mp nodup
  obtain ⟨top, holdsZ, holdsB⟩ := holds_pair.mp holds
  obtain ⟨kid, holdsX, holdsY⟩ := holds_pair.mp holdsB
  have other : a ≠ b := by
    rintro rfl
    simp at distinct
  refine ⟨update (update m a ⟨true, pair d z.root x.root, v⟩) b
    ⟨false, pair d (some a) y.root, v'⟩, ?_, ?_⟩
  · have link : (m a).link (!d) = some b := by rw [holds_link holds, pair_not]; rfl
    rw [rbtreeNodeRotate, link]
    change Except.ok (some b, _) = _
    refine congrArg (fun h => Except.ok (some b, h)) (funext fun w => ?_)
    by_cases isB : w = b
    · subst isB
      simp [Ne.symm other, kid]
    · by_cases isA : w = a
      · subst isA
        simp [other, kid, top]
      · simp [isA, isB]
  · simp only [nodup_cons, mem_append, mem_cons, nodup_append, not_or]
      at distinct
    obtain ⟨⟨outZ, -, outX, outY⟩, -, ⟨⟨outX', outY'⟩, -⟩, apartZ⟩ := distinct
    have keptZ : ∀ w ∈ z.labels, w ≠ a ∧ w ≠ b := fun w mem =>
      ⟨fun h => outZ (h ▸ mem), fun h => apartZ w mem b (.inl rfl) h⟩
    have keptX : ∀ w ∈ x.labels, w ≠ a ∧ w ≠ b := fun w mem =>
      ⟨fun h => outX (h ▸ mem), fun h => outX' (h ▸ mem)⟩
    have keptY : ∀ w ∈ y.labels, w ≠ a ∧ w ≠ b := fun w mem =>
      ⟨fun h => outY (h ▸ mem), fun h => outY' (h ▸ mem)⟩
    refine ⟨holds_pair.mpr ⟨by simp [root], holds_pair.mpr ⟨by simp [other], ?_, ?_⟩, ?_⟩,
      fun w out => ?_, ?_⟩
    · exact holds_congr holdsZ fun w mem => by simp [keptZ w mem]
    · exact holds_congr holdsX fun w mem => by simp [keptX w mem]
    · exact holds_congr holdsY fun w mem => by simp [keptY w mem]
    · rw [perm.mem_iff] at out
      simp only [mem_cons, mem_append, not_or] at out
      simp [out.1, out.2.2.1]
    · refine (labels_pair_perm.trans ((labels_pair_perm.append_right y.labels).cons b)).trans ?_
      refine List.Perm.trans ?_ perm.symm
      rw [cons_append, append_assoc]
      refine (List.Perm.swap a b _).trans (List.Perm.cons a ?_)
      exact perm_middle.symm

theorem rotate2_reshaped (holds : Holds m (.node a c v (pair d z
      (.node b c' v' (pair d (.node e c'' v'' (pair d x t)) y)))))
    (nodup : (node a c v (pair d z
      (.node b c' v' (pair d (.node e c'' v'' (pair d x t)) y)))).labels.Nodup) :
    ∃ m', rbtreeNodeRotate2 m (some a) d = .ok (some e, m') ∧
      Reshaped m (.node a c v (pair d z (.node b c' v' (pair d (.node e c'' v'' (pair d x t)) y))))
        m' (.node e false v'' (pair d (.node a true v (pair d z x))
          (.node b true v' (pair d t y)))) := by
  have inner := (kid_nodup nodup !d).1
  rw [pair_not] at inner
  obtain ⟨top, holdsZ, holdsB⟩ := holds_pair.mp holds
  have flipped : ∀ s : ColorTree P V, ColorTree.node b c' v' (pair d s y) =
      .node b c' v' (pair (!d) y s) := fun s => by rw [pair_flip]
  have flipped' : (ColorTree.node e c'' v'' (pair d x t)) =
      .node e c'' v'' (pair (!d) t x) := by rw [pair_flip]
  rw [flipped, flipped'] at holdsB inner
  obtain ⟨m₁, rotated, first⟩ := rotate_reshaped holdsB inner
  rw [← flipped, ← flipped'] at first
  have linked := reshaped_link (d := !d) holds nodup (by rwa [pair_not])
  rw [update_pair_not, pair_flip, pair_flip] at linked
  have nodup₁ := (List.Perm.nodup_iff linked.labels).mpr nodup
  obtain ⟨m₂, rotated₂, second⟩ := rotate_reshaped linked.tree nodup₁
  refine ⟨m₂, ?_, linked.trans second⟩
  have link : (m a).link (!d) = some b := by rw [holds_link holds, pair_not]; rfl
  rw [rbtreeNodeRotate2, link, rotated]
  exact rotated₂

end Rotations

structure IsRbTree (cmp : V → V → Int) (m : Heap P V) (tree : RbTree P) (t : ColorTree P V) :
    Prop where
  root : tree.root = t.root
  holds : Holds m t
  distinct : t.labels.Nodup
  increasing : Increasing cmp t.toList
  balanced : ∃ h, RedBlack t h
  black : t.isRed = false

def threeNodes : ColorTree Nat Int :=
  .node 0 false 2 (pair false (.node 1 true 1 fun _ => .leaf) (.node 2 true 3 fun _ => .leaf))

def threeHeap : Heap Nat Int
  | 0 => ⟨false, pair false (some 1) (some 2), 2⟩
  | 1 => ⟨true, fun _ => none, 1⟩
  | _ => ⟨true, fun _ => none, 3⟩

theorem isOrder_sub : IsOrder fun a b : Int => a - b :=
  ⟨fun a b => by omega, fun a b c first second => by omega⟩

theorem isRbTree_threeNodes :
    IsRbTree (fun a b : Int => a - b) threeHeap ⟨some 0, 3⟩ threeNodes := by
  have one : ∀ (a : Nat) (v : Int), RedBlack (.node a true v fun _ => .leaf) 0 := fun a v =>
    .red (fun _ => .leaf) fun _ => rfl
  refine ⟨rfl, holds_pair.mpr ⟨rfl, ⟨rfl, fun _ => trivial⟩, ⟨rfl, fun _ => trivial⟩⟩, by decide,
    ?_, ⟨1, redBlack_black_pair (one 1 1) (one 2 3)⟩, rfl⟩
  simp [threeNodes, pair, Increasing]

variable {cmp : V → V → Int} {value : V} {n : Nat}

theorem farKid_ne (order : IsOrder cmp)
    (increasing : Increasing cmp (plug ctx (.node a c v kids)).toList) {u : V}
    (mem : u ∈ (kids !decide (cmp v value < 0)).toList) :
    cmp u value ≠ 0 ∧ decide (cmp u value < 0) = decide (cmp v value < 0) := by
  obtain ⟨smaller, larger⟩ := increasing_node increasing
  by_cases below : cmp v value < 0
  · rw [decide_eq_true below] at mem ⊢
    have less := order.lt_of_lt_of_le (smaller u mem) (by omega : cmp v value ≤ 0)
    exact ⟨by omega, decide_eq_true less⟩
  · rw [decide_eq_false below] at mem ⊢
    have more := order.pos_of_lt (by omega : 0 ≤ cmp v value) (larger u mem)
    exact ⟨by omega, decide_eq_false (by omega)⟩

theorem findLoop_ok (order : IsOrder cmp) (holds : Holds m t) (increasing : Increasing cmp t.toList)
    (enough : t.height ≤ n) :
    (∃ a, findLoop cmp m value n t.root = .ok (some a) ∧ (m a).value ∈ t.toList ∧
      cmp (m a).value value = 0) ∨
    findLoop cmp m value n t.root = .ok none ∧ ∀ x ∈ t.toList, cmp x value ≠ 0 := by
  induction t generalizing n with
  | leaf =>
    refine .inr ⟨?_, by simp⟩
    cases n with
    | zero | succ n => rfl
  | node a c v kids ih =>
    cases n with
    | zero => simp [height] at enough
    | succ n =>
      have here : (m a).value = v := congrArg RbNode.value holds.1
      have whole : Increasing cmp (plug [] (.node a c v kids)).toList := increasing
      rw [root, findLoop, here, holds_link holds]
      by_cases equal : cmp v value = 0
      · rw [if_pos equal]
        exact .inl ⟨a, rfl, by simp [here], by rw [here, equal]⟩
      · rw [if_neg equal]
        have lower := height_kid a c v kids (decide (cmp v value < 0))
        have found := ih (decide (cmp v value < 0)) (holds.2 _) (increasing_kid increasing _)
          (n := n) (by omega)
        simp only [mem_toList_node (decide (cmp v value < 0))]
        rcases found with ⟨b, found, mem, same⟩ | ⟨missed, none⟩
        · exact .inl ⟨b, found, .inr (.inl mem), same⟩
        · refine .inr ⟨missed, ?_⟩
          rintro x (rfl | mem | mem)
          · exact equal
          · exact none x mem
          · exact (farKid_ne order whole mem).1

theorem rbtreeTreeFind_spec {self : RbTree P} {null : V} (order : IsOrder cmp)
    (tree : IsRbTree cmp m self t) (values : null ∉ t.toList) (enough : t.height ≤ n) (value : V) :
    ∃ r, rbtreeTreeFind cmp null n m self value = .ok r ∧
      (r ≠ null ↔ ∃ x ∈ t.toList, cmp x value = 0) ∧
      (r ≠ null → r ∈ t.toList ∧ cmp r value = 0) := by
  rw [rbtreeTreeFind, tree.root]
  rcases findLoop_ok order tree.holds tree.increasing enough with
    ⟨a, found, mem, same⟩ | ⟨missed, none⟩
  · rw [found]
    exact ⟨_, rfl, ⟨fun _ => ⟨_, mem, same⟩, fun _ isNull => values (isNull ▸ mem)⟩,
      fun _ => ⟨mem, same⟩⟩
  · rw [missed]
    refine ⟨null, rfl, ⟨fun other => absurd rfl other, ?_⟩, fun other => absurd rfl other⟩
    rintro ⟨x, mem, same⟩
    exact absurd same (none x mem)

structure Search (P V : Type) where
  cmp : V → V → Int
  order : IsOrder cmp
  head : P
  value : V
  values : List V
  increasing : Increasing cmp values

def Search.dirOf (S : Search P V) (u : V) : Bool := decide (S.cmp u S.value < 0)

end Elaborato.Mentos.Rbtree
