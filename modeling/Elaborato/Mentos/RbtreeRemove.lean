import Elaborato.Mentos.RbtreeHeap

/-!
Removal: a red node is pushed down in front of the loop, so the last node is red or all.
-/
namespace Elaborato.Mentos.Rbtree
open Foundation Foundation.ColorTree List

variable {P V : Type} {S : Search P V} {a b : P} {m m' : Heap P V} {c d : Bool} {u v : V}
  {s : Remove P V} {ctx rest : List (TreeFrame P V)} {t t' x y : ColorTree P V}
  {kids : Bool → ColorTree P V} {h h' n : Nat} {f : TreeFrame P V}

/-- The loop has come to a subtree. -/
structure Site (S : Search P V) (m : Heap P V) (ctx : List (TreeFrame P V)) (t : ColorTree P V)
    (h : Nat) : Prop where
  lies : LiesAt m S.head ctx t
  balanced : RedBlack t h
  fills : Fills ctx h t.isRed
  between : Between (fun x => S.cmp x S.value < 0) (fun x => 0 ≤ S.cmp x S.value) ctx
  list : (plug ctx t).toList = S.values

theorem Site.increasing (site : Site S m ctx t h) : Increasing S.cmp (plug ctx t).toList := by
  rw [site.list]
  exact S.increasing

theorem Site.down (site : Site S m ctx (.node a c u kids) h) (dir : S.dirOf u = d) :
    ∃ h', Site S m (⟨a, c, u, d, kids !d⟩ :: ctx) (kids d) h' := by
  obtain ⟨h', balanced, -, fills⟩ := site.fills.down site.balanced d
  refine ⟨h', site.lies.down d, balanced, fills, ?_, ?_⟩
  · refine site.between.down site.increasing (fun down => ?_) fun up => ?_
    · have below : S.cmp u S.value < 0 := of_decide_eq_true (dir.trans down)
      exact ⟨below, fun x less => S.order.lt_of_lt_of_le less (by omega)⟩
    · have notBelow : ¬ S.cmp u S.value < 0 := of_decide_eq_false (dir.trans up)
      refine ⟨by omega, fun x more => ?_⟩
      have above := S.order.pos_of_lt (by omega : 0 ≤ S.cmp u S.value) more
      omega
  · rw [plug_down, site.list]

theorem Site.into (site : Site S m ctx (f.node t) h) (dir : S.dirOf f.value = f.dir) :
    ∃ h', Site S m (f :: ctx) t h' := by
  obtain ⟨h', inside⟩ := site.down dir
  rw [pair_self, pair_not] at inside
  exact ⟨h', inside⟩

attribute [local simp] Foundation.after before toList after_append

theorem Site.dirOf_frame (site : Site S m (f :: ctx) t h) : S.dirOf f.value = f.dir := by
  cases dir : f.dir with
  | true => exact decide_eq_true (site.between.left _ (by simp [dir]))
  | false =>
    have above := site.between.right f.value (by simp [dir])
    exact decide_eq_false (by omega)

theorem Site.exchange (site : Site S m ctx t h) (lies : LiesAt m' S.head ctx t')
    (list : t'.toList = t.toList) (balanced : RedBlack t' h') (fills : Fills ctx h' t'.isRed) :
    Site S m' ctx t' h' := by
  refine ⟨lies, balanced, fills, site.between, ?_⟩
  rw [← site.list, toList_plug, toList_plug, list]

theorem Site.exchangeUp (site : Site S m (f :: ctx) t h) (lies : LiesAt m' S.head ctx t')
    (list : t'.toList = (f.node t).toList) (balanced : RedBlack t' h')
    (fills : Fills ctx h' t'.isRed) : Site S m' ctx t' h' := by
  refine ⟨lies, balanced, fills, site.between.tail, ?_⟩
  rw [← site.list, plug_cons, toList_plug, toList_plug, list]

def target (S : Search P V) (ctx : List (TreeFrame P V)) : Option P :=
  (ctx.find? fun f => S.cmp f.value S.value = 0).map TreeFrame.label

theorem target_cons (f : TreeFrame P V) (ctx : List (TreeFrame P V)) :
    target S (f :: ctx) = if S.cmp f.value S.value = 0 then some f.label else target S ctx := by
  by_cases equal : S.cmp f.value S.value = 0 <;> simp [target, equal]

def Pushed (ctx : List (TreeFrame P V)) (t : ColorTree P V) : Prop :=
  ∀ f rest, ctx = f :: rest → f.red = true ∨ t.isRed = true ∨ rest = [] ∧ f.sib.isRed = false

/-- The loop is at the place. -/
structure Descent (S : Search P V) (s : Remove P V) (ctx : List (TreeFrame P V))
    (t : ColorTree P V) (h : Nat) : Prop where
  site : Site S s.mem ctx t h
  here : s.q = above S.head ctx
  dir : s.dir = aboveDir ctx
  parent : ∀ f rest, ctx = f :: rest → s.p = some (above S.head rest)
  found : s.f = target S ctx
  pushed : Pushed ctx t
  root : ctx = [] → t.root ≠ none

structure Moved (S : Search P V) (s : Remove P V) (ctx : List (TreeFrame P V)) (a : P) (u : V) :
    Prop where
  here : s.q = a
  dir : s.dir = S.dirOf u
  parent : s.p = some (above S.head ctx)
  grand : ∀ f rest, ctx = f :: rest → s.g = some (above S.head rest)
  found : s.f = if S.cmp u S.value = 0 then some a else target S ctx

theorem Moved.descent (moved : Moved S s ctx a u) {s' : Remove P V}
    (kept : s'.q = s.q ∧ s'.dir = s.dir ∧ s'.f = s.f) (dir : S.dirOf u = d)
    (site : Site S s'.mem (⟨a, c, u, d, x⟩ :: rest) t h)
    (parent : s'.p = some (above S.head rest)) (found : target S rest = target S ctx)
    (pushed : c = true ∨ t.isRed = true ∨ rest = [] ∧ x.isRed = false) :
    Descent S s' (⟨a, c, u, d, x⟩ :: rest) t h := by
  refine ⟨site, kept.1.trans moved.here, (kept.2.1.trans moved.dir).trans dir,
    fun f _ same => ?_, ?_, fun f _ same => ?_, nofun⟩
  · obtain ⟨rfl, rfl⟩ := List.cons.inj same
    exact parent
  · rw [kept.2.2, moved.found, target_cons, found]
  · obtain ⟨rfl, rfl⟩ := List.cons.inj same
    exact pushed

/-- What a turn of the loop leaves. -/
def Descends (S : Search P V) (t : ColorTree P V) (r : Except RbHalt (Remove P V)) : Prop :=
  ∃ s ctx h, r = .ok s ∧ Descent S s ctx t h

section Pushing
variable [DecidableEq P]

omit [DecidableEq P] in
theorem isRed_link (holds : Holds m (.node a c u kids)) (d : Bool) :
    rbtreeNodeIsRed m ((m a).link d) = (kids d).isRed := by
  rw [holds_link holds, isRed_root (holds.2 d)]

theorem pushRed_red (site : Site S s.mem ctx (.node a c u kids) h) (moved : Moved S s ctx a u)
    (red : c = true ∨ (kids (S.dirOf u)).isRed = true) (last : Bool) :
    Descends S (kids (S.dirOf u)) (pushRed last s) := by
  have color : rbtreeNodeIsRed s.mem (some a) = c := isRed_root site.lies.tree
  obtain ⟨h', below⟩ := site.down rfl
  refine ⟨s, _, h', ?_, moved.descent ⟨rfl, rfl, rfl⟩ rfl below moved.parent rfl
    (red.imp_right .inl)⟩
  rw [pushRed, moved.here, moved.dir, color, isRed_link site.lies.tree]
  rcases red with rfl | red
  · rfl
  · rw [red, Bool.not_true, Bool.and_false]
    rfl

theorem pushRed_rotate (site : Site S s.mem ctx (.node a false u kids) h)
    (moved : Moved S s ctx a u) (black : (kids (S.dirOf u)).isRed = false)
    (red : (kids !S.dirOf u).isRed = true) :
    Descends S (kids (S.dirOf u)) (pushRed (aboveDir ctx) s) := by
  have color : rbtreeNodeIsRed s.mem (some a) = false := isRed_root site.lies.tree
  have links := isRed_link site.lies.tree
  have far : ∀ w ∈ (kids !S.dirOf u).toList,
      S.cmp w S.value ≠ 0 ∧ S.dirOf w = S.dirOf u := fun w mem =>
    farKid_ne S.order site.increasing mem
  generalize dir : S.dirOf u = d at *
  cases other : kids !d with
  | leaf =>
    rw [other] at red
    cases red
  | node b c v k =>
    rw [other] at red
    have isRed : c = true := red
    subst isRed
    obtain ⟨differs, dirB⟩ := far v (by simp [other])
    have shape : ColorTree.node a false u kids =
        .node a false u (pair d (kids d) (.node b true v (pair d (k d) (k !d)))) := by
      rw [pair_eta, ← other, pair_eta]
    have balanced := site.balanced
    cases balanced with
    | @black _ _ _ h balanced =>
      have balanced' := balanced !d
      rw [other] at balanced'
      cases balanced' with
      | red balanced' blackKids =>
        have site' := site
        rw [shape] at site'
        obtain ⟨m₁, rotated, reshaped⟩ := rotate_reshaped site'.lies.tree site'.lies.nodup
        have turned := site'.exchange (site'.lies.replace reshaped) (toList_rotate ..)
          (redBlack_black_pair (redBlack_red_pair (balanced d) (balanced' d) black
            (blackKids d)) (balanced' !d)) site.fills
        obtain ⟨_, first⟩ := turned.into (f := ⟨b, false, v, d, k !d⟩) dirB
        obtain ⟨h', second⟩ := first.into (f := ⟨a, true, u, d, k d⟩) dir
        refine ⟨{ s with mem := _, p := some b }, _, h', ?_, moved.descent ⟨rfl, rfl, rfl⟩
          dir second rfl ?_ (.inl rfl)⟩
        · rw [pushRed, moved.here, moved.dir, moved.parent, color, links, dir, black, links,
            other, rotated]
          rfl
        · rw [target_cons, if_neg differs]

end Pushing

section Borrowing
variable [DecidableEq P] {top p head : P} {w : V} {z : ColorTree P V} {k : Bool → ColorTree P V}

omit [DecidableEq P] in
theorem Site.sib_ne (site : Site S m (f :: rest) t h) (mem : w ∈ f.sib.toList) :
    S.cmp w S.value ≠ 0 ∧ S.dirOf w = f.dir := by
  have dir : decide (S.cmp f.value S.value < 0) = f.dir := site.dirOf_frame
  have increasing : Increasing S.cmp
      (plug rest (.node f.label f.red f.value (pair f.dir t f.sib))).toList := site.increasing
  have far : w ∈ (pair f.dir t f.sib !decide (S.cmp f.value S.value < 0)).toList := by
    rwa [dir, pair_not]
  obtain ⟨differs, same⟩ := farKid_ne S.order increasing far
  exact ⟨differs, same.trans dir⟩

omit [DecidableEq P] in
theorem Site.sibling (site : Site S m (f :: rest) (.node a false u kids) (h + 1))
    (pushed : Pushed (f :: rest) (.node a false u kids)) :
    ∃ b v k, f.sib = .node b false v k ∧ (∀ e, RedBlack (k e) h) ∧ Fills rest (h + 1) true := by
  have sibling : RedBlack f.sib (h + 1) ∧ f.sib.isRed = false ∧ Fills rest (h + 1) true := by
    cases site.fills with
    | red _ balanced black fills => exact ⟨balanced, black, fills⟩
    | black isBlack balanced fills =>
      rcases pushed f rest rfl with red | red | ⟨rfl, black⟩
      · rw [isBlack] at red
        cases red
      · cases red
      · exact ⟨balanced, black, .nil⟩
  obtain ⟨balanced, black, fills⟩ := sibling
  cases sib : f.sib with
  | leaf =>
    rw [sib] at balanced
    cases balanced
  | node b c v k =>
    rw [sib] at balanced black
    have isBlack : c = false := black
    subst isBlack
    cases balanced with
    | black balanced => exact ⟨b, v, k, rfl, balanced, fills⟩

omit [DecidableEq P] in
theorem Moved.borrowed (moved : Moved S s (f :: rest) a u) {d : Bool}
    (site : Site S m' (⟨f.label, c, f.value, d, x⟩ :: ctx) (.node a true u kids) h)
    (found : target S ctx = target S rest) :
    Descends S (kids (S.dirOf u)) (.ok { s with mem := m' }) := by
  obtain ⟨h', below⟩ := site.down rfl
  refine ⟨_, _, h', rfl, moved.descent ⟨rfl, rfl, rfl⟩ rfl below moved.parent ?_ (.inl rfl)⟩
  rw [target_cons, target_cons, found]

theorem recolor_ok (lies : LiesAt m head rest
      (.node top c w (pair d (.node p true v (pair d x y)) z)))
    (root : x.root = some a) (root' : z.root = some b) :
    ∃ m', recolor (above head rest) (aboveDir rest) a m = .ok m' ∧ LiesAt m' head rest
      (.node top true w (pair d (.node p false v (pair d (x.paint true) y)) (z.paint false))) := by
  have first := reshaped_setRed lies.tree lies.nodup true
  have lies₁ := lies.reshape first rfl
  have inner := lies₁.tree.2 d
  have innerNodup := (kid_nodup lies₁.nodup d).1
  have inner' : Reshaped (setRed m top true) (pair d (.node p true v (pair d x y)) z d)
      (setRed (setRed m top true) a true) (.node p true v (pair d (x.paint true) y)) := by
    rw [pair_self] at inner innerNodup ⊢
    have painted := reshaped_paintKid (d := d) inner innerNodup (by rw [pair_self, root]) true
    rwa [update_pair, pair_self] at painted
  have second := reshaped_kid lies₁.tree lies₁.nodup inner' (by rw [pair_self]; rfl)
  rw [update_pair] at second
  have lies₂ := lies₁.reshape second rfl
  have kids : ∀ e, ∃ l, (pair d (ColorTree.node p true v (pair d (x.paint true) y)) z e).root =
      some l := (forall_pair (P := fun t : ColorTree P V => ∃ l, t.root = some l)).mpr
    ⟨⟨p, rfl⟩, ⟨b, root'⟩⟩
  obtain ⟨l, left⟩ := kids false
  obtain ⟨r, right⟩ := kids true
  have third := reshaped_paintKid lies₂.tree lies₂.nodup left false
  have lies₃ := lies₂.reshape third rfl
  have both := reshaped_blackenKids lies₂.tree lies₂.nodup left right
  have lies₄ := lies₂.reshape both rfl
  rw [comp_pair (ColorTree.paint false)] at lies₄
  refine ⟨_, ?_, lies₄⟩
  have link := holdsPlace_link lies.place
  have link₂ := holdsPlace_link lies₂.place
  have link₃ := holdsPlace_link lies₃.place
  have linkL := (holds_link lies₂.tree false).trans left
  have linkR := (holds_link lies₃.tree true).trans right
  simp only [recolor, link, link₂, link₃, ColorTree.root, deref_bind, linkL, linkR]

section
variable (site : Site S s.mem (f :: rest) (.node a false u kids) (h + 1))
  (moved : Moved S s (f :: rest) a u) (balanced : RedBlack (.node a true u kids) h)
include site moved balanced

theorem borrow_flip (sib : f.sib = .node b false v k) (balanced' : ∀ e, RedBlack (k e) h)
    (black : ∀ e, (k e).isRed = false) (fills : Fills rest (h + 1) true) :
    Descends S (kids (S.dirOf u)) (borrow f.dir s) := by
  obtain ⟨node, holdsSib, -⟩ := site.lies.place
  have link : (s.mem f.label).link (!f.dir) = some b := by
    rw [node, sib]
    exact pair_not ..
  rw [sib] at holdsSib
  have up := site.lies.up
  have first := reshaped_setRed up.tree up.nodup false
  have lies₁ := up.reshape first rfl
  have second := reshaped_paintKid (d := !f.dir) (b := b) lies₁.tree lies₁.nodup
    (by rw [pair_not, sib]; rfl) true
  rw [update_pair_not, pair_not] at second
  have lies₂ := lies₁.reshape second rfl
  have third := reshaped_paintKid (d := f.dir) (b := a) lies₂.tree lies₂.nodup
    (by rw [pair_self]; rfl) true
  rw [update_pair, pair_self] at third
  have lies₃ := lies₂.reshape third rfl
  have done : borrow f.dir s = .ok { s with
      mem := setRed (setRed (setRed s.mem f.label false) b true) a true } := by
    rw [borrow, moved.parent]
    simp only [above, deref_bind, link]
    rw [isRed_link holdsSib, isRed_link holdsSib, black, black, moved.here]
    rfl
  rw [done]
  have sibRed : RedBlack (f.sib.paint true) h := by
    rw [sib]
    exact .red balanced' black
  have site' := site.exchangeUp lies₃ (toList_pair_congr f.dir rfl (toList_paint ..))
    (redBlack_black_pair balanced sibRed) (fills.mono false)
  obtain ⟨h', inside⟩ := site'.into (f := ⟨f.label, false, f.value, f.dir, f.sib.paint true⟩)
    site.dirOf_frame
  exact moved.borrowed inside rfl

theorem borrow_rotated (fills : Fills rest (h + 1) true) {m₁ : Heap P V}
    (reshaped : Reshaped s.mem (f.node (.node a false u kids)) m₁ (.node top false w
      (pair f.dir (.node f.label true f.value (pair f.dir (.node a false u kids) x)) z)))
    (rotated : borrow f.dir s = do
      let mem ← recolor (above S.head rest) (aboveDir rest) a
        (setLink m₁ (above S.head rest) (aboveDir rest) (some top))
      .ok { s with mem }) (near : RedBlack x h) (far : RedBlack (z.paint false) (h + 1))
    (list : (ColorTree.node top true w (pair f.dir x z)).toList = f.sib.toList) :
    Descends S (kids (S.dirOf u)) (borrow f.dir s) := by
  have root : ∃ r, z.root = some r := by
    cases z with
    | leaf => cases far
    | node r c v k => exact ⟨r, rfl⟩
  obtain ⟨r, root⟩ := root
  obtain ⟨m₂, recolored, lies⟩ := recolor_ok (a := a) (site.lies.up.replace reshaped) rfl root
  have lies' : LiesAt m₂ S.head rest (.node top true w
      (pair f.dir (.node f.label false f.value (pair f.dir (.node a true u kids) x))
        (z.paint false))) := lies
  rw [ColorTree.root] at recolored
  rw [rotated, recolored]
  have values : (ColorTree.node top true w
      (pair f.dir (.node f.label false f.value (pair f.dir (.node a true u kids) x))
        (z.paint false))).toList = (f.node (.node a false u kids)).toList := by
    rw [toList_rotate f.label top true false false true]
    refine toList_pair_congr f.dir rfl ?_
    rw [← list]
    exact toList_pair_congr f.dir rfl (toList_paint ..)
  have site' := site.exchangeUp lies' values
    (redBlack_red_pair (redBlack_black_pair balanced near) far rfl (isRed_blacken _)) fills
  have mem : w ∈ f.sib.toList := by
    rw [← list, mem_toList_node false]
    exact .inl rfl
  obtain ⟨differs, dir⟩ := site.sib_ne mem
  obtain ⟨_, first⟩ := site'.into (f := ⟨top, true, w, f.dir, z.paint false⟩) dir
  obtain ⟨_, second⟩ := first.into (f := ⟨f.label, false, f.value, f.dir, x⟩) site.dirOf_frame
  refine moved.borrowed second ?_
  rw [target_cons, if_neg differs]

theorem borrow_red (sib : f.sib = .node b false v k) (balanced' : ∀ e, RedBlack (k e) h)
    (red : (k f.dir).isRed = true ∨ (k !f.dir).isRed = true) (fills : Fills rest (h + 1) true) :
    Descends S (kids (S.dirOf u)) (borrow f.dir s) := by
  obtain ⟨node, holdsSib, -⟩ := site.lies.place
  have link : (s.mem f.label).link (!f.dir) = some b := by
    rw [node, sib]
    exact pair_not ..
  rw [sib] at holdsSib
  have up := site.lies.up
  have dir2 : decide ((s.mem (above S.head rest)).link true = some f.label) = aboveDir rest :=
    aboveDir_eq up rfl
  have links := isRed_link holdsSib
  have whole : f.node (.node a false u kids) = .node f.label f.red f.value
      (pair f.dir (.node a false u kids) (.node b false v (pair f.dir (k f.dir) (k !f.dir)))) := by
    rw [TreeFrame.node, sib, pair_eta]
  have parent : s.p = some f.label := moved.parent
  have grand := moved.grand f rest rfl
  cases inner : (k f.dir).isRed with
  | true =>
    cases near : k f.dir with
    | leaf =>
      rw [near] at inner
      cases inner
    | node e c w k' =>
      have isRed : c = true := by
        rw [near] at inner
        exact inner
      subst isRed
      have below := balanced' f.dir
      rw [near] at below
      cases below with
      | red below _ =>
        rw [whole, near, ← pair_eta f.dir k'] at up
        obtain ⟨m₁, rotated, reshaped⟩ := rotate2_reshaped up.tree up.nodup
        rw [pair_eta, ← near, ← whole] at reshaped
        refine borrow_rotated site moved balanced fills reshaped ?_ (below _)
          (redBlack_black_pair (below _) (balanced' _)) ?_
        · rw [borrow, parent, grand]
          simp only [deref_bind, link, links, inner, dir2, rotated]
          rw [moved.here]
          cases (k !f.dir).isRed <;> rfl
        · have shape : k = pair f.dir (.node e true w (pair f.dir (k' f.dir) (k' !f.dir)))
              (k !f.dir) := by
            rw [pair_eta, ← near, pair_eta]
          rw [sib, shape, pair_not]
          exact (toList_rotate ..).symm
  | false =>
    have outer : (k !f.dir).isRed = true := by simpa [inner] using red
    rw [whole] at up
    obtain ⟨m₁, rotated, reshaped⟩ := rotate_reshaped up.tree up.nodup
    rw [← whole] at reshaped
    refine borrow_rotated site moved balanced fills reshaped ?_ (balanced' _) ?_ ?_
    · rw [borrow, parent, grand]
      simp only [deref_bind, link, links, inner, outer, dir2, rotated]
      rw [moved.here]
      rfl
    · exact redBlack_blacken_red (balanced' _) outer
    · rw [sib, pair_eta]
      rfl

end

theorem pushRed_borrow (site : Site S s.mem ctx (.node a false u kids) h)
    (moved : Moved S s ctx a u) (pushed : Pushed ctx (.node a false u kids))
    (black : ∀ e, (kids e).isRed = false) :
    Descends S (kids (S.dirOf u)) (pushRed (aboveDir ctx) s) := by
  have color : rbtreeNodeIsRed s.mem (some a) = false := isRed_root site.lies.tree
  have isBorrow : pushRed (aboveDir ctx) s = borrow (aboveDir ctx) s := by
    rw [pushRed, moved.here, color, isRed_link site.lies.tree, isRed_link site.lies.tree, black,
      black]
    rfl
  rw [isBorrow]
  cases ctx with
  | nil =>
    obtain ⟨h', below⟩ := site.down rfl
    refine ⟨s, _, h', ?_, moved.descent ⟨rfl, rfl, rfl⟩ rfl below moved.parent rfl
      (.inr (.inr ⟨rfl, black _⟩))⟩
    have place : (s.mem S.head).link = pair true (some a) none := site.lies.place
    rw [borrow, moved.parent, above, deref_bind, place]
    rfl
  | cons f rest =>
    have balanced := site.balanced
    cases balanced with
    | @black _ _ _ h balanced =>
      obtain ⟨b, v, k, sib, balanced', fills⟩ := site.sibling pushed
      by_cases red : (k f.dir).isRed = true ∨ (k !f.dir).isRed = true
      · exact borrow_red site moved (.red balanced black) sib balanced' red fills
      · refine borrow_flip site moved (.red balanced black) sib balanced' (fun e => ?_) fills
        rw [← pair_eta f.dir k]
        refine forall_pair (P := fun t : ColorTree P V => t.isRed = false) |>.mpr ⟨?_, ?_⟩ e
        · simpa using fun isRed => red (.inl isRed)
        · simpa using fun isRed => red (.inr isRed)

theorem removeStep_descends (descent : Descent S s ctx (.node a c u kids) h) :
    Descends S (kids (S.dirOf u)) (removeStep S.cmp S.value a s) := by
  have here : (s.mem a).value = u := congrArg RbNode.value descent.site.lies.tree.1
  let s' : Remove P V := { s with
    g := s.p
    p := some s.q
    q := a
    dir := S.dirOf u
    f := if S.cmp u S.value = 0 then some a else s.f }
  have step : removeStep S.cmp S.value a s = pushRed (aboveDir ctx) s' := by
    rw [removeStep, here, descent.dir]
    rfl
  have moved : Moved S s' ctx a u :=
    ⟨rfl, rfl, congrArg some descent.here, descent.parent, by rw [← descent.found]⟩
  have site : Site S s'.mem ctx (.node a c u kids) h := descent.site
  rw [step]
  by_cases red : c = true ∨ (kids (S.dirOf u)).isRed = true
  · exact pushRed_red site moved red _
  · simp only [not_or, Bool.not_eq_true] at red
    obtain ⟨rfl, black⟩ := red
    cases other : (kids !S.dirOf u).isRed with
    | true => exact pushRed_rotate site moved black other
    | false =>
      refine pushRed_borrow site moved descent.pushed fun e => ?_
      rw [← pair_eta (S.dirOf u) kids]
      exact forall_pair (P := fun t : ColorTree P V => t.isRed = false) |>.mpr ⟨black, other⟩ e

theorem removeLoop_descent (descent : Descent S s ctx t h) (enough : t.height < n) :
    Descends S .leaf (removeLoop S.cmp S.value n s) := by
  induction n generalizing s ctx t h with
  | zero => omega
  | succ n ih =>
    have link : (s.mem s.q).link s.dir = t.root := by
      rw [descent.here, descent.dir]
      exact holdsPlace_link descent.site.lies.place
    rw [removeLoop, link]
    cases t with
    | leaf => exact ⟨s, ctx, h, rfl, descent⟩
    | node a c u kids =>
      obtain ⟨s', ctx', h', step, descent'⟩ := removeStep_descends descent
      have lower := height_kid a c u kids (S.dirOf u)
      simp only [root]
      rw [step]
      exact ih descent' (by omega)

end Borrowing

section Unlinking

theorem Descent.last (descent : Descent S s (f :: rest) .leaf h) :
    f.sib = .leaf ∧ Fills rest 0 false := by
  have leaf : ∀ {t : ColorTree P V}, RedBlack t 0 → t.isRed = false → t = .leaf := by
    intro t balanced black
    cases balanced with
    | leaf => rfl
    | red => cases black
  cases descent.site.balanced with
  | leaf =>
    cases descent.site.fills with
    | red _ sib black fills => exact ⟨leaf sib black, fills.mono false⟩
    | black isBlack sib fills =>
      rcases descent.pushed f rest rfl with red | red | ⟨rfl, black⟩
      · rw [isBlack] at red
        cases red
      · cases red
      · exact ⟨leaf sib black, .nil⟩

section
variable (site : Site S m ctx .leaf h)
include site

theorem Site.values : S.values = before ctx ++ after ctx := by
  rw [← site.list, toList_plug]
  simp

theorem Site.after_increasing : Increasing S.cmp (after ctx) := by
  have increasing := S.increasing
  rw [site.values] at increasing
  exact (pairwise_append.mp increasing).2.1

theorem Site.target_some (found : target S ctx = some a) :
    ∃ inner g outer, ctx = inner ++ g :: outer ∧ g.label = a ∧ S.cmp g.value S.value = 0 ∧
      g.dir = false ∧ ∀ f ∈ inner, f.dir = true := by
  obtain ⟨g, isFirst, label⟩ := Option.map_eq_some_iff.mp found
  obtain ⟨equal, inner, outer, same, -⟩ := find?_eq_some_iff_append.mp isFirst
  have equal' : S.cmp g.value S.value = 0 := of_decide_eq_true equal
  have dir : g.dir = false := by
    cases dir : g.dir with
    | false => rfl
    | true =>
      have below := site.between.left g.value (by simp [same, before_append, dir])
      omega
  refine ⟨inner, g, outer, same, label, equal', dir, fun f mem => ?_⟩
  obtain ⟨first, second, rfl⟩ := append_of_mem mem
  cases other : f.dir with
  | true => rfl
  | false =>
    have notBelow := site.between.right f.value (by simp [same, other])
    have increasing := site.after_increasing
    rw [same, after_append, Increasing, pairwise_append] at increasing
    have less := increasing.2.2 f.value (by simp [other]) g.value
      (by simp [dir])
    have below := S.order.lt_of_lt_of_le less (by omega : S.cmp g.value S.value ≤ 0)
    omega

theorem Site.target_none (missed : target S ctx = none) : ∀ x ∈ S.values, S.cmp x S.value ≠ 0 := by
  intro x mem equal
  have differ : ∀ f ∈ ctx, S.cmp f.value S.value ≠ 0 := by
    simpa using find?_eq_none.mp (Option.map_eq_none_iff.mp missed)
  rw [site.values] at mem
  rcases mem_append.mp mem with left | right
  · have below := site.between.left x left
    omega
  cases first : ctx.find? fun f => !f.dir with
  | none =>
    have all : ∀ f ∈ ctx, f.dir = true := by simpa using find?_eq_none.mp first
    rw [after_eq_nil all] at right
    cases right
  | some g =>
    obtain ⟨dir, inner, outer, rfl, before⟩ := find?_eq_some_iff_append.mp first
    have dir' : g.dir = false := by simpa using dir
    have none : after inner = [] := after_eq_nil (by simpa using before)
    have shape : after (inner ++ g :: outer) = g.value :: (g.sib.toList ++ after outer) := by
      simp [none, dir']
    rw [shape] at right
    have increasing := site.after_increasing
    rw [shape, Increasing, pairwise_cons] at increasing
    rcases mem_cons.mp right with rfl | later
    · exact differ g (by simp) equal
    · have less := increasing.1 x later
      have below := S.order.lt_of_lt_of_le less (by omega : S.cmp x S.value ≤ 0)
      have notBelow := site.between.right g.value (by simp [shape])
      omega

end

variable [DecidableEq P]

structure Removed (S : Search P V) (m : Heap P V) (t : ColorTree P V) (calls : List (P × V)) :
    Prop where
  lies : LiesAt m S.head [] t
  balanced : ∃ h, RedBlack t h
  list : calls = [] ∧ t.toList = S.values ∧ (∀ x ∈ S.values, S.cmp x S.value ≠ 0) ∨
    ∃ q w l r, calls = [(q, w)] ∧ q ∉ t.labels ∧ S.cmp w S.value = 0 ∧
      S.values = l ++ w :: r ∧ t.toList = l ++ r

variable (descent : Descent S s (f :: rest) .leaf h) (found : target S (f :: rest) = some a)
include descent found

theorem Descent.exchange :
    ∃ rest' w l r, LiesAt (setValue s.mem a f.value) S.head rest'
        (.node f.label f.red f.value fun _ => .leaf) ∧
      above S.head rest' = above S.head rest ∧ Fills rest' 0 false ∧
      (s.mem a).value = w ∧ S.cmp w S.value = 0 ∧ S.values = l ++ w :: r ∧
      before rest' ++ after rest' = l ++ r := by
  obtain ⟨inner, g, outer, same, rfl, equal, dir, right⟩ := descent.site.target_some found
  obtain ⟨leaf, fills⟩ := descent.last
  have lies := descent.site.lies
  have leaves : ∀ d, pair d ColorTree.leaf f.sib = fun _ => (.leaf : ColorTree P V) := by
    intro d
    rw [leaf]
    funext b
    exact ite_self _
  have values := descent.site.values
  rw [same] at lies
  have changed := lies.withValue f.value
  have value : (s.mem g.label).value = g.value := congrArg RbNode.value lies.leave.up.tree.1
  cases inner with
  | nil =>
    obtain ⟨rfl, rfl⟩ := List.cons.inj same
    have node := changed.up
    rw [TreeFrame.node, leaves] at node
    refine ⟨rest, f.value, before rest, after rest, node, rfl, fills, value, equal, ?_, rfl⟩
    rw [values]
    simp [dir, leaf]
  | cons f' inner =>
    obtain ⟨rfl, rfl⟩ := List.cons.inj same
    have node := changed.up
    rw [TreeFrame.node, leaves] at node
    have none := after_eq_nil fun f' mem => right f' (mem_cons_of_mem _ mem)
    have dir' := right f mem_cons_self
    refine ⟨_, g.value, before (f :: (inner ++ g :: outer)), g.sib.toList ++ after outer, node,
      ?_, fills.withValue f.value, value, equal, ?_, ?_⟩
    · cases inner with
      | nil | cons f' inner => rfl
    · rw [values]
      simp [none, dir, dir']
    · simp [before_append, none, dir, dir', leaf]

theorem unlink_removed : ∃ m t, unlink a s = .ok m ∧ Removed S m t [(s.q, (m s.q).value)] := by
  obtain ⟨rest', w, l, r, lies, same, fills, value, equal, values, list⟩ := descent.exchange found
  have here : s.q = f.label := descent.here
  have hereValue : (s.mem f.label).value = f.value :=
    congrArg RbNode.value descent.site.lies.up.tree.1
  have reshaped := reshaped_setValue lies.tree lies.nodup w
  have lies' := lies.reshape reshaped rfl
  have distinct : (f.label :: placeLabels S.head rest').Nodup := lies.distinct
  have dir := aboveDir_eq lies' rfl
  have links : ∀ d, (setValue (setValue s.mem a f.value) f.label w f.label).link d = none :=
    fun d => holds_link lies'.tree d
  have put := HoldsPlace.put (t := .leaf) lies'.place trivial (nodup_cons.mp distinct).2
  obtain ⟨h', balanced⟩ := redBlack_plug fills .leaf fun red => red
  have other : f.label ≠ above S.head rest' := fun isAbove =>
    (nodup_cons.mp distinct).1 (isAbove ▸ above_mem)
  refine ⟨_, _, ?_, put.top, ⟨h', balanced⟩, .inr ⟨s.q, w, l, r, ?_, ?_, equal, values, ?_⟩⟩
  · rw [unlink, here, hereValue, value, descent.parent f rest rfl, deref_bind, ← same, dir, links]
    rfl
  · rw [here, setLink_of_ne other]
    exact congrArg (fun v => [(f.label, v)]) (congrArg RbNode.value lies'.tree.1)
  · intro mem
    refine (nodup_cons.mp distinct).1 ?_
    have perm := labels_plug_perm S.head rest' (.leaf : ColorTree P V)
    exact perm.mem_iff.mp (mem_append_left _ (here ▸ mem))
  · rw [toList_plug, ← list]
    simp

end Unlinking

variable [DecidableEq P] {calls : List (P × V)} {cmp : V → V → Int} {null value : V} {head : P}
  {self : RbTree P}

def TakenOut (cmp : V → V → Int) (value : V) (old new : List V) (left : List P)
    (calls : List (P × V)) : Prop :=
  calls = [] ∧ new = old ∧ (∀ x ∈ old, cmp x value ≠ 0) ∨
  ∃ q w l r, calls = [(q, w)] ∧ q ∉ left ∧ cmp w value = 0 ∧ old = l ++ w :: r ∧ new = l ++ r

omit [DecidableEq P] in
theorem TakenOut.mem {old new : List V} {left : List P}
    (taken : TakenOut cmp value old new left calls) (order : IsOrder cmp)
    (increasing : Increasing cmp old) (x : V) :
    x ∈ new ↔ x ∈ old ∧ cmp x value ≠ 0 := by
  rcases taken with ⟨-, rfl, absent⟩ | ⟨q, w, l, r, -, -, equal, rfl, rfl⟩
  · exact ⟨fun mem => ⟨mem, absent x mem⟩, And.left⟩
  · rw [Increasing, pairwise_append, pairwise_cons] at increasing
    obtain ⟨-, ⟨more, -⟩, less⟩ := increasing
    simp only [mem_append, mem_cons]
    constructor
    · rintro (left | right)
      · have below := order.lt_of_lt_of_le (less x left w mem_cons_self)
          (by omega : cmp w value ≤ 0)
        exact ⟨.inl left, by omega⟩
      · have above := order.pos_of_lt (by omega : 0 ≤ cmp w value) (more x right)
        exact ⟨.inr (.inr right), by omega⟩
    · rintro ⟨left | rfl | right, differs⟩
      · exact .inl left
      · exact absurd equal differs
      · exact .inr right

omit [DecidableEq P] in
theorem Removed.increasing (removed : Removed S m t calls) : Increasing S.cmp t.toList := by
  rcases removed.list with ⟨-, same, -⟩ | ⟨q, w, l, r, -, -, -, values, same⟩
  · exact same ▸ S.increasing
  · have increasing := S.increasing
    rw [values] at increasing
    rw [same]
    exact increasing.sublist ((sublist_cons_self w r).append_left l)

theorem Removed.rooted (removed : Removed S m t calls) (size : UInt32) :
    IsRbTree S.cmp (blackenRoot m ((m S.head).link true)) ⟨(m S.head).link true, size⟩
      (t.paint false) := by
  have link : (m S.head).link true = t.root := holdsPlace_link removed.lies.place
  obtain ⟨h, balanced⟩ := removed.balanced
  refine ⟨link.trans (root_paint ..).symm, ?_, ?_, ?_, redBlack_blacken balanced, isRed_blacken _⟩
  · rw [link]
    cases root : t.root with
    | none =>
      cases t with
      | leaf => trivial
      | node a c v kids => cases root
    | some r => exact (reshaped_paint removed.lies.tree removed.lies.nodup root false).tree
  · rw [labels_paint]
    exact removed.lies.nodup
  · rw [toList_paint]
    exact removed.increasing

theorem removeSaved_removed (descent : Descent S s ctx .leaf h) :
    ∃ m t calls, removeSaved s = .ok (m, calls) ∧ Removed S m t calls := by
  cases ctx with
  | nil => exact absurd rfl (descent.root rfl)
  | cons f rest =>
    rw [removeSaved, descent.found]
    cases found : target S (f :: rest) with
    | none =>
      exact ⟨s.mem, plug (f :: rest) .leaf, [], rfl, descent.site.lies.top,
        redBlack_plug descent.site.fills descent.site.balanced fun red => red,
        .inl ⟨rfl, descent.site.list, descent.site.target_none found⟩⟩
    | some a =>
      obtain ⟨m', t', unlinked, removed⟩ := unlink_removed descent found
      refine ⟨m', t', _, ?_, removed⟩
      exact congrArg (· >>= _) unlinked

theorem descent_start (null value : V) (order : IsOrder cmp) (tree : IsRbTree cmp m self t)
    (out : head ∉ t.labels) (inhabited : t.root ≠ none) :
    ∃ h, Descent ⟨cmp, order, head, value, t.toList, tree.increasing⟩
      ⟨setLink (Function.update m head ⟨false, fun _ => none, null⟩) head true t.root, head, none,
        none, none, true⟩ [] t h := by
  obtain ⟨h, balanced⟩ := tree.balanced
  exact ⟨h, ⟨liesAt_falseRoot tree.holds tree.distinct out, balanced, .nil, ⟨nofun, nofun⟩, rfl⟩,
    rfl, rfl, nofun, rfl, nofun, fun _ => inhabited⟩

theorem rbtreeTreeRemoveWithCb_takenOut (null value : V) (order : IsOrder cmp)
    (tree : IsRbTree cmp m self t) (out : head ∉ t.labels) (enough : t.height < n) :
    ∃ m' self' t' calls, rbtreeTreeRemoveWithCb cmp null head n m self value =
        .ok (1, m', self', calls) ∧
      IsRbTree cmp m' self' t' ∧ TakenOut cmp value t.toList t'.toList t'.labels calls ∧
      (t.root ≠ none → self'.size = self.size - 1) := by
  cases t with
  | leaf =>
    refine ⟨m, self, .leaf, [], ?_, tree, .inl ⟨rfl, rfl, by simp⟩, absurd rfl⟩
    rw [rbtreeTreeRemoveWithCb, tree.root]
    rfl
  | node a c v kids =>
    obtain ⟨h, start⟩ := descent_start null value order tree out (Option.some_ne_none _)
    obtain ⟨s, ctx, h', done, descent⟩ := removeLoop_descent start enough
    obtain ⟨m', t', calls, saved, removed⟩ := removeSaved_removed descent
    refine ⟨_, _, t'.paint false, calls, ?_, removed.rooted (self.size - 1), ?_, fun _ => rfl⟩
    · rw [rbtreeTreeRemoveWithCb, tree.root]
      refine (congrArg (· >>= _) done).trans ?_
      change (removeSaved s >>= _) = _
      rw [saved]
      rfl
    · rw [toList_paint, labels_paint]
      exact removed.list

/-- A removal keeps order and rules and takes out what is equal to the value. -/
theorem rbtreeTreeRemoveWithCb_spec (order : IsOrder cmp) (tree : IsRbTree cmp m self t)
    (out : head ∉ t.labels) (enough : t.height < n) :
    ∃ m' self' t' calls, rbtreeTreeRemoveWithCb cmp null head n m self value =
        .ok (1, m', self', calls) ∧
      IsRbTree cmp m' self' t' ∧ (∀ x, x ∈ t'.toList ↔ x ∈ t.toList ∧ cmp x value ≠ 0) ∧
      ((∃ x ∈ t.toList, cmp x value = 0) → ∃ q w, calls = [(q, w)] ∧ q ∉ t'.labels ∧
        w ∈ t.toList ∧ cmp w value = 0) ∧
      ((∀ x ∈ t.toList, cmp x value ≠ 0) → calls = []) := by
  obtain ⟨m', self', t', calls, called, tree', taken, -⟩ :=
    rbtreeTreeRemoveWithCb_takenOut null value order tree out enough
  refine ⟨m', self', t', calls, called, tree', taken.mem order tree.increasing, ?_⟩
  rcases taken with ⟨rfl, -, absent⟩ | ⟨q, w, l, r, rfl, gone, equal, split, -⟩
  · refine ⟨?_, fun _ => rfl⟩
    rintro ⟨x, mem, equal⟩
    exact absurd equal (absent x mem)
  · have mem : w ∈ t.toList := by simp [split]
    exact ⟨fun _ => ⟨q, w, rfl, gone, mem, equal⟩, fun absent => absurd equal (absent w mem)⟩

theorem rbtreeTreeRemoveWithCb_spec_threeNodes :
    ∃ m' self' t' calls, rbtreeTreeRemoveWithCb (fun a b : Int => a - b) 0 8 3 threeHeap
        ⟨some 0, 3⟩ 2 = .ok (1, m', self', calls) ∧
      IsRbTree (fun a b : Int => a - b) m' self' t' ∧
      (∀ x, x ∈ t'.toList ↔ x ∈ threeNodes.toList ∧ x - 2 ≠ 0) ∧
      ((∃ x ∈ threeNodes.toList, x - 2 = 0) → ∃ q w, calls = [(q, w)] ∧ q ∉ t'.labels ∧
        w ∈ threeNodes.toList ∧ w - 2 = 0) ∧
      ((∀ x ∈ threeNodes.toList, x - 2 ≠ 0) → calls = []) :=
  rbtreeTreeRemoveWithCb_spec isOrder_sub isRbTree_threeNodes (by decide) (by decide)

end Elaborato.Mentos.Rbtree
