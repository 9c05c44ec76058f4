import Mathlib.Algebra.Order.Ring.Nat
import Mathlib.Data.List.Basic
import Mathlib.Logic.Function.Basic

/-!
Red-black trees with labelled nodes, and places in them as lists of frames.
-/
namespace Foundation
open List Function

variable {α β : Type*}

def pair (d : Bool) (x y : α) : Bool → α := fun b => if b = d then x else y

@[simp] theorem pair_self (d : Bool) (x y : α) : pair d x y d = x := if_pos rfl

@[simp] theorem pair_not (d : Bool) (x y : α) : pair d x y (!d) = y :=
  if_neg (by cases d <;> decide)

theorem pair_flip (d : Bool) (x y : α) : pair (!d) x y = pair d y x := by
  funext b
  cases b <;> cases d <;> rfl

theorem pair_eta (d : Bool) (k : Bool → α) : pair d (k d) (k !d) = k := by
  funext b
  cases b <;> cases d <;> rfl

theorem comp_pair (f : α → β) (d : Bool) (x y : α) :
    (fun b => f (pair d x y b)) = pair d (f x) (f y) := by
  funext b
  cases b <;> cases d <;> rfl

@[simp] theorem update_pair (d : Bool) (x y z : α) : update (pair d x y) d z = pair d z y := by
  funext b
  cases b <;> cases d <;> rfl

@[simp] theorem update_pair_not (d : Bool) (x y z : α) :
    update (pair d x y) (!d) z = pair d x z := by
  funext b
  cases b <;> cases d <;> rfl

theorem forall_pair {d : Bool} {x y : α} {P : α → Prop} : (∀ b, P (pair d x y b)) ↔ P x ∧ P y := by
  constructor
  · intro all
    exact ⟨by simpa using all d, by simpa using all !d⟩
  · rintro ⟨first, second⟩ b
    unfold pair
    split
    · exact first
    · exact second

inductive ColorTree (P V : Type*)
  | leaf
  | node (label : P) (red : Bool) (value : V) (kids : Bool → ColorTree P V)

namespace ColorTree
variable {P V : Type*}

def isRed : ColorTree P V → Bool
  | .leaf => false
  | .node _ red _ _ => red

def root : ColorTree P V → Option P
  | .leaf => none
  | .node label _ _ _ => some label

/-- The values from left to right. -/
def toList : ColorTree P V → List V
  | .leaf => []
  | .node _ _ value kids => (kids false).toList ++ value :: (kids true).toList

def labels : ColorTree P V → List P
  | .leaf => []
  | .node label _ _ kids => label :: ((kids false).labels ++ (kids true).labels)

def height : ColorTree P V → Nat
  | .leaf => 0
  | .node _ _ _ kids => max (kids false).height (kids true).height + 1

def paint (red : Bool) : ColorTree P V → ColorTree P V
  | .leaf => .leaf
  | .node label _ value kids => .node label red value kids

inductive RedBlack : ColorTree P V → Nat → Prop
  | leaf : RedBlack .leaf 0
  | red {label : P} {value : V} {kids : Bool → ColorTree P V} {h : Nat} :
      (∀ b, RedBlack (kids b) h) → (∀ b, (kids b).isRed = false) →
      RedBlack (.node label true value kids) h
  | black {label : P} {value : V} {kids : Bool → ColorTree P V} {h : Nat} :
      (∀ b, RedBlack (kids b) h) → RedBlack (.node label false value kids) (h + 1)

variable {t x y : ColorTree P V} {label : P} {red d : Bool} {value : V}
  {kids : Bool → ColorTree P V} {h : Nat}

theorem redBlack_red_pair (first : RedBlack x h) (second : RedBlack y h) (black : x.isRed = false)
    (black' : y.isRed = false) : RedBlack (.node label true value (pair d x y)) h :=
  .red ((forall_pair (P := fun t => RedBlack t h)).mpr ⟨first, second⟩)
    ((forall_pair (P := fun t : ColorTree P V => t.isRed = false)).mpr ⟨black, black'⟩)

theorem redBlack_black_pair (first : RedBlack x h) (second : RedBlack y h) :
    RedBlack (.node label false value (pair d x y)) (h + 1) :=
  .black ((forall_pair (P := fun t => RedBlack t h)).mpr ⟨first, second⟩)

section
variable (balanced : RedBlack t h)
include balanced

theorem redBlack_blacken : ∃ h', RedBlack (t.paint false) h' := by
  cases balanced with
  | leaf => exact ⟨0, .leaf⟩
  | red kids _ | black kids => exact ⟨_, .black kids⟩

theorem redBlack_blacken_red (red : t.isRed = true) : RedBlack (t.paint false) (h + 1) := by
  cases balanced with
  | leaf => cases red
  | red kids _ => exact .black kids
  | black => cases red

theorem RedBlack.height_le : t.height ≤ 2 * h + if t.isRed then 1 else 0 := by
  induction balanced with
  | leaf => exact Nat.zero_le _
  | @red label value kids h _ black ih =>
    have left := ih false
    have right := ih true
    simp only [black, Bool.false_eq_true, if_false] at left right
    simp only [height, isRed, if_true]
    omega
  | @black label value kids h _ ih =>
    have left := ih false
    have right := ih true
    have bound : ∀ b : Bool, (if b then 1 else 0) ≤ 1 := by decide
    have leftBound := bound (kids false).isRed
    have rightBound := bound (kids true).isRed
    simp only [height, isRed, Bool.false_eq_true, if_false]
    omega

theorem RedBlack.two_pow_le : 2 ^ h ≤ t.labels.length + 1 := by
  induction balanced with
  | leaf => exact Nat.le_refl _
  | red _ _ ih =>
    have left := ih false
    simp only [labels, length_cons, length_append]
    omega
  | black _ ih =>
    have left := ih false
    have right := ih true
    simp only [labels, length_cons, length_append, Nat.pow_succ]
    omega

end

theorem isRed_blacken (t : ColorTree P V) : (t.paint false).isRed = false := by
  cases t with
  | leaf | node label red value kids => rfl

@[simp] theorem toList_paint (red : Bool) (t : ColorTree P V) :
    (t.paint red).toList = t.toList := by
  cases t with
  | leaf | node label red value kids => rfl

@[simp] theorem root_paint (red : Bool) (t : ColorTree P V) : (t.paint red).root = t.root := by
  cases t with
  | leaf | node label red value kids => rfl

@[simp] theorem labels_paint (red : Bool) (t : ColorTree P V) :
    (t.paint red).labels = t.labels := by
  cases t with
  | leaf | node label red value kids => rfl

@[simp] theorem height_paint (red : Bool) (t : ColorTree P V) :
    (t.paint red).height = t.height := by
  cases t with
  | leaf | node label red value kids => rfl

theorem length_labels (t : ColorTree P V) : t.labels.length = t.toList.length := by
  induction t with
  | leaf => rfl
  | node label red value kids ih =>
    simp only [labels, toList, length_cons, length_append, ih]
    omega

theorem height_le_labels (t : ColorTree P V) : t.height ≤ t.labels.length := by
  induction t with
  | leaf => exact Nat.le_refl _
  | node label red value kids ih =>
    have left := ih false
    have right := ih true
    simp only [height, labels, length_cons, length_append]
    omega

theorem height_kid (label : P) (red : Bool) (value : V) (kids : Bool → ColorTree P V) (d : Bool) :
    (kids d).height < (node label red value kids).height := by
  rw [height]
  cases d with
  | false | true => omega

theorem labels_perm (label : P) (red : Bool) (value : V) (kids : Bool → ColorTree P V) (d : Bool) :
    (node label red value kids).labels.Perm
      (label :: ((kids d).labels ++ (kids !d).labels)) := by
  cases d with
  | false => exact List.Perm.refl _
  | true => exact perm_append_comm.cons label

theorem toList_pair_congr {a b : P} {c c' : Bool} {x' y' : ColorTree P V} (d : Bool)
    (first : x.toList = x'.toList) (second : y.toList = y'.toList) :
    (node a c value (pair d x y)).toList = (node b c' value (pair d x' y')).toList := by
  cases d with
  | false | true => simp [toList, pair, first, second]

theorem toList_rotate (a b : P) (c₁ c₂ c₃ c₄ : Bool) (u v : V) (d : Bool)
    (x y z : ColorTree P V) :
    (node b c₁ v (pair d (node a c₂ u (pair d z x)) y)).toList =
      (node a c₃ u (pair d z (node b c₄ v (pair d x y)))).toList := by
  cases d with
  | false | true => simp [toList, pair]

theorem mem_toList_node {x : V} (d : Bool) : x ∈ (node label red value kids).toList ↔
    x = value ∨ x ∈ (kids d).toList ∨ x ∈ (kids !d).toList := by
  cases d with
  | false => simp [toList, or_left_comm]
  | true =>
    simp only [toList, mem_append, mem_cons, Bool.not_true]
    tauto

end ColorTree

open ColorTree

structure TreeFrame (P V : Type*) where
  label : P
  red : Bool
  value : V
  dir : Bool
  sib : ColorTree P V

variable {P V : Type*} {ctx : List (TreeFrame P V)} {f : TreeFrame P V} {t : ColorTree P V}
  {h : Nat} {r : Bool}

def TreeFrame.node (f : TreeFrame P V) (t : ColorTree P V) : ColorTree P V :=
  .node f.label f.red f.value (pair f.dir t f.sib)

def plug (ctx : List (TreeFrame P V)) (t : ColorTree P V) : ColorTree P V :=
  ctx.foldl (fun t f => f.node t) t

@[simp] theorem plug_nil (t : ColorTree P V) : plug [] t = t := rfl

@[simp] theorem plug_cons (f : TreeFrame P V) (ctx : List (TreeFrame P V)) (t : ColorTree P V) :
    plug (f :: ctx) t = plug ctx (f.node t) := rfl

/-- The values to the left of the place. -/
def before : List (TreeFrame P V) → List V
  | [] => []
  | f :: ctx => before ctx ++ if f.dir then f.sib.toList ++ [f.value] else []

/-- The values to the right of the place. -/
def after : List (TreeFrame P V) → List V
  | [] => []
  | f :: ctx => (if f.dir then [] else f.value :: f.sib.toList) ++ after ctx

attribute [local simp] before after

theorem toList_plug (ctx : List (TreeFrame P V)) (t : ColorTree P V) :
    (plug ctx t).toList = before ctx ++ t.toList ++ after ctx := by
  induction ctx generalizing t with
  | nil => simp
  | cons f ctx ih =>
    rw [plug_cons, ih, TreeFrame.node, before, after]
    cases dir : f.dir with
    | false | true => simp [toList, pair]

theorem height_plug (ctx : List (TreeFrame P V)) (t : ColorTree P V) :
    ctx.length + t.height ≤ (plug ctx t).height := by
  induction ctx generalizing t with
  | nil => simp
  | cons f ctx ih =>
    have lower := height_kid f.label f.red f.value (pair f.dir t f.sib) f.dir
    rw [pair_self] at lower
    rw [plug_cons, length_cons]
    exact Nat.le_trans (by rw [TreeFrame.node]; omega) (ih (f.node t))

def along (d : Bool) (t : ColorTree P V) : List V :=
  if d then t.toList else t.toList.reverse

def ahead (d : Bool) (ctx : List (TreeFrame P V)) : List V :=
  if d then after ctx else (before ctx).reverse

@[simp] theorem along_leaf (d : Bool) : along d (.leaf : ColorTree P V) = [] := by
  cases d with
  | false | true => rfl

theorem along_node (d : Bool) (label : P) (red : Bool) (value : V)
    (kids : Bool → ColorTree P V) :
    along d (.node label red value kids) = along d (kids !d) ++ value :: along d (kids d) := by
  cases d with
  | false | true => simp [along, toList]

theorem ahead_cons (d : Bool) (f : TreeFrame P V) (ctx : List (TreeFrame P V)) :
    ahead d (f :: ctx) = (if f.dir = d then [] else f.value :: along d f.sib) ++ ahead d ctx := by
  cases d with
  | false => cases dir : f.dir <;> simp [ahead, along, dir]
  | true => cases dir : f.dir <;> simp [ahead, along, dir]

theorem before_append (inner outer : List (TreeFrame P V)) :
    before (inner ++ outer) = before outer ++ before inner := by
  induction inner with
  | nil => simp
  | cons f inner ih => simp [ih]

theorem after_append (inner outer : List (TreeFrame P V)) :
    after (inner ++ outer) = after inner ++ after outer := by
  induction inner with
  | nil => simp
  | cons f inner ih => simp [ih]

theorem after_eq_nil (right : ∀ f ∈ ctx, f.dir = true) : after ctx = [] := by
  induction ctx with
  | nil => rfl
  | cons f ctx ih =>
    rw [after, right f mem_cons_self, ih fun g mem => right g (mem_cons_of_mem _ mem)]
    rfl

inductive Fills : List (TreeFrame P V) → Nat → Bool → Prop
  | nil {h : Nat} {r : Bool} : Fills [] h r
  | red {f : TreeFrame P V} {ctx : List (TreeFrame P V)} {h : Nat} :
      f.red = true → RedBlack f.sib h → f.sib.isRed = false → Fills ctx h true →
      Fills (f :: ctx) h false
  | black {f : TreeFrame P V} {ctx : List (TreeFrame P V)} {h : Nat} {r : Bool} :
      f.red = false → RedBlack f.sib h → Fills ctx (h + 1) false → Fills (f :: ctx) h r

theorem Fills.mono (fills : Fills ctx h true) (r : Bool) : Fills ctx h r := by
  cases fills with
  | nil => exact .nil
  | black black sib fills => exact .black black sib fills

theorem Fills.withValue {inner outer : List (TreeFrame P V)} (v : V)
    (fills : Fills (inner ++ f :: outer) h r) :
    Fills (inner ++ { f with value := v } :: outer) h r := by
  induction inner generalizing h r with
  | nil =>
    cases fills with
    | red red sib black fills => exact .red red sib black fills
    | black black sib fills => exact .black black sib fills
  | cons g inner ih =>
    cases fills with
    | red red sib black fills => exact .red red sib black (ih fills)
    | black black sib fills => exact .black black sib (ih fills)

theorem redBlack_plug (fills : Fills ctx h r) (balanced : RedBlack t h)
    (color : t.isRed = true → r = true) : ∃ h', RedBlack (plug ctx t) h' := by
  induction fills generalizing t with
  | nil => exact ⟨_, balanced⟩
  | @red f ctx h isRed sib black fills ih =>
    refine ih (t := f.node t) ?_ fun _ => rfl
    rw [TreeFrame.node, isRed]
    exact redBlack_red_pair balanced sib (by simpa using color) black
  | @black f ctx h r isBlack sib fills ih =>
    refine ih (t := f.node t) ?_ ?_
    · rw [TreeFrame.node, isBlack]
      exact redBlack_black_pair balanced sib
    · intro red
      rw [TreeFrame.node, isBlack] at red
      cases red

theorem Fills.down {label : P} {red : Bool} {value : V} {kids : Bool → ColorTree P V}
    (fills : Fills ctx h red) (balanced : RedBlack (.node label red value kids) h) (d : Bool) :
    ∃ h', RedBlack (kids d) h' ∧ RedBlack (kids !d) h' ∧
      Fills (⟨label, red, value, d, kids !d⟩ :: ctx) h' (kids d).isRed := by
  cases balanced with
  | red balanced black =>
    refine ⟨h, balanced d, balanced !d, ?_⟩
    rw [black d]
    exact .red rfl (balanced !d) (black !d) fills
  | @black _ _ _ h balanced =>
    exact ⟨h, balanced d, balanced !d, .black rfl (balanced !d) fills⟩

theorem plug_down (ctx : List (TreeFrame P V)) (label : P) (red : Bool) (value : V)
    (kids : Bool → ColorTree P V) (d : Bool) :
    plug (⟨label, red, value, d, kids !d⟩ :: ctx) (kids d) =
      plug ctx (.node label red value kids) := by
  rw [plug_cons, TreeFrame.node, pair_eta]

variable {cmp : V → V → Int} {a b c : V}

structure IsOrder (cmp : V → V → Int) : Prop where
  swap : ∀ a b, cmp b a < 0 ↔ 0 < cmp a b
  trans : ∀ a b c, cmp a b ≤ 0 → cmp b c ≤ 0 → cmp a c ≤ 0

namespace IsOrder
variable (order : IsOrder cmp)
include order

theorem self_eq (a : V) : cmp a a = 0 := by
  have swap := order.swap a a
  omega

theorem lt_of_lt_of_le (first : cmp a b < 0) (second : cmp b c ≤ 0) : cmp a c < 0 := by
  by_contra other
  have back : cmp c a ≤ 0 := by
    have swap := order.swap c a
    omega
  have contrary := order.trans b c a second back
  have swap := order.swap b a
  omega

theorem lt_of_le_of_lt (first : cmp a b ≤ 0) (second : cmp b c < 0) : cmp a c < 0 := by
  by_contra other
  have back : cmp c a ≤ 0 := by
    have swap := order.swap c a
    omega
  have contrary := order.trans c a b back first
  have swap := order.swap c b
  omega

theorem pos_of_lt (first : 0 ≤ cmp a c) (second : cmp a b < 0) : 0 < cmp b c := by
  have below : cmp c a ≤ 0 := by
    have swap := order.swap c a
    omega
  exact (order.swap b c).mp (order.lt_of_le_of_lt below second)

end IsOrder

def Increasing (cmp : V → V → Int) (values : List V) : Prop :=
  values.Pairwise fun a b => cmp a b < 0

structure Between (lo hi : V → Prop) (ctx : List (TreeFrame P V)) : Prop where
  left : ∀ x ∈ before ctx, lo x
  right : ∀ x ∈ after ctx, hi x

variable {lo hi : V → Prop}

theorem Between.tail {f : TreeFrame P V} (between : Between lo hi (f :: ctx)) : Between lo hi ctx :=
  ⟨fun x hx => between.left x (mem_append_left _ hx),
    fun x hx => between.right x (mem_append_right _ hx)⟩

variable {label : P} {red : Bool} {value : V} {kids : Bool → ColorTree P V}

theorem increasing_node {ctx : List (TreeFrame P V)} {label : P} {red : Bool} {value : V}
    {kids : Bool → ColorTree P V}
    (increasing : Increasing cmp (plug ctx (.node label red value kids)).toList) :
    (∀ x ∈ (kids false).toList, cmp x value < 0) ∧ ∀ x ∈ (kids true).toList, cmp value x < 0 := by
  rw [toList_plug] at increasing
  have inner := (pairwise_append.mp (pairwise_append.mp increasing).1).2.1
  rw [toList, pairwise_append, pairwise_cons] at inner
  exact ⟨fun x hx => inner.2.2 x hx value (by simp), inner.2.1.1⟩

theorem increasing_kid (increasing : Increasing cmp (node label red value kids).toList) (d : Bool) :
    Increasing cmp (kids d).toList := by
  have parts := pairwise_append.mp increasing
  cases d with
  | false => exact parts.1
  | true => exact (pairwise_cons.mp parts.2.1).2

theorem Between.down {d : Bool} (between : Between lo hi ctx)
    (increasing : Increasing cmp (plug ctx (.node label red value kids)).toList)
    (lower : d = true → lo value ∧ ∀ x, cmp x value < 0 → lo x)
    (upper : d = false → hi value ∧ ∀ x, cmp value x < 0 → hi x) :
    Between lo hi (⟨label, red, value, d, kids !d⟩ :: ctx) := by
  obtain ⟨smaller, larger⟩ := increasing_node increasing
  cases d with
  | false =>
    obtain ⟨here, beyond⟩ := upper rfl
    refine ⟨fun x hx => between.left x (by simpa using hx), fun x hx => ?_⟩
    simp only [after, mem_append, mem_cons, Bool.false_eq_true, if_false] at hx
    rcases hx with (rfl | hx) | hx
    · exact here
    · exact beyond x (larger x hx)
    · exact between.right x hx
  | true =>
    obtain ⟨here, beyond⟩ := lower rfl
    refine ⟨fun x hx => ?_, fun x hx => between.right x (by simpa using hx)⟩
    simp only [before, mem_append, mem_singleton, if_true] at hx
    rcases hx with hx | hx | rfl
    · exact between.left x hx
    · exact beyond x (smaller x hx)
    · exact here

end Foundation
