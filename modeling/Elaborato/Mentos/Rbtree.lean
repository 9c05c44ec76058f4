import Mathlib.Algebra.Order.Ring.Nat
import Mathlib.Logic.Function.Basic

/-!
The red-black trees of the C library (rbtree.c), node by node. Dereferencing NULL halts.
-/
namespace Elaborato.Mentos.Rbtree
open Function

structure RbNode (P V : Type) where
  red : Bool
  link : Bool → Option P
  value : V

abbrev Heap (P V : Type) := P → RbNode P V

structure RbTree (P : Type) where
  root : Option P
  size : UInt32
  deriving DecidableEq, Repr

inductive RbHalt
  | nullPointer
  | fuel
  deriving DecidableEq, Repr

variable {P V : Type}

def deref : Option P → Except RbHalt P
  | none => .error .nullPointer
  | some p => .ok p

section Nodes
variable [DecidableEq P]

def setRed (m : Heap P V) (p : P) (red : Bool) : Heap P V :=
  update m p { m p with red }

def setLink (m : Heap P V) (p : P) (dir : Bool) (q : Option P) : Heap P V :=
  update m p { m p with link := update (m p).link dir q }

def setValue (m : Heap P V) (p : P) (value : V) : Heap P V :=
  update m p { m p with value }

def rbtreeNodeInit (m : Heap P V) (self : P) (value : V) : Heap P V :=
  update m self ⟨true, fun _ => none, value⟩

def rbtreeNodeIsRed (m : Heap P V) : Option P → Bool
  | none => false
  | some self => (m self).red

def rbtreeNodeRotate (m : Heap P V) (self : Option P) (dir : Bool) :
    Except RbHalt (Option P × Heap P V) :=
  match self with
  | none => .ok (none, m)
  | some self => do
      let result ← deref ((m self).link !dir)
      let m := setLink m self (!dir) ((m result).link dir)
      let m := setLink m result dir (some self)
      let m := setRed m self true
      let m := setRed m result false
      .ok (some result, m)

def rbtreeNodeRotate2 (m : Heap P V) (self : Option P) (dir : Bool) :
    Except RbHalt (Option P × Heap P V) :=
  match self with
  | none => .ok (none, m)
  | some self => do
      let (r, m) ← rbtreeNodeRotate m ((m self).link !dir) (!dir)
      let m := setLink m self (!dir) r
      rbtreeNodeRotate m (some self) dir

end Nodes

section Find
variable (cmp : V → V → Int)

/-- The loop of `rbtree_tree_find`. -/
def findLoop (m : Heap P V) (value : V) : Nat → Option P → Except RbHalt (Option P)
  | _, none => .ok none
  | 0, some _ => .error .fuel
  | fuel + 1, some it =>
    if cmp (m it).value value = 0 then .ok (some it)
    else findLoop m value fuel ((m it).link (cmp (m it).value value < 0))

def rbtreeTreeFind (null : V) (fuel : Nat) (m : Heap P V) (self : RbTree P) (value : V) :
    Except RbHalt V := do
  match ← findLoop cmp m value fuel self.root with
  | none => .ok null
  | some it => .ok (m it).value

end Find

section Insert
variable [DecidableEq P] (cmp : V → V → Int)

structure Insert (P V : Type) where
  mem : Heap P V
  t : P
  g : Option P
  p : Option P
  q : Option P
  dir : Bool
  last : Bool

def insertOrFlip (node : P) (s : Insert P V) : Except RbHalt (P × Insert P V) :=
  match s.q with
  | none => do
      let p ← deref s.p
      .ok (node, { s with mem := setLink s.mem p s.dir (some node), q := some node })
  | some q =>
    if rbtreeNodeIsRed s.mem ((s.mem q).link false) &&
        rbtreeNodeIsRed s.mem ((s.mem q).link true) then do
      let mem := setRed s.mem q true
      let left ← deref ((mem q).link false)
      let mem := setRed mem left false
      let right ← deref ((mem q).link true)
      let mem := setRed mem right false
      .ok (q, { s with mem })
    else .ok (q, s)

def fixViolation (q : P) (s : Insert P V) : Except RbHalt (Insert P V) :=
  if rbtreeNodeIsRed s.mem (some q) && rbtreeNodeIsRed s.mem s.p then do
    let dir2 := decide ((s.mem s.t).link true = s.g)
    let p ← deref s.p
    let (r, mem) ←
      if (s.mem p).link s.last = some q then rbtreeNodeRotate s.mem s.g (!s.last)
      else rbtreeNodeRotate2 s.mem s.g (!s.last)
    .ok { s with mem := setLink mem s.t dir2 r }
  else .ok s

/-- The helpers are moved down, past `q`. -/
def moveDown (q : P) (dir : Bool) (s : Insert P V) : Insert P V :=
  { s with
    t := s.g.getD s.t
    g := s.p
    p := some q
    q := (s.mem q).link dir
    dir
    last := s.dir }

def insertLoop (node : P) : Nat → Insert P V → Except RbHalt (Heap P V)
  | 0, _ => .error .fuel
  | fuel + 1, s => do
      let (q, s) ← insertOrFlip node s
      let s ← fixViolation q s
      if cmp (s.mem q).value (s.mem node).value = 0 then .ok s.mem
      else
        insertLoop node fuel (moveDown q (cmp (s.mem q).value (s.mem node).value < 0) s)

def insertEnd (m : Heap P V) (root : Option P) (size : UInt32) :
    Except RbHalt (Int × Heap P V × RbTree P) := do
  let r ← deref root
  .ok (1, setRed m r false, ⟨root, size + 1⟩)

def rbtreeTreeInsertNode (null : V) (head : P) (fuel : Nat) (m : Heap P V) (self : RbTree P)
    (node : P) : Except RbHalt (Int × Heap P V × RbTree P) :=
  match self.root with
  | none => insertEnd m (some node) self.size
  | some root => do
      let m := update m head ⟨false, fun _ => none, null⟩
      let m := setLink m head true (some root)
      let m ← insertLoop cmp node fuel ⟨m, head, none, none, some root, false, false⟩
      insertEnd m ((m head).link true) self.size

def rbtreeTreeInsert (null : V) (head : P) (fuel : Nat) (m : Heap P V) (self : RbTree P)
    (node : P) (value : V) : Except RbHalt (Int × Heap P V × RbTree P) :=
  rbtreeTreeInsertNode cmp null head fuel (rbtreeNodeInit m node value) self node

end Insert

section Remove
variable [DecidableEq P] (cmp : V → V → Int)

structure Remove (P V : Type) where
  mem : Heap P V
  q : P
  p : Option P
  g : Option P
  f : Option P
  dir : Bool

/-- The colors after a rotation below `g`. -/
def recolor (g : P) (dir2 : Bool) (q : P) (mem : Heap P V) : Except RbHalt (Heap P V) := do
  let top ← deref ((mem g).link dir2)
  let mem := setRed mem top true
  let mem := setRed mem q true
  let top ← deref ((mem g).link dir2)
  let left ← deref ((mem top).link false)
  let mem := setRed mem left false
  let top ← deref ((mem g).link dir2)
  let right ← deref ((mem top).link true)
  .ok (setRed mem right false)

def borrow (last : Bool) (s : Remove P V) : Except RbHalt (Remove P V) := do
  let p ← deref s.p
  match (s.mem p).link !last with
  | none => .ok s
  | some sib =>
    if !rbtreeNodeIsRed s.mem ((s.mem sib).link !last) &&
        !rbtreeNodeIsRed s.mem ((s.mem sib).link last) then
      let mem := setRed s.mem p false
      let mem := setRed mem sib true
      let mem := setRed mem s.q true
      .ok { s with mem }
    else do
      let g ← deref s.g
      let dir2 := decide ((s.mem g).link true = some p)
      let mem ←
        if rbtreeNodeIsRed s.mem ((s.mem sib).link last) then do
          let (r, mem) ← rbtreeNodeRotate2 s.mem (some p) last
          .ok (setLink mem g dir2 r)
        else if rbtreeNodeIsRed s.mem ((s.mem sib).link !last) then do
          let (r, mem) ← rbtreeNodeRotate s.mem (some p) last
          .ok (setLink mem g dir2 r)
        else .ok s.mem
      let mem ← recolor g dir2 s.q mem
      .ok { s with mem }

/-- A red node is pushed down to `q`. -/
def pushRed (last : Bool) (s : Remove P V) : Except RbHalt (Remove P V) :=
  if !rbtreeNodeIsRed s.mem (some s.q) && !rbtreeNodeIsRed s.mem ((s.mem s.q).link s.dir) then
    if rbtreeNodeIsRed s.mem ((s.mem s.q).link !s.dir) then do
      let (r, mem) ← rbtreeNodeRotate s.mem (some s.q) s.dir
      let p ← deref s.p
      .ok { s with mem := setLink mem p last r, p := r }
    else borrow last s
  else .ok s

def removeStep (value : V) (q : P) (s : Remove P V) : Except RbHalt (Remove P V) :=
  let last := s.dir
  let s := { s with
    g := s.p
    p := some s.q
    q
    dir := decide (cmp (s.mem q).value value < 0)
    f := if cmp (s.mem q).value value = 0 then some q else s.f }
  pushRed last s

def removeLoop (value : V) : Nat → Remove P V → Except RbHalt (Remove P V)
  | 0, _ => .error .fuel
  | fuel + 1, s =>
    match (s.mem s.q).link s.dir with
    | none => .ok s
    | some q => do
        let s ← removeStep cmp value q s
        removeLoop value fuel s

def unlink (f : P) (s : Remove P V) : Except RbHalt (Heap P V) := do
  let tmp := (s.mem f).value
  let mem := setValue s.mem f (s.mem s.q).value
  let mem := setValue mem s.q tmp
  let p ← deref s.p
  .ok (setLink mem p (decide ((mem p).link true = some s.q))
    ((mem s.q).link (decide ((mem s.q).link false = none))))

def removeSaved (s : Remove P V) : Except RbHalt (Heap P V × List (P × V)) :=
  match s.f with
  | none => .ok (s.mem, [])
  | some f => do
      let mem ← unlink f s
      .ok (mem, [(s.q, (mem s.q).value)])

def blackenRoot (m : Heap P V) : Option P → Heap P V
  | none => m
  | some root => setRed m root false

def rbtreeTreeRemoveWithCb (null : V) (head : P) (fuel : Nat) (m : Heap P V) (self : RbTree P)
    (value : V) : Except RbHalt (Int × Heap P V × RbTree P × List (P × V)) :=
  match self.root with
  | none => .ok (1, m, self, [])
  | some root => do
      let m := update m head ⟨false, fun _ => none, null⟩
      let m := setLink m head true (some root)
      let s ← removeLoop cmp value fuel ⟨m, head, none, none, none, true⟩
      let (mem, calls) ← removeSaved s
      let root := (mem head).link true
      .ok (1, blackenRoot mem root, ⟨root, self.size - 1⟩, calls)

def rbtreeTreeRemove (null : V) (head : P) (fuel : Nat) (m : Heap P V) (self : RbTree P)
    (value : V) : Except RbHalt (Int × Heap P V × RbTree P) :=
  (rbtreeTreeRemoveWithCb cmp null head fuel m self value).map fun r => (r.1, r.2.1, r.2.2.1)

end Remove

def rbtreeTreeSize (self : RbTree P) : UInt32 := self.size

section Test
variable (cmp : V → V → Int)

end Test

/-- `RBTREE_ITER_MAX_HEIGHT`. -/
def iterMaxHeight : Nat := 64

structure RbIter (P : Type) where
  node : Option P
  path : List P
  deriving DecidableEq, Repr

inductive IterHalt
  | nullPointer
  | pathOverrun
  | fuel
  deriving DecidableEq, Repr

/-- The assignment to `path[top++]`. -/
def pushPath (path : List P) (node : P) : Except IterHalt (List P) :=
  if path.length < iterMaxHeight then .ok (node :: path) else .error .pathOverrun

def iterDescend (m : Heap P V) (dir : Bool) : Nat → P → List P → Except IterHalt (RbIter P)
  | 0, _, _ => .error .fuel
  | fuel + 1, node, path =>
    match (m node).link dir with
    | none => .ok ⟨some node, path⟩
    | some next => do
        let path ← pushPath path node
        iterDescend m dir fuel next path

def iterClimb [DecidableEq P] (m : Heap P V) (dir : Bool) : List P → P → RbIter P
  | [], _ => ⟨none, []⟩
  | node :: path, last =>
    if (m node).link dir = some last then iterClimb m dir path node else ⟨some node, path⟩

def iterResult (m : Heap P V) (self : RbIter P) : Option V × RbIter P :=
  (self.node.map fun node => (m node).value, self)

def rbtreeIterStart (m : Heap P V) (fuel : Nat) (tree : RbTree P) (dir : Bool) :
    Except IterHalt (Option V × RbIter P) :=
  match tree.root with
  | none => .ok (iterResult m ⟨none, []⟩)
  | some root => (iterDescend m dir fuel root []).map (iterResult m)

def rbtreeIterMove [DecidableEq P] (m : Heap P V) (fuel : Nat) (self : RbIter P) (dir : Bool) :
    Except IterHalt (Option V × RbIter P) :=
  match self.node with
  | none => .error .nullPointer
  | some node =>
    match (m node).link dir with
    | none => .ok (iterResult m (iterClimb m dir self.path node))
    | some next => do
        let path ← pushPath self.path node
        (iterDescend m (!dir) fuel next path).map (iterResult m)

def rbtreeIterFirst (m : Heap P V) (fuel : Nat) (tree : RbTree P) :
    Except IterHalt (Option V × RbIter P) :=
  rbtreeIterStart m fuel tree false

def rbtreeIterLast (m : Heap P V) (fuel : Nat) (tree : RbTree P) :
    Except IterHalt (Option V × RbIter P) :=
  rbtreeIterStart m fuel tree true

def rbtreeIterNext [DecidableEq P] (m : Heap P V) (fuel : Nat) (self : RbIter P) :
    Except IterHalt (Option V × RbIter P) :=
  rbtreeIterMove m fuel self true

def rbtreeIterPrev [DecidableEq P] (m : Heap P V) (fuel : Nat) (self : RbIter P) :
    Except IterHalt (Option V × RbIter P) :=
  rbtreeIterMove m fuel self false

end Elaborato.Mentos.Rbtree
