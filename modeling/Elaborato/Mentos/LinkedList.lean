import Mathlib.Algebra.Order.Ring.Nat
import Elaborato.Foundation.Execution
import Elaborato.Foundation.Links

/-!
The linked lists of the C library (list.c). Dereferencing NULL or a freed node halts.
-/
namespace Elaborato.Mentos.LinkedList
open Foundation Function

/-- `listnode_t`, whose value is a pointer. -/
structure ListNode (P V : Type) where
  value : Option V
  prev : Option P
  next : Option P
  deriving DecidableEq, Repr

/-- `list_t`. -/
structure ListT (P : Type) where
  head : Option P
  tail : Option P
  size : UInt32
  deriving DecidableEq, Repr

structure Store (P L V : Type) where
  node : P → Option (ListNode P V)
  list : L → Option (ListT P)

inductive ListHalt
  | nullPointer
  | freed
  deriving DecidableEq, Repr

variable {P L V : Type}

section Access

def getList (s : Store P L V) (l : L) : Except ListHalt (ListT P) :=
  match s.list l with
  | none => .error .freed
  | some list => .ok list

def deref (s : Store P L V) : Option P → Except ListHalt (P × ListNode P V)
  | none => .error .nullPointer
  | some p =>
    match s.node p with
    | none => .error .freed
    | some node => .ok (p, node)

variable [DecidableEq P] [DecidableEq L]

def setNode (s : Store P L V) (p : P) (node : ListNode P V) : Store P L V :=
  { s with node := update s.node p (some node) }

def setList (s : Store P L V) (l : L) (list : ListT P) : Store P L V :=
  { s with list := update s.list l (some list) }

def freeNode (s : Store P L V) (p : P) : Store P L V :=
  { s with node := update s.node p none }

def freeList (s : Store P L V) (l : L) : Store P L V :=
  { s with list := update s.list l none }

def callocNode (s : Store P L V) : Option P → Store P L V
  | none => s
  | some p => setNode s p ⟨none, none, none⟩

def setPrevIf (s : Store P L V) (p prev : Option P) : Except ListHalt (Store P L V) :=
  match p with
  | none => .ok s
  | some p => do
      let (p, node) ← deref s (some p)
      .ok (setNode s p { node with prev })

def setNextIf (s : Store P L V) (p next : Option P) : Except ListHalt (Store P L V) :=
  match p with
  | none => .ok s
  | some p => do
      let (p, node) ← deref s (some p)
      .ok (setNode s p { node with next })

end Access

section Functions
variable [DecidableEq P] [DecidableEq L]

def listCreate (s : Store P L V) (l : L) : Store P L V := setList s l ⟨none, none, 0⟩

def listInsertFront (s : Store P L V) (l : L) (new : Option P) (value : V) :
    Except ListHalt (P × Store P L V) := do
  let list ← getList s l
  let s := callocNode s new
  let (h, head) ← deref s list.head
  let s := setNode s h { head with prev := new }
  let (p, node) ← deref s new
  let s := setNode s p { node with next := list.head, value := some value }
  let tail := if list.head.isNone then new else list.tail
  .ok (p, setList s l { head := new, tail, size := list.size + 1 })

def listInsertBack (s : Store P L V) (l : L) (new : Option P) (value : V) :
    Except ListHalt (P × Store P L V) := do
  let list ← getList s l
  let s := callocNode s new
  let (p, node) ← deref s new
  let s := setNode s p { node with prev := list.tail }
  let s ← setNextIf s list.tail new
  let (p, node) ← deref s new
  let s := setNode s p { node with value := some value }
  let head := if list.head.isNone then new else list.head
  .ok (p, setList s l { head, tail := new, size := list.size + 1 })

def listRemoveFront (s : Store P L V) (l : L) : Except ListHalt (Option V × Store P L V) := do
  let list ← getList s l
  match list.head with
  | none => .ok (none, s)
  | some head => do
      let (p, node) ← deref s (some head)
      let s ← setPrevIf s node.next none
      let s := freeNode s p
      .ok (node.value, setList s l { list with head := node.next, size := list.size - 1 })

def listRemoveBack (s : Store P L V) (l : L) : Except ListHalt (Option V × Store P L V) := do
  let list ← getList s l
  match list.head with
  | none => .ok (none, s)
  | some _ => do
      let (p, node) ← deref s list.tail
      let s ← setNextIf s node.prev none
      let s := freeNode s p
      .ok (node.value, setList s l { list with tail := node.prev, size := list.size - 1 })

def listRemoveNode (s : Store P L V) (l : L) (node : P) :
    Except ListHalt (Option V × Store P L V) := do
  let list ← getList s l
  if list.head = some node then listRemoveFront s l
  else if list.tail = some node then listRemoveBack s l
  else do
    let (p, node) ← deref s (some node)
    let (q, next) ← deref s node.next
    let s := setNode s q { next with prev := node.prev }
    let (r, prev) ← deref s node.prev
    let s := setNode s r { prev with next := node.next }
    let s := setList s l { list with size := list.size - 1 }
    .ok (node.value, freeNode s p)

def listPopBack (s : Store P L V) (l : L) : Except ListHalt (Option P × Store P L V) := do
  let list ← getList s l
  match list.head with
  | none => .ok (none, s)
  | some _ => do
      let (p, node) ← deref s list.tail
      let s ← setNextIf s node.prev none
      .ok (some p, setList s l { list with tail := node.prev, size := list.size - 1 })

def listPopFront (s : Store P L V) (l : L) : Except ListHalt (Option P × Store P L V) := do
  let list ← getList s l
  match list.head with
  | none => .ok (none, s)
  | some head => do
      let (p, node) ← deref s (some head)
      .ok (some p, setList s l { list with head := node.next, size := list.size - 1 })

def listMerge (s : Store P L V) (target source : L) : Except ListHalt (Store P L V) := do
  let t ← getList s target
  let src ← getList s source
  let s ← setNextIf s t.tail src.head
  let head := if t.tail.isNone then src.head else t.head
  let tail := if src.tail.isNone then t.tail else src.tail
  let s := setList s target { head, tail, size := t.size + src.size }
  .ok (freeList s source)

end Functions

def nextOf (s : Store P L V) (p : Option P) : Option P :=
  p.bind fun p => (s.node p).bind ListNode.next

def prevOf (s : Store P L V) (p : Option P) : Option P :=
  p.bind fun p => (s.node p).bind ListNode.prev

structure HasNodes [DecidableEq P] (s : Store P L V) (list : ListT P) (xs : List P) : Prop where
  size : xs.length = list.size.toNat
  last : list.tail = xs.getLast?
  forward : walk (nextOf s) none (list.size.toNat + 1) list.head = some (xs.map some)
  backward : walk (prevOf s) none (list.size.toNat + 1) list.tail = some (xs.reverse.map some)
  allocated : ∀ p ∈ xs, (s.node p).isSome

def WellFormed [DecidableEq P] (s : Store P L V) (l : L) : Prop :=
  ∃ list xs, s.list l = some list ∧ HasNodes s list xs

end Elaborato.Mentos.LinkedList
