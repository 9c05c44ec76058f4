import Elaborato.Mentos.LinkedList

/-!
The hash map (hashmap.c). A bad dereference or an access outside of the buckets halts.
-/
namespace Elaborato.Mentos.Hashmap
open Foundation LinkedList Function

structure HashmapEntry (K V E : Type) where
  key : K
  value : Option V
  next : Option E
  deriving DecidableEq, Repr

structure HashmapT (K E : Type) where
  hashFunc : K → UInt32
  hashComp : K → K → Bool
  size : UInt32
  entries : ℕ → Option E
  room : ℕ

structure MapState (K V E : Type) where
  map : HashmapT K E
  entry : E → Option (HashmapEntry K V E)

inductive MapHalt
  | divideByZero
  | outside
  | nullPointer
  | freed
  | endless
  | list (halt : ListHalt)
  deriving DecidableEq, Repr

/-- The characters before the NUL. -/
structure CString where
  text : List UInt8
  noNul : 0 ∉ text
  deriving DecidableEq, Repr

/-- A character is signed. -/
def charValue (c : UInt8) : Int := c.toInt8.toInt

def hashmapStringHash (key : CString) : UInt32 :=
  key.text.foldl (fun hash c =>
    UInt32.ofInt (charValue c) + (hash <<< 6) + (hash <<< 16) - hash) 0

def difference (s1 : List UInt8) : List UInt8 → Int
  | [] => charValue (s1.headD 0) - charValue 0
  | c :: s2 =>
    let ret := charValue (s1.headD 0) - charValue c
    if ret ≠ 0 then ret else difference s1.tail s2

def strcmp (s1 s2 : CString) : Int :=
  let ret := difference s1.text s2.text
  if ret < 0 then -1 else if ret > 0 then 1 else 0

def hashmapStringComp (a b : CString) : Bool := strcmp a b == 0

variable {K V E : Type}

section Access

/-- `hash_func(key) % size`. -/
def HashmapT.hash (map : HashmapT K E) (key : K) : Except MapHalt ℕ :=
  if map.size = 0 then .error .divideByZero else .ok (map.hashFunc key % map.size).toNat

def HashmapT.slot (map : HashmapT K E) (i : ℕ) : Except MapHalt (Option E) :=
  if i < map.room then .ok (map.entries i) else .error .outside

def deref (m : E → Option (HashmapEntry K V E)) :
    Option E → Except MapHalt (E × HashmapEntry K V E)
  | none => .error .nullPointer
  | some x =>
    match m x with
    | none => .error .freed
    | some e => .ok (x, e)

def seek (comp : K → K → Bool) (m : E → Option (HashmapEntry K V E)) (key : K) :
    ℕ → Option E → Option E → Except MapHalt (Option E × Option (E × HashmapEntry K V E))
  | 0, _, _ => .error .endless
  | fuel + 1, p, x => do
      let (x, e) ← deref m x
      if comp e.key key then .ok (p, some (x, e))
      else
        match e.next with
        | none => .ok (some x, none)
        | some next => seek comp m key fuel (some x) (some next)

variable [DecidableEq E]

def HashmapT.setSlot (map : HashmapT K E) (i : ℕ) (x : Option E) : HashmapT K E :=
  { map with entries := update map.entries i x }

def setEntry (m : E → Option (HashmapEntry K V E)) (x : E) (e : HashmapEntry K V E) :
    E → Option (HashmapEntry K V E) :=
  update m x (some e)

end Access

def hashmapCreate (size : UInt32) : HashmapT CString E where
  hashFunc := hashmapStringHash
  hashComp := hashmapStringComp
  size := size
  entries := fun _ => none
  room := (4 * size).toNat / 4

def find (fuel : ℕ) (s : MapState K V E) (key : K) :
    Except MapHalt (Option (HashmapEntry K V E)) := do
  let hash ← s.map.hash key
  match ← s.map.slot hash with
  | none => .ok none
  | some x => do
      let (_, found) ← seek s.map.hashComp s.entry key fuel none (some x)
      .ok (found.map Prod.snd)

def hashmapGet (fuel : ℕ) (s : MapState K V E) (key : K) : Except MapHalt (Option V) :=
  (find fuel s key).map fun found => found.bind HashmapEntry.value

def hashmapHas (fuel : ℕ) (s : MapState K V E) (key : K) : Except MapHalt Bool :=
  (find fuel s key).map Option.isSome

variable [DecidableEq E]

def hashmapSet (fuel : ℕ) (s : MapState K V E) (key : K) (value : Option V) (new : E) :
    Except MapHalt (Option V × MapState K V E) := do
  let hash ← s.map.hash key
  match ← s.map.slot hash with
  | none =>
    .ok (none, ⟨s.map.setSlot hash (some new), setEntry s.entry new ⟨key, value, none⟩⟩)
  | some x =>
    match ← seek s.map.hashComp s.entry key fuel none (some x) with
    | (_, some (x, e)) => .ok (e.value, ⟨s.map, setEntry s.entry x { e with value }⟩)
    | (p, none) => do
        let m := setEntry s.entry new ⟨key, value, none⟩
        let (p, e) ← deref m p
        .ok (none, ⟨s.map, setEntry m p { e with next := some new }⟩)

def removeBehind (fuel : ℕ) (s : MapState K V E) (key : K) (p x : Option E) :
    Except MapHalt (Option V × MapState K V E) := do
  match ← seek s.map.hashComp s.entry key fuel p x with
  | (_, none) => .ok (none, s)
  | (p, some (x, e)) => do
      let (p, f) ← deref s.entry p
      let m := setEntry s.entry p { f with next := e.next }
      .ok (e.value, ⟨s.map, update m x none⟩)

def hashmapRemove (fuel : ℕ) (s : MapState K V E) (key : K) :
    Except MapHalt (Option V × MapState K V E) := do
  let hash ← s.map.hash key
  match ← s.map.slot hash with
  | none => .ok (none, s)
  | some x => do
      let (x, e) ← deref s.entry (some x)
      if s.map.hashComp e.key key then
        .ok (e.value, ⟨s.map.setSlot hash e.next, update s.entry x none⟩)
      else removeBehind fuel s key (some x) e.next

variable {P L : Type} [DecidableEq P] [DecidableEq L]

def insertKeys (m : E → Option (HashmapEntry K V E)) (l : L) :
    ℕ → Option E → Store P L K × List P → Except MapHalt (Store P L K × List P)
  | _, none, st => .ok st
  | 0, some _, _ => .error .endless
  | fuel + 1, some x, (store, nodes) => do
      let (_, e) ← deref m (some x)
      let (_, store) ← (listInsertBack store l nodes.head? e.key).mapError .list
      insertKeys m l fuel e.next (store, nodes.tail)

def insertBucket (fuel : ℕ) (s : MapState K V E) (l : L) (st : Store P L K × List P) (i : ℕ) :
    Except MapHalt (Store P L K × List P) := do
  let x ← s.map.slot i
  insertKeys s.entry l fuel x st

def hashmapKeys (fuel : ℕ) (s : MapState K V E) (store : Store P L K) (l : L) (nodes : List P) :
    Except MapHalt (Store P L K × List P) :=
  (List.range s.map.size.toNat).foldlM (insertBucket fuel s l) (listCreate store l, nodes)

end Elaborato.Mentos.Hashmap
