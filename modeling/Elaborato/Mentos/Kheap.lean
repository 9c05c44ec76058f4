import Elaborato.Foundation.Records

/-!
The heap (kheap.c) on byte memory: a block header is a record of `size`, `nextfree` and `next`,
and `head`, `tail` and `freelist` are another one.
-/
namespace Elaborato.Mentos.Kheap
open Foundation

/-- Why a call does not return. -/
inductive HeapHalt
  | assertion (text : String)
  | endless
  | nullPointer
  deriving DecidableEq, Repr

def overhead : Nat := 12

def addresses : Nat := 2 ^ 32

def u32 (n : Nat) : Nat := n % 2 ^ 32

/-- The difference of two 32-bit numbers. -/
def sub32 (a b : Nat) : Nat := (a + 2 ^ 32 - b) % 2 ^ 32

/-- The macro `ceil` with base 16. -/
def ceil16 (n : Nat) : Nat := u32 (n + 15) / 16 * 16

@[simp] abbrev sizeWord : Fin 3 := 0

@[simp] abbrev nextfreeWord : Fin 3 := 1

@[simp] abbrev nextWord : Fin 3 := 2

@[simp] abbrev headWord : Fin 3 := 0

@[simp] abbrev tailWord : Fin 3 := 1

@[simp] abbrev freelistWord : Fin 3 := 2

structure VmArea where
  vmStart : Nat
  vmEnd : Nat
  deriving DecidableEq, Repr

def doBrk (heap : VmArea) (heapCurr increment : Nat) : Nat × Nat :=
  if 0 < increment ∧ increment < 2 ^ 31 then
    let newBoundary := u32 (heapCurr + increment)
    if newBoundary ≤ heap.vmEnd then (heapCurr, newBoundary) else (0, heapCurr)
  else (0, heapCurr)

def getRealSize (size : Nat) : Nat := size / 2 * 2

def setFree (size : Nat) (x : Bool) : Nat := if x then size / 2 * 2 + 1 else size / 2 * 2

def isFree (m : ByteMem) (block : Nat) : Bool := block != 0 && cell m block sizeWord % 2 == 1

def doesItFit (m : ByteMem) (block size : Nat) : Bool :=
  decide (getRealSize size ≤ cell m block sizeWord) && isFree m block

def removeFromFreelist (m : ByteMem) (start block : Nat) : Except HeapHalt ByteMem :=
  let firstFreeBlock := cell m start freelistWord
  if block = 0 then .error (.assertion "Received null block.")
  else if firstFreeBlock = 0 then .error (.assertion "Freelist is empty.")
  else if block = firstFreeBlock then
    let m := setCell m start freelistWord (cell m block nextfreeWord)
    .ok (setCell m block nextfreeWord 0)
  else
    match seek (fun prev => prev == 0 || cell m prev nextfreeWord == block)
        (cell m · nextfreeWord) addresses firstFreeBlock with
    | none => .error .endless
    | some prev =>
      let m := if prev = 0 then m else setCell m prev nextfreeWord (cell m block nextfreeWord)
      .ok (setCell m block nextfreeWord 0)

def addToFreelist (m : ByteMem) (start block : Nat) : Except HeapHalt ByteMem :=
  if block = 0 then .error (.assertion "Received null block.")
  else
    let m := setCell m block nextfreeWord (cell m start freelistWord)
    .ok (setCell m start freelistWord block)

def findBestFittingLoop (m : ByteMem) (size : Nat) : Nat → Nat → Nat → Option Nat
  | 0, _, _ => none
  | fuel + 1, current, bestFitting =>
    if current = 0 then some bestFitting
    else
      let better := bestFitting == 0 ||
        decide (cell m current sizeWord < cell m bestFitting sizeWord)
      findBestFittingLoop m size fuel (cell m current nextfreeWord)
        (if doesItFit m current size && better then current else bestFitting)

def findBestFitting (m : ByteMem) (start size : Nat) : Except HeapHalt Nat :=
  match findBestFittingLoop m size addresses (cell m start freelistWord) 0 with
  | none => .error .endless
  | some bestFitting => .ok bestFitting

def getPreviousBlock (m : ByteMem) (start block : Nat) : Except HeapHalt Nat :=
  let headBlock := cell m start headWord
  if block = 0 then .error (.assertion "Received null block.")
  else if headBlock = 0 then .error (.assertion "The head of the list is not set.")
  else if block = headBlock then .ok 0
  else
    match seek (fun prev => cell m prev nextWord == block) (cell m · nextWord) addresses
        headBlock with
    | none => .error .endless
    | some prev => .ok prev

def getNextBlock (m : ByteMem) (start block : Nat) : Except HeapHalt Nat :=
  let tailBlock := cell m start tailWord
  if block = 0 then .error (.assertion "Received null block.")
  else if tailBlock = 0 then .error (.assertion "The head of the list is not set.")
  else if block = tailBlock then .ok 0
  else .ok (cell m block nextWord)

def setSize (m : ByteMem) (block size : Nat) (free : Bool) : ByteMem :=
  let m := setCell m block sizeWord size
  setCell m block sizeWord (setFree (cell m block sizeWord) free)

def mergeRest (m : ByteMem) (start nextblock blockPtr remainingSize tailBlock : Nat) :
    Except HeapHalt ByteMem :=
  (removeFromFreelist m start nextblock).bind fun m =>
    let m := setSize m blockPtr
      (u32 (remainingSize + getRealSize (cell m nextblock sizeWord))) true
    (getNextBlock m start nextblock).bind fun after =>
      let m := setCell m blockPtr nextWord after
      let m := if nextblock = tailBlock then setCell m start tailWord blockPtr else m
      addToFreelist m start blockPtr

def separateRest (m : ByteMem) (start storedNextBlock basePtr blockPtr remainingSize
    tailBlock : Nat) : Except HeapHalt ByteMem :=
  let m := setSize m blockPtr (sub32 remainingSize overhead) true
  let m := setCell m blockPtr nextWord storedNextBlock
  let m := if basePtr = tailBlock then setCell m start tailWord blockPtr else m
  addToFreelist m start blockPtr

def takeBlock (m : ByteMem) (start bestFitting blockSize : Nat) : Except HeapHalt ByteMem :=
  let tailBlock := cell m start tailWord
  (getNextBlock m start bestFitting).bind fun storedNextBlock =>
    let chunkSize := u32 (getRealSize (cell m bestFitting sizeWord) + overhead)
    let remainingSize := sub32 chunkSize blockSize
    let realSize := if remainingSize < 8 + overhead then chunkSize else blockSize
    let m := setSize m bestFitting (sub32 realSize overhead) false
    let blockPtr := u32 (bestFitting + realSize)
    let split : Except HeapHalt ByteMem :=
      if remainingSize < 8 + overhead then .ok m
      else
        (if isFree m storedNextBlock then
            mergeRest m start storedNextBlock blockPtr remainingSize tailBlock
          else separateRest m start storedNextBlock bestFitting blockPtr remainingSize
            tailBlock).map fun m => setCell m bestFitting nextWord blockPtr
    split.bind fun m => removeFromFreelist m start bestFitting

structure HeapState where
  mem : ByteMem
  curr : Nat

/-- The branch in which the heap grows. -/
def growHeap (heap : VmArea) (s : HeapState) (blockSize : Nat) :
    Except HeapHalt (Nat × HeapState) :=
  let start := heap.vmStart
  let headBlock := cell s.mem start headWord
  let tailBlock := cell s.mem start tailWord
  let (ret, curr) := doBrk heap s.curr blockSize
  if ret = 0 then .error (.assertion "Heap is running out of space\n")
  else
    let m := if headBlock = 0 then setCell s.mem start headWord ret
      else setCell s.mem tailBlock nextWord ret
    let m := setCell m ret nextWord 0
    let m := setCell m ret nextfreeWord 0
    let m := setCell m start tailWord ret
    let m := setSize m ret (sub32 blockSize overhead) false
    .ok (u32 (ret + overhead), ⟨m, curr⟩)

def doMalloc (heap : VmArea) (s : HeapState) (size : Nat) : Except HeapHalt (Nat × HeapState) :=
  if size = 0 then .ok (0, s)
  else
    let roundedSize := ceil16 size
    let blockSize := u32 (roundedSize + overhead)
    (findBestFitting s.mem heap.vmStart roundedSize).bind fun bestFitting =>
      if bestFitting ≠ 0 then
        (takeBlock s.mem heap.vmStart bestFitting blockSize).map fun m =>
          (u32 (bestFitting + overhead), { s with mem := m })
      else growHeap heap s blockSize

def mergeBoth (m : ByteMem) (start prev curr next tailBlock : Nat) : Except HeapHalt ByteMem :=
  let m := setSize m prev (u32 (getRealSize (cell m prev sizeWord) + 2 * overhead +
    getRealSize (cell m curr sizeWord) + getRealSize (cell m next sizeWord))) true
  (getNextBlock m start next).bind fun after =>
    let m := setCell m prev nextWord after
    let m := if tailBlock = next then setCell m start tailWord prev else m
    removeFromFreelist m start next

def mergePrev (m : ByteMem) (start prev curr next tailBlock : Nat) : ByteMem :=
  let m := setSize m prev (u32 (getRealSize (cell m prev sizeWord) + overhead +
    getRealSize (cell m curr sizeWord))) true
  let m := setCell m prev nextWord next
  if tailBlock = curr then setCell m start tailWord prev else m

def mergeNext (m : ByteMem) (start curr next tailBlock : Nat) : Except HeapHalt ByteMem :=
  let m := setSize m curr (u32 (getRealSize (cell m curr sizeWord) + overhead +
    getRealSize (cell m next sizeWord))) true
  (getNextBlock m start next).bind fun after =>
    let m := setCell m curr nextWord after
    let m := if tailBlock = next then setCell m start tailWord curr else m
    (removeFromFreelist m start next).bind fun m => addToFreelist m start curr

def markFree (m : ByteMem) (start curr : Nat) : Except HeapHalt ByteMem :=
  let m := setCell m curr sizeWord (setFree (cell m curr sizeWord) true)
  addToFreelist m start curr

def doFree (heap : VmArea) (m : ByteMem) (ptr : Nat) : Except HeapHalt ByteMem :=
  if ptr = 0 then .error (.assertion "ptr")
  else
    let start := heap.vmStart
    let tailBlock := cell m start tailWord
    let curr := sub32 ptr overhead
    (getPreviousBlock m start curr).bind fun prev =>
      (getNextBlock m start curr).bind fun next =>
        if isFree m prev && isFree m next then mergeBoth m start prev curr next tailBlock
        else if isFree m prev then .ok (mergePrev m start prev curr next tailBlock)
        else if isFree m next then mergeNext m start curr next tailBlock
        else markFree m start curr

structure HeapArea extends VmArea where
  positive : 0 < vmStart
  room : vmStart + 12 ≤ vmEnd
  low : vmEnd < 2 ^ 31

def kheapInit (heap : HeapArea) (m : ByteMem) : HeapState where
  mem := fun x => if heap.vmStart ≤ x ∧ x < heap.vmStart + 12 then 0 else m x
  curr := heap.vmStart + 12

def kmalloc (heap : HeapArea) (s : HeapState) (sz : Nat) : Except HeapHalt (Nat × HeapState) :=
  doMalloc heap.toVmArea s sz

def kfree (heap : HeapArea) (s : HeapState) (ptr : Nat) : Except HeapHalt HeapState :=
  (doFree heap.toVmArea s.mem ptr).map fun m => { s with mem := m }

end Elaborato.Mentos.Kheap
