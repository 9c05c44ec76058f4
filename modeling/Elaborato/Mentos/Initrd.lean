import Elaborato.Foundation.Records
import Mathlib.Logic.Function.Basic

/-!
The initrd (initrd.c) and the descriptors above it (open.c, read_write.c, vfs.c). A store that
leaves an array or a field, or reaches the header table, halts.
-/
namespace Elaborato.Mentos.Initrd
open Foundation Function

/-- The bytes of a C string before its NUL. -/
abbrev Name := List UInt8

inductive FsHalt
  | outOfBounds
  | nameField
  | headerTable
  deriving DecidableEq, Repr

def maxFiles : Nat := 32

def maxOpenFd : Nat := 4

def maxInitrdDescriptors : Nat := maxOpenFd

def nameMax : Nat := 255

/-- The bytes of `initrd_file_t`. -/
def sizeofHeader : Nat := 276

def tableSize : Nat := 4 + sizeofHeader * maxFiles

def fsFile : UInt16 := 0x01

def fsDirectory : UInt16 := 0x02

def fsMountpoint : UInt16 := 0x40

def oCreat : UInt32 := 0x40

def oAppend : UInt32 := 0x400

def slash : UInt8 := 47

def dot : Name := [46]

def eof : Int := -1

def hasFlag (flags flag : UInt32) : Bool := flags &&& flag != 0

/-- The `int` with the bits of the word. -/
def signed (w : UInt32) : Int := w.toBitVec.toInt

/-- `initrd_file_t` -/
structure Header where
  magic : UInt32
  fileName : Name
  fileType : UInt16
  uid : UInt32
  offset : UInt32
  length : UInt32
  deriving DecidableEq, Repr

/-- `initrd_fd` -/
structure Descriptor where
  fileDescriptor : Int
  curPos : Int
  deriving DecidableEq, Repr

structure Fs where
  nfiles : UInt32
  headers : Nat → Header
  image : Nat → UInt8
  fsEnd : UInt32
  descriptors : Nat → Descriptor
  curIrdfd : Nat
  currentUid : UInt32

def headerAt (mem : ByteMem) (a : Nat) : Header where
  magic := UInt32.ofNat (readWord mem a)
  fileName := ((List.range nameMax).map fun i => mem (a + 4 + i)).takeWhile fun b => b != 0
  fileType := UInt16.ofNat ((mem (a + 260)).toNat + 2 ^ 8 * (mem (a + 261)).toNat)
  uid := UInt32.ofNat (readWord mem (a + 264))
  offset := UInt32.ofNat (readWord mem (a + 268))
  length := UInt32.ofNat (readWord mem (a + 272))

def initDescriptors (s : Fs) : Fs := { s with descriptors := fun _ => ⟨-1, 0⟩, curIrdfd := 0 }

def initfsInit (mem : ByteMem) (currentUid : UInt32) : Fs :=
  let nfiles := UInt32.ofNat (readWord mem 0)
  let last := headerAt mem ((4 + sizeofHeader * (nfiles - 1).toNat) % 2 ^ 32)
  initDescriptors
    { nfiles
      headers := fun i => headerAt mem (4 + sizeofHeader * i)
      image := mem
      fsEnd := last.offset + last.length
      descriptors := fun _ => ⟨0, 0⟩
      curIrdfd := 0
      currentUid }

def strrchr (s : Name) (ch : UInt8) : Option Nat :=
  (List.range s.length).reverse.find? fun i => s[i]? == some ch

def memchr (s : Name) (ch : UInt8) (n : Nat) : Option Nat :=
  (List.range n).find? fun i => s[i]? == some ch

def dirname (path : Name) : Name :=
  match strrchr path slash with
  | none => dot
  | some lastSlash =>
    if lastSlash = 0 then path.take 1
    else if lastSlash + 1 = path.length then
      match memchr path slash lastSlash with
      | none => dot
      | some lastSlash => path.take lastSlash
    else path.take lastSlash

def atTop (path : Name) : Bool := dirname path == dot || dirname path == [slash]

def getInitrdFile (s : Fs) (path : Name) : Option Nat :=
  (List.range maxFiles).find? fun i => path == (s.headers i).fileName

def getFreeHeader (s : Fs) : Option Nat :=
  (List.range maxFiles).find? fun i => (s.headers i).fileType == 0

def scanFiles (s : Fs) (path : Name) : Except FsHalt (Option Nat) :=
  match (List.range (min s.nfiles.toNat maxFiles)).find? fun it =>
      path == (s.headers it).fileName with
  | some it => .ok (some it)
  | none => if s.nfiles.toNat ≤ maxFiles then .ok none else .error .outOfBounds

def isDirectory (h : Header) : Bool := h.fileType == fsDirectory || h.fileType == fsMountpoint

def createHeader (s : Fs) (path : Name) (fileType : UInt16) (free : Nat) : Except FsHalt Fs :=
  if nameMax ≤ path.length then .error .nameField
  else
    let header : Header :=
      { magic := 0xBF, fileName := path, fileType, uid := s.currentUid, offset := s.fsEnd + 1,
        length := 0 }
    .ok { s with
      headers := update s.headers free header
      fsEnd := s.fsEnd + 1
      nfiles := s.nfiles + 1 }

def clearHeader (s : Fs) (i : Nat) : Fs :=
  { s with
    headers := update s.headers i ⟨0, [], 0, 0, 0, 0⟩
    nfiles := s.nfiles - 1 }

def parentMissing (s : Fs) (path : Name) : Bool :=
  match getInitrdFile s (dirname path) with
  | none => true
  | some i => !isDirectory (s.headers i)

def initrdMkdir (s : Fs) (path : Name) : Except FsHalt (Int × Fs) :=
  if (getInitrdFile s path).isSome then .ok (-1, s)
  else if !atTop path && parentMissing s path then .ok (-1, s)
  else
    match getFreeHeader s with
    | none => .ok (-1, s)
    | some free => do
        let s' ← createHeader s path fsDirectory free
        .ok (1, s')

def notEmpty (s : Fs) (path : Name) : Bool :=
  (List.range maxFiles).any fun i =>
    (s.headers i).fileName != [] && path == dirname (s.headers i).fileName

def initrdRmdir (s : Fs) (path : Name) : Int × Fs :=
  match getInitrdFile s path with
  | none => (-1, s)
  | some i =>
    if (s.headers i).fileType ≠ fsDirectory then (-1, s)
    else if notEmpty s (s.headers i).fileName then (-1, s)
    else (0, clearHeader s i)

def initfsRemove (s : Fs) (path : Name) : Int × Fs :=
  match getInitrdFile s path with
  | none => (-1, s)
  | some i => if (s.headers i).fileType ≠ fsFile then (-1, s) else (0, clearHeader s i)

def isFree (s : Fs) (k : Nat) : Bool := (s.descriptors k).fileDescriptor == -1

def nextDescriptor (s : Fs) : Nat :=
  if maxInitrdDescriptors ≤ s.curIrdfd then
    ((List.range maxInitrdDescriptors).find? (isFree s)).getD maxInitrdDescriptors
  else s.curIrdfd

def takeDescriptor (s : Fs) (fileDescriptor : Nat) (curPos : Int) : Except FsHalt (Int × Fs) :=
  if s.curIrdfd < maxInitrdDescriptors then
    .ok (s.curIrdfd, { s with
      descriptors := update s.descriptors s.curIrdfd ⟨fileDescriptor, curPos⟩
      curIrdfd := s.curIrdfd + 1 })
  else .error .outOfBounds

def openExisting (s : Fs) (flags : UInt32) (it : Nat) : Except FsHalt (Int × Fs) :=
  if isDirectory (s.headers it) then .ok (-1, s)
  else if hasFlag flags oCreat then .ok (-1, s)
  else
    takeDescriptor s it (if hasFlag flags oAppend then signed (s.headers it).length else 0)

def openCreate (s : Fs) (path : Name) : Except FsHalt (Int × Fs) :=
  if !atTop path && (getInitrdFile s (dirname path)).isNone then .ok (-1, s)
  else
    match getFreeHeader s with
    | none => .ok (-1, s)
    | some fd => do
        let s' ← createHeader s path fsFile fd
        takeDescriptor s' fd 0

def initfsOpen (s : Fs) (path : Name) (flags : UInt32) : Except FsHalt (Int × Fs) := do
  let s := { s with curIrdfd := nextDescriptor s }
  match ← scanFiles s path with
  | some it => openExisting s flags it
  | none => if hasFlag flags oCreat then openCreate s path else .ok (-1, s)

def lookup (s : Fs) (fildes : Int) : Except FsHalt (Nat × Nat) :=
  if 0 ≤ fildes ∧ fildes < maxInitrdDescriptors then
    let lfd := (s.descriptors fildes.toNat).fileDescriptor
    if 0 ≤ lfd ∧ lfd < maxFiles then .ok (fildes.toNat, lfd.toNat) else .error .outOfBounds
  else .error .outOfBounds

def readLoop (image : Nat → UInt8) (fileStart : Nat) (fileSize : Int) :
    Nat → Nat → Int → (Nat → UInt8) → Int × (Nat → UInt8)
  | 0, _, readPos, buf => (readPos, buf)
  | left + 1, it, readPos, buf =>
    if readPos < fileSize then
      readLoop image fileStart fileSize left (it + 1) (readPos + 1)
        (update buf it (image (fileStart + readPos).toNat))
    else (readPos, buf)

def initfsRead (s : Fs) (fildes : Int) (buf : Nat → UInt8) (nbyte : UInt32) :
    Except FsHalt (Int × (Nat → UInt8) × Fs) :=
  if nbyte = 0 then .ok (0, buf, s)
  else do
    let (k, lfd) ← lookup s fildes
    let fileSize := signed (s.headers lfd).length
    let (readPos, buf') := readLoop s.image (s.headers lfd).offset.toNat fileSize nbyte.toNat 0
      (s.descriptors k).curPos buf
    let s' := { s with
      descriptors := update s.descriptors k ⟨lfd, readPos⟩ }
    if readPos = fileSize then .ok (eof, buf', s') else .ok (signed nbyte, buf', s')

def initrdWrite (s : Fs) (heap : Nat → UInt8) (fildes : Int) (buf : Name) (nbyte : UInt32) :
    Except FsHalt (Int × Fs) :=
  if nbyte = 0 then .ok (0, s)
  else do
    let tmp := fun i => if i ≤ buf.length then buf.getD i 0 else heap i
    let (k, lfd) ← lookup s fildes
    let fileStart := (s.headers lfd).offset.toNat + (s.descriptors k).curPos
    if fileStart < tableSize then .error .headerTable
    else if 2 ^ 32 ≤ fileStart + nbyte.toNat then .error .outOfBounds
    else
      let header := { s.headers lfd with length := (s.headers lfd).length + (nbyte + 1) }
      .ok (signed (nbyte + 1), { s with
        image := fun x =>
          if fileStart ≤ x ∧ (x : Int) ≤ fileStart + nbyte.toNat then tmp (x - fileStart).toNat
          else s.image x
        headers := update s.headers lfd header })

def initrdClose (s : Fs) (fildes : Int) : Except FsHalt (Int × Fs) :=
  if 0 ≤ fildes ∧ fildes < maxInitrdDescriptors then
    .ok (0, { s with descriptors := update s.descriptors fildes.toNat ⟨-1, 0⟩ })
  else .error .outOfBounds

def maxMountpoint : Nat := 10

/-- `file_descriptor_t` -/
structure FileDescriptor where
  fsSpecId : Int
  mountpointId : Int
  offset : Int
  flagsMask : UInt32
  deriving DecidableEq, Repr

structure Vfs where
  fs : Fs
  fdList : Nat → FileDescriptor
  currentFd : Nat

def mountpoint (mpId : Nat) : Name := if mpId = 0 then [slash] else []

def hasOperations (mpId : Nat) : Bool := mpId == 0

def getMountpointId (path : Name) : Int :=
  ((List.range maxMountpoint).foldl (fun (last : Nat × Int) it =>
    let mpl := (mountpoint it).length
    if path.take mpl = mountpoint it ∧ (last.1 < mpl ∧ 0 < it ∨ it = 0) then (mpl, (it : Int))
    else last) (0, -1)).2

def getAbsolutePath (cwd path : Name) : Option Name :=
  if path.head? = some slash then none
  else
    let abspath :=
      if cwd.getLast? = some slash then cwd ++ path
      else cwd ++ [slash].take path.length ++ path
    if abspath = [] then none else some abspath

def sysClose (s : Vfs) (fd : Int) : Except FsHalt (Int × Vfs) :=
  if fd < 0 then .ok (-1, s)
  else if (maxOpenFd : Int) ≤ fd then .error .outOfBounds
  else
    let entry := s.fdList fd.toNat
    if entry.fsSpecId < -1 then .ok (-1, s)
    else if entry.mountpointId < 0 ∨ (maxMountpoint : Int) ≤ entry.mountpointId then
      .error .outOfBounds
    else do
      let fs ←
        if hasOperations entry.mountpointId.toNat then
          (initrdClose s.fs entry.fsSpecId).map Prod.snd
        else .ok s.fs
      let entry' := { entry with fsSpecId := -1, mountpointId := -1 }
      .ok (0, { s with fs, fdList := update s.fdList fd.toNat entry' })

def openFails (s : Vfs) : Except FsHalt (Int × Vfs) := do
  let (_, s') ← sysClose s s.currentFd
  .ok (-1, s')

/-- The path that `sys_open` looks up. -/
def absolutePath (cwd path : Name) : Option Name :=
  if path.head? = some slash then some path else getAbsolutePath cwd path

def firstUnused (s : Vfs) : Nat :=
  ((List.range maxOpenFd).find? fun fd => (s.fdList fd).mountpointId == -1).getD maxOpenFd

def sysOpen (cwd path : Name) (flags : UInt32) (s : Vfs) : Except FsHalt (Int × Vfs) :=
  match absolutePath cwd path with
  | none => .ok (-1, s)
  | some absolute =>
    let s := { s with currentFd := firstUnused s }
    if s.currentFd = maxOpenFd then .ok (-1, s)
    else
      let mpId := getMountpointId absolute
      if mpId < 0 then .ok (-1, s)
      else if !hasOperations mpId.toNat then openFails s
      else do
        let (fsSpecId, fs) ← initfsOpen s.fs absolute flags
        let s := { s with fs }
        if fsSpecId = -1 then openFails s
        else
          .ok (s.currentFd, { s with
            fdList := update s.fdList s.currentFd ⟨fsSpecId, mpId, 0, flags⟩
            currentFd := s.currentFd + 1 })

def sysRead (s : Vfs) (fd : Nat) (buf : Nat → UInt8) (nbytes : UInt32) :
    Except FsHalt (Int × (Nat → UInt8) × Vfs) :=
  if maxOpenFd ≤ fd then .error .outOfBounds
  else
    let entry := s.fdList fd
    if entry.mountpointId < 0 ∨ (maxMountpoint : Int) ≤ entry.mountpointId then
      .error .outOfBounds
    else if hasOperations entry.mountpointId.toNat then do
      let (r, buf', fs) ← initfsRead s.fs entry.fsSpecId buf nbytes
      .ok (r, buf', { s with fs })
    else .ok (0, buf, s)

end Elaborato.Mentos.Initrd
