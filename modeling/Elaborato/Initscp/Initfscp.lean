import Elaborato.Foundation.Layout
import Elaborato.Mentos.Initrd

/-!
The program that makes the image of the initrd (initfscp.c). A store behind a buffer halts.
-/
namespace Elaborato.Initscp
open Foundation
open Mentos.Initrd (Name Header slash fsFile fsDirectory fsMountpoint)

inductive Dir
  | nil
  | file (name : Name) (content : List UInt8) (rest : Dir)
  | directory (name : Name) (entries rest : Dir)
  deriving DecidableEq, Repr

inductive Halt
  | headers
  | nameField
  | pathBuffer
  deriving DecidableEq, Repr

def initfscpNameMax : Nat := 255

def initfscpMaxFiles : Nat := 32

/-- The size of the buffer `absolute_path`. -/
def absolutePathSize : Nat := 256

def Dir.find : Dir → Name → Option (List UInt8 ⊕ Dir)
  | .nil, _ => none
  | .file name content rest, key => if name = key then some (.inl content) else rest.find key
  | .directory name entries rest, key => if name = key then some (.inr entries) else rest.find key

def resolve : Dir → List Name → Option (List UInt8)
  | _, [] => none
  | dir, name :: names =>
    match dir.find name with
    | some (.inl content) => if names = [] then some content else none
    | some (.inr entries) => resolve entries names
    | none => none

def fopen (dir : Dir) (path : Name) : Option (List UInt8) :=
  resolve dir ((path.splitOn slash).filter fun name => name != [])

/-- The globals that the walk fills in. -/
structure Walk where
  headers : Nat → Header
  headerIdx : Nat
  headerOffset : UInt32

def initHeaders : Walk where
  headers _ := ⟨0xBF, [], 0, 0, 0, 0⟩
  headerIdx := 0
  headerOffset := UInt32.ofNat (Mentos.Initrd.sizeofHeader * initfscpMaxFiles + 4)

def isMountPoint (mountPoints : List Name) (name : Name) : Bool := mountPoints.contains name

def isDots (name : Name) : Bool := name == [46] || name == [46, 46]

def addHeader (w : Walk) (h : Header) : Except Halt Walk :=
  if initfscpMaxFiles ≤ w.headerIdx then .error .headers
  else if initfscpNameMax ≤ h.fileName.length then .error .nameField
  else
    .ok { w with
      headers := Function.update w.headers w.headerIdx h
      headerIdx := w.headerIdx + 1
      headerOffset := w.headerOffset + h.length }

def fileHeader (w : Walk) (fileName : Name) (content : List UInt8) : Header :=
  { w.headers w.headerIdx with
    fileName
    fileType := fsFile
    length := UInt32.ofNat content.length
    offset := w.headerOffset }

def directoryHeader (mountPoints : List Name) (w : Walk) (fileName : Name) : Header :=
  { w.headers w.headerIdx with
    fileName
    fileType := if isMountPoint mountPoints fileName then fsMountpoint else fsDirectory
    length := 0
    offset := 0 }

def checkPath (source path : Name) : Except Halt Unit :=
  if absolutePathSize ≤ (source ++ path).length then .error .pathBuffer else .ok ()

def readEntries (mountPoints : List Name) (source : Name) :
    Name → Dir → Walk → Except Halt Walk
  | _, .nil, w => .ok w
  | directory, .file name content rest, w =>
    if isDots name then readEntries mountPoints source directory rest w
    else do
      let relativeFilename := directory ++ slash :: name
      let w ← addHeader w (fileHeader w relativeFilename content)
      readEntries mountPoints source directory rest w
  | directory, .directory name entries rest, w =>
    if isDots name then readEntries mountPoints source directory rest w
    else do
      let subDirectory := directory ++ slash :: name
      let w ← addHeader w (directoryHeader mountPoints w subDirectory)
      checkPath source subDirectory
      let w ← readEntries mountPoints source subDirectory entries w
      readEntries mountPoints source directory rest w

def createFileHeaders (mountPoints : List Name) (source : Name) (dir : Dir) (w : Walk) :
    Except Halt Walk := do
  checkPath source []
  readEntries mountPoints source [] dir w

def copied (heap : Nat → UInt8) (length : Nat) (content : List UInt8) : List UInt8 :=
  content.take length ++ (List.range (length - content.length)).map heap

def writeFile (heap : Nat → UInt8) (headers : Nat → Header) (source : Name) (dir : Dir) (i : Nat) :
    Except Halt (List UInt8) := do
  checkPath source (headers i).fileName
  if (headers i).fileType = fsFile then
    match fopen dir (headers i).fileName with
    | none => .ok []
    | some content => .ok (copied heap (headers i).length.toNat content)
  else .ok []

def writeFileSystem (heap : Nat → UInt8) (headers : Nat → Header) (source : Name) (dir : Dir)
    (target : List UInt8) : Except Halt (List UInt8) :=
  (List.range initfscpMaxFiles).foldlM (fun target i => do
    let bytes ← writeFile heap headers source dir i
    .ok (target ++ bytes)) target

def headerBytes (h : Header) : List UInt8 :=
  bytesOf 4 h.magic.toNat ++
    (h.fileName ++ List.replicate (initfscpNameMax - h.fileName.length) 0) ++ [0] ++
    bytesOf 2 h.fileType.toNat ++ [0, 0] ++ bytesOf 4 h.uid.toNat ++
    bytesOf 4 h.offset.toNat ++ bytesOf 4 h.length.toNat

def headerTable (w : Walk) : List UInt8 :=
  bytesOf 4 w.headerIdx ++
    ((List.range initfscpMaxFiles).map fun i => headerBytes (w.headers i)).flatten

def initfscp (mountPoints : List Name) (heap : Nat → UInt8) (sources : List (Name × Dir)) :
    Except Halt (List UInt8) := do
  let w ← sources.foldlM (fun w s => createFileHeaders mountPoints s.1 s.2 w) initHeaders
  sources.foldlM (fun target s => writeFileSystem heap w.headers s.1 s.2 target) (headerTable w)

end Elaborato.Initscp
