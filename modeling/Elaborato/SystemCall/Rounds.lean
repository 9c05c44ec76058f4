import Elaborato.SystemCall.Credits

/-!
The whole program (server.c, client_0.c), without opening and closing the FIFOs.
-/
namespace Elaborato.SystemCall

open Foundation Function

/-- Where a process is that runs `child`. -/
inductive ChildPc
  | start
  | arrive (messages : Channel → Message)
  | wait (messages : Channel → Message)
  | writing (w : Writer)
  | exited (messages : Channel → Message)
  | errExit

structure Child where
  pid : Nat
  pc : ChildPc

inductive ClientPc
  | pause
  | sendN
  | createSems
  | waitData
  | fork (i : Nat)
  | waitChildren
  | waitDone
  | recvEnd
  deriving DecidableEq, Repr

inductive ServerPc
  | readN
  | reset (i : Nat)
  | greet
  | postData
  | reading
  | postDone
  | sendEnd
  | undefined
  deriving DecidableEq, Repr

structure State where
  shared : Shared
  serverPc : ServerPc
  n : Nat
  reader : Reader
  clientPc : ClientPc
  files : List File
  childrenWait : Nat
  children : List Child

inductive Act
  | sigint (files : List File)
  | client (pid : Nat)
  | child (i : Nat)
  | server

def Enumerated (files : List File) : Prop :=
  files.length < 65536 ∧
    ∀ file ∈ files, admittedSize file.content.length = true ∧ file.path.utf8ByteSize < 160

instance (files : List File) : Decidable (Enumerated files) :=
  inferInstanceAs (Decidable (_ ∧ _))

def Child.hasExited (c : Child) : Bool :=
  match c.pc with
  | .exited _ | .errExit => true
  | .writing w => decide (w.pc = .errExit)
  | _ => false

def greeting (n : Nat) : List UInt8 := ("N is equal to " ++ toString n).toUTF8.toList

def sigIntHandlerStart (s : State) (files : List File) : Option State :=
  if s.clientPc = .pause ∧ Enumerated files then
    some { s with
      files
      children := []
      clientPc := if files.length = 0 then .pause else .sendN }
  else none

def sigIntHandlerStep (s : State) (pid : Nat) : Option State :=
  match s.clientPc with
  | .pause => none
  | .sendN =>
    some { s with
      shared := s.shared.send .fifo1 (.count s.files.length)
      clientPc := .createSems }
  | .createSems =>
    -- `semInitVal` is an array of `unsigned short`
    some { s with childrenWait := s.files.length % 65536, clientPc := .waitData }
  | .waitData =>
    (s.shared.semOp .waitData (-1)).map fun sh => { s with shared := sh, clientPc := .fork 0 }
  | .fork i =>
    if i < s.files.length then
      some { s with
        children := s.children ++ [{ pid, pc := .start }]
        clientPc := .fork (i + 1) }
    else some { s with clientPc := .waitChildren }
  | .waitChildren =>
    if s.children.all Child.hasExited then some { s with clientPc := .waitDone } else none
  | .waitDone =>
    (s.shared.semOp .serverDone (-1)).map fun sh => { s with shared := sh, clientPc := .recvEnd }
  | .recvEnd =>
    match s.shared.queues .msgq with
    | [] => none
    | _ :: rest => some { s with shared := s.shared.receive .msgq rest, clientPc := .pause }

def State.setChild (s : State) (i : Nat) (c : Child) (pc : ChildPc) : State :=
  { s with children := s.children.set i { c with pc } }

def childStep (s : State) (i : Nat) : Option State := do
  let c ← s.children[i]?
  match c.pc with
  | .start =>
    let file ← s.files[i]?
    match childMessages i c.pid file with
    | none => some (s.setChild i c .errExit)
    | some messages => some (s.setChild i c (.arrive messages))
  | .arrive messages =>
    (semop s.childrenWait (-1)).map fun value =>
      { s.setChild i c (.wait messages) with childrenWait := value }
  | .wait messages =>
    (semop s.childrenWait 0).map fun value =>
      { s.setChild i c (.writing (ipcsWrite messages)) with childrenWait := value }
  | .writing w =>
    if w.pc = .returned then some (s.setChild i c (.exited w.messages))
    else
      (ipcsWriteStep s.shared w).map fun moved =>
        { s.setChild i c (.writing moved.2) with shared := moved.1 }
  | .exited _ => none
  | .errExit => none

def mainStep (s : State) : Option State :=
  match s.serverPc with
  | .readN =>
    match s.shared.queues .fifo1 with
    | [] => none
    | .count n :: rest =>
      some { s with
        shared := s.shared.receive .fifo1 rest
        n
        serverPc := if 0 < n then .reset 0 else .readN }
    | _ :: rest => some { s with shared := s.shared.receive .fifo1 rest, serverPc := .undefined }
  | .reset i =>
    if i < 50 then
      some { s with
        shared := { s.shared with flags := update s.shared.flags i false }
        serverPc := .reset (i + 1) }
    else some { s with serverPc := .greet }
  | .greet =>
    let first := { s.shared.buffer 0 with msg := greeting s.n }
    some { s with
      shared := { s.shared with buffer := update s.shared.buffer 0 first }
      serverPc := .postData }
  | .postData =>
    (s.shared.semOp .waitData 1).map fun sh =>
      { s with shared := sh, reader := ipcsRead s.n, serverPc := .reading }
  | .reading =>
    if s.reader.pc = .returned then some { s with serverPc := .postDone }
    else
      (ipcsReadStep s.shared s.reader).map fun moved =>
        { s with shared := moved.1, reader := moved.2 }
  | .postDone =>
    (s.shared.semOp .serverDone 1).map fun sh => { s with shared := sh, serverPc := .sendEnd }
  | .sendEnd => some { s with shared := s.shared.send .msgq .serverEnded, serverPc := .readN }
  | .undefined => none

def step (s : State) : Act → Option State
  | .sigint files => sigIntHandlerStart s files
  | .client pid => sigIntHandlerStep s pid
  | .child i => childStep s i
  | .server => mainStep s

def startState (buffer : Nat → Message) (childrenWait : Nat) : State :=
  { shared := createdShared buffer
    serverPc := .readN
    n := 0
    reader := noReader
    clientPc := .pause
    files := []
    childrenWait
    children := [] }

/-- A run of the program from its start. -/
def Reaches (trace : List (State × Act)) (s : State) : Prop :=
  ∃ buffer childrenWait,
    Exec (fun s a t => step s a = some t) (startState buffer childrenWait) trace s

/-- What one step of the server does. -/
inductive ServerMove (s : State) : State → Prop
  | readN {n rest} : s.serverPc = .readN → s.shared.queues .fifo1 = .count n :: rest →
      ServerMove s { s with
        shared := s.shared.receive .fifo1 rest
        n
        serverPc := if 0 < n then .reset 0 else .readN }
  | garbled {packet rest} : s.serverPc = .readN → s.shared.queues .fifo1 = packet :: rest →
      (∀ n, packet ≠ .count n) →
      ServerMove s { s with shared := s.shared.receive .fifo1 rest, serverPc := .undefined }
  | reset {i} : s.serverPc = .reset i → i < 50 →
      ServerMove s { s with
        shared := { s.shared with flags := update s.shared.flags i false }
        serverPc := .reset (i + 1) }
  | ready {i} : s.serverPc = .reset i → 50 ≤ i → ServerMove s { s with serverPc := .greet }
  | greet (first : Message) : s.serverPc = .greet →
      ServerMove s { s with
        shared := { s.shared with buffer := update s.shared.buffer 0 first }
        serverPc := .postData }
  | postData : s.serverPc = .postData →
      ServerMove s { s with
        shared := s.shared.setSem .waitData (s.shared.sems .waitData + 1)
        reader := ipcsRead s.n
        serverPc := .reading }
  | returned : s.serverPc = .reading → s.reader.pc = .returned →
      ServerMove s { s with serverPc := .postDone }
  | read {taken stored sh rd} : s.serverPc = .reading →
      ReaderMove s.shared s.reader taken stored sh rd →
      ServerMove s { s with shared := sh, reader := rd }
  | postDone : s.serverPc = .postDone →
      ServerMove s { s with
        shared := s.shared.setSem .serverDone (s.shared.sems .serverDone + 1)
        serverPc := .sendEnd }
  | sendEnd : s.serverPc = .sendEnd →
      ServerMove s { s with shared := s.shared.send .msgq .serverEnded, serverPc := .readN }

theorem mainStep_move {s t : State} (moved : mainStep s = some t) : ServerMove s t := by
  unfold mainStep at moved
  split at moved
  case h_1 pc =>
      split at moved
      case h_1 => cases moved
      case h_2 first => cases moved; exact .readN pc first
      case h_3 other first => cases moved; exact .garbled pc first other
  case h_2 pc =>
      split at moved
      case isTrue less => cases moved; exact .reset pc less
      case isFalse all => cases moved; exact .ready pc (Nat.le_of_not_lt all)
  case h_3 pc => cases moved; exact .greet _ pc
  case h_4 pc => rw [semOp_one] at moved; cases moved; exact .postData pc
  case h_5 pc =>
      split at moved
      case isTrue returned => cases moved; exact .returned pc returned
      case isFalse =>
          obtain ⟨⟨sh, rd⟩, read, rfl⟩ := Option.map_eq_some_iff.mp moved
          obtain ⟨taken, stored, move⟩ := ipcsReadStep_move read
          exact .read pc move
  case h_6 pc => rw [semOp_one] at moved; cases moved; exact .postDone pc
  case h_7 pc => cases moved; exact .sendEnd pc
  case h_8 => cases moved

inductive ClientMove (s : State) : State → Prop
  | sendN : s.clientPc = .sendN →
      ClientMove s { s with
        shared := s.shared.send .fifo1 (.count s.files.length)
        clientPc := .createSems }
  | createSems : s.clientPc = .createSems →
      ClientMove s { s with childrenWait := s.files.length % 65536, clientPc := .waitData }
  | waitData {value} : s.clientPc = .waitData → s.shared.sems .waitData = value + 1 →
      ClientMove s { s with shared := s.shared.setSem .waitData value, clientPc := .fork 0 }
  | fork {i} (pid : Nat) : s.clientPc = .fork i → i < s.files.length →
      ClientMove s { s with
        children := s.children ++ [{ pid, pc := .start }]
        clientPc := .fork (i + 1) }
  | forked {i} : s.clientPc = .fork i → s.files.length ≤ i →
      ClientMove s { s with clientPc := .waitChildren }
  | waitChildren : s.clientPc = .waitChildren → (∀ c ∈ s.children, c.hasExited = true) →
      ClientMove s { s with clientPc := .waitDone }
  | waitDone {value} : s.clientPc = .waitDone → s.shared.sems .serverDone = value + 1 →
      ClientMove s { s with shared := s.shared.setSem .serverDone value, clientPc := .recvEnd }
  | recvEnd {packet rest} : s.clientPc = .recvEnd → s.shared.queues .msgq = packet :: rest →
      ClientMove s { s with shared := s.shared.receive .msgq rest, clientPc := .pause }

theorem sigIntHandlerStep_move {s t : State} {pid : Nat}
    (moved : sigIntHandlerStep s pid = some t) : ClientMove s t := by
  unfold sigIntHandlerStep at moved
  split at moved
  case h_1 => cases moved
  case h_2 pc => cases moved; exact .sendN pc
  case h_3 pc => cases moved; exact .createSems pc
  case h_4 pc =>
      obtain ⟨sh, taken, rfl⟩ := Option.map_eq_some_iff.mp moved
      obtain ⟨value, before, rfl⟩ := semOp_neg_one.mp taken
      exact .waitData pc before
  case h_5 pc =>
      split at moved
      case isTrue less => cases moved; exact .fork pid pc less
      case isFalse all => cases moved; exact .forked pc (Nat.le_of_not_lt all)
  case h_6 pc =>
      split at moved
      case isTrue all => cases moved; exact .waitChildren pc (List.all_eq_true.mp all)
      case isFalse => cases moved
  case h_7 pc =>
      obtain ⟨sh, taken, rfl⟩ := Option.map_eq_some_iff.mp moved
      obtain ⟨value, before, rfl⟩ := semOp_neg_one.mp taken
      exact .waitDone pc before
  case h_8 pc =>
      split at moved
      case h_1 => cases moved
      case h_2 first => cases moved; exact .recvEnd pc first

inductive ChildMove (s : State) (i : Nat) (c : Child) : State → Prop
  | failed {file} : c.pc = .start → s.files[i]? = some file →
      childMessages i c.pid file = none → ChildMove s i c (s.setChild i c .errExit)
  | start {file messages} : c.pc = .start → s.files[i]? = some file →
      childMessages i c.pid file = some messages →
      ChildMove s i c (s.setChild i c (.arrive messages))
  | arrive {messages value} : c.pc = .arrive messages → s.childrenWait = value + 1 →
      ChildMove s i c { s.setChild i c (.wait messages) with childrenWait := value }
  | wait {messages} : c.pc = .wait messages → s.childrenWait = 0 →
      ChildMove s i c { s.setChild i c (.writing (ipcsWrite messages)) with childrenWait := 0 }
  | exit {w} : c.pc = .writing w → w.pc = .returned →
      ChildMove s i c (s.setChild i c (.exited w.messages))
  | write {w w' sh} : c.pc = .writing w → WriterMove s.shared w sh w' →
      ChildMove s i c { s.setChild i c (.writing w') with shared := sh }

theorem childStep_move {s t : State} {i : Nat} (moved : childStep s i = some t) :
    ∃ c, s.children[i]? = some c ∧ ChildMove s i c t := by
  simp only [childStep, Option.bind_eq_bind, Option.bind_eq_some_iff] at moved
  obtain ⟨c, here, moved⟩ := moved
  refine ⟨c, here, ?_⟩
  split at moved
  case h_1 pc =>
      obtain ⟨file, listed, moved⟩ := Option.bind_eq_some_iff.mp moved
      split at moved
      case h_1 none => cases moved; exact .failed pc listed none
      case h_2 made => cases moved; exact .start pc listed made
  case h_2 pc =>
      obtain ⟨value, taken, rfl⟩ := Option.map_eq_some_iff.mp moved
      exact .arrive pc (semop_neg_one.mp taken)
  case h_3 pc =>
      obtain ⟨value, zero, rfl⟩ := Option.map_eq_some_iff.mp moved
      obtain ⟨before, rfl⟩ := semop_zero.mp zero
      exact .wait pc before
  case h_4 w pc =>
      split at moved
      case isTrue returned => cases moved; exact .exit pc returned
      case isFalse =>
          obtain ⟨⟨sh, w'⟩, written, rfl⟩ := Option.map_eq_some_iff.mp moved
          exact .write pc (ipcsWriteStep_move written)
  case h_5 => cases moved
  case h_6 => cases moved

end Elaborato.SystemCall
