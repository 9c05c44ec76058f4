import Elaborato.SystemCall.Defines

/-!
`ipcs_write` (client_0.c) and `ipcs_read` (server.c) as processes: a step is one system call or
one access to the shared memory.
-/
namespace Elaborato.SystemCall
open Function

inductive Packet
  | count (n : Nat)
  | part (m : Message)
  | serverEnded
  deriving DecidableEq, Repr

inductive Sem
  | waitData
  | fifoReady
  | credit (ch : Channel)
  | shmMutex
  | serverDone
  deriving DecidableEq, Repr

def semInitVal : Sem → Nat
  | .waitData => 0
  | .fifoReady => 0
  | .credit _ => 50
  | .shmMutex => 1
  | .serverDone => 0

structure Shared where
  queues : Queue → List Packet
  buffer : Nat → Message
  flags : Nat → Bool
  sems : Sem → Nat

def Shared.semOp (sh : Shared) (sem : Sem) (op : Int) : Option Shared :=
  (semop (sh.sems sem) op).map fun value => { sh with sems := update sh.sems sem value }

def Shared.send (sh : Shared) (q : Queue) (packet : Packet) : Shared :=
  { sh with queues := update sh.queues q (sh.queues q ++ [packet]) }

def Shared.receive (sh : Shared) (q : Queue) (rest : List Packet) : Shared :=
  { sh with queues := update sh.queues q rest }

inductive WritePc
  | loop
  | attempt (ch : Channel)
  | write (q : Queue)
  | lock
  | find
  | copy (index : Nat)
  | flag (index : Nat)
  | unlock
  | returned
  | errExit
  deriving DecidableEq, Repr

structure Writer where
  messages : Channel → Message
  sent : Channel → Bool
  pc : WritePc

def ipcsWrite (messages : Channel → Message) : Writer :=
  { messages, sent := fun _ => false, pc := .loop }

def Writer.goto (w : Writer) (pc : WritePc) : Writer := { w with pc }

def Writer.done (w : Writer) (ch : Channel) (pc : WritePc) : Writer :=
  { w with sent := update w.sent ch true, pc }

def Channel.nextAttempt : Channel → WritePc
  | .queue .fifo1 => .attempt (.queue .fifo2)
  | .queue .fifo2 => .attempt (.queue .msgq)
  | .queue .msgq => .attempt .shm
  | .shm => .loop

def Channel.access : Channel → WritePc
  | .queue q => .write q
  | .shm => .lock

def ipcsWriteStep (sh : Shared) (w : Writer) : Option (Shared × Writer) :=
  match w.pc with
  | .loop =>
    if channels.all w.sent then some (sh, w.goto .returned)
    else some (sh, w.goto (.attempt (.queue .fifo1)))
  | .attempt ch =>
    if w.sent ch then some (sh, w.goto ch.nextAttempt)
    else
      match sh.semOp (.credit ch) (-1) with
      | none => some (sh, w.goto ch.nextAttempt)
      | some sh' => some (sh', w.goto ch.access)
  | .write q =>
    some (sh.send q (.part (w.messages (.queue q))),
      w.done (.queue q) (Channel.queue q).nextAttempt)
  | .lock => (sh.semOp .shmMutex (-1)).map fun sh' => (sh', w.goto .find)
  | .find =>
    match findSHM sh.flags false with
    | none => some (sh, w.goto .errExit)
    | some index => some (sh, w.goto (.copy index))
  | .copy index =>
    some ({ sh with buffer := update sh.buffer index (w.messages .shm) },
      w.goto (.flag index))
  | .flag index =>
    some ({ sh with flags := update sh.flags index true }, w.goto .unlock)
  | .unlock => (sh.semOp .shmMutex 1).map fun sh' => (sh', w.done .shm Channel.shm.nextAttempt)
  | .returned => none
  | .errExit => none

inductive ReadPc
  | loop
  | poll (q : Queue)
  | credit (q : Queue) (m : Message)
  | update (q : Queue) (m : Message)
  | tryLock
  | find
  | updateShm (index : Nat)
  | creditShm (index : Nat)
  | clear (index : Nat)
  | unlock
  | returned
  | undefined (locked : Bool)
  deriving DecidableEq, Repr

structure Reader where
  n : Nat
  filesParts : Nat → Channel → Option Message
  contatori : Nat → Nat
  received : Nat
  written : List (Nat × (Channel → Option Message))
  pc : ReadPc

def ipcsRead (n : Nat) : Reader :=
  { n, filesParts := fun _ _ => none, contatori := fun _ => 0, received := 0, written := [],
    pc := .loop }

def Reader.goto (rd : Reader) (pc : ReadPc) : Reader := { rd with pc }

def Reader.count (rd : Reader) : Reader := { rd with received := rd.received + 1 }

def updateParts (rd : Reader) (m : Message) (ch : Channel) : Reader :=
  let row := m.index
  let parts := update (rd.filesParts row) ch (some m)
  { rd with
    filesParts := update rd.filesParts row parts
    contatori := update rd.contatori row (rd.contatori row + 1)
    written := if rd.contatori row + 1 = 4 then rd.written ++ [(row, parts)] else rd.written }

def Queue.nextPoll : Queue → ReadPc
  | .fifo1 => .poll .fifo2
  | .fifo2 => .poll .msgq
  | .msgq => .tryLock

def ipcsReadStep (sh : Shared) (rd : Reader) : Option (Shared × Reader) :=
  match rd.pc with
  | .loop =>
    if rd.received < rd.n * 4 then some (sh, rd.goto (.poll .fifo1))
    else some (sh, rd.goto .returned)
  | .poll q =>
    match sh.queues q with
    | [] => some (sh, rd.goto q.nextPoll)
    | .part m :: rest => some (sh.receive q rest, rd.goto (.credit q m))
    | _ :: rest => some (sh.receive q rest, rd.goto (.undefined false))
  | .credit q m => (sh.semOp (.credit (.queue q)) 1).map fun sh' => (sh', rd.goto (.update q m))
  | .update q m =>
    if m.index < rd.n then some (sh, (updateParts rd m (.queue q)).count.goto q.nextPoll)
    else some (sh, rd.goto (.undefined false))
  | .tryLock =>
    match sh.semOp .shmMutex (-1) with
    | none => some (sh, rd.goto .loop)
    | some sh' => some (sh', rd.goto .find)
  | .find =>
    match findSHM sh.flags true with
    | none => some (sh, rd.goto .unlock)
    | some index => some (sh, rd.goto (.updateShm index))
  | .updateShm index =>
    if (sh.buffer index).index < rd.n then
      some (sh, (updateParts rd (sh.buffer index) .shm).goto (.creditShm index))
    else some (sh, rd.goto (.undefined true))
  | .creditShm index =>
    (sh.semOp (.credit .shm) 1).map fun sh' => (sh', rd.goto (.clear index))
  | .clear index =>
    some ({ sh with flags := update sh.flags index false }, rd.count.goto .unlock)
  | .unlock => (sh.semOp .shmMutex 1).map fun sh' => (sh', rd.goto .loop)
  | .returned => none
  | .undefined _ => none

def Shared.setSem (sh : Shared) (sem : Sem) (value : Nat) : Shared :=
  { sh with sems := update sh.sems sem value }

theorem semOp_one (sh : Shared) (sem : Sem) :
    sh.semOp sem 1 = some (sh.setSem sem (sh.sems sem + 1)) := by
  simp only [Shared.semOp, semop_one, Option.map_some]
  rfl

variable {sh sh' : Shared} {sem : Sem}

theorem semOp_neg_one : sh.semOp sem (-1) = some sh' ↔
    ∃ value, sh.sems sem = value + 1 ∧ sh' = sh.setSem sem value := by
  rw [Shared.semOp, Option.map_eq_some_iff]
  exact exists_congr fun value => and_congr semop_neg_one eq_comm

theorem semOp_neg_one_none : sh.semOp sem (-1) = none ↔ sh.sems sem = 0 := by
  simp only [Shared.semOp, Option.map_eq_none_iff, semop_neg_one_none]

/-- What one step of `ipcs_write` does. -/
inductive WriterMove (sh : Shared) (w : Writer) : Shared → Writer → Prop
  | finish : w.pc = .loop → (∀ ch, w.sent ch = true) → WriterMove sh w sh (w.goto .returned)
  | again : w.pc = .loop → (∃ ch, w.sent ch = false) →
      WriterMove sh w sh (w.goto (.attempt (.queue .fifo1)))
  | skip {ch} : w.pc = .attempt ch → w.sent ch = true ∨ sh.sems (.credit ch) = 0 →
      WriterMove sh w sh (w.goto ch.nextAttempt)
  | take {ch value} : w.pc = .attempt ch → w.sent ch = false →
      sh.sems (.credit ch) = value + 1 →
      WriterMove sh w (sh.setSem (.credit ch) value) (w.goto ch.access)
  | write {q} : w.pc = .write q → WriterMove sh w (sh.send q (.part (w.messages (.queue q))))
      (w.done (.queue q) (Channel.queue q).nextAttempt)
  | lock {value} : w.pc = .lock → sh.sems .shmMutex = value + 1 →
      WriterMove sh w (sh.setSem .shmMutex value) (w.goto .find)
  | full : w.pc = .find → findSHM sh.flags false = none →
      WriterMove sh w sh (w.goto .errExit)
  | find {i} : w.pc = .find → findSHM sh.flags false = some i →
      WriterMove sh w sh (w.goto (.copy i))
  | copy {i} : w.pc = .copy i →
      WriterMove sh w { sh with buffer := update sh.buffer i (w.messages .shm) }
        (w.goto (.flag i))
  | flag {i} : w.pc = .flag i →
      WriterMove sh w { sh with flags := update sh.flags i true } (w.goto .unlock)
  | unlock : w.pc = .unlock →
      WriterMove sh w (sh.setSem .shmMutex (sh.sems .shmMutex + 1)) (w.done .shm .loop)

theorem all_sent_iff (w : Writer) : channels.all w.sent = true ↔ ∀ ch, w.sent ch = true := by
  rw [List.all_eq_true]
  exact ⟨fun all ch => all ch (mem_channels ch), fun all ch _ => all ch⟩

theorem ipcsWriteStep_move {w w' : Writer} (step : ipcsWriteStep sh w = some (sh', w')) :
    WriterMove sh w sh' w' := by
  unfold ipcsWriteStep at step
  split at step
  case h_1 pc =>
      split at step
      case isTrue all => cases step; exact .finish pc ((all_sent_iff w).mp all)
      case isFalse some =>
          cases step
          rw [all_sent_iff, not_forall] at some
          exact .again pc (some.imp fun ch => Bool.eq_false_iff.mpr)
  case h_2 ch pc =>
      split at step
      case isTrue sent => cases step; exact .skip pc (.inl sent)
      case isFalse sent =>
          split at step
          case h_1 blocked => cases step; exact .skip pc (.inr (semOp_neg_one_none.mp blocked))
          case h_2 taken =>
              cases step
              obtain ⟨value, before, rfl⟩ := semOp_neg_one.mp taken
              exact .take pc (Bool.eq_false_iff.mpr sent) before
  case h_3 q pc => cases step; exact .write pc
  case h_4 pc =>
      obtain ⟨sh'', taken, eq⟩ := Option.map_eq_some_iff.mp step
      obtain ⟨value, before, rfl⟩ := semOp_neg_one.mp taken
      cases eq
      exact .lock pc before
  case h_5 pc =>
      split at step
      case h_1 missing => cases step; exact .full pc missing
      case h_2 found => cases step; exact .find pc found
  case h_6 pc => cases step; exact .copy pc
  case h_7 pc => cases step; exact .flag pc
  case h_8 pc =>
      rw [semOp_one] at step
      cases step
      exact .unlock pc
  case h_9 => cases step
  case h_10 => cases step

inductive ReaderMove (sh : Shared) (rd : Reader) :
    Option (Channel × Message) → Option (Channel × Message) → Shared → Reader → Prop
  | finish : rd.pc = .loop → rd.n * 4 ≤ rd.received →
      ReaderMove sh rd none none sh (rd.goto .returned)
  | again : rd.pc = .loop → rd.received < rd.n * 4 →
      ReaderMove sh rd none none sh (rd.goto (.poll .fifo1))
  | empty {q} : rd.pc = .poll q → sh.queues q = [] →
      ReaderMove sh rd none none sh (rd.goto q.nextPoll)
  | take {q m rest} : rd.pc = .poll q → sh.queues q = .part m :: rest →
      ReaderMove sh rd (some (.queue q, m)) none (sh.receive q rest) (rd.goto (.credit q m))
  | garbled {q packet rest} : rd.pc = .poll q → sh.queues q = packet :: rest →
      (∀ m, packet ≠ .part m) →
      ReaderMove sh rd none none (sh.receive q rest) (rd.goto (.undefined false))
  | credit {q m} : rd.pc = .credit q m →
      ReaderMove sh rd none none (sh.setSem (.credit (.queue q)) (sh.sems (.credit (.queue q)) + 1))
        (rd.goto (.update q m))
  | store {q m} : rd.pc = .update q m → m.index < rd.n →
      ReaderMove sh rd none (some (.queue q, m)) sh
        ((updateParts rd m (.queue q)).count.goto q.nextPoll)
  | overrun {q m} : rd.pc = .update q m → rd.n ≤ m.index →
      ReaderMove sh rd none none sh (rd.goto (.undefined false))
  | busy : rd.pc = .tryLock → sh.sems .shmMutex = 0 → ReaderMove sh rd none none sh (rd.goto .loop)
  | lock {value} : rd.pc = .tryLock → sh.sems .shmMutex = value + 1 →
      ReaderMove sh rd none none (sh.setSem .shmMutex value) (rd.goto .find)
  | nothing : rd.pc = .find → findSHM sh.flags true = none →
      ReaderMove sh rd none none sh (rd.goto .unlock)
  | find {i} : rd.pc = .find → findSHM sh.flags true = some i →
      ReaderMove sh rd none none sh (rd.goto (.updateShm i))
  | storeShm {i} : rd.pc = .updateShm i → (sh.buffer i).index < rd.n →
      ReaderMove sh rd (some (.shm, sh.buffer i)) (some (.shm, sh.buffer i)) sh
        ((updateParts rd (sh.buffer i) .shm).goto (.creditShm i))
  | overrunShm {i} : rd.pc = .updateShm i → rd.n ≤ (sh.buffer i).index →
      ReaderMove sh rd none none sh (rd.goto (.undefined true))
  | creditShm {i} : rd.pc = .creditShm i →
      ReaderMove sh rd none none (sh.setSem (.credit .shm) (sh.sems (.credit .shm) + 1))
        (rd.goto (.clear i))
  | clear {i} : rd.pc = .clear i →
      ReaderMove sh rd none none { sh with flags := update sh.flags i false }
        (rd.count.goto .unlock)
  | unlock : rd.pc = .unlock →
      ReaderMove sh rd none none (sh.setSem .shmMutex (sh.sems .shmMutex + 1)) (rd.goto .loop)

theorem ipcsReadStep_move {rd rd' : Reader} (step : ipcsReadStep sh rd = some (sh', rd')) :
    ∃ taken stored, ReaderMove sh rd taken stored sh' rd' := by
  unfold ipcsReadStep at step
  split at step
  case h_1 pc =>
      split at step
      case isTrue less => cases step; exact ⟨_, _, .again pc less⟩
      case isFalse all => cases step; exact ⟨_, _, .finish pc (Nat.le_of_not_lt all)⟩
  case h_2 q pc =>
      split at step
      case h_1 none => cases step; exact ⟨_, _, .empty pc none⟩
      case h_2 first => cases step; exact ⟨_, _, .take pc first⟩
      case h_3 other first => cases step; exact ⟨_, _, .garbled pc first other⟩
  case h_3 pc =>
      rw [semOp_one] at step
      cases step
      exact ⟨_, _, .credit pc⟩
  case h_4 pc =>
      split at step
      case isTrue row => cases step; exact ⟨_, _, .store pc row⟩
      case isFalse row => cases step; exact ⟨_, _, .overrun pc (Nat.le_of_not_lt row)⟩
  case h_5 pc =>
      split at step
      case h_1 blocked => cases step; exact ⟨_, _, .busy pc (semOp_neg_one_none.mp blocked)⟩
      case h_2 taken =>
          cases step
          obtain ⟨value, before, rfl⟩ := semOp_neg_one.mp taken
          exact ⟨_, _, .lock pc before⟩
  case h_6 pc =>
      split at step
      case h_1 missing => cases step; exact ⟨_, _, .nothing pc missing⟩
      case h_2 found => cases step; exact ⟨_, _, .find pc found⟩
  case h_7 pc =>
      split at step
      case isTrue row => cases step; exact ⟨_, _, .storeShm pc row⟩
      case isFalse row => cases step; exact ⟨_, _, .overrunShm pc (Nat.le_of_not_lt row)⟩
  case h_8 pc =>
      rw [semOp_one] at step
      cases step
      exact ⟨_, _, .creditShm pc⟩
  case h_9 pc => cases step; exact ⟨_, _, .clear pc⟩
  case h_10 pc =>
      rw [semOp_one] at step
      cases step
      exact ⟨_, _, .unlock pc⟩
  case h_11 => cases step
  case h_12 => cases step

end Elaborato.SystemCall
