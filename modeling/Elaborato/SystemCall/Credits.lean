import Elaborato.SystemCall.Channels
import Elaborato.Foundation.Counting
import Elaborato.Foundation.Execution

/-!
The accounts of the credit semaphores and the mutex, which every step keeps.
-/
namespace Elaborato.SystemCall
open Foundation List Function

def Packet.isPart (p : Message → Bool) : Packet → Bool
  | .part m => p m
  | _ => false

def Reader.took (rd : Reader) (i : Nat) : Bool :=
  decide (rd.pc = .creditShm i) || decide (rd.pc = .clear i)

def slotUnread (p : Message → Bool) (sh : Shared) (rd : Reader) (i : Nat) : Bool :=
  sh.flags i && !rd.took i && p (sh.buffer i)

def unread (p : Message → Bool) (sh : Shared) (rd : Reader) : Channel → Nat
  | .queue q => (sh.queues q).countP (Packet.isPart p)
  | .shm => (List.range shmSlots).countP (slotUnread p sh rd)

def WritePc.credit : WritePc → Option Channel
  | .write q => some (.queue q)
  | .lock | .find | .copy _ | .flag _ | .errExit => some .shm
  | _ => none

def Writer.holds (ch : Channel) (w : Writer) : Bool := decide (w.pc.credit = some ch)

def Writer.delivered (w : Writer) (ch : Channel) : Bool :=
  w.sent ch || decide (ch = .shm ∧ w.pc = .unlock)

def Writer.inSection (w : Writer) : Bool :=
  match w.pc with
  | .find | .copy _ | .flag _ | .unlock | .errExit => true
  | _ => false

def ReadPc.uncredited : ReadPc → Option Channel
  | .credit q _ => some (.queue q)
  | .creditShm _ => some .shm
  | _ => none

def Reader.owes (ch : Channel) (rd : Reader) : Bool := decide (rd.pc.uncredited = some ch)

def Reader.inSection (rd : Reader) : Bool :=
  match rd.pc with
  | .find | .updateShm _ | .creditShm _ | .clear _ | .unlock => true
  | .undefined locked => locked
  | _ => false

structure Writer.Wf (w : Writer) : Prop where
  unsent : ∀ ch, w.pc.credit = some ch → w.sent ch = false
  unlocking : w.pc = .unlock → w.sent .shm = false
  returned : w.pc = .returned → ∀ ch, w.sent ch = true

def Writer.Placed (sh : Shared) (w : Writer) : Prop :=
  match w.pc with
  | .copy i => i < shmSlots ∧ sh.flags i = false
  | .flag i => i < shmSlots ∧ sh.flags i = false ∧ sh.buffer i = w.messages .shm
  | .unlock => ∃ i < shmSlots, sh.flags i = true
  | .errExit => False
  | _ => True

def Reader.Placed (sh : Shared) (rd : Reader) : Prop :=
  match rd.pc with
  | .updateShm i | .creditShm i | .clear i => i < shmSlots ∧ sh.flags i = true
  | _ => True

structure Credits (sh : Shared) (ws : List Writer) (rd : Reader) : Prop where
  balance : ∀ ch, unread (fun _ => true) sh rd ch + sh.sems (.credit ch) +
    ws.countP (Writer.holds ch) + (rd.owes ch).toNat = 50
  mutex : sh.sems .shmMutex + ws.countP Writer.inSection + rd.inSection.toNat = 1
  wf : ∀ w ∈ ws, w.Wf
  writers : ∀ w ∈ ws, w.Placed sh
  reader : rd.Placed sh

variable {p : Message → Bool} {sh : Shared} {rd : Reader} {ch : Channel} {q : Queue}

section
variable (sem : Sem) (value : Nat)
include sem value

@[simp] theorem setSem_queues : (sh.setSem sem value).queues = sh.queues := rfl

@[simp] theorem setSem_flags : (sh.setSem sem value).flags = sh.flags := rfl

@[simp] theorem setSem_buffer : (sh.setSem sem value).buffer = sh.buffer := rfl

@[simp] theorem setSem_sems : (sh.setSem sem value).sems = update sh.sems sem value := rfl

end

@[simp] theorem send_sems (packet : Packet) : (sh.send q packet).sems = sh.sems := rfl

@[simp] theorem receive_sems (rest : List Packet) : (sh.receive q rest).sems = sh.sems := rfl

@[simp] theorem unread_setSem (sem : Sem) (value : Nat) :
    unread p (sh.setSem sem value) rd ch = unread p sh rd ch := by
  cases ch <;> rfl

attribute [local simp] unread Packet.isPart Shared.send Shared.receive Reader.inSection
  Writer.delivered Writer.goto Writer.done slotUnread Writer.holds Reader.goto ReadPc.uncredited
  Reader.owes ipcsRead

theorem unread_send (m : Message) : unread p (sh.send q (.part m)) rd ch =
    unread p sh rd ch + (decide (ch = .queue q) && p m).toNat := by
  cases ch with
  | shm => rfl
  | queue q' =>
    by_cases same : q' = q
    · subst same
      cases pm : p m <;> simp [pm]
    · simp [same]

variable {rest : List Packet}

theorem unread_receive_part {m : Message} (first : sh.queues q = .part m :: rest) :
    unread p (sh.receive q rest) rd ch + (decide (ch = .queue q) && p m).toNat =
      unread p sh rd ch := by
  cases ch with
  | shm => rfl
  | queue q' =>
    by_cases same : q' = q
    · subst same
      cases pm : p m <;> simp [first, pm]
    · simp [same]

theorem unread_receive_other {packet : Packet} (first : sh.queues q = packet :: rest)
    (other : ∀ m, packet ≠ .part m) : unread p (sh.receive q rest) rd ch = unread p sh rd ch := by
  cases ch with
  | shm => rfl
  | queue q' =>
    by_cases same : q' = q
    · subst same
      cases packet with
      | part m => exact absurd rfl (other m)
      | count n | serverEnded => simp [first]
    · simp [same]

variable {sh' : Shared} {rd' : Reader}

theorem unread_slot {i : Nat} (bound : i < shmSlots)
    (others : ∀ j, j ≠ i → slotUnread p sh' rd' j = slotUnread p sh rd j) :
    unread p sh' rd' .shm + (slotUnread p sh rd i).toNat =
      unread p sh rd .shm + (slotUnread p sh' rd' i).toNat :=
  countP_differ nodup_range (mem_range.mpr bound) fun j _ apart => others j apart

theorem unread_shm_congr (slots : ∀ i, slotUnread p sh' rd' i = slotUnread p sh rd i) :
    unread p sh' rd' .shm = unread p sh rd .shm :=
  congrArg (List.countP · _) (funext slots)

variable {w w' : Writer}

theorem not_took {i : Nat} (outside : rd.inSection = false) : rd.took i = false := by
  cases pc : rd.pc <;> simp_all [Reader.took]

theorem delivered_eq (here : w.pc ≠ .unlock) : w.delivered ch = w.sent ch := by
  simp [here]

variable {pc : WritePc}

theorem delivered_goto (there : pc ≠ .unlock) : (w.goto pc).delivered ch = w.sent ch := by
  simp [there]

theorem delivered_done {ch' : Channel} (there : pc ≠ .unlock) :
    (w.done ch' pc).delivered ch = update w.sent ch' true ch := by
  simp [there]

theorem holds_goto (pc : WritePc) : (w.goto pc).holds ch = decide (pc.credit = some ch) := rfl

theorem holds_done (ch' : Channel) (pc : WritePc) :
    (w.done ch' pc).holds ch = decide (pc.credit = some ch) := rfl

theorem nextAttempt_ne_unlock (ch : Channel) : ch.nextAttempt ≠ .unlock := by
  rcases ch with (_ | _ | _) | _ <;> simp [Channel.nextAttempt]

theorem access_ne_unlock (ch : Channel) : ch.access ≠ .unlock := by
  cases ch <;> simp [Channel.access]

theorem nextAttempt_credit (ch : Channel) : ch.nextAttempt.credit = none := by
  rcases ch with (_ | _ | _) | _ <;> rfl

theorem access_credit (ch : Channel) : ch.access.credit = some ch := by
  cases ch <;> rfl

section
variable (move : WriterMove sh w sh' w')
include move

theorem WriterMove.unread_delivered (wf : w.Wf) (placed : w.Placed sh)
    (alone : w.inSection = true → rd.inSection = false) (p : Message → Bool) (ch : Channel) :
    unread p sh' rd ch + (w.delivered ch && p (w.messages ch)).toNat =
      unread p sh rd ch + (w'.delivered ch && p (w.messages ch)).toNat := by
  cases move with
  | finish pc _ | again pc _ => rw [delivered_eq (by simp [pc]), delivered_goto (by simp)]
  | skip pc _ => rw [delivered_eq (by simp [pc]), delivered_goto (nextAttempt_ne_unlock _)]
  | take pc _ _ =>
    rw [delivered_eq (by simp [pc]), delivered_goto (access_ne_unlock _), unread_setSem]
  | @write q pc =>
    rw [delivered_eq (by simp [pc]), unread_send]
    by_cases same : ch = .queue q
    · subst same
      have before := wf.unsent (.queue q) (by simp [pc, WritePc.credit])
      simp [before]
    · simp [same, nextAttempt_ne_unlock]
  | lock pc _ => rw [delivered_eq (by simp [pc]), delivered_goto (by simp), unread_setSem]
  | full pc _ | find pc _ => rw [delivered_eq (by simp [pc]), delivered_goto (by simp)]
  | @copy i pc =>
    rw [delivered_eq (by simp [pc]), delivered_goto (by simp)]
    simp only [Writer.Placed, pc] at placed
    cases ch with
    | queue q => rfl
    | shm =>
      rw [unread_shm_congr fun j => ?_]
      by_cases same : j = i
      · simp [same, placed.2]
      · simp [same]
  | @flag i pc =>
    rw [delivered_eq (by simp [pc])]
    simp only [Writer.Placed, pc] at placed
    obtain ⟨bound, before, content⟩ := placed
    have unsent := wf.unsent .shm (by simp [pc, WritePc.credit])
    have outside : rd.took i = false := not_took (alone (by simp [Writer.inSection, pc]))
    cases ch with
    | queue q => simp
    | shm =>
      have slot : unread p { sh with flags := update sh.flags i true } rd .shm + _ =
          unread p sh rd .shm + _ :=
        unread_slot bound fun j apart => by simp [apart]
      simpa [before, outside, content, unsent]
        using slot
  | unlock pc =>
    have unsent := wf.unlocking pc
    rw [unread_setSem]
    cases ch with
    | queue q => simp
    | shm => simp [pc]

theorem WriterMove.credit (wf : w.Wf) (ch : Channel) :
    sh'.sems (.credit ch) + (w'.holds ch).toNat + (w'.delivered ch).toNat =
      sh.sems (.credit ch) + (w.holds ch).toNat + (w.delivered ch).toNat := by
  cases move with
  | finish pc _ | again pc _ | lock pc _ | full pc _ | find pc _ | copy pc =>
    simp [pc, WritePc.credit]
  | skip pc _ =>
    rw [delivered_goto (nextAttempt_ne_unlock _), delivered_eq (by simp [pc])]
    rw [holds_goto, nextAttempt_credit]
    simp [pc, WritePc.credit]
  | @take ch' value pc _ before =>
    rw [delivered_goto (access_ne_unlock _), delivered_eq (by simp [pc]), holds_goto, access_credit]
    by_cases same : ch' = ch
    · simp [pc, WritePc.credit, same, same ▸ before]
    · simp [pc, WritePc.credit, same, Ne.symm same]
  | @write q pc =>
    have before := wf.unsent (.queue q) (by simp [pc, WritePc.credit])
    rw [delivered_done (nextAttempt_ne_unlock _), delivered_eq (by simp [pc]), holds_done,
      nextAttempt_credit]
    by_cases same : ch = .queue q
    · simp [pc, WritePc.credit, same, before]
    · simp [pc, WritePc.credit, same, Ne.symm same]
  | flag pc =>
    have unsent := wf.unsent .shm (by simp [pc, WritePc.credit])
    cases ch <;> simp [pc, WritePc.credit, unsent]
  | unlock pc =>
    have unsent := wf.unlocking pc
    cases ch <;> simp [pc, WritePc.credit, unsent]

omit move in
theorem nextAttempt_outside (w : Writer) (ch : Channel) :
    (w.goto ch.nextAttempt).inSection = false := by
  rcases ch with (_ | _ | _) | _ <;> rfl

theorem WriterMove.mutex :
    sh'.sems .shmMutex + w'.inSection.toNat = sh.sems .shmMutex + w.inSection.toNat := by
  cases move with
  | finish pc _ | again pc _ | full pc _ | find pc _ | copy pc | flag pc =>
    simp [Writer.inSection, pc]
  | skip pc _ =>
    rw [nextAttempt_outside]
    simp [Writer.inSection, pc]
  | @take ch _ pc _ _ => cases ch <;> simp [Writer.inSection, pc, Channel.access]
  | @write q pc => cases q <;> simp [Writer.inSection, pc, Channel.nextAttempt]
  | lock pc before => simp [Writer.inSection, pc, before]
  | unlock pc => simp [Writer.inSection, pc]

theorem WriterMove.messages : w'.messages = w.messages := by
  cases move <;> rfl

theorem WriterMove.outside (here : w.inSection = false) :
    sh'.flags = sh.flags ∧ sh'.buffer = sh.buffer := by
  cases move with
  | copy pc | flag pc => simp [Writer.inSection, pc] at here
  | _ => exact ⟨rfl, rfl⟩

end

theorem wf_of_quiet (idle : w.pc.credit = none) (notUnlock : w.pc ≠ .unlock)
    (notReturned : w.pc ≠ .returned) : w.Wf :=
  ⟨by simp [idle], fun pc => absurd pc notUnlock, fun pc => absurd pc notReturned⟩

theorem wf_of_credit (credit : w.pc.credit = some ch) (unsent : w.sent ch = false) : w.Wf := by
  refine ⟨?_, ?_, ?_⟩
  · intro ch' credit'
    rw [credit, Option.some.injEq] at credit'
    exact credit' ▸ unsent
  · intro pc
    simp [pc, WritePc.credit] at credit
  · intro pc
    simp [pc, WritePc.credit] at credit

theorem nextAttempt_ne_returned (ch : Channel) : ch.nextAttempt ≠ .returned := by
  rcases ch with (_ | _ | _) | _ <;> simp [Channel.nextAttempt]

theorem WriterMove.wf (move : WriterMove sh w sh' w') (wf : w.Wf) : w'.Wf := by
  cases move with
  | finish pc all =>
    exact ⟨by simp [WritePc.credit], by simp, fun _ => all⟩
  | again pc _ => exact wf_of_quiet rfl (by simp) (by simp)
  | skip pc _ =>
    exact wf_of_quiet (nextAttempt_credit _) (nextAttempt_ne_unlock _) (nextAttempt_ne_returned _)
  | take pc unsent _ => exact wf_of_credit (access_credit _) unsent
  | write pc =>
    exact wf_of_quiet (nextAttempt_credit _) (nextAttempt_ne_unlock _) (nextAttempt_ne_returned _)
  | lock pc _ | full pc _ | find pc _ | copy pc =>
    exact wf_of_credit rfl (wf.unsent .shm (by simp [pc, WritePc.credit]))
  | flag pc =>
    refine ⟨by simp [WritePc.credit], ?_, by simp⟩
    exact fun _ => wf.unsent .shm (by simp [pc, WritePc.credit])
  | unlock pc => exact wf_of_quiet rfl (by simp) (by simp)

theorem placed_outside (outside : w.inSection = false) : w.Placed sh := by
  cases pc : w.pc <;> simp_all [Writer.Placed, Writer.inSection]

theorem reader_placed_outside (outside : rd.inSection = false) : rd.Placed sh := by
  cases pc : rd.pc <;> simp_all [Reader.Placed]

theorem placed_congr (flags : sh'.flags = sh.flags) (buffer : sh'.buffer = sh.buffer)
    (placed : w.Placed sh) : w.Placed sh' := by
  unfold Writer.Placed at placed ⊢
  rwa [flags, buffer]

theorem reader_placed_congr (flags : sh'.flags = sh.flags) (placed : rd.Placed sh) :
    rd.Placed sh' := by
  unfold Reader.Placed at placed ⊢
  rwa [flags]

theorem WriterMove.placed (move : WriterMove sh w sh' w') (placed : w.Placed sh)
    (room : w.pc = .find → findSHM sh.flags false ≠ none) : w'.Placed sh' := by
  cases move with
  | finish pc _ | again pc _ | lock pc _ => exact trivial
  | skip pc _ => exact placed_outside (nextAttempt_outside _ _)
  | @take ch _ pc _ _ => cases ch <;> exact trivial
  | @write q pc => cases q <;> exact trivial
  | full pc missing => exact absurd missing (room pc)
  | find pc found => exact findSHM_some found
  | copy pc =>
    simp only [Writer.Placed, pc] at placed
    exact ⟨placed.1, placed.2, update_self ..⟩
  | @flag i pc =>
    simp only [Writer.Placed, pc] at placed
    exact ⟨i, placed.1, update_self ..⟩
  | unlock pc => exact trivial

variable {ws ws' : List Writer}

theorem Credits.section_alone (credits : Credits sh ws rd) (hw : w ∈ ws)
    (inside : w.inSection = true) : ws.countP Writer.inSection = 1 ∧ rd.inSection = false := by
  have one : 0 < ws.countP Writer.inSection := countP_pos_iff.mpr ⟨w, hw, inside⟩
  have mutex := credits.mutex
  cases h : rd.inSection with
  | false => exact ⟨by rw [h, Bool.toNat_false] at mutex; omega, rfl⟩
  | true => exact absurd mutex (by rw [h, Bool.toNat_true]; omega)

theorem Credits.room (credits : Credits sh ws rd) (hw : w ∈ ws) (pc : w.pc = .find) :
    findSHM sh.flags false ≠ none := by
  intro missing
  obtain ⟨-, outside⟩ := credits.section_alone hw (by simp [Writer.inSection, pc])
  have full : unread (fun _ => true) sh rd .shm = shmSlots := by
    have all : (List.range shmSlots).countP (slotUnread (fun _ => true) sh rd) =
        (List.range shmSlots).length := by
      refine countP_eq_length.mpr fun i hi => ?_
      simp [not_took outside, findSHM_none missing (mem_range.mp hi)]
    simpa using all
  have holder : 0 < ws.countP (Writer.holds .shm) :=
    countP_pos_iff.mpr ⟨w, hw, by simp [pc, WritePc.credit]⟩
  have balance := credits.balance .shm
  rw [full, shmSlots] at balance
  omega

theorem Credits.write (credits : Credits sh ws rd) (move : WriterMove sh w sh' w')
    (replaced : Replaced ws w w' ws') : Credits sh' ws' rd := by
  have hw := replaced.mem_old
  have wf := credits.wf w hw
  have placed := credits.writers w hw
  have alone : w.inSection = true → rd.inSection = false :=
    fun inside => (credits.section_alone hw inside).2
  refine ⟨?_, ?_, ?_, ?_, ?_⟩
  · intro ch
    have before := credits.balance ch
    have messages := move.unread_delivered wf placed alone (fun _ => true) ch
    have credit := move.credit wf ch
    have holders := replaced.countP (Writer.holds ch)
    simp only [Bool.and_true] at messages
    omega
  · have before := credits.mutex
    have moved := move.mutex
    have count := replaced.countP Writer.inSection
    omega
  · intro z hz
    rcases replaced.mem hz with rfl | hz
    · exact move.wf wf
    · exact credits.wf z hz
  · intro z hz
    rcases replaced.mem hz with rfl | old
    · exact move.placed placed (credits.room hw)
    · cases inside : w.inSection with
      | false =>
        obtain ⟨flags, buffer⟩ := move.outside inside
        exact placed_congr flags buffer (credits.writers z old)
      | true =>
        cases other : z.inSection with
        | false => exact placed_outside other
        | true =>
          rcases replaced.countP_others Writer.inSection hz other with rfl | more
          · exact move.placed placed (credits.room hw)
          · have single := (credits.section_alone hw inside).1
            rw [single, inside] at more
            exact absurd more (by simp)
  · cases inside : w.inSection with
    | false => exact reader_placed_congr (move.outside inside).1 credits.reader
    | true => exact reader_placed_outside (alone inside)

variable {taken stored : Option (Channel × Message)}

def tally (p : Message → Bool) (ch : Channel) : Option (Channel × Message) → Nat
  | none => 0
  | some (ch', m) => (decide (ch = ch') && p m).toNat

theorem nextPoll_outside (rd : Reader) (q : Queue) : (rd.goto q.nextPoll).inSection = false := by
  cases q <;> rfl

theorem nextPoll_uncredited (q : Queue) : q.nextPoll.uncredited = none := by
  cases q <;> rfl

theorem owes_goto (pc : ReadPc) : (rd.goto pc).owes ch = decide (pc.uncredited = some ch) := rfl

theorem unread_took {p : Message → Bool} (rd : Reader) (same : ∀ i, rd'.took i = rd.took i) :
    unread p sh rd' ch = unread p sh rd ch := by
  cases ch with
  | queue q => rfl
  | shm => exact unread_shm_congr fun i => by rw [slotUnread, same i, slotUnread]

theorem took_nextPoll (i : Nat) (q : Queue) : (rd.goto q.nextPoll).took i = false :=
  not_took (nextPoll_outside rd q)

section
variable (move : ReaderMove sh rd taken stored sh' rd')
include move

attribute [local simp] tally

theorem ReaderMove.unread_taken (placed : rd.Placed sh) (p : Message → Bool) (ch : Channel) :
    unread p sh' rd' ch + tally p ch taken = unread p sh rd ch := by
  cases move with
  | finish pc _ | again pc _ | overrun pc _ | busy pc _ | nothing pc _ | find pc _
  | overrunShm pc _ => exact unread_took rd fun i => by simp [Reader.took, pc]
  | empty pc _ | store pc _ =>
    exact unread_took rd fun i => by rw [took_nextPoll]; simp [Reader.took, pc]
  | credit pc | lock pc _ | creditShm pc | unlock pc =>
    rw [unread_setSem]
    exact unread_took rd fun i => by simp [Reader.took, pc]
  | take pc first =>
    rw [unread_took rd fun i => by simp [Reader.took, pc]]
    exact unread_receive_part first
  | garbled pc first other =>
    rw [unread_took rd fun i => by simp [Reader.took, pc]]
    exact unread_receive_other first other
  | @storeShm i pc _ =>
    simp only [Reader.Placed, pc] at placed
    cases ch with
    | queue q => rfl
    | shm =>
      have slot : unread p sh ((updateParts rd (sh.buffer i) .shm).goto (.creditShm i)) .shm +
          _ = unread p sh rd .shm + _ := unread_slot placed.1 fun j apart => by
        simp [Reader.took, pc, Ne.symm apart]
      simpa [Reader.took, pc, placed.2] using slot
  | @clear i pc =>
    cases ch with
    | queue q => rfl
    | shm =>
      refine unread_shm_congr fun j => ?_
      by_cases same : j = i
      · simp [Reader.took, same, pc]
      · simp [Reader.took, same, Ne.symm same, pc]

theorem ReaderMove.credit_taken (ch : Channel) :
    sh'.sems (.credit ch) + (rd'.owes ch).toNat =
      sh.sems (.credit ch) + (rd.owes ch).toNat + tally (fun _ => true) ch taken := by
  cases move with
  | finish pc _ | again pc _ | overrun pc _ | busy pc _ | nothing pc _ | find pc _
  | overrunShm pc _ | garbled pc _ _ | lock pc _ | clear pc | unlock pc =>
    simp [pc]
  | empty pc _ | store pc _ =>
    rw [owes_goto, nextPoll_uncredited]
    simp [pc]
  | take pc _ | storeShm pc _ =>
    simp [pc, eq_comm]
  | @credit q _ pc =>
    by_cases same : ch = .queue q
    · simp [pc, same]
    · simp [pc, same, Ne.symm same]
  | creditShm pc =>
    cases ch <;> simp [pc]

theorem ReaderMove.mutex :
    sh'.sems .shmMutex + rd'.inSection.toNat = sh.sems .shmMutex + rd.inSection.toNat := by
  cases move with
  | empty pc _ | store pc _ =>
    rw [nextPoll_outside]
    simp [pc]
  | lock pc before => simp [pc, before]
  | finish pc _ | again pc _ | overrun pc _ | busy pc _ | nothing pc _ | find pc _
  | overrunShm pc _ | garbled pc _ _ | clear pc | unlock pc | take pc _ | storeShm pc _
  | credit pc | creditShm pc => simp [pc]

theorem ReaderMove.outside :
    sh'.buffer = sh.buffer ∧ (rd.inSection = false → sh'.flags = sh.flags) := by
  cases move with
  | clear pc => exact ⟨rfl, by simp [pc]⟩
  | _ => exact ⟨rfl, fun _ => rfl⟩

theorem ReaderMove.placed (placed : rd.Placed sh) : rd'.Placed sh' := by
  cases move with
  | empty pc _ | store pc _ => exact reader_placed_outside (nextPoll_outside _ _)
  | find pc found => exact findSHM_some found
  | storeShm pc _ | creditShm pc => simpa [Reader.Placed, pc] using placed
  | finish | again | overrun | busy | nothing | overrunShm | garbled | clear | unlock | take
  | credit | lock => exact trivial

end

theorem Credits.read (credits : Credits sh ws rd)
    (move : ReaderMove sh rd taken stored sh' rd') : Credits sh' ws rd' := by
  obtain ⟨buffer, flags⟩ := move.outside
  refine ⟨?_, ?_, credits.wf, ?_, move.placed credits.reader⟩
  · intro ch
    have before := credits.balance ch
    have messages := move.unread_taken credits.reader (fun _ => true) ch
    have credit := move.credit_taken ch
    omega
  · have before := credits.mutex
    have moved := move.mutex
    omega
  · intro w hw
    cases inside : w.inSection with
    | false => exact placed_outside inside
    | true =>
      have apart := (credits.section_alone hw inside).2
      exact placed_congr (flags apart) buffer (credits.writers w hw)

def Packet.isControl : Packet → Bool
  | .part _ => false
  | _ => true

def controls (sh : Shared) (q : Queue) : List Packet := (sh.queues q).filter Packet.isControl

attribute [local simp] Packet.isControl controls

theorem length_queue (sh : Shared) (rd : Reader) (q : Queue) :
    (sh.queues q).length = unread (fun _ => true) sh rd (.queue q) + (controls sh q).length := by
  have control : (sh.queues q).countP (fun packet => ¬ Packet.isPart (fun _ => true) packet) =
      (sh.queues q).countP Packet.isControl :=
    countP_congr fun packet _ => by cases packet <;> simp
  rw [length_eq_countP_add_countP (Packet.isPart fun _ => true), control, controls,
    ← countP_eq_length_filter]
  rfl

theorem WriterMove.controls_eq (move : WriterMove sh w sh' w') :
    controls sh' q = controls sh q := by
  cases move with
  | @write q' pc =>
    by_cases same : q = q'
    · subst same
      simp
    · simp [same]
  | _ => rfl

theorem first_part {packet : Packet} {rest : List Packet} (clean : controls sh q = [])
    (first : sh.queues q = packet :: rest) : ∃ m, packet = .part m := by
  cases packet with
  | part m => exact ⟨m, rfl⟩
  | count n | serverEnded => simp [first] at clean

theorem ReaderMove.controls_eq (move : ReaderMove sh rd taken stored sh' rd')
    (clean : ∀ q, rd.pc = .poll q → controls sh q = []) : controls sh' q = controls sh q := by
  cases move with
  | @take q' m rest pc first =>
    by_cases same : q = q'
    · subst same
      simp [first]
    · simp [same]
  | @garbled q' packet rest pc first other =>
    obtain ⟨m, part⟩ := first_part (clean q' pc) first
    exact absurd part (other m)
  | _ => rfl

structure Ipcs where
  shared : Shared
  writers : List Writer
  reader : Reader

inductive IpcsAct
  | callWrite (messages : Channel → Message)
  | write (i : Nat)
  | callRead (n : Nat)
  | read

def ipcsStep (s : Ipcs) : IpcsAct → Option Ipcs
  | .callWrite messages => some { s with writers := s.writers ++ [ipcsWrite messages] }
  | .write i => do
      let w ← s.writers[i]?
      let (sh, w') ← ipcsWriteStep s.shared w
      some { s with shared := sh, writers := s.writers.set i w' }
  | .callRead n => if s.reader.pc = .returned then some { s with reader := ipcsRead n } else none
  | .read => do
      let (sh, rd) ← ipcsReadStep s.shared s.reader
      some { s with shared := sh, reader := rd }

def createdShared (buffer : Nat → Message) : Shared :=
  { queues := fun _ => [], buffer, flags := fun _ => false, sems := semInitVal }

/-- No call of `ipcs_read` yet. -/
def noReader : Reader := (ipcsRead 0).goto .returned

def createdIpcs (buffer : Nat → Message) : Ipcs :=
  { shared := createdShared buffer, writers := [], reader := noReader }

theorem credits_created (buffer : Nat → Message) : Credits (createdShared buffer) [] noReader := by
  refine ⟨?_, rfl, by simp, by simp, trivial⟩
  intro ch
  cases ch <;> rfl

theorem Credits.append {w : Writer} (credits : Credits sh ws rd) (idle : w.pc.credit = none)
    (outside : w.inSection = false) (wf : w.Wf) : Credits sh (ws ++ [w]) rd := by
  refine ⟨?_, ?_, ?_, ?_, credits.reader⟩
  · intro ch
    simpa [countP_append, idle] using credits.balance ch
  · simpa [countP_append, outside] using credits.mutex
  · intro z hz
    rcases mem_append.mp hz with hz | hz
    · exact credits.wf z hz
    · rwa [mem_singleton.mp hz]
  · intro z hz
    rcases mem_append.mp hz with hz | hz
    · exact credits.writers z hz
    · rw [mem_singleton.mp hz]
      exact placed_outside outside

theorem Credits.callRead (credits : Credits sh ws rd) (returned : rd.pc = .returned) (n : Nat) :
    Credits sh ws (ipcsRead n) := by
  have took : ∀ i, (ipcsRead n).took i = rd.took i := fun i => by
    simp [Reader.took, returned]
  refine ⟨?_, ?_, credits.wf, credits.writers, trivial⟩
  · intro ch
    rw [unread_took rd took]
    simpa [returned] using credits.balance ch
  · simpa [returned] using credits.mutex

variable {s : Ipcs}

theorem credits_ipcsStep {t : Ipcs} {a : IpcsAct} (step : ipcsStep s a = some t)
    (credits : Credits s.shared s.writers s.reader) (clean : ∀ q, controls s.shared q = []) :
    Credits t.shared t.writers t.reader ∧ ∀ q, controls t.shared q = [] := by
  cases a with
  | callWrite messages =>
    rw [← Option.some.inj step]
    exact ⟨credits.append rfl rfl (wf_of_quiet rfl (by simp [ipcsWrite]) (by simp [ipcsWrite])),
      clean⟩
  | write i =>
    simp only [ipcsStep, Option.bind_eq_bind, Option.bind_eq_some_iff, Option.some.injEq] at step
    obtain ⟨w, here, ⟨sh, w'⟩, moved, rfl⟩ := step
    have move := ipcsWriteStep_move moved
    exact ⟨credits.write move (replaced_set here w'), fun q => move.controls_eq.trans (clean q)⟩
  | callRead n =>
    simp only [ipcsStep] at step
    split at step
    case isTrue returned =>
        rw [← Option.some.inj step]
        exact ⟨credits.callRead returned n, clean⟩
    case isFalse => cases step
  | read =>
    simp only [ipcsStep, Option.bind_eq_bind, Option.bind_eq_some_iff, Option.some.injEq] at step
    obtain ⟨⟨sh, rd⟩, moved, rfl⟩ := step
    obtain ⟨taken, stored, move⟩ := ipcsReadStep_move moved
    exact ⟨credits.read move, fun q => (move.controls_eq fun q _ => clean q).trans (clean q)⟩

theorem credits_ipcs_run {buffer : Nat → Message} {trace : List (Ipcs × IpcsAct)}
    (run : Exec (fun s a t => ipcsStep s a = some t) (createdIpcs buffer) trace s) :
    Credits s.shared s.writers s.reader ∧ ∀ q, controls s.shared q = [] := by
  have stays : ∀ (s : Ipcs) (a : IpcsAct) (t : Ipcs),
      (Credits s.shared s.writers s.reader ∧ ∀ q, controls s.shared q = []) →
      ipcsStep s a = some t →
      Credits t.shared t.writers t.reader ∧ ∀ q, controls t.shared q = [] :=
    fun s a t inv step => credits_ipcsStep step inv.1 inv.2
  exact (exec_keeps ⟨credits_created buffer, fun _ => rfl⟩ stays run).2

end Elaborato.SystemCall
