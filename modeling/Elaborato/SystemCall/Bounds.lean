import Elaborato.SystemCall.Collection

/-!
The credits bound a channel, and a client with one finds a slot that nobody needs any more.
-/
namespace Elaborato.SystemCall
open List

open Foundation

def Reader.clearing (rd : Reader) : Bool :=
  match rd.pc with
  | .clear _ => true
  | _ => false

structure Bounded (sh : Shared) (ws : List Writer) (rd : Reader) : Prop where
  balance : ∀ ch, unread (fun _ => true) sh rd ch + sh.sems (.credit ch) +
    ws.countP (Writer.holds ch) + (rd.owes ch).toNat = 50
  slots : (List.range shmSlots).countP sh.flags + sh.sems (.credit .shm) +
    ws.countP (Writer.holds .shm) = 50 + rd.clearing.toNat
  alone : rd.clearing = true → sh.sems .shmMutex = 0 ∧ ∀ w ∈ ws, w.inSection = false
  found : ∀ w ∈ ws, w.pc = .find → ∃ i < shmSlots, findSHM sh.flags false = some i ∧
    sh.flags i = false
  copied : ∀ w ∈ ws, ∀ i, w.pc = .copy i → i < shmSlots ∧ sh.flags i = false
  unfailed : ∀ w ∈ ws, w.pc ≠ .errExit
  pending : ∀ ch, unread (fun _ => true) sh rd ch ≤ 50
  queued : ∀ q, (sh.queues q).length ≤ 50

variable {sh : Shared} {ws : List Writer} {rd : Reader}

theorem countP_flags_untaken (untaken : ∀ i, rd.took i = false) :
    (List.range shmSlots).countP sh.flags = unread (fun _ => true) sh rd .shm :=
  countP_congr fun i _ => by simp [slotUnread, untaken i]

theorem countP_flags_took {i : Nat} (took : ∀ j, rd.took j = decide (j = i)) (bound : i < shmSlots)
    (flagged : sh.flags i = true) :
    (List.range shmSlots).countP sh.flags = unread (fun _ => true) sh rd .shm + 1 := by
  have equal := countP_differ (p := sh.flags) (q := slotUnread (fun _ => true) sh rd)
    nodup_range (mem_range.mpr bound) fun j _ apart => by simp [slotUnread, took, apart]
  simp only [slotUnread, took, flagged, decide_true, Bool.not_true, Bool.and_false,
    Bool.false_and, Bool.toNat_false, Bool.toNat_true] at equal
  exact equal

attribute [local simp] Reader.clearing

theorem countP_flags (placed : rd.Placed sh) : (List.range shmSlots).countP sh.flags =
    unread (fun _ => true) sh rd .shm + (rd.owes .shm).toNat + rd.clearing.toNat := by
  cases pc : rd.pc with
  | creditShm i | clear i =>
    simp only [Reader.Placed, pc] at placed
    have took : ∀ j, rd.took j = decide (j = i) := fun j => by simp [Reader.took, pc, eq_comm]
    rw [countP_flags_took took placed.1 placed.2]
    simp [Reader.owes, pc, ReadPc.uncredited]
  | _ =>
    have untaken : ∀ i, rd.took i = false := fun i => by simp [Reader.took, pc]
    rw [countP_flags_untaken untaken]
    simp [Reader.owes, pc, ReadPc.uncredited]

theorem Credits.clearing_alone (credits : Credits sh ws rd) (clearing : rd.clearing = true) :
    sh.sems .shmMutex = 0 ∧ ∀ w ∈ ws, w.inSection = false := by
  have mutex := credits.mutex
  have inside : rd.inSection = true := by
    cases pc : rd.pc <;> simp_all [Reader.inSection]
  rw [inside, Bool.toNat_true] at mutex
  have none : ws.countP Writer.inSection = 0 := by omega
  exact ⟨by omega, fun w hw => by simpa using countP_eq_zero.mp none w hw⟩

theorem Credits.bounded (credits : Credits sh ws rd) (queued : ∀ q, (sh.queues q).length ≤ 50) :
    Bounded sh ws rd := by
  have balance := credits.balance
  refine ⟨balance, ?_, credits.clearing_alone, ?_, ?_, ?_, ?_, queued⟩
  · have shm := balance .shm
    have flags := countP_flags credits.reader
    omega
  · intro w hw pc
    obtain ⟨i, found⟩ := Option.ne_none_iff_exists'.mp (credits.room hw pc)
    exact ⟨i, (findSHM_some found).1, found, (findSHM_some found).2⟩
  · intro w hw i pc
    have placed := credits.writers w hw
    simpa only [Writer.Placed, pc] using placed
  · intro w hw failed
    have placed := credits.writers w hw
    simp [Writer.Placed, failed] at placed
  · intro ch
    have total := balance ch
    omega

theorem agreed_length {count : Nat} {client : ClientStage} {server : ServerStage} {tk : Tokens}
    (agree : agreed count client server = some tk) : tk.fifo1.length ≤ 1 ∧ tk.msgq.length ≤ 1 := by
  cases agreed_cases agree <;> simp

theorem Inv.queued {s : State} (inv : Inv s) (q : Queue) : (s.shared.queues q).length ≤ 50 := by
  rw [length_queue s.shared s.reader q]
  by_cases reading : s.serverPc = .reading
  · rw [handshake_clean inv.hand reading q]
    have balance := inv.credits.balance (.queue q)
    simp only [length_nil]
    omega
  · rw [inv.drained (inv.hand.idle reading)]
    obtain ⟨fifo1, msgq⟩ := agreed_length inv.hand.tokens
    have fifo2 := inv.hand.fifo2
    simp only [tokens] at fifo1 msgq
    cases q with
    | fifo1 => omega
    | fifo2 => simp [fifo2]
    | msgq => omega

theorem credits_bound :
    (∀ buffer trace s, Exec (fun s a t => ipcsStep s a = some t) (createdIpcs buffer) trace s →
      Bounded s.shared s.writers s.reader) ∧
    ∀ trace s, Reaches trace s → Bounded s.shared s.writers s.reader := by
  constructor
  · intro buffer trace s run
    obtain ⟨credits, clean⟩ := credits_ipcs_run run
    refine credits.bounded fun q => ?_
    rw [length_queue s.shared s.reader q, clean q]
    have balance := credits.balance (.queue q)
    simp only [length_nil]
    omega
  · intro trace s run
    have inv := inv_reaches run
    exact inv.credits.bounded inv.queued

def writeToFind : List IpcsAct := .callWrite (fun _ => blankMessage) :: List.replicate 9 (.write 0)

theorem writeToFind_accepted :
    ∃ s, writeToFind.foldlM ipcsStep (createdIpcs fun _ => blankMessage) = some s ∧
      ∃ w ∈ s.writers, w.pc = .find := by
  have accepted : (writeToFind.foldlM ipcsStep (createdIpcs fun _ => blankMessage)).any (fun s =>
      s.writers.any fun w => decide (w.pc = .find)) = true := by
    rfl
  simpa [Option.any_eq_true] using accepted

theorem credits_bound_writeToFind :
    (∃ trace s, Exec (fun s a t => ipcsStep s a = some t) (createdIpcs fun _ => blankMessage)
      trace s ∧ (∃ w ∈ s.writers, w.pc = .find) ∧ Bounded s.shared s.writers s.reader) ∧
    ∃ trace s, Reaches trace s ∧ s.clientPc = .sendN ∧ Bounded s.shared s.writers s.reader := by
  constructor
  · obtain ⟨s, accepted, find⟩ := writeToFind_accepted
    obtain ⟨trace, run⟩ := exec_of_foldlM accepted
    exact ⟨trace, s, run, find, credits_bound.1 _ _ _ run⟩
  · have moved : step (startState (fun _ => blankMessage) 0)
        (.sigint [{ path := "a", content := [1, 2, 3, 4] }]) = some _ := rfl
    have reach : Reaches _ _ := ⟨_, _, Exec.refl.next moved⟩
    exact ⟨_, _, reach, rfl, credits_bound.2 _ _ reach⟩

end Elaborato.SystemCall
