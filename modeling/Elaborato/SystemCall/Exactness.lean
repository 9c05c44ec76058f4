import Elaborato.SystemCall.Completion
import Elaborato.SystemCall.Refinement

/-!
The parts of the files are collected exactly in every run, and each round can be completed.
-/
namespace Elaborato.SystemCall
open List

open Foundation

def RoundOpen (s : State) : Prop :=
  s.clientPc ≠ .pause ∧
    (s.serverPc = .reading ∨ s.clientPc.stage = .early ∨ s.clientPc.stage = .asking)

structure Exact (s : State) : Prop where
  barrier : ∀ c ∈ s.children, c.passed = true → s.children.length = s.files.length ∧
    ∀ z ∈ s.children, z.messages? ≠ none
  made : ∀ (row : Nat) (c : Child) (messages : Channel → Message), s.children[row]? = some c →
    c.messages? = some messages →
    ∃ file, s.files[row]? = some file ∧ childMessages row c.pid file = some messages
  counted : ∀ row, s.reader.contatori row = rowCount (s.reader.filesParts row)
  fresh : s.serverPc = .reading → ∀ ch m, s.reader.storing s.shared = some (ch, m) →
    m.index < s.files.length ∧ s.reader.filesParts m.index ch = none
  stored : s.serverPc = .reading → ∀ row ch m, s.reader.filesParts row ch = some m →
    row < s.files.length ∧ s.sent row ch = some m
  written : s.serverPc = .reading → ∀ e ∈ s.reader.written, e.1 < s.files.length ∧
    ∀ ch, e.2 ch = s.sent e.1 ch ∧ e.2 ch ≠ none
  once : ∀ row, s.reader.written.countP (fun e => decide (e.1 = row)) ≤ 1
  complete : Returned s → ∀ row < s.files.length,
    s.reader.written.countP (fun e => decide (e.1 = row)) = 1
  emptied : Returned s → (∀ q, s.shared.queues q = []) ∧ ∀ i < shmSlots, s.shared.flags i = false
  restored : Returned s → (∀ ch, s.shared.sems (.credit ch) = semInitVal (.credit ch)) ∧
    s.shared.sems .shmMutex = semInitVal .shmMutex

variable {s : State}

theorem arrived_messages {c : Child} (arrived : c.arrived = true) : c.messages? ≠ none := by
  cases pc : c.pc <;> simp_all [Child.arrived, Child.messages?]

theorem Inv.barrier (inv : Inv s) {c : Child} (hc : c ∈ s.children) (passed : c.passed = true) :
    s.children.length = s.files.length ∧ ∀ z ∈ s.children, z.messages? ≠ none := by
  have population := inv.family.population
  cases forking : s.clientPc.forking with
  | true =>
    have gated := gated_of_forking forking
    have none := inv.family.gate gated c hc passed
    have arrived := inv.family.barrier gated
    have fewer : s.children.countP Child.arrived ≤ s.children.length := countP_le_length
    have most := population_le population
    have all : s.children.countP Child.arrived = s.children.length := by omega
    exact ⟨by omega, fun z hz => arrived_messages (countP_eq_length.mp all z hz)⟩
  | false =>
    refine ⟨?_, fun z hz => ?_⟩
    · cases pc : s.clientPc <;> simp_all [ClientPc.forking, Population]
    · obtain ⟨messages, pc⟩ := inv.family.home forking z hz
      simp [Child.messages?, pc]

section
variable (inv : Inv s) (returned : Returned s)
include inv returned

theorem Inv.returned_carried {c : Child} (hc : c ∈ s.children) (ch : Channel) :
    c.carries (fun _ => true) ch = true := by
  have moving := reading_moving inv.hand returned.1
  have equal := inv.conserved moving (fun _ => true) ch
  rw [inv.tables.stored_all returned.2, inv.drained returned.2, inv.hand.rows moving] at equal
  have most := population_le inv.family.population
  have fewer : s.children.countP (Child.carries (fun _ => true) ch) ≤ s.children.length :=
    countP_le_length
  have all : s.children.countP (Child.carries (fun _ => true) ch) = s.children.length := by
    omega
  exact countP_eq_length.mp all c hc

theorem Inv.returned_flags {i : Nat} (bound : i < shmSlots) : s.shared.flags i = false := by
  have slot := countP_eq_zero.mp (inv.drained returned.2 .shm) i (mem_range.mpr bound)
  simpa [slotUnread, Reader.took, returned.2] using slot

theorem Inv.returned_idle : ∀ w ∈ s.writers, w.pc.credit = none ∧ w.inSection = false := by
  refine writers_of_children (fun i c w there pc => ?_) fun c other =>
    ⟨(idle_writer c other).1, (idle_writer c other).2.1⟩
  have mem := mem_writers there pc
  have wf := inv.credits.wf w mem
  have delivered : ∀ ch, w.delivered ch = true := fun ch => by
    simpa [Child.carries, pc] using inv.returned_carried returned (mem_of_getElem? there) ch
  have credit : w.pc.credit = none := by
    cases held : w.pc.credit with
    | none => rfl
    | some ch =>
      have unsent := wf.unsent ch held
      have unlock : ch = .shm ∧ w.pc = .unlock := by
        simpa [Writer.delivered, unsent] using delivered ch
      rw [unlock.2] at held
      cases held
  refine ⟨credit, ?_⟩
  have placed := inv.credits.writers w mem
  cases pc' : w.pc with
  | unlock =>
    simp only [Writer.Placed, pc'] at placed
    obtain ⟨i, bound, flagged⟩ := placed
    rw [inv.returned_flags returned bound] at flagged
    cases flagged
  | _ => simp_all [WritePc.credit, Writer.inSection]

theorem Inv.returned_queue (q : Queue) : s.shared.queues q = [] := by
  have length := length_queue s.shared s.reader q
  rw [inv.drained returned.2, handshake_clean inv.hand returned.1] at length
  exact eq_nil_of_length_eq_zero length

theorem Inv.returned_sems :
    (∀ ch, s.shared.sems (.credit ch) = semInitVal (.credit ch)) ∧
      s.shared.sems .shmMutex = semInitVal .shmMutex := by
  have idle := inv.returned_idle returned
  refine ⟨fun ch => ?_, ?_⟩
  · have balance := inv.credits.balance ch
    have holders : s.writers.countP (Writer.holds ch) = 0 :=
      countP_eq_zero.mpr fun w hw => by simp [Writer.holds, (idle w hw).1]
    rw [inv.drained returned.2] at balance
    simpa [holders, Reader.owes, returned.2, ReadPc.uncredited, semInitVal] using balance
  · have mutex := inv.credits.mutex
    have inside : s.writers.countP Writer.inSection = 0 :=
      countP_eq_zero.mpr fun w hw => by simp [(idle w hw).2]
    simpa [inside, Reader.inSection, returned.2, semInitVal] using mutex

end

theorem Inv.exact (inv : Inv s) (sound : s.transfer.Sound) : Exact s := by
  have sent : s.serverPc = .reading → ∀ row ch m, s.reader.filesParts row ch = some m →
      s.sent row ch = some m := by
    intro reading row ch m entry
    rw [transfer_moving (reading_moving inv.hand reading)] at sound
    exact sound (row, ch) m entry
  have rows := fun reading => inv.hand.rows (reading_moving inv.hand reading)
  refine ⟨fun c => inv.barrier,
    fun row c messages there => (inv.family.made row c there).messages _, inv.tables.counted,
    ?_, ?_, ?_, ?_, ?_, ?_, inv.returned_sems⟩
  · intro reading ch m storing
    have fresh := inv.storing (reading_moving inv.hand reading) storing
    rwa [rows reading] at fresh
  · intro reading row ch m entry
    have bound := (inv.tables.indexed row ch m entry).2
    rw [rows reading] at bound
    exact ⟨bound, sent reading row ch m entry⟩
  · intro reading e he
    have full := (inv.tables.counted e.1).symm.trans (inv.tables.entry_full he)
    have parts : ∀ ch, ∃ m, s.reader.filesParts e.1 ch = some m := fun ch =>
      Option.isSome_iff_exists.mp (rowCount_full full ch)
    obtain ⟨m, entry⟩ := parts .shm
    have bound := (inv.tables.indexed _ _ _ entry).2
    refine ⟨by rwa [rows reading] at bound, fun ch => ?_⟩
    obtain ⟨m, entry⟩ := parts ch
    rw [inv.tables.entries e he, entry]
    exact ⟨(sent reading _ ch m entry).symm, by simp⟩
  · intro row
    rw [inv.tables.written]
    exact Bool.toNat_le _
  · intro returned row bound
    rw [← rows returned.1] at bound
    rw [inv.tables.written, inv.tables.complete returned.2 bound]
    rfl
  · exact fun returned => ⟨inv.returned_queue returned, fun i => inv.returned_flags returned⟩

theorem Inv.completes (inv : Inv s) (round : RoundOpen s) : ∃ t, Continues s t ∧ Returned t := by
  obtain ⟨started, unfinished⟩ := round
  exact round_completes ⟨inv, rfl, started, unfinished.resolve_left⟩

/-- In every run, with any number of rounds, files and children. -/
theorem collection_exact {trace : List (State × Act)} {s : State} (run : Reaches trace s) :
    Exact s ∧ (RoundOpen s → ∃ t, Continues s t ∧ Returned t) :=
  ⟨(inv_reaches run).exact (transfer_sound (transfer_run run)), (inv_reaches run).completes⟩

def twoFiles : List File :=
  [{ path := "a", content := [1, 2, 3, 4] }, { path := "b", content := [1, 2, 3, 4, 5, 6, 7] }]

/-- `client_0` has found two files. -/
def twoFilesFound : State :=
  { startState (fun _ => blankMessage) 0 with files := twoFiles, clientPc := .sendN }

theorem collection_exact_twoFiles :
    RoundOpen twoFilesFound ∧ ∃ trace t, Reaches trace t ∧ Returned t ∧ Exact t ∧
      ∀ row < 2, t.reader.written.countP (fun e => decide (e.1 = row)) = 1 := by
  have moved : step (startState (fun _ => blankMessage) 0) (.sigint twoFiles) =
      some twoFilesFound := rfl
  have run : Exec (fun s a t => step s a = some t) (startState (fun _ => blankMessage) 0) _
      twoFilesFound := Exec.refl.next moved
  have round : RoundOpen twoFilesFound := ⟨by decide, .inr (.inl rfl)⟩
  obtain ⟨t, continues, returned⟩ := (collection_exact ⟨_, _, run⟩).2 round
  have files : t.files = twoFiles := continues.files_eq rfl
  obtain ⟨trace, later, -⟩ := continues
  have reach : Reaches _ t := ⟨_, _, exec_trans run later⟩
  have collected := (collection_exact reach).1
  refine ⟨round, _, t, reach, returned, collected,
    fun row bound => collected.complete returned row ?_⟩
  rw [files]
  exact bound

end Elaborato.SystemCall
