import Elaborato.SystemCall.Collection
import Elaborato.Foundation.Transfer

/-!
Every run of the program is a run of a transfer in which each part arrives once.
-/
namespace Elaborato.SystemCall

open Foundation Function

def Child.sent? (c : Child) (ch : Channel) : Option Message :=
  match c.pc with
  | .writing w => if w.delivered ch then some (w.messages ch) else none
  | .exited messages => some (messages ch)
  | _ => none

def State.sent (s : State) (row : Nat) (ch : Channel) : Option Message :=
  s.children[row]?.bind fun c => c.sent? ch

def State.transfer (s : State) : Transfer (Nat × Channel) Message :=
  if s.resting then .idle
  else ⟨fun i => s.sent i.1 i.2, fun i => s.reader.filesParts i.1 i.2⟩

variable {s t : State}

theorem transfer_moving (moving : s.resting = false) :
    s.transfer = ⟨fun i => s.sent i.1 i.2, fun i => s.reader.filesParts i.1 i.2⟩ := by
  simp [State.transfer, moving]

theorem transfer_skip (resting : t.resting = s.resting)
    (sent : ∀ row ch, t.sent row ch = s.sent row ch)
    (parts : t.reader.filesParts = s.reader.filesParts) :
    Transfer.Step s.transfer t.transfer := by
  have same : t.transfer = s.transfer := by simp only [State.transfer, resting, sent, parts]
  rw [same]
  exact .skip

theorem transfer_rest (before : s.resting = true) (after : t.resting = true) :
    Transfer.Step s.transfer t.transfer := by
  simp only [State.transfer, before, after]
  exact .skip

theorem carries_eq (p : Message → Bool) (ch : Channel) (c : Child) :
    c.carries p ch = (c.sent? ch).any p := by
  cases pc : c.pc with
  | writing w => cases sent : w.delivered ch <;> simp [Child.carries, Child.sent?, pc, sent]
  | _ => simp [Child.carries, Child.sent?, pc]

theorem Inv.storing_sent (inv : Inv s) (moving : s.resting = false) {ch : Channel} {m : Message}
    (storing : s.reader.storing s.shared = some (ch, m)) : s.sent m.index ch = some m := by
  have held := storing_held (p := fun m' => decide (m' = m)) inv.credits.reader storing (by simp)
  have equal := inv.conserved moving (fun m' => decide (m' = m)) ch
  obtain ⟨c, hc, carries⟩ := List.countP_pos_iff.mp
    (show 0 < s.children.countP (Child.carries (fun m' => decide (m' = m)) ch) by omega)
  obtain ⟨i, there⟩ := List.mem_iff_getElem?.mp hc
  obtain ⟨messages, -, same, index⟩ := carries_sent (inv.family.made i c there) carries
  rw [of_decide_eq_true same] at index
  subst index
  rw [carries_eq] at carries
  rw [State.sent, there, Option.bind_some]
  cases sent : c.sent? ch with
  | none => simp [sent] at carries
  | some m' => simpa [sent] using carries

theorem delivered_stays {w : Writer} {pc : WritePc} (here : w.pc ≠ .unlock) (there : pc ≠ .unlock) :
    (w.goto pc).delivered = w.delivered :=
  funext fun _ => (delivered_goto there).trans (delivered_eq here).symm

theorem WriterMove.delivers {sh sh' : Shared} {w w' : Writer} (move : WriterMove sh w sh' w')
    (wf : w.Wf) : w'.delivered = w.delivered ∨
      ∃ ch, w.delivered ch = false ∧ w'.delivered = update w.delivered ch true := by
  cases move with
  | finish pc _ | again pc _ | lock pc _ | full pc _ | find pc _ | copy pc =>
    exact .inl (delivered_stays (by simp [pc]) (by simp))
  | skip pc _ => exact .inl (delivered_stays (by simp [pc]) (nextAttempt_ne_unlock _))
  | take pc _ _ => exact .inl (delivered_stays (by simp [pc]) (access_ne_unlock _))
  | @write q pc =>
    have before : w.delivered = w.sent := funext fun ch => delivered_eq (by simp [pc])
    have unsent := wf.unsent (.queue q) (by simp [pc, WritePc.credit])
    rw [before]
    exact .inr ⟨.queue q, unsent, funext fun ch => delivered_done (nextAttempt_ne_unlock _)⟩
  | flag pc =>
    have before : w.delivered = w.sent := funext fun ch => delivered_eq (by simp [pc])
    have unsent := wf.unsent .shm (by simp [pc, WritePc.credit])
    rw [before]
    refine .inr ⟨.shm, unsent, funext fun ch => ?_⟩
    by_cases same : ch = .shm <;> simp [Writer.delivered, Writer.goto, same]
  | unlock pc =>
    refine .inl (funext fun ch => ?_)
    rw [delivered_done (by simp)]
    by_cases same : ch = .shm <;> simp [Writer.delivered, pc, same]

variable {i : Nat} {c c' : Child} {childrenWait : Nat} {sh : Shared}

section
variable (there : s.children[i]? = some c)
include there

theorem sent_set (row : Nat) (ch : Channel) :
    State.sent { s with shared := sh, childrenWait, children := s.children.set i c' } row ch =
      if row = i then c'.sent? ch else s.sent row ch := by
  have bound : i < s.children.length := (List.getElem?_eq_some_iff.mp there).1
  by_cases same : row = i
  · subst same
    simp [State.sent, bound]
  · simp [State.sent, same, Ne.symm same]

theorem sent_here (ch : Channel) : s.sent i ch = c.sent? ch := by
  rw [State.sent, there, Option.bind_some]

theorem transfer_keep (sent : ∀ ch, c'.sent? ch = c.sent? ch) :
    Transfer.Step s.transfer
      (State.transfer { s with shared := sh, childrenWait, children := s.children.set i c' }) := by
  refine transfer_skip rfl (fun row ch => ?_) rfl
  rw [sent_set there]
  split
  case isTrue same => rw [same, sent, sent_here there]
  case isFalse => rfl

end

theorem transfer_send (moving : s.resting = false) (there : s.children[i]? = some c) (ch : Channel)
    (m : Message) (unsent : c.sent? ch = none)
    (sent : c'.sent? = update c.sent? ch (some m)) :
    Transfer.Step s.transfer
      (State.transfer { s with shared := sh, childrenWait, children := s.children.set i c' }) := by
  have after : State.transfer
      { s with shared := sh, childrenWait, children := s.children.set i c' } =
      { s.transfer with sent := update s.transfer.sent (i, ch) (some m) } := by
    rw [transfer_moving moving, transfer_moving (by exact moving)]
    simp only [sent_set there, sent, Transfer.mk.injEq, and_true]
    funext ⟨row, ch'⟩
    by_cases row' : row = i
    · by_cases same : ch' = ch
      · simp [row', same]
      · simp [row', same, sent_here there]
    · simp [row']
  rw [after]
  refine .send ?_
  rw [transfer_moving moving]
  exact (sent_here there ch).trans unsent

theorem transfer_child (inv : Inv s) (there : s.children[i]? = some c)
    (move : ChildMove s i c t) : Transfer.Step s.transfer t.transfer := by
  cases move with
  | failed pc _ _ | start pc _ _ | arrive pc _ =>
    exact transfer_keep there fun ch => by simp [Child.sent?, pc]
  | wait pc _ =>
    exact transfer_keep there fun ch => by simp [Child.sent?, pc, Writer.delivered, ipcsWrite]
  | exit pc returned =>
    have sent := (inv.credits.wf _ (mem_writers there pc)).returned returned
    exact transfer_keep there fun ch => by simp [Child.sent?, pc, Writer.delivered, sent]
  | @write w w' sh pc move =>
    have moving := inv.running_moving there (by simp [pc])
    rcases move.delivers (inv.credits.wf w (mem_writers there pc)) with same | ⟨ch, before, after⟩
    · exact transfer_keep there fun ch => by simp [Child.sent?, pc, same, move.messages]
    · refine transfer_send moving there ch (w.messages ch) ?_ ?_
      · simp [Child.sent?, pc, before]
      · funext ch'
        by_cases same : ch' = ch
        · simp [Child.sent?, after, move.messages, same]
        · simp [Child.sent?, pc, after, move.messages, same]

variable {rd : Reader} {taken stored : Option (Channel × Message)}

theorem filesParts_updateParts (rd : Reader) (m : Message) (ch : Channel) :
    (fun i : Nat × Channel => (updateParts rd m ch).filesParts i.1 i.2) =
      update (fun i => rd.filesParts i.1 i.2) (m.index, ch) (some m) := by
  funext ⟨row, ch'⟩
  by_cases same : row = m.index
  · subst same
    by_cases same' : ch' = ch <;> simp [updateParts, same']
  · simp [updateParts, same]

theorem transfer_store (inv : Inv s) (moving : s.resting = false) {ch : Channel} {m : Message}
    (storing : s.reader.storing s.shared = some (ch, m))
    (parts : rd.filesParts = (updateParts s.reader m ch).filesParts) :
    Transfer.Step s.transfer (State.transfer { s with shared := sh, reader := rd }) := by
  have after : State.transfer { s with shared := sh, reader := rd } =
      { s.transfer with arrived := update s.transfer.arrived (m.index, ch) (some m) } := by
    rw [transfer_moving moving, transfer_moving (by exact moving)]
    simp only [parts, filesParts_updateParts, Transfer.mk.injEq, and_true]
    rfl
  rw [after]
  refine .arrive ?_ ?_
  · rw [transfer_moving moving]
    exact inv.storing_sent moving storing
  · rw [transfer_moving moving]
    exact (inv.storing moving storing).2

theorem transfer_read (inv : Inv s) (reading : s.serverPc = .reading)
    (move : ReaderMove s.shared s.reader taken stored sh rd) :
    Transfer.Step s.transfer (State.transfer { s with shared := sh, reader := rd }) := by
  have moving := reading_moving inv.hand reading
  cases move with
  | store pc _ => exact transfer_store inv moving (storing_update pc) rfl
  | storeShm pc _ => exact transfer_store inv moving (storing_updateShm _ pc) rfl
  | _ => exact transfer_skip rfl (fun _ _ => rfl) rfl

theorem transfer_server (inv : Inv s) (move : ServerMove s t) :
    Transfer.Step s.transfer t.transfer := by
  have hand := handshake_server inv.hand inv.drained inv.returned_busy move
  have agree := inv.hand.tokens
  cases move with
  | readN pc first =>
    rw [pc] at agree
    obtain ⟨here, -⟩ := tokens_receive_fifo1 first rfl
    obtain ⟨asking, -, -⟩ := agreed_readN agree here
    refine transfer_rest (by rw [State.resting, asking, pc]; rfl) ?_
    rw [State.resting, asking]
    split <;> rfl
  | garbled pc first other =>
    have agree' := hand.tokens
    cases stage : s.clientPc.stage <;> simp [stage, ServerPc.stage, agreed] at agree'
  | reset pc _ | ready pc _ | greet first pc =>
    refine transfer_skip ?_ (fun _ _ => rfl) rfl
    rw [State.resting, State.resting, pc]
    rfl
  | postData pc =>
    have asking := preparing_asking inv.hand (by rw [pc]; rfl)
    have none := inv.no_children asking
    have before : s.transfer = .idle := by
      simp [State.transfer, State.resting, asking, pc, ServerPc.stage, resting]
    rw [before, transfer_moving (by rw [State.resting, asking]; rfl)]
    simp only [State.sent, none, ipcsRead]
    exact .skip
  | returned pc done =>
    have busy := inv.returned_busy pc done
    refine transfer_skip ?_ (fun _ _ => rfl) rfl
    rw [State.resting, State.resting, busy]
    rfl
  | read pc move => exact transfer_read inv pc move
  | postDone pc =>
    rw [pc] at agree
    obtain ⟨busy, -⟩ := agreed_postDone agree
    refine transfer_skip ?_ (fun _ _ => rfl) rfl
    rw [State.resting, State.resting, busy]
    rfl
  | sendEnd pc =>
    rw [pc] at agree
    obtain ⟨stage, -⟩ := agreed_sendEnd agree
    refine transfer_skip ?_ (fun _ _ => rfl) rfl
    rw [State.resting, State.resting]
    rcases stage with stage | stage <;> rw [stage] <;> rfl

section
variable (inv : Inv s) (sound : s.transfer.Sound)
include inv sound

theorem Inv.all_arrived (moving : s.resting = false) (returned : s.reader.pc = .returned) :
    s.transfer.arrived = s.transfer.sent := by
  rw [transfer_moving moving] at sound ⊢
  funext ⟨row, ch⟩
  by_cases bound : row < s.reader.n
  · have full := (inv.tables.counted row).symm.trans (inv.tables.complete returned bound)
    obtain ⟨m, entry⟩ := Option.isSome_iff_exists.mp (rowCount_full full ch)
    exact entry.trans (sound (row, ch) m entry).symm
  · have most := population_le inv.family.population
    rw [← inv.hand.rows moving] at most
    have absent : s.children[row]? = none := List.getElem?_eq_none (by omega)
    have empty : s.reader.filesParts row ch = none := by
      by_contra entry
      obtain ⟨m, entry⟩ := Option.ne_none_iff_exists'.mp entry
      exact bound (inv.tables.indexed row ch m entry).2
    simp [State.sent, absent, empty]

theorem transfer_client (move : ClientMove s t) : Transfer.Step s.transfer t.transfer := by
  have agree := inv.hand.tokens
  cases move with
  | sendN pc =>
    rw [pc] at agree
    obtain ⟨server, -⟩ := agreed_sendN agree
    exact transfer_rest (by rw [State.resting, pc]; rfl) (by rw [State.resting, server]; rfl)
  | createSems pc | forked pc _ | waitChildren pc _ | waitDone pc _ =>
    refine transfer_skip ?_ (fun _ _ => rfl) rfl
    rw [State.resting, State.resting, pc]
    rfl
  | waitData pc before =>
    rw [pc] at agree
    obtain ⟨server, -⟩ := agreed_waitData agree before
    refine transfer_skip ?_ (fun _ _ => rfl) rfl
    rw [State.resting, State.resting, pc, server]
    rfl
  | fork pid pc _ =>
    refine transfer_skip (by rw [State.resting, State.resting, pc]; rfl) (fun row ch => ?_) rfl
    simp only [State.sent, List.getElem?_append]
    split
    case isTrue => rfl
    case isFalse beyond =>
        rw [List.getElem?_eq_none (Nat.le_of_not_lt beyond)]
        cases row - s.children.length <;> simp [Child.sent?]
  | recvEnd pc first =>
    rw [pc] at agree
    have outside : s.serverPc ≠ .reading := fun reading =>
      agreed_outside agree rfl (by rw [reading]; rfl)
    have moving : s.resting = false := by
      rw [State.resting, pc]
      rfl
    have arrived := inv.all_arrived sound moving (inv.hand.idle outside)
    exact .restart arrived

theorem transfer_step {a : Act} (moved : step s a = some t) :
    Transfer.Step s.transfer t.transfer := by
  cases a with
  | sigint files =>
    simp only [step, sigIntHandlerStart] at moved
    split at moved
    case isTrue ready =>
        rw [← Option.some.inj moved]
        refine transfer_rest (by rw [State.resting, ready.1]; rfl) ?_
        rw [State.resting]
        split <;> rfl
    case isFalse => cases moved
  | client pid => exact transfer_client inv sound (sigIntHandlerStep_move moved)
  | child i =>
    obtain ⟨c, there, move⟩ := childStep_move moved
    exact transfer_child inv there move
  | server => exact transfer_server inv (mainStep_move moved)

end

theorem transfer_run {trace : List (State × Act)} {s : State} (run : Reaches trace s) :
    Exec (fun u _ v => Transfer.Step u v) .idle (trace.map fun e => (e.1.transfer, e.2))
      s.transfer := by
  obtain ⟨buffer, childrenWait, run⟩ := run
  have simulated : ∀ (s : State) (a : Act) (t : State), (Inv s ∧ s.transfer.Sound) →
      step s a = some t → Transfer.Step s.transfer t.transfer ∧ (Inv t ∧ t.transfer.Sound) := by
    intro s a t inv moved
    have next := transfer_step inv.1 inv.2 moved
    exact ⟨next, inv.1.step moved, next.sound inv.2⟩
  exact (exec_simulation State.transfer ⟨inv_start buffer childrenWait, nofun⟩ simulated run).1

end Elaborato.SystemCall
