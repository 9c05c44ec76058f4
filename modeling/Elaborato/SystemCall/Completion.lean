import Elaborato.SystemCall.Collection
import Mathlib.Algebra.Group.Action.Defs

/-!
A round can be completed from each of its states, by the measure `State.progress`.
-/
namespace Elaborato.SystemCall
open Foundation List Function

/-- All but a new signal for `client_0`. -/
def Act.inRound : Act → Prop
  | .sigint _ => False
  | _ => True

def Continues (s t : State) : Prop := CanReach (fun s a t => step s a = some t) Act.inRound s t

def WritePc.progress : WritePc → Nat
  | .write _ | .lock => 1
  | .find => 2
  | .copy _ => 3
  | .flag _ => 4
  | .unlock => 5
  | _ => 0

def Writer.progress (w : Writer) : Nat := 7 * channels.countP w.sent + w.pc.progress

def Child.progress (c : Child) : Nat :=
  match c.pc with
  | .start | .errExit => 0
  | .arrive _ => 1
  | .wait _ => 2
  | .writing w => 3 + w.progress
  | .exited _ => 31

def ReadPc.progress : ReadPc → Nat
  | .credit _ _ | .updateShm _ => 1
  | .update _ _ | .creditShm _ => 2
  | .clear _ => 3
  | _ => 0

def Reader.progress (rd : Reader) : Nat := 5 * rd.received + rd.pc.progress

def ClientPc.progress (count : Nat) : ClientPc → Nat
  | .pause | .sendN => 0
  | .createSems => 1
  | .waitData => 2
  | .fork i => 3 + i
  | .waitChildren | .waitDone | .recvEnd => 3 + count

def ServerPc.progress (rd : Reader) : ServerPc → Nat
  | .reset i => 1 + min i 50
  | .greet => 52
  | .postData => 53
  | .reading => 54 + rd.progress
  | .readN | .postDone | .sendEnd | .undefined => 0

def State.progress (s : State) : Nat :=
  s.clientPc.progress s.files.length + (s.children.map Child.progress).sum +
    s.serverPc.progress s.reader

structure Open (files : List File) (s : State) : Prop where
  inv : Inv s
  files : s.files = files
  started : s.clientPc ≠ .pause
  unfinished : s.serverPc ≠ .reading → s.clientPc.stage = .early ∨ s.clientPc.stage = .asking

def Returned (s : State) : Prop := s.serverPc = .reading ∧ s.reader.pc = .returned

def Advances (files : List File) (s : State) : Prop :=
  ∃ t, Continues s t ∧ Open files t ∧ s.progress < t.progress

variable {files : List File} {s : State}

attribute [local simp] WritePc.progress Child.progress ReadPc.progress State.progress step
  sigIntHandlerStep ClientPc.progress mainStep State.setChild childStep Child.arrived
  Writer.progress Reader.progress Reader.goto

theorem writer_progress_le (w : Writer) : w.progress ≤ 33 := by
  have sent : channels.countP w.sent ≤ 4 := countP_le_length
  have pc : w.pc.progress ≤ 5 := by cases w.pc <;> simp
  unfold Writer.progress
  omega

theorem child_progress_le (c : Child) : c.progress ≤ 36 := by
  cases pc : c.pc with
  | writing w =>
    have most := writer_progress_le w
    simp only [Child.progress, pc]
    omega
  | start | arrive _ | wait _ | exited _ | errExit => simp [pc]

theorem reader_progress_le {rd : Reader} (tables : Tables rd) : rd.progress ≤ 20 * rd.n + 3 := by
  have most : ∑ row ∈ Finset.range rd.n, rd.contatori row ≤ ∑ _row ∈ Finset.range rd.n, 4 :=
    Finset.sum_le_sum fun row _ => by rw [tables.counted]; exact rowCount_le _
  have total : ∑ _row ∈ Finset.range rd.n, 4 = rd.n * 4 := by simp
  have sum := tables.received
  have pc : rd.pc.progress ≤ 3 := by cases rd.pc <;> simp
  unfold Reader.progress
  omega

theorem client_progress_le {count : Nat} {children : List Child} {pc : ClientPc}
    (population : Population count children pc) : pc.progress count ≤ 3 + count := by
  cases pc with
  | fork i =>
    have most := population.2
    simp only [ClientPc.progress]
    omega
  | _ =>
    simp only [ClientPc.progress]
    omega

theorem open_progress_le (here : Open files s) :
    s.progress ≤ (3 + files.length) + 36 * files.length + (54 + (20 * files.length + 3)) := by
  have files_eq := here.files
  subst files_eq
  have population := here.inv.family.population
  have client : s.clientPc.progress s.files.length ≤ 3 + s.files.length := by
    exact client_progress_le population
  have children : (s.children.map Child.progress).sum ≤ 36 * s.files.length := by
    have each := sum_le_card_nsmul (s.children.map Child.progress) 36 (by
      intro n hn
      obtain ⟨c, -, rfl⟩ := mem_map.mp hn
      exact child_progress_le c)
    have most := population_le population
    rw [length_map, smul_eq_mul] at each
    omega
  have server : s.serverPc.progress s.reader ≤ 54 + (20 * s.files.length + 3) := by
    cases pc : s.serverPc with
    | reading =>
      have rows := here.inv.hand.rows (reading_moving here.inv.hand pc)
      have most := reader_progress_le here.inv.tables
      rw [rows] at most
      simp only [ServerPc.progress]
      omega
    | reset i | readN | greet | postData | postDone | sendEnd | undefined =>
      simp only [ServerPc.progress]
      omega
  unfold State.progress
  omega

variable {t : State} {a : Act}

theorem step_files (moved : step s a = some t) (inRound : a.inRound) : t.files = s.files := by
  cases a with
  | sigint _ => exact absurd inRound id
  | client pid => cases sigIntHandlerStep_move moved <;> rfl
  | child i =>
    obtain ⟨c, -, move⟩ := childStep_move moved
    cases move <;> rfl
  | server => cases mainStep_move moved <;> rfl

theorem Continues.files_eq (continues : Continues s t) (listed : s.files = files) :
    t.files = files :=
  continues.invariant listed fun _ _ _ listed moved inRound =>
    (step_files moved inRound).trans listed

section
variable (here : Open files s)
include here

theorem Open.advances (moved : step s a = some t) (inRound : a.inRound)
    (started : t.clientPc ≠ .pause)
    (unfinished : t.serverPc ≠ .reading → t.clientPc.stage = .early ∨ t.clientPc.stage = .asking)
    (more : s.progress < t.progress) : Advances files s :=
  ⟨t, canReach_step moved inRound,
    ⟨here.inv.step moved, (step_files moved inRound).trans here.files, started, unfinished⟩, more⟩

theorem Open.reading (busy : s.clientPc.stage = .busy) : s.serverPc = .reading := by
  by_contra outside
  have stage := here.unfinished outside
  rw [busy] at stage
  rcases stage with stage | stage <;> cases stage

theorem open_sendN (pc : s.clientPc = .sendN) : Advances files s := by
  have moved : step s (.client 0) = some { s with
      shared := s.shared.send .fifo1 (.count s.files.length)
      clientPc := .createSems } := by
    simp [pc]
  refine here.advances moved trivial (by simp) (fun _ => .inr rfl) ?_
  simp [pc]

theorem open_createSems (pc : s.clientPc = .createSems) : Advances files s := by
  have moved : step s (.client 0) = some { s with
      childrenWait := s.files.length % 65536
      clientPc := .waitData } := by
    simp [pc]
  refine here.advances moved trivial (by simp) (fun _ => .inr rfl) ?_
  simp [pc]

theorem open_waitData (pc : s.clientPc = .waitData) (reading : s.serverPc = .reading) :
    Advances files s := by
  have agree := here.inv.hand.tokens
  rw [pc, reading] at agree
  have unit : s.shared.sems .waitData = 0 + 1 := by
    simp only [ClientPc.stage, ServerPc.stage, agreed, Option.some.injEq] at agree
    exact (congrArg Tokens.waitData agree).symm
  have moved : step s (.client 0) = some { s with
      shared := s.shared.setSem .waitData 0
      clientPc := .fork 0 } := by
    simp [pc, semOp_neg_one.mpr ⟨0, unit, rfl⟩]
  refine here.advances moved trivial (by simp) (fun there => absurd reading there) ?_
  simp [pc]

theorem open_fork {i : Nat} (pc : s.clientPc = .fork i) (less : i < s.files.length) :
    Advances files s := by
  have reading := here.reading (by rw [pc]; rfl)
  have moved : step s (.client 0) = some { s with
      children := s.children ++ [{ pid := 0, pc := .start }]
      clientPc := .fork (i + 1) } := by
    simp [pc, less]
  refine here.advances moved trivial (by simp) (fun there => absurd reading there) ?_
  simp [pc]

theorem open_readN (asking : s.clientPc.stage = .asking) (pc : s.serverPc = .readN) :
    Advances files s := by
  have agree := here.inv.hand.tokens
  rw [asking, pc] at agree
  have sent : controls s.shared .fifo1 = [.count s.files.length] := by
    simp only [ServerPc.stage, agreed, Option.some.injEq] at agree
    exact (congrArg Tokens.fifo1 agree).symm
  cases first : s.shared.queues .fifo1 with
  | nil => simp [controls, first] at sent
  | cons packet rest =>
    have none := here.inv.drained (here.inv.hand.idle (by simp [pc])) (.queue .fifo1)
    obtain ⟨head, -⟩ := tokens_receive_fifo1 first (first_control first none)
    have number : packet = .count s.files.length := (List.cons.inj (head.symm.trans sent)).1
    subst number
    have occupied := here.inv.hand.occupied here.started
    have moved : step s .server = some { s with
        shared := s.shared.receive .fifo1 rest
        n := s.files.length
        serverPc := .reset 0 } := by
      simp [pc, first, occupied]
    refine here.advances moved trivial here.started (fun _ => .inr asking) ?_
    simp [ServerPc.progress, pc]

theorem open_preparing (asking : s.clientPc.stage = .asking) (outside : s.serverPc ≠ .reading) :
    Advances files s := by
  have agree := here.inv.hand.tokens
  cases pc : s.serverPc with
  | readN => exact open_readN here asking pc
  | reset i =>
    by_cases less : i < 50
    · have moved : step s .server = some { s with
          shared := { s.shared with flags := update s.shared.flags i false }
          serverPc := .reset (i + 1) } := by
        simp [pc, less]
      refine here.advances moved trivial here.started (fun _ => .inr asking) ?_
      simp only [State.progress, ServerPc.progress, pc]
      omega
    · have moved : step s .server = some { s with serverPc := .greet } := by
        simp [pc, less]
      refine here.advances moved trivial here.started (fun _ => .inr asking) ?_
      simp only [State.progress, ServerPc.progress, pc]
      omega
  | greet =>
    have moved : ∃ sh, step s .server = some { s with shared := sh, serverPc := .postData } :=
      ⟨_, by simp only [step, mainStep, pc]; rfl⟩
    obtain ⟨sh, moved⟩ := moved
    refine here.advances moved trivial here.started (fun _ => .inr asking) ?_
    simp [ServerPc.progress, pc]
  | postData =>
    have moved : step s .server = some { s with
        shared := s.shared.setSem .waitData (s.shared.sems .waitData + 1)
        reader := ipcsRead s.n
        serverPc := .reading } := by
      simp [pc, semOp_one]
    refine here.advances moved trivial here.started (fun there => absurd rfl there) ?_
    simp only [State.progress, ServerPc.progress, pc]
    omega
  | reading => exact absurd pc outside
  | postDone | sendEnd | undefined => simp [asking, pc, ServerPc.stage, agreed] at agree

end

variable {i : Nat} {c c' : Child} {w : Writer}

variable {sh : Shared}

variable {messages : Channel → Message}

section
variable (here : Open files s) (busy : s.clientPc.stage = .busy) (there : s.children[i]? = some c)
include here busy there

theorem Open.child_advances {childrenWait : Nat} (moved : step s (.child i) =
      some { s with shared := sh, childrenWait, children := s.children.set i c' })
    (more : c.progress < c'.progress) : Advances files s := by
  have reading := here.reading busy
  refine here.advances moved trivial here.started (fun outside => absurd reading outside) ?_
  have sum := (replaced_set there c').sum_map Child.progress
  simp only [State.progress]
  omega

theorem open_start (pc : c.pc = .start) : Advances files s := by
  have bound : i < s.files.length :=
    Nat.lt_of_lt_of_le (List.getElem?_eq_some_iff.mp there).1
      (population_le here.inv.family.population)
  have listed : s.files[i]? = some s.files[i] := getElem?_eq_getElem bound
  obtain ⟨admitted, -⟩ := here.inv.family.enumerated.2 _ (getElem_mem bound)
  obtain ⟨messages, made⟩ := childMessages_admitted i c.pid admitted
  have moved : step s (.child i) = some { s with
      children := s.children.set i { c with pc := .arrive messages } } := by
    simp [there, pc, listed, made]
  exact here.child_advances busy there moved (by simp [pc])

omit here busy there in
theorem gated_of_busy {pc : ClientPc} (busy : pc.stage = .busy) : pc.gated = true := by
  cases pc <;> simp_all [ClientPc.stage, ClientPc.gated]

theorem open_arrive (pc : c.pc = .arrive messages) : Advances files s := by
  have barrier := here.inv.family.barrier (gated_of_busy busy)
  have fewer : s.children.countP Child.arrived < s.children.length := by
    refine Nat.lt_of_le_of_ne countP_le_length fun all => ?_
    have arrived := countP_eq_length.mp all c (mem_of_getElem? there)
    simp [pc] at arrived
  have most := population_le here.inv.family.population
  obtain ⟨value, unit⟩ : ∃ value, s.childrenWait = value + 1 := ⟨s.childrenWait - 1, by omega⟩
  have moved : step s (.child i) = some { s with
      childrenWait := value
      children := s.children.set i { c with pc := .wait messages } } := by
    simp [there, pc, semop_neg_one.mpr unit]
  exact here.child_advances busy there moved (by simp [pc])

theorem open_wait (pc : c.pc = .wait messages) (all : ∀ z ∈ s.children, z.arrived = true)
    (length : s.children.length = s.files.length) : Advances files s := by
  have barrier := here.inv.family.barrier (gated_of_busy busy)
  have none : s.childrenWait = 0 := by
    rw [countP_eq_length.mpr all, length] at barrier
    omega
  have moved : step s (.child i) = some { s with
      childrenWait := 0
      children := s.children.set i { c with pc := .writing (ipcsWrite messages) } } := by
    simp [there, pc, semop_zero.mpr ⟨none, rfl⟩]
  refine here.child_advances busy there moved ?_
  simp only [Child.progress, pc]
  omega

end

def Writer.ready (sh : Shared) (w : Writer) : Prop :=
  match w.pc with
  | .attempt ch => w.sent ch = false ∧ 0 < sh.sems (.credit ch)
  | .lock => 0 < sh.sems .shmMutex
  | .find => findSHM sh.flags false ≠ none
  | .write _ | .copy _ | .flag _ | .unlock => True
  | .loop | .returned | .errExit => False

theorem progress_goto (pc : WritePc) :
    (w.goto pc).progress = 7 * channels.countP w.sent + pc.progress := rfl

variable {ch : Channel}

theorem progress_done (unsent : w.sent ch = false) (pc : WritePc) :
    (w.done ch pc).progress = 7 * (channels.countP w.sent + 1) + pc.progress := by
  have differ := countP_differ (p := update w.sent ch true) (q := w.sent)
    channels_nodup (mem_channels ch) fun ch' _ apart => by simp [apart]
  simp only [update_self, unsent, Bool.toNat_true, Bool.toNat_false] at differ
  simp only [Writer.progress, Writer.done]
  omega

attribute [local simp] Writer.ready

theorem writer_advances (wf : w.Wf) (ready : w.ready sh) :
    ∃ sh' w', ipcsWriteStep sh w = some (sh', w') ∧ w.progress < w'.progress := by
  cases pc : w.pc with
  | loop | returned | errExit => simp [pc] at ready
  | attempt ch =>
    simp only [Writer.ready, pc] at ready
    obtain ⟨unsent, credit⟩ := ready
    have taken := semOp_neg_one.mpr
      ⟨sh.sems (.credit ch) - 1, (Nat.succ_pred_eq_of_pos credit).symm, rfl⟩
    refine ⟨_, w.goto ch.access, by simp only [ipcsWriteStep, pc, unsent, taken]; rfl, ?_⟩
    rw [progress_goto]
    cases ch <;> simp [pc, Channel.access]
  | write q =>
    have unsent := wf.unsent (.queue q) (by simp [pc, WritePc.credit])
    refine ⟨_, _, by simp only [ipcsWriteStep, pc]; rfl, ?_⟩
    rw [progress_done unsent]
    simp only [Writer.progress, pc, WritePc.progress]
    omega
  | lock =>
    simp only [Writer.ready, pc] at ready
    have taken := semOp_neg_one.mpr
      ⟨sh.sems .shmMutex - 1, (Nat.succ_pred_eq_of_pos ready).symm, rfl⟩
    refine ⟨_, w.goto .find, by simp only [ipcsWriteStep, pc, taken]; rfl, ?_⟩
    rw [progress_goto]
    simp [pc]
  | find =>
    simp only [Writer.ready, pc] at ready
    obtain ⟨index, found⟩ := Option.ne_none_iff_exists'.mp ready
    refine ⟨sh, w.goto (.copy index), by simp only [ipcsWriteStep, pc, found], ?_⟩
    rw [progress_goto]
    simp [pc]
  | copy index =>
    refine ⟨_, w.goto (.flag index), by simp only [ipcsWriteStep, pc]; rfl, ?_⟩
    rw [progress_goto]
    simp [pc]
  | flag index =>
    refine ⟨_, w.goto .unlock, by simp only [ipcsWriteStep, pc]; rfl, ?_⟩
    rw [progress_goto]
    simp [pc]
  | unlock =>
    refine ⟨_, w.done .shm .loop, by simp only [ipcsWriteStep, pc, semOp_one]; rfl, ?_⟩
    rw [progress_done (wf.unlocking pc)]
    simp only [Writer.progress, pc, WritePc.progress]
    omega

theorem step_write (there : s.children[i]? = some c) (pc : c.pc = .writing w) {w' : Writer}
    (written : ipcsWriteStep s.shared w = some (sh, w')) :
    step s (.child i) = some { s with
      shared := sh
      children := s.children.set i { c with pc := .writing w' } } := by
  have running : w.pc ≠ .returned := fun returned => by
    simp [ipcsWriteStep, returned] at written
  simp [there, pc, running, written]

theorem open_write (here : Open files s) (busy : s.clientPc.stage = .busy)
    (there : s.children[i]? = some c) (pc : c.pc = .writing w) (ready : w.ready s.shared) :
    Advances files s := by
  obtain ⟨sh, w', written, more⟩ :=
    writer_advances (here.inv.credits.wf w (mem_writers there pc)) ready
  refine here.child_advances busy there (step_write there pc written) ?_
  simp only [Child.progress, pc]
  omega

def WritePc.turn : WritePc → WritePc
  | .loop => .attempt (.queue .fifo1)
  | .attempt ch => ch.nextAttempt
  | pc => pc

def Channel.place : Channel → Nat := byChannel 0 1 2 3

def WritePc.place : WritePc → Nat
  | .attempt ch => ch.place
  | .loop => 4
  | _ => 5

theorem channel_place_lt (ch : Channel) : ch.place < 4 := by
  rcases ch with (_ | _ | _) | _ <;> decide

theorem channel_place_inj {ch' : Channel} (same : ch.place = ch'.place) : ch = ch' := by
  rcases ch with (_ | _ | _) | _ <;> rcases ch' with (_ | _ | _) | _ <;> first | rfl | cases same

variable {pc : WritePc}

attribute [local simp] WritePc.place WritePc.turn

theorem place_turn (polling : pc.place < 5) : pc.turn.place = (pc.place + 1) % 5 := by
  cases pc with
  | loop => rfl
  | attempt ch => rcases ch with (_ | _ | _) | _ <;> rfl
  | _ => simp at polling

theorem place_attempt (same : pc.place = ch.place) : pc = .attempt ch := by
  have bound := channel_place_lt ch
  cases pc with
  | attempt ch' => rw [channel_place_inj (show ch'.place = ch.place from same)]
  | loop => exact absurd same (Nat.ne_of_gt bound)
  | _ => exact absurd same (Nat.ne_of_gt (Nat.lt_succ_of_lt bound))

theorem writer_turn {sh : Shared} (polling : w.pc.place < 5) (unready : ¬ w.ready sh)
    {ch : Channel} (unsent : w.sent ch = false) :
    ipcsWriteStep sh w = some (sh, w.goto w.pc.turn) := by
  cases pc : w.pc with
  | loop =>
    have some : channels.all w.sent = false := by
      rw [Bool.eq_false_iff, ne_eq, all_sent_iff, not_forall]
      exact ⟨ch, by simp [unsent]⟩
    simp [ipcsWriteStep, pc, some]
  | attempt ch' =>
    simp only [Writer.ready, pc, not_and, Nat.not_lt, Nat.le_zero_eq] at unready
    cases sent : w.sent ch' with
    | true => simp [ipcsWriteStep, pc, sent]
    | false =>
      have blocked := semOp_neg_one_none.mpr (unready sent)
      simp [ipcsWriteStep, pc, sent, blocked]
  | _ => simp [pc] at polling

theorem progress_turn (polling : w.pc.place < 5) : (w.goto w.pc.turn).progress = w.progress := by
  rw [progress_goto]
  cases pc : w.pc with
  | loop => simp [pc]
  | attempt ch =>
    rcases ch with (_ | _ | _) | _ <;>
      simp [pc, Channel.nextAttempt]
  | _ => simp [pc] at polling

theorem open_attempts (here : Open files s) (busy : s.clientPc.stage = .busy)
    (there : s.children[i]? = some c) (pc : c.pc = .writing w) (polling : w.pc.place < 5)
    (unsent : w.sent ch = false) (credit : 0 < s.shared.sems (.credit ch)) : Advances files s := by
  -- on the number of places between here and the attempt for the channel
  induction distance : (ch.place + 5 - w.pc.place) % 5 using Nat.strongRecOn
    generalizing s c w with
  | _ distance' ih =>
    by_cases ready : w.ready s.shared
    · exact open_write here busy there pc ready
    have passing : w.pc.place ≠ ch.place := fun same =>
      ready (by simp [place_attempt same, unsent, credit])
    have moved := step_write there pc (writer_turn polling ready unsent)
    have reading := here.reading busy
    have bound : i < s.children.length := (List.getElem?_eq_some_iff.mp there).1
    have place := place_turn polling
    have fewer := channel_place_lt ch
    obtain ⟨t, reach, open', more⟩ := ih _ (by rw [← distance, Writer.goto, place]; omega)
      (⟨here.inv.step moved, here.files, here.started, fun outside => absurd reading outside⟩ :
        Open files { s with
          children := s.children.set i { c with pc := .writing (w.goto w.pc.turn) } })
      busy (getElem?_set_self bound) rfl (by rw [Writer.goto, place]; omega) unsent credit
      rfl
    refine ⟨t, (canReach_step moved trivial).trans reach, open', ?_⟩
    have sum := (replaced_set there { c with pc := .writing (w.goto w.pc.turn) }).sum_map
      Child.progress
    have same := progress_turn polling
    simp only [Child.progress, pc] at sum
    simp only [State.progress] at more ⊢
    omega

section Server

variable {rd : Reader}

theorem step_read (reading : s.serverPc = .reading)
    (read : ipcsReadStep s.shared s.reader = some (sh, rd)) :
    step s .server = some { s with shared := sh, reader := rd } := by
  have running : s.reader.pc ≠ .returned := fun returned => by
    simp [ipcsReadStep, returned] at read
  simp [reading, running, read]

def Reader.ready (sh : Shared) (rd : Reader) : Prop :=
  match rd.pc with
  | .poll q => sh.queues q ≠ []
  | .find => findSHM sh.flags true ≠ none
  | .credit _ _ | .update _ _ | .updateShm _ | .creditShm _ | .clear _ => True
  | .loop | .tryLock | .unlock | .returned | .undefined _ => False

theorem reader_advances (inv : Inv s) (reading : s.serverPc = .reading)
    (ready : s.reader.ready s.shared) :
    ∃ sh rd, ipcsReadStep s.shared s.reader = some (sh, rd) ∧ s.reader.progress < rd.progress := by
  have moving := reading_moving inv.hand reading
  cases pc : s.reader.pc with
  | loop | tryLock | unlock | returned | undefined _ => simp [Reader.ready, pc] at ready
  | poll q =>
    simp only [Reader.ready, pc] at ready
    obtain ⟨packet, rest, first⟩ := exists_cons_of_ne_nil ready
    obtain ⟨m, rfl⟩ := first_part (handshake_clean inv.hand reading q) first
    refine ⟨_, s.reader.goto (.credit q m), by simp only [ipcsReadStep, pc, first]; rfl, ?_⟩
    simp [pc]
  | credit q m =>
    refine ⟨_, s.reader.goto (.update q m), by simp only [ipcsReadStep, pc, semOp_one]; rfl, ?_⟩
    simp [pc]
  | update q m =>
    have row := (inv.storing moving (storing_update pc)).1
    refine ⟨s.shared, (updateParts s.reader m (.queue q)).count.goto q.nextPoll,
      by simp only [ipcsReadStep, pc, row, if_true], ?_⟩
    simp only [Reader.progress, Reader.goto, Reader.count, updateParts, pc, ReadPc.progress]
    omega
  | find =>
    simp only [Reader.ready, pc] at ready
    obtain ⟨index, found⟩ := Option.ne_none_iff_exists'.mp ready
    refine ⟨s.shared, s.reader.goto (.updateShm index), by simp only [ipcsReadStep, pc, found], ?_⟩
    simp [pc]
  | updateShm i =>
    have row := (inv.storing moving (storing_updateShm _ pc)).1
    refine ⟨s.shared, (updateParts s.reader (s.shared.buffer i) .shm).goto (.creditShm i),
      by simp only [ipcsReadStep, pc, row, if_true], ?_⟩
    simp [updateParts, pc]
  | creditShm i =>
    refine ⟨_, s.reader.goto (.clear i), by simp only [ipcsReadStep, pc, semOp_one]; rfl, ?_⟩
    simp [pc]
  | clear i =>
    refine ⟨_, s.reader.count.goto .unlock, by simp only [ipcsReadStep, pc]; rfl, ?_⟩
    simp only [Reader.progress, Reader.goto, Reader.count, pc, ReadPc.progress]
    omega

theorem open_read (here : Open files s) (reading : s.serverPc = .reading)
    (ready : s.reader.ready s.shared) : Advances files s := by
  obtain ⟨sh, rd, read, more⟩ := reader_advances here.inv reading ready
  refine here.advances (step_read reading read) trivial here.started
    (fun outside => absurd reading outside) ?_
  simp only [State.progress, reading, ServerPc.progress]
  omega

/-- The server polls and finds nothing. -/
structure Idles (files : List File) (s t : State) : Prop where
  reach : Continues s t
  stays : Open files t
  reading : t.serverPc = .reading
  children : t.children = s.children
  clientPc : t.clientPc = s.clientPc
  progress : t.progress = s.progress
  messages : ∀ ch, unread (fun _ => true) t.shared t.reader ch =
    unread (fun _ => true) s.shared s.reader ch
  credits : ∀ ch, t.shared.sems (.credit ch) = s.shared.sems (.credit ch)

def ReadPc.place : ReadPc → Nat
  | .loop => 0
  | .poll .fifo1 => 1
  | .poll .fifo2 => 2
  | .poll .msgq => 3
  | .tryLock => 4
  | .find => 5
  | .unlock => 6
  | _ => 7

def ReadPc.turn : ReadPc → ReadPc
  | .loop => .poll .fifo1
  | .poll q => q.nextPoll
  | .tryLock => .find
  | .find => .unlock
  | .unlock => .loop
  | pc => pc

variable {pc : ReadPc}

theorem read_place_inj {pc' : ReadPc} (same : pc.place = pc'.place) (polling : pc'.place < 7) :
    pc = pc' := by
  cases pc' with
  | poll q' =>
    cases pc with
    | poll q => cases q <;> cases q' <;> first | rfl | cases same
    | _ => cases q' <;> cases same
  | loop | tryLock | find | unlock =>
    cases pc with
    | poll q => cases q <;> cases same
    | _ => first | rfl | cases same
  | _ => simp [ReadPc.place] at polling

theorem read_place_turn (polling : pc.place < 7) : pc.turn.place = (pc.place + 1) % 7 := by
  cases pc with
  | poll q => cases q <;> rfl
  | loop | tryLock | find | unlock => rfl
  | _ => simp [ReadPc.place] at polling

theorem polling_progress (polling : pc.place < 7) : pc.progress = 0 := by
  cases pc with
  | poll _ | loop | tryLock | find | unlock => rfl
  | _ => simp [ReadPc.place] at polling

theorem polling_took (polling : rd.pc.place < 7) (i : Nat) : rd.took i = false := by
  cases pc : rd.pc with
  | poll _ | loop | tryLock | find | unlock => simp [Reader.took, pc]
  | _ => simp [pc, ReadPc.place] at polling

theorem setSem_self (sh : Shared) (sem : Sem) : sh.setSem sem (sh.sems sem) = sh := by
  simp [Shared.setSem, update_eq_self]

section
variable (here : Open files s) (reading : s.serverPc = .reading)
include here reading

theorem idles_step (polling : s.reader.pc.place < 7) (value : Nat)
    (read : ipcsReadStep s.shared s.reader =
      some (s.shared.setSem .shmMutex value, s.reader.goto s.reader.pc.turn)) :
    ∃ t, Idles files s t ∧ t.reader.pc = s.reader.pc.turn := by
  have moved := step_read reading read
  have there : s.reader.pc.turn.place < 7 := by
    rw [read_place_turn polling]
    exact Nat.mod_lt _ (by decide)
  have stays : Open files { s with
      shared := s.shared.setSem .shmMutex value
      reader := s.reader.goto s.reader.pc.turn } :=
    ⟨here.inv.step moved, here.files, here.started, fun outside => absurd reading outside⟩
  refine ⟨_, ⟨canReach_step moved trivial, stays, reading, rfl, rfl, ?_, fun ch => ?_, ?_⟩, rfl⟩
  · simp only [State.progress, reading, ServerPc.progress, Reader.progress, Reader.goto,
      polling_progress polling, polling_progress there]
  · rw [unread_setSem]
    exact unread_took _ fun i => by
      rw [polling_took polling, polling_took (by exact there)]
  · exact fun _ => rfl

theorem open_turn (polling : s.reader.pc.place < 7) (unready : ¬ s.reader.ready s.shared)
    (outside : ∀ w ∈ s.writers, w.inSection = false) :
    (∃ t, Continues s t ∧ Returned t) ∨ ∃ t, Idles files s t ∧ t.reader.pc = s.reader.pc.turn := by
  have idle := idles_step here reading polling
  cases pc : s.reader.pc with
  | loop =>
    by_cases less : s.reader.received < s.reader.n * 4
    · refine .inr (pc ▸ idle (s.shared.sems .shmMutex) ?_)
      rw [setSem_self]
      simp [ipcsReadStep, pc, less, ReadPc.turn]
    · have read : ipcsReadStep s.shared s.reader = some (s.shared, s.reader.goto .returned) := by
        simp [ipcsReadStep, pc, less]
      exact .inl ⟨_, canReach_step (step_read reading read) trivial, reading, rfl⟩
  | poll q =>
    simp only [Reader.ready, pc, ne_eq, not_not] at unready
    refine .inr (pc ▸ idle (s.shared.sems .shmMutex) ?_)
    rw [setSem_self]
    simp [ipcsReadStep, pc, unready, ReadPc.turn]
  | tryLock =>
    have mutex := here.inv.credits.mutex
    have none : s.writers.countP Writer.inSection = 0 :=
      countP_eq_zero.mpr fun w hw => by simp [outside w hw]
    have unlocked : s.shared.sems .shmMutex = 0 + 1 := by
      simpa [none, Reader.inSection, pc] using mutex
    refine .inr (pc ▸ idle 0 ?_)
    have taken := semOp_neg_one.mpr ⟨0, unlocked, rfl⟩
    simp [ipcsReadStep, pc, taken, ReadPc.turn]
  | find =>
    simp only [Reader.ready, pc, ne_eq, not_not] at unready
    refine .inr (pc ▸ idle (s.shared.sems .shmMutex) ?_)
    rw [setSem_self]
    simp [ipcsReadStep, pc, unready, ReadPc.turn]
  | unlock =>
    refine .inr (pc ▸ idle (s.shared.sems .shmMutex + 1) ?_)
    simp [ipcsReadStep, pc, semOp_one, ReadPc.turn]
  | _ => simp [pc, ReadPc.place] at polling

theorem idles_refl : Idles files s s :=
  ⟨canReach_refl s, here, reading, rfl, rfl, rfl, fun _ => rfl, fun _ => rfl⟩

end

theorem Idles.trans {u : State} (first : Idles files s t) (second : Idles files t u) :
    Idles files s u :=
  ⟨first.reach.trans second.reach, second.stays, second.reading,
    second.children.trans first.children, second.clientPc.trans first.clientPc,
    second.progress.trans first.progress,
    fun ch => (second.messages ch).trans (first.messages ch),
    fun ch => (second.credits ch).trans (first.credits ch)⟩

def GoesOn (files : List File) (s : State) : Prop :=
  (∃ t, Continues s t ∧ Returned t) ∨ Advances files s

theorem Idles.goesOn (idles : Idles files s t) (later : GoesOn files t) : GoesOn files s := by
  rcases later with ⟨u, reach, returned⟩ | ⟨u, reach, stays, more⟩
  · exact .inl ⟨u, idles.reach.trans reach, returned⟩
  · exact .inr ⟨u, idles.reach.trans reach, stays, idles.progress ▸ more⟩

theorem open_poll (here : Open files s) (reading : s.serverPc = .reading)
    (polling : s.reader.pc.place < 7) (outside : ∀ w ∈ s.writers, w.inSection = false)
    (pc : ReadPc) (polled : pc.place < 7) :
    GoesOn files s ∨ ∃ t, Idles files s t ∧ t.reader.pc = pc := by
  -- on the number of places between here and there
  induction distance : (pc.place + 7 - s.reader.pc.place) % 7 using Nat.strongRecOn
    generalizing s with
  | _ distance' ih =>
    by_cases same : s.reader.pc.place = pc.place
    · exact .inr ⟨s, idles_refl here reading, read_place_inj same polled⟩
    by_cases ready : s.reader.ready s.shared
    · exact .inl (.inr (open_read here reading ready))
    rcases open_turn here reading polling ready outside with returns | ⟨t, idles, turn⟩
    · exact .inl (.inl returns)
    have next : t.reader.pc.place = (s.reader.pc.place + 1) % 7 := by
      rw [turn, read_place_turn polling]
    have writers : t.writers = s.writers := by rw [State.writers, idles.children]; rfl
    rcases ih _ (by rw [← distance, next]; omega) idles.stays idles.reading
      (by rw [next]; omega) (by rwa [writers]) rfl with later | ⟨u, idles', there⟩
    · exact .inl (idles.goesOn later)
    · exact .inr ⟨u, idles.trans idles', there⟩

def Channel.polled : Channel → ReadPc
  | .queue q => .poll q
  | .shm => .find

theorem polled_place (ch : Channel) : ch.polled.place < 7 := by
  rcases ch with (_ | _ | _) | _ <;> decide

theorem ready_of_unread (pc : rd.pc = ch.polled) (left : 0 < unread (fun _ => true) sh rd ch) :
    rd.ready sh := by
  cases ch with
  | queue q =>
    simp only [Channel.polled] at pc
    simp only [Reader.ready, pc]
    rintro none
    simp [unread, none] at left
  | shm =>
    simp only [Channel.polled] at pc
    simp only [Reader.ready, pc]
    intro missing
    obtain ⟨i, hi, slot⟩ := countP_pos_iff.mp left
    have clear := findSHM_none missing (mem_range.mp hi)
    simp [slotUnread, clear] at slot

theorem open_unread (here : Open files s) (reading : s.serverPc = .reading)
    (polling : s.reader.pc.place < 7) (outside : ∀ w ∈ s.writers, w.inSection = false)
    (left : 0 < unread (fun _ => true) s.shared s.reader ch) : GoesOn files s := by
  rcases open_poll here reading polling outside _ (polled_place ch) with later | ⟨t, idles, pc⟩
  · exact later
  · have ready := ready_of_unread pc (by rwa [idles.messages])
    exact idles.goesOn (.inr (open_read idles.stays idles.reading ready))

end Server

theorem open_gather (here : Open files s) (busy : s.clientPc.stage = .busy)
    (length : s.children.length = s.files.length) (there : s.children[i]? = some c)
    (before : c.passed = false) : Advances files s := by
  by_cases all : ∀ z ∈ s.children, z.arrived = true
  · have arrived := all c (mem_of_getElem? there)
    cases pc : c.pc with
    | wait messages => exact open_wait here busy there pc all length
    | _ => simp [Child.passed, pc] at before arrived
  · obtain ⟨z, hz, late⟩ : ∃ z ∈ s.children, z.arrived = false := by simpa using all
    obtain ⟨j, there⟩ := mem_iff_getElem?.mp hz
    have running := (here.inv.family.made j z there).running
    cases pc : z.pc with
    | start => exact open_start here busy there pc
    | arrive messages => exact open_arrive here busy there pc
    | errExit => exact absurd pc running
    | _ => simp [pc] at late

theorem open_lock (here : Open files s) (busy : s.clientPc.stage = .busy)
    (polling : s.reader.pc.place < 7) (outside : ∀ z ∈ s.writers, z.inSection = false)
    (there : s.children[i]? = some c) (pc : c.pc = .writing w) (lock : w.pc = .lock) :
    GoesOn files s := by
  rcases open_poll here (here.reading busy) polling outside .loop (by decide) with
    later | ⟨t, idles, loop⟩
  · exact later
  · have mutex := idles.stays.inv.credits.mutex
    have none : t.writers.countP Writer.inSection = 0 := by
      rw [State.writers, idles.children]
      exact countP_eq_zero.mpr fun z hz => by simp [outside z hz]
    have unlocked : t.shared.sems .shmMutex = 1 := by
      simpa [none, Reader.inSection, loop] using mutex
    refine idles.goesOn (.inr (open_write idles.stays (by rw [idles.clientPc]; exact busy)
      (by rw [idles.children]; exact there) pc ?_))
    simp [lock, unlocked]

theorem open_finish (here : Open files s) (reading : s.serverPc = .reading)
    (polling : s.reader.pc.place < 7) (outside : ∀ z ∈ s.writers, z.inSection = false)
    (length : s.children.length = s.files.length)
    (carried : ∀ z ∈ s.children, ∀ ch, z.carries (fun _ => true) ch = true)
    (drained : ∀ ch, unread (fun _ => true) s.shared s.reader ch = 0) : GoesOn files s := by
  rcases open_poll here reading polling outside .loop (by decide) with
    later | ⟨t, idles, loop⟩
  · exact later
  · have moving := reading_moving idles.stays.inv.hand idles.reading
    have rows := idles.stays.inv.hand.rows moving
    have stored : ∀ ch, t.reader.stored (fun _ => true) ch = t.reader.n := by
      intro ch
      have equal := idles.stays.inv.conserved moving (fun _ => true) ch
      rw [idles.messages, drained, idles.children,
        countP_eq_length.mpr fun z hz => carried z hz ch, length] at equal
      rw [idles.stays.files, ← here.files] at rows
      simpa [Reader.inHand, loop, rows] using equal
    have all := idles.stays.inv.tables.received_all stored
    simp only [Reader.uncounted, loop] at all
    have read : ipcsReadStep t.shared t.reader = some (t.shared, t.reader.goto .returned) := by
      simp only [ipcsReadStep, loop]
      rw [if_neg (by omega)]
    exact idles.goesOn
      (.inl ⟨_, canReach_step (step_read idles.reading read) trivial, idles.reading, rfl⟩)

variable {rd : Reader}

theorem reader_polling {sh : Shared} (unready : ¬ rd.ready sh)
    (defined : ∀ locked, rd.pc ≠ .undefined locked) (running : rd.pc ≠ .returned) :
    rd.pc.place < 7 := by
  cases pc : rd.pc with
  | poll q => cases q <;> decide
  | loop | tryLock | find | unlock => decide
  | returned => exact absurd pc running
  | undefined locked => exact absurd pc (defined locked)
  | _ => simp [Reader.ready, pc] at unready

theorem polling_owes (polling : rd.pc.place < 7) (ch : Channel) : rd.owes ch = false := by
  cases pc : rd.pc with
  | poll _ | loop | tryLock | find | unlock => simp [Reader.owes, pc, ReadPc.uncredited]
  | _ => simp [pc, ReadPc.place] at polling

theorem writer_unready (inv : Inv s) (there : s.children[i]? = some c) (pc : c.pc = .writing w)
    (unready : ¬ w.ready s.shared) : w.pc.place < 5 ∨ w.pc = .lock ∨ w.pc = .returned := by
  have mem := mem_writers there pc
  cases pc' : w.pc with
  | loop => exact .inl (by decide)
  | attempt ch => exact .inl (Nat.lt_succ_of_lt (channel_place_lt ch))
  | lock => exact .inr (.inl rfl)
  | returned => exact .inr (.inr rfl)
  | find =>
    exact absurd (inv.credits.room mem pc') (by simpa [pc'] using unready)
  | errExit => exact absurd pc' (inv.unfailed c (mem_of_getElem? there) w pc)
  | _ => simp [pc'] at unready

theorem writers_of_children {P : Writer → Prop}
    (writing : ∀ (i : Nat) (c : Child) (w : Writer), s.children[i]? = some c →
      c.pc = .writing w → P w)
    (other : ∀ c : Child, (∀ w, c.pc ≠ .writing w) → P c.writer) : ∀ w ∈ s.writers, P w := by
  intro w hw
  obtain ⟨c, hc, rfl⟩ := mem_map.mp hw
  obtain ⟨i, there⟩ := mem_iff_getElem?.mp hc
  cases pc : c.pc with
  | writing w =>
    have same : c.writer = w := by simp [Child.writer, pc]
    rw [same]
    exact writing i c w there pc
  | _ => exact other c (by simp [pc])

theorem place_outside (polls : w.pc.place < 5) : w.inSection = false := by
  cases pc : w.pc with
  | loop | attempt _ => simp [Writer.inSection, pc]
  | _ => simp [pc] at polls

theorem place_credit {pc : WritePc} (polls : pc.place < 5) : pc.credit = none := by
  cases pc with
  | loop | attempt _ => rfl
  | _ => simp at polls

theorem passed_writing (passed : c.passed = true) {ch : Channel}
    (missing : c.carries (fun _ => true) ch = false) :
    ∃ w, c.pc = .writing w ∧ w.sent ch = false := by
  cases pc : c.pc with
  | writing w =>
    have undelivered : w.delivered ch = false := by simpa [Child.carries, pc] using missing
    exact ⟨w, rfl, (Bool.or_eq_false_iff.mp undelivered).1⟩
  | exited _ => simp [Child.carries, pc] at missing
  | start | arrive _ | wait _ | errExit => simp [Child.passed, pc] at passed

theorem writing_outside (inv : Inv s) (there : s.children[i]? = some c) (pc : c.pc = .writing w)
    (unready : ¬ w.ready s.shared) : w.inSection = false := by
  rcases writer_unready inv there pc unready with polls | lock | ended
  · exact place_outside polls
  · simp [Writer.inSection, lock]
  · simp [Writer.inSection, ended]

section
variable (here : Open files s) (busy : s.clientPc.stage = .busy)
  (length : s.children.length = s.files.length)
include here busy length

theorem open_deliver (polling : s.reader.pc.place < 7)
    (outside : ∀ w ∈ s.writers, w.inSection = false) (passed : ∀ c ∈ s.children, c.passed = true)
    (loops : ∀ (i : Nat) (c : Child) (w : Writer), s.children[i]? = some c →
      c.pc = .writing w → w.pc.place < 5 ∨ w.pc = .returned) : GoesOn files s := by
  have reading := here.reading busy
  by_cases left : ∃ ch, 0 < unread (fun _ => true) s.shared s.reader ch
  · obtain ⟨ch, left⟩ := left
    exact open_unread here reading polling outside left
  have drained : ∀ ch, unread (fun _ => true) s.shared s.reader ch = 0 := by simpa using left
  by_cases carried : ∀ z ∈ s.children, ∀ ch, z.carries (fun _ => true) ch = true
  · exact open_finish here reading polling outside length carried drained
  obtain ⟨c, hc, ch, missing⟩ : ∃ c ∈ s.children, ∃ ch,
      c.carries (fun _ => true) ch = false := by simpa using carried
  obtain ⟨i, there⟩ := mem_iff_getElem?.mp hc
  obtain ⟨w, pc, unsent⟩ := passed_writing (passed c hc) missing
  have polls : w.pc.place < 5 := by
    refine (loops i c w there pc).resolve_right fun ended => ?_
    have sent := (here.inv.credits.wf w (mem_writers there pc)).returned ended ch
    rw [unsent] at sent
    cases sent
  have unheld : ∀ w ∈ s.writers, w.pc.credit = none := by
    refine writers_of_children (fun i c w there pc => ?_) fun c other => (idle_writer c other).1
    rcases loops i c w there pc with polls | ended
    · exact place_credit polls
    · rw [ended]
      rfl
  have credit : s.shared.sems (.credit ch) = 50 := by
    have balance := here.inv.credits.balance ch
    have holders : s.writers.countP (Writer.holds ch) = 0 :=
      countP_eq_zero.mpr fun w hw => by simp [Writer.holds, unheld w hw]
    simpa [drained, holders, polling_owes polling] using balance
  exact .inr (open_attempts here busy there pc polls unsent (by omega))

theorem open_collect : GoesOn files s := by
  have reading := here.reading busy
  by_cases returned : s.reader.pc = .returned
  · exact .inl ⟨s, canReach_refl s, reading, returned⟩
  by_cases before : ∃ (i : Nat) (c : Child), s.children[i]? = some c ∧ c.passed = false
  · obtain ⟨i, c, there, before⟩ := before
    exact .inr (open_gather here busy length there before)
  by_cases writes : ∃ (i : Nat) (c : Child) (w : Writer), s.children[i]? = some c ∧
      c.pc = .writing w ∧ w.ready s.shared
  · obtain ⟨i, c, w, there, pc, ready⟩ := writes
    exact .inr (open_write here busy there pc ready)
  by_cases reads : s.reader.ready s.shared
  · exact .inr (open_read here reading reads)
  have polling := reader_polling reads here.inv.defined returned
  have unready : ∀ (i : Nat) (c : Child) (w : Writer), s.children[i]? = some c →
      c.pc = .writing w → ¬ w.ready s.shared :=
    fun i c w there pc ready => writes ⟨i, c, w, there, pc, ready⟩
  have outside : ∀ w ∈ s.writers, w.inSection = false :=
    writers_of_children
      (fun i c w there pc => writing_outside here.inv there pc (unready i c w there pc))
      fun c other => (idle_writer c other).2.1
  by_cases locks : ∃ (i : Nat) (c : Child) (w : Writer), s.children[i]? = some c ∧
      c.pc = .writing w ∧ w.pc = .lock
  · obtain ⟨i, c, w, there, pc, lock⟩ := locks
    exact open_lock here busy polling outside there pc lock
  refine open_deliver here busy length polling outside ?_ ?_
  · intro c hc
    obtain ⟨i, there⟩ := mem_iff_getElem?.mp hc
    by_contra before'
    exact before ⟨i, c, there, by simpa using before'⟩
  · intro i c w there pc
    rcases writer_unready here.inv there pc (unready i c w there pc) with polls | lock | ended
    · exact .inl polls
    · exact absurd ⟨i, c, w, there, pc, lock⟩ locks
    · exact .inr ended

end

theorem open_goesOn (here : Open files s) : GoesOn files s := by
  have population := here.inv.family.population
  cases pc : s.clientPc with
  | pause => exact absurd pc here.started
  | sendN => exact .inr (open_sendN here pc)
  | createSems => exact .inr (open_createSems here pc)
  | waitData =>
    by_cases reading : s.serverPc = .reading
    · exact .inr (open_waitData here pc reading)
    · exact .inr (open_preparing here (by rw [pc]; rfl) reading)
  | fork i =>
    rw [pc] at population
    by_cases less : i < s.files.length
    · exact .inr (open_fork here pc less)
    · refine open_collect here (by rw [pc]; rfl) (population.1.trans ?_)
      exact Nat.le_antisymm population.2 (Nat.le_of_not_lt less)
  | waitChildren | waitDone =>
    rw [pc] at population
    exact open_collect here (by rw [pc]; rfl) population
  | recvEnd =>
    have agree := here.inv.hand.tokens
    by_cases reading : s.serverPc = .reading
    · simp [pc, reading, ClientPc.stage, ServerPc.stage, agreed] at agree
    · have stage := here.unfinished reading
      simp [pc, ClientPc.stage] at stage

theorem round_completes (here : Open files s) : ∃ t, Continues s t ∧ Returned t := by
  have bounded : ∀ s, Open files s → s.progress ≤ _ := fun _ => open_progress_le
  have advance : ∀ s, Open files s → GoesOn files s := fun _ => open_goesOn
  exact canReach_of_advance bounded advance here

end Elaborato.SystemCall
