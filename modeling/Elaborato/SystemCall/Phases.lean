import Elaborato.SystemCall.Rounds

/-!
The control flow of a round: what is on its way while `client_0` and the server are where.
-/
namespace Elaborato.SystemCall
open List

open Foundation

inductive ClientStage
  | early
  | asking
  | busy
  | leaving
  deriving DecidableEq, Repr

inductive ServerStage
  | readN
  | preparing
  | reading
  | postDone
  | sendEnd
  | undefined
  deriving DecidableEq, Repr

def ClientPc.stage : ClientPc → ClientStage
  | .pause | .sendN => .early
  | .createSems | .waitData => .asking
  | .fork _ | .waitChildren | .waitDone => .busy
  | .recvEnd => .leaving

def ServerPc.stage : ServerPc → ServerStage
  | .readN => .readN
  | .reset _ | .greet | .postData => .preparing
  | .reading => .reading
  | .postDone => .postDone
  | .sendEnd => .sendEnd
  | .undefined => .undefined

structure Tokens where
  fifo1 : List Packet
  msgq : List Packet
  waitData : Nat
  serverDone : Nat

def tokens (sh : Shared) : Tokens :=
  ⟨controls sh .fifo1, controls sh .msgq, sh.sems .waitData, sh.sems .serverDone⟩

def agreed (count : Nat) : ClientStage → ServerStage → Option Tokens
  | .early, .readN => some ⟨[], [], 0, 0⟩
  | .asking, .readN => some ⟨[.count count], [], 0, 0⟩
  | .asking, .preparing => some ⟨[], [], 0, 0⟩
  | .asking, .reading => some ⟨[], [], 1, 0⟩
  | .busy, .reading => some ⟨[], [], 0, 0⟩
  | .busy, .postDone => some ⟨[], [], 0, 0⟩
  | .busy, .sendEnd => some ⟨[], [], 0, 1⟩
  | .busy, .readN => some ⟨[], [.serverEnded], 0, 1⟩
  | .leaving, .sendEnd => some ⟨[], [], 0, 0⟩
  | .leaving, .readN => some ⟨[], [.serverEnded], 0, 0⟩
  | _, _ => none

def resting : ClientStage → ServerStage → Bool
  | .early, _ => true
  | .asking, .reading => false
  | .asking, _ => true
  | _, _ => false

def State.resting (s : State) : Bool := SystemCall.resting s.clientPc.stage s.serverPc.stage

def Child.messages? (c : Child) : Option (Channel → Message) :=
  match c.pc with
  | .arrive messages | .wait messages | .exited messages => some messages
  | .writing w => some w.messages
  | .start | .errExit => none

def Child.arrived (c : Child) : Bool :=
  match c.pc with
  | .wait _ | .writing _ | .exited _ => true
  | _ => false

def Child.passed (c : Child) : Bool :=
  match c.pc with
  | .writing _ | .exited _ => true
  | _ => false

structure Child.Made (files : List File) (i : Nat) (c : Child) : Prop where
  messages : ∀ messages, c.messages? = some messages →
    ∃ file, files[i]? = some file ∧ childMessages i c.pid file = some messages
  running : c.pc ≠ .errExit

def Population (count : Nat) (children : List Child) : ClientPc → Prop
  | .sendN | .createSems | .waitData => children = []
  | .fork i => children.length = i ∧ i ≤ count
  | .pause | .waitChildren | .waitDone | .recvEnd => children.length = count

/-- Children may run. -/
def ClientPc.forking : ClientPc → Bool
  | .fork _ | .waitChildren => true
  | _ => false

def ClientPc.gated : ClientPc → Bool
  | .pause | .sendN | .createSems => false
  | _ => true

structure Handshake (sh : Shared) (rd : Reader) (n : Nat) (serverPc : ServerPc)
    (clientPc : ClientPc) (count : Nat) : Prop where
  occupied : clientPc ≠ .pause → 0 < count
  fifo2 : controls sh .fifo2 = []
  tokens : agreed count clientPc.stage serverPc.stage = some (tokens sh)
  idle : serverPc ≠ .reading → rd.pc = .returned
  n : serverPc ≠ .readN → n = count
  rows : resting clientPc.stage serverPc.stage = false → rd.n = count

structure Family (files : List File) (clientPc : ClientPc) (childrenWait : Nat)
    (children : List Child) : Prop where
  enumerated : Enumerated files
  population : Population files.length children clientPc
  made : ∀ (i : Nat) (c : Child), children[i]? = some c → c.Made files i
  home : clientPc.forking = false → ∀ c ∈ children, ∃ messages, c.pc = .exited messages
  barrier : clientPc.gated = true → childrenWait + children.countP Child.arrived = files.length
  gate : clientPc.gated = true → ∀ c ∈ children, c.passed = true → childrenWait = 0

def State.Handshake (s : State) : Prop :=
  SystemCall.Handshake s.shared s.reader s.n s.serverPc s.clientPc s.files.length

def State.Family (s : State) : Prop :=
  SystemCall.Family s.files s.clientPc s.childrenWait s.children

inductive Agreed (count : Nat) : ClientStage → ServerStage → Tokens → Prop
  | idle : Agreed count .early .readN ⟨[], [], 0, 0⟩
  | counted : Agreed count .asking .readN ⟨[.count count], [], 0, 0⟩
  | preparing : Agreed count .asking .preparing ⟨[], [], 0, 0⟩
  | prepared : Agreed count .asking .reading ⟨[], [], 1, 0⟩
  | sending : Agreed count .busy .reading ⟨[], [], 0, 0⟩
  | collected : Agreed count .busy .postDone ⟨[], [], 0, 0⟩
  | posted : Agreed count .busy .sendEnd ⟨[], [], 0, 1⟩
  | ended : Agreed count .busy .readN ⟨[], [.serverEnded], 0, 1⟩
  | leaving : Agreed count .leaving .sendEnd ⟨[], [], 0, 0⟩
  | left : Agreed count .leaving .readN ⟨[], [.serverEnded], 0, 0⟩

variable {count : Nat} {client : ClientStage} {server : ServerStage} {tk : Tokens}

theorem agreed_cases (agree : agreed count client server = some tk) :
    Agreed count client server tk := by
  cases client <;> cases server <;> cases agree <;> constructor

theorem agreed_early (agree : agreed count .early server = some tk) (count' : Nat) :
    server = .readN ∧ agreed count' .early server = some tk := by
  cases agreed_cases agree with
  | idle => exact ⟨rfl, rfl⟩

theorem agreed_sendN (agree : agreed count .early server = some tk) :
    server = .readN ∧
      agreed count .asking server = some { tk with fifo1 := tk.fifo1 ++ [.count count] } := by
  cases agreed_cases agree with
  | idle => exact ⟨rfl, rfl⟩

variable {packet : Packet} {rest : List Packet}

theorem agreed_readN (agree : agreed count client .readN = some tk)
    (first : tk.fifo1 = packet :: rest) :
    client = .asking ∧ packet = .count count ∧
      agreed count client .preparing = some { tk with fifo1 := rest } := by
  cases agreed_cases agree with
  | counted =>
    cases first
    exact ⟨rfl, rfl, rfl⟩
  | idle | ended | left => cases first

theorem agreed_postData (agree : agreed count client .preparing = some tk) :
    client = .asking ∧
      agreed count client .reading = some { tk with waitData := tk.waitData + 1 } := by
  cases agreed_cases agree with
  | preparing => exact ⟨rfl, rfl⟩

variable {value : Nat}

theorem agreed_waitData (agree : agreed count .asking server = some tk)
    (before : tk.waitData = value + 1) :
    server = .reading ∧ agreed count .busy server = some { tk with waitData := value } := by
  cases agreed_cases agree with
  | prepared =>
    cases before
    exact ⟨rfl, rfl⟩
  | counted | preparing => cases before

theorem agreed_returned (agree : agreed count client .reading = some tk)
    (busy : client = .busy) : agreed count client .postDone = some tk := by
  subst busy
  exact agree

theorem agreed_postDone (agree : agreed count client .postDone = some tk) :
    client = .busy ∧
      agreed count client .sendEnd = some { tk with serverDone := tk.serverDone + 1 } := by
  cases agreed_cases agree with
  | collected => exact ⟨rfl, rfl⟩

theorem agreed_sendEnd (agree : agreed count client .sendEnd = some tk) :
    (client = .busy ∨ client = .leaving) ∧
      agreed count client .readN = some { tk with msgq := tk.msgq ++ [.serverEnded] } := by
  cases agreed_cases agree with
  | posted => exact ⟨.inl rfl, rfl⟩
  | leaving => exact ⟨.inr rfl, rfl⟩

theorem agreed_waitDone (agree : agreed count .busy server = some tk)
    (before : tk.serverDone = value + 1) :
    agreed count .leaving server = some { tk with serverDone := value } := by
  cases agreed_cases agree with
  | posted | ended =>
    cases before
    rfl
  | sending | collected => cases before

theorem agreed_recvEnd (agree : agreed count .leaving server = some tk)
    (first : tk.msgq = packet :: rest) :
    server = .readN ∧ packet = .serverEnded ∧
      agreed count .early server = some { tk with msgq := rest } := by
  cases agreed_cases agree with
  | left =>
    cases first
    exact ⟨rfl, rfl, rfl⟩
  | leaving => cases first

theorem agreed_reading (agree : agreed count client .reading = some tk) :
    tk.fifo1 = [] ∧ tk.msgq = [] := by
  cases agreed_cases agree with
  | prepared | sending => exact ⟨rfl, rfl⟩

theorem agreed_outside (agree : agreed count client server = some tk)
    (leaving : client = .leaving) : server ≠ .reading := by
  subst leaving
  rintro rfl
  cases agreed_cases agree

variable {sh sh' : Shared} {q : Queue}

variable {q' : Queue}

attribute [local simp] controls Shared.send Shared.receive tokens Child.arrived State.setChild

theorem controls_send_other (apart : q' ≠ q) : controls (sh.send q packet) q' = controls sh q' := by
  simp [apart]

theorem controls_receive_other (apart : q' ≠ q) :
    controls (sh.receive q rest) q' = controls sh q' := by
  simp [apart]

theorem tokens_sendN (n : Nat) : tokens (sh.send .fifo1 (.count n)) =
    { tokens sh with fifo1 := (tokens sh).fifo1 ++ [.count n] } := by
  simp [Packet.isControl]

theorem tokens_sendEnd : tokens (sh.send .msgq .serverEnded) =
    { tokens sh with msgq := (tokens sh).msgq ++ [.serverEnded] } := by
  simp [Packet.isControl]

theorem tokens_receive_fifo1 (first : sh.queues .fifo1 = packet :: rest)
    (control : packet.isControl = true) :
    (tokens sh).fifo1 = packet :: rest.filter Packet.isControl ∧
      tokens (sh.receive .fifo1 rest) =
        { tokens sh with fifo1 := rest.filter Packet.isControl } := by
  simp [first, control]

theorem tokens_receive_msgq (first : sh.queues .msgq = packet :: rest)
    (control : packet.isControl = true) :
    (tokens sh).msgq = packet :: rest.filter Packet.isControl ∧
      tokens (sh.receive .msgq rest) = { tokens sh with msgq := rest.filter Packet.isControl } := by
  simp [first, control]

variable {rd : Reader}

theorem first_control (first : sh.queues q = packet :: rest)
    (drained : unread (fun _ => true) sh rd (.queue q) = 0) : packet.isControl = true := by
  cases packet with
  | part m => simp [unread, first, Packet.isPart] at drained
  | count n | serverEnded => rfl

theorem WriterMove.tokens_eq {w w' : Writer} (move : WriterMove sh w sh' w') :
    tokens sh' = tokens sh := by
  have sems : sh'.sems .waitData = sh.sems .waitData ∧
      sh'.sems .serverDone = sh.sems .serverDone := by
    cases move <;> exact ⟨rfl, rfl⟩
  simp only [tokens, move.controls_eq, sems]

theorem ReaderMove.tokens_eq {rd' : Reader} {taken stored : Option (Channel × Message)}
    (move : ReaderMove sh rd taken stored sh' rd') (clean : ∀ q, controls sh q = []) :
    tokens sh' = tokens sh := by
  have sems : sh'.sems .waitData = sh.sems .waitData ∧
      sh'.sems .serverDone = sh.sems .serverDone := by
    cases move <;> exact ⟨rfl, rfl⟩
  simp only [tokens, move.controls_eq fun q _ => clean q, sems]

def Drained (sh : Shared) (rd : Reader) : Prop :=
  rd.pc = .returned → ∀ ch, unread (fun _ => true) sh rd ch = 0

variable {s t : State}

section
variable (hand : s.Handshake)
include hand

theorem handshake_clean (reading : s.serverPc = .reading) (q : Queue) :
    controls s.shared q = [] := by
  have agree := hand.tokens
  rw [reading] at agree
  obtain ⟨fifo1, msgq⟩ := agreed_reading agree
  cases q with
  | fifo1 => exact fifo1
  | fifo2 => exact hand.fifo2
  | msgq => exact msgq

omit hand in
theorem stage_readN {pc : ServerPc} (stage : pc.stage = .readN) : pc = .readN := by
  cases pc <;> simp_all [ServerPc.stage]

theorem handshake_sigint (files : List File) (pause : s.clientPc = .pause) :
    Handshake s.shared s.reader s.n s.serverPc
      (if files.length = 0 then .pause else .sendN) files.length := by
  have agree := hand.tokens
  rw [pause] at agree
  obtain ⟨server, agree⟩ := agreed_early agree files.length
  have early : (if files.length = 0 then ClientPc.pause else .sendN).stage = .early := by
    split <;> rfl
  refine ⟨?_, hand.fifo2, ?_, hand.idle, ?_, ?_⟩
  · intro there
    refine Nat.pos_of_ne_zero fun none => there ?_
    rw [if_pos none]
  · rw [early]
    exact agree
  · exact fun there => absurd (stage_readN server) there
  · rw [early]
    nofun

theorem handshake_client (drained : Drained s.shared s.reader) (move : ClientMove s t) :
    t.Handshake := by
  have agree := hand.tokens
  cases move with
  | sendN pc =>
    rw [pc] at agree
    obtain ⟨server, agree⟩ := agreed_sendN agree
    refine { hand with
      occupied := fun _ => hand.occupied (by simp [pc])
      fifo2 := (controls_send_other (by decide)).trans hand.fifo2
      tokens := by rw [tokens_sendN]; exact agree
      rows := by simp [server, ClientPc.stage, resting] }
  | createSems pc =>
    have rows := hand.rows
    rw [pc] at agree rows
    exact { hand with
      occupied := fun _ => hand.occupied (by simp [pc])
      tokens := agree
      rows := rows }
  | waitData pc before =>
    have rows := hand.rows
    rw [pc] at agree rows
    obtain ⟨server, agree⟩ := agreed_waitData agree before
    exact { hand with
      occupied := fun _ => hand.occupied (by simp [pc])
      tokens := agree
      rows := fun _ => rows (by simp [server, ClientPc.stage, resting]) }
  | fork _ pc _ | forked pc _ | waitChildren pc _ =>
    have rows := hand.rows
    rw [pc] at agree rows
    exact { hand with
      occupied := fun _ => hand.occupied (by simp [pc])
      tokens := agree
      rows := rows }
  | waitDone pc before =>
    have rows := hand.rows
    rw [pc] at agree rows
    exact { hand with
      occupied := fun _ => hand.occupied (by simp [pc])
      tokens := agreed_waitDone agree before
      rows := fun _ => rows rfl }
  | @recvEnd packet rest pc first =>
    rw [pc] at agree
    have outside : s.serverPc ≠ .reading := fun reading =>
      agreed_outside agree rfl (by rw [reading]; rfl)
    have control := first_control first (drained (hand.idle outside) (.queue .msgq))
    obtain ⟨here, after⟩ := tokens_receive_msgq first control
    obtain ⟨server, -, agree⟩ := agreed_recvEnd agree here
    exact { hand with
      occupied := fun there => absurd rfl there
      fifo2 := (controls_receive_other (by decide)).trans hand.fifo2
      tokens := by rw [after]; exact agree
      rows := nofun }

theorem handshake_server (drained : Drained s.shared s.reader)
    (busy : s.serverPc = .reading → s.reader.pc = .returned → s.clientPc.stage = .busy)
    (move : ServerMove s t) : t.Handshake := by
  have agree := hand.tokens
  have rows := hand.rows
  cases move with
  | @readN n rest pc first =>
    rw [pc] at agree
    obtain ⟨here, after⟩ := tokens_receive_fifo1 first rfl
    obtain ⟨asking, number, agree⟩ := agreed_readN agree here
    cases number
    have some : 0 < s.files.length := hand.occupied fun pause => by
      rw [pause] at asking
      cases asking
    have server : (if 0 < s.files.length then ServerPc.reset 0 else .readN) = .reset 0 :=
      if_pos some
    refine ⟨hand.occupied, (controls_receive_other (by decide)).trans hand.fifo2, ?_, ?_, ?_, ?_⟩
    · rw [after, server]
      exact agree
    · exact fun _ => hand.idle (by simp [pc])
    · exact fun _ => rfl
    · rw [server, asking]
      nofun
  | garbled pc first other =>
    rw [pc] at agree
    have control := first_control first (drained (hand.idle (by simp [pc])) (.queue .fifo1))
    obtain ⟨here, -⟩ := tokens_receive_fifo1 first control
    obtain ⟨-, number, -⟩ := agreed_readN agree here
    exact absurd number (other _)
  | reset pc _ | ready pc _ | greet _ pc =>
    rw [pc] at agree rows
    exact { hand with
      tokens := agree
      idle := fun _ => hand.idle (by simp [pc])
      n := fun _ => hand.n (by simp [pc])
      rows := rows }
  | postData pc =>
    rw [pc] at agree
    exact { hand with
      tokens := (agreed_postData agree).2
      idle := fun there => absurd rfl there
      n := fun _ => hand.n (by simp [pc])
      rows := fun _ => hand.n (by simp [pc]) }
  | returned pc done =>
    have stage := busy pc done
    rw [pc] at agree
    exact { hand with
      tokens := agreed_returned agree stage
      idle := fun _ => done
      n := fun _ => hand.n (by simp [pc])
      rows := fun _ => rows (by rw [stage, pc]; rfl) }
  | @read _ _ sh rd pc move =>
    have clean := handshake_clean hand pc
    have same : rd.n = s.reader.n := by cases move <;> rfl
    exact { hand with
      fifo2 := (move.controls_eq fun q _ => clean q).trans hand.fifo2
      tokens := by rw [move.tokens_eq clean]; exact agree
      idle := fun there => absurd pc there
      rows := fun moving => same.trans (rows moving) }
  | postDone pc =>
    rw [pc] at agree
    obtain ⟨stage, agree⟩ := agreed_postDone agree
    exact { hand with
      tokens := agree
      idle := fun _ => hand.idle (by simp [pc])
      n := fun _ => hand.n (by simp [pc])
      rows := fun _ => rows (by rw [stage]; rfl) }
  | sendEnd pc =>
    rw [pc] at agree
    obtain ⟨stage, agree⟩ := agreed_sendEnd agree
    exact { hand with
      fifo2 := (controls_send_other (by decide)).trans hand.fifo2
      tokens := by rw [tokens_sendEnd]; exact agree
      idle := fun _ => hand.idle (by simp [pc])
      n := fun there => absurd rfl there
      rows := fun _ => rows (by rcases stage with stage | stage <;> rw [stage] <;> rfl) }

theorem handshake_child {i : Nat} {c : Child} (move : ChildMove s i c t) : t.Handshake := by
  cases move with
  | write pc move =>
    exact { hand with
      fifo2 := move.controls_eq.trans hand.fifo2
      tokens := by rw [move.tokens_eq]; exact hand.tokens }
  | _ => exact hand

end

variable {files : List File}

theorem family_sigint (enumerated : Enumerated files) (childrenWait : Nat) :
    Family files (if files.length = 0 then .pause else .sendN) childrenWait [] := by
  split
  case isTrue none => exact ⟨enumerated, none.symm, by simp, by simp, nofun, nofun⟩
  case isFalse => exact ⟨enumerated, rfl, by simp, by simp, nofun, nofun⟩

variable {i : Nat} {c : Child}

theorem exited_of_hasExited (made : c.Made files i)
    (unfailed : ∀ w, c.pc = .writing w → w.pc ≠ .errExit) (ended : c.hasExited = true) :
    ∃ messages, c.pc = .exited messages := by
  cases pc : c.pc with
  | exited messages => exact ⟨messages, rfl⟩
  | errExit => exact absurd pc made.running
  | writing w => exact absurd (by simpa [Child.hasExited, pc] using ended) (unfailed w pc)
  | start | arrive _ | wait _ => simp [Child.hasExited, pc] at ended

theorem family_client (family : s.Family)
    (unfailed : ∀ c ∈ s.children, ∀ w, c.pc = .writing w → w.pc ≠ .errExit)
    (move : ClientMove s t) : t.Family := by
  have population := family.population
  have home := family.home
  have barrier := family.barrier
  have gate := family.gate
  cases move with
  | sendN pc =>
    rw [pc] at population home
    exact { family with population, home, barrier := nofun, gate := nofun }
  | createSems pc =>
    rw [pc] at population home
    have none : s.children = [] := population
    refine { family with population, home, barrier := fun _ => ?_, gate := fun _ c hc => ?_ }
    · rw [none, Nat.mod_eq_of_lt family.enumerated.1]
      rfl
    · rw [none] at hc
      exact absurd hc not_mem_nil
  | waitData pc _ =>
    rw [pc] at population barrier gate
    have none : s.children = [] := population
    exact { family with
      population := ⟨by rw [none]; rfl, Nat.zero_le _⟩, home := nofun, barrier, gate }
  | @fork i pid pc less =>
    rw [pc] at population barrier gate
    obtain ⟨length, -⟩ := population
    refine { family with
      population := ⟨by simp [length], less⟩
      made := fun j c here => ?_
      home := nofun
      barrier := fun _ => ?_
      gate := fun _ c hc passed => ?_ }
    · rcases getElem?_snoc here with old | rfl
      · exact family.made j c old
      · exact ⟨by simp [Child.messages?], by simp⟩
    · simpa [countP_append] using barrier rfl
    · rcases mem_append.mp hc with hc | hc
      · exact gate rfl c hc passed
      · rw [mem_singleton.mp hc] at passed
        cases passed
  | @forked i pc all =>
    rw [pc] at population barrier gate
    exact { family with
      population := Nat.le_antisymm (population.1 ▸ population.2) (population.1 ▸ all)
      home := nofun
      barrier
      gate }
  | waitChildren pc ended =>
    rw [pc] at population barrier gate
    refine { family with population, home := fun _ c hc => ?_, barrier, gate }
    obtain ⟨i, here⟩ := mem_iff_getElem?.mp hc
    exact exited_of_hasExited (family.made i c here) (unfailed c hc) (ended c hc)
  | waitDone pc _ =>
    rw [pc] at population home barrier gate
    exact { family with population, home, barrier, gate }
  | recvEnd pc _ =>
    rw [pc] at population home
    exact { family with population, home, barrier := nofun, gate := nofun }

variable {pc : ClientPc}

section
variable {i : Nat} {c : Child} (family : s.Family) (here : s.children[i]? = some c)
include family here

theorem family_forking (running : ∀ messages, c.pc ≠ .exited messages) :
    s.clientPc.forking = true := by
  cases forking : s.clientPc.forking with
  | true => rfl
  | false =>
    obtain ⟨messages, pc⟩ := family.home forking c (mem_of_getElem? here)
    exact absurd pc (running messages)

omit family here in
theorem gated_of_forking (forking : pc.forking = true) : pc.gated = true := by
  cases pc <;> simp_all [ClientPc.forking, ClientPc.gated]

omit family here in
theorem population_set {count : Nat} {children : List Child}
    (population : Population count children pc) : Population count (children.set i c) pc := by
  cases pc <;> simp_all [Population]

theorem family_replace {c' : Child} {childrenWait : Nat}
    (running : ∀ messages, c.pc ≠ .exited messages) (made : c'.Made s.files i)
    (count : childrenWait + c'.arrived.toNat = s.childrenWait + c.arrived.toNat)
    (shut : s.childrenWait = 0 → childrenWait = 0) (passing : c'.passed = true → childrenWait = 0) :
    SystemCall.Family s.files s.clientPc childrenWait (s.children.set i c') := by
  have forking := family_forking family here running
  have gated := gated_of_forking forking
  have replaced := replaced_set here c'
  refine ⟨family.enumerated, population_set family.population, ?_, ?_, ?_, ?_⟩
  · intro j z there
    rcases getElem?_set_cases there with ⟨rfl, rfl⟩ | old
    · exact made
    · exact family.made j z old
  · intro outside
    rw [forking] at outside
    cases outside
  · intro _
    have before := family.barrier gated
    have arrived := replaced.countP Child.arrived
    omega
  · intro _ z hz passed
    rcases replaced.mem hz with rfl | old
    · exact passing passed
    · exact shut (family.gate gated z old passed)

theorem family_child (move : ChildMove s i c t) : t.Family := by
  have made := family.made i c here
  cases move with
  | failed pc listed failed =>
    obtain ⟨admitted, -⟩ := family.enumerated.2 _ (mem_of_getElem? listed)
    obtain ⟨messages, some⟩ := childMessages_admitted i c.pid admitted
    rw [failed] at some
    cases some
  | @start file messages pc listed read =>
    refine family_replace family here (by simp [pc]) ⟨?_, by simp⟩ ?_ id nofun
    · rintro _ ⟨⟩
      exact ⟨file, listed, read⟩
    · simp [pc]
  | arrive pc before =>
    refine family_replace family here (by simp [pc]) ⟨?_, by simp⟩ ?_ ?_ nofun
    · exact fun messages same =>
        made.messages messages (by simpa [Child.messages?, pc] using same)
    · simp [pc, before]
    · intro none
      rw [none] at before
      cases before
  | wait pc none =>
    refine family_replace family here (by simp [pc]) ⟨?_, by simp⟩ ?_ (fun _ => rfl) fun _ => rfl
    · exact fun messages same =>
        made.messages messages (by simpa [Child.messages?, pc, ipcsWrite] using same)
    · simp [pc, none]
  | exit pc _ =>
    have forking := family_forking family here (by simp [pc])
    refine family_replace family here (by simp [pc]) ⟨?_, by simp⟩ ?_ id ?_
    · exact fun messages same =>
        made.messages messages (by simpa [Child.messages?, pc] using same)
    · simp [pc]
    · exact fun _ => family.gate (gated_of_forking forking) c (mem_of_getElem? here)
        (by simp [Child.passed, pc])
  | write pc move =>
    have forking := family_forking family here (by simp [pc])
    refine family_replace family here (by simp [pc]) ⟨?_, by simp⟩ ?_ id ?_
    · exact fun messages same =>
        made.messages messages (by simpa [Child.messages?, pc, move.messages] using same)
    · simp [pc]
    · exact fun _ => family.gate (gated_of_forking forking) c (mem_of_getElem? here)
        (by simp [Child.passed, pc])

end

end Elaborato.SystemCall
