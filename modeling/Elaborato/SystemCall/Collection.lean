import Elaborato.SystemCall.Phases
import Elaborato.SystemCall.FileParts

/-!
Every message is unread, in the hands of the server or stored, and nothing else is.
-/
namespace Elaborato.SystemCall
open Foundation List Function

def blankMessage : Message := { msg := [], pid := 0, index := 0, filename := "" }

def Child.writer (c : Child) : Writer :=
  match c.pc with
  | .writing w => w
  | _ => ipcsWrite fun _ => blankMessage

def State.writers (s : State) : List Writer := s.children.map Child.writer

def Child.carries (p : Message → Bool) (ch : Channel) (c : Child) : Bool :=
  match c.pc with
  | .writing w => w.delivered ch && p (w.messages ch)
  | .exited messages => p (messages ch)
  | _ => false

def Conserved (sh : Shared) (rd : Reader) (children : List Child) : Prop :=
  ∀ p ch, unread p sh rd ch + rd.inHand p ch + rd.stored p ch =
    children.countP (Child.carries p ch)

structure Inv (s : State) : Prop where
  hand : s.Handshake
  family : s.Family
  credits : Credits s.shared s.writers s.reader
  tables : Tables s.reader
  defined : ∀ locked, s.reader.pc ≠ .undefined locked
  drained : Drained s.shared s.reader
  conserved : s.resting = false → Conserved s.shared s.reader s.children

variable {s : State} {sh sh' : Shared} {ws ws' : List Writer} {w w' : Writer} {rd : Reader}

attribute [local simp] slotUnread Writer.holds ipcsWrite Child.carries ServerPc.stage agreed
  Reader.took ipcsRead startState

theorem unread_le (p : Message → Bool) (sh : Shared) (rd : Reader) (ch : Channel) :
    unread p sh rd ch ≤ unread (fun _ => true) sh rd ch := by
  cases ch with
  | queue q =>
    refine countP_mono_left fun packet _ here => ?_
    cases packet <;> simp_all [Packet.isPart]
  | shm =>
    refine countP_mono_left fun i _ here => ?_
    simp_all

theorem Credits.congr (credits : Credits sh ws rd)
    (messages : ∀ ch, unread (fun _ => true) sh' rd ch = unread (fun _ => true) sh rd ch)
    (credit : ∀ ch, sh'.sems (.credit ch) = sh.sems (.credit ch))
    (mutex : sh'.sems .shmMutex = sh.sems .shmMutex) (flags : sh'.flags = sh.flags)
    (placed : ∀ w ∈ ws, w.Placed sh') : Credits sh' ws rd :=
  ⟨fun ch => by rw [messages, credit]; exact credits.balance ch,
    by rw [mutex]; exact credits.mutex, credits.wf, placed,
    reader_placed_congr flags credits.reader⟩

theorem Credits.forget (credits : Credits sh ws rd)
    (idle : ∀ w ∈ ws, w.pc.credit = none ∧ w.inSection = false) : Credits sh [] rd := by
  have holders : ∀ ch, ws.countP (Writer.holds ch) = 0 := fun ch =>
    countP_eq_zero.mpr fun w hw => by simp [(idle w hw).1]
  have inside : ws.countP Writer.inSection = 0 :=
    countP_eq_zero.mpr fun w hw => by simp [(idle w hw).2]
  refine ⟨fun ch => ?_, ?_, by simp, by simp, credits.reader⟩
  · have balance := credits.balance ch
    rwa [holders ch] at balance
  · have mutex := credits.mutex
    rwa [inside] at mutex

theorem Credits.replace (credits : Credits sh ws rd) (replaced : Replaced ws w w' ws')
    (idle : w.pc.credit = none ∧ w.inSection = false)
    (idle' : w'.pc.credit = none ∧ w'.inSection = false) (wf : w'.Wf) : Credits sh ws' rd := by
  refine ⟨fun ch => ?_, ?_, fun z hz => ?_, fun z hz => ?_, credits.reader⟩
  · have balance := credits.balance ch
    have holders := replaced.countP (Writer.holds ch)
    have none : w.holds ch = false := by simp [idle.1]
    have none' : w'.holds ch = false := by simp [idle'.1]
    rw [none, none'] at holders
    omega
  · have mutex := credits.mutex
    have inside := replaced.countP Writer.inSection
    rw [idle.2, idle'.2] at inside
    omega
  · rcases replaced.mem hz with rfl | hz
    · exact wf
    · exact credits.wf z hz
  · rcases replaced.mem hz with rfl | hz
    · exact placed_outside idle'.2
    · exact credits.writers z hz

theorem mem_writers {i : Nat} {c : Child} (here : s.children[i]? = some c)
    (pc : c.pc = .writing w) : w ∈ s.writers :=
  mem_map.mpr ⟨c, mem_of_getElem? here, by simp [Child.writer, pc]⟩

theorem idle_writer (c : Child) (outside : ∀ w, c.pc ≠ .writing w) :
    c.writer.pc.credit = none ∧ c.writer.inSection = false ∧ c.writer.Wf := by
  have idle : c.writer.pc = .loop := by
    cases pc : c.pc with
    | writing w => exact absurd pc (outside w)
    | _ => simp [Child.writer, pc]
  refine ⟨by rw [idle]; rfl, by simp [Writer.inSection, idle], wf_of_quiet ?_ ?_ ?_⟩
  · rw [idle]; rfl
  · simp [idle]
  · simp [idle]

theorem drained_of_conserved {children : List Child} (tables : Tables rd)
    (conserved : Conserved sh rd children) (population : children.length ≤ rd.n) :
    Drained sh rd := by
  intro returned ch
  have equal := conserved (fun _ => true) ch
  rw [tables.stored_all returned ch] at equal
  have most : children.countP (Child.carries (fun _ => true) ch) ≤ children.length :=
    countP_le_length
  omega

def Reader.storing (sh : Shared) (rd : Reader) : Option (Channel × Message) :=
  match rd.pc with
  | .update q m => some (.queue q, m)
  | .updateShm i => some (.shm, sh.buffer i)
  | _ => none

theorem storing_update {sh : Shared} {q : Queue} {m : Message} (pc : rd.pc = .update q m) :
    rd.storing sh = some (.queue q, m) := by
  simp only [Reader.storing, pc]

theorem storing_updateShm {i : Nat} (sh : Shared) (pc : rd.pc = .updateShm i) :
    rd.storing sh = some (.shm, sh.buffer i) := by
  simp only [Reader.storing, pc]

variable {p : Message → Bool} {ch : Channel} {m : Message}

theorem carries_sent {files : List File} {i : Nat} {c : Child} (made : c.Made files i)
    (carries : c.carries p ch = true) :
    ∃ messages, c.messages? = some messages ∧ p (messages ch) = true ∧ (messages ch).index = i := by
  obtain ⟨messages, known, holds⟩ : ∃ messages, c.messages? = some messages ∧
      p (messages ch) = true := by
    cases pc : c.pc with
    | writing w =>
      simp only [Child.carries, pc, Bool.and_eq_true] at carries
      exact ⟨w.messages, by simp [Child.messages?, pc], carries.2⟩
    | exited messages =>
      simp only [Child.carries, pc] at carries
      exact ⟨messages, by simp [Child.messages?, pc], carries⟩
    | start | arrive _ | wait _ | errExit => simp [pc] at carries
  obtain ⟨file, -, read⟩ := made.messages messages known
  exact ⟨messages, known, holds, (childMessages_spec read ch).1⟩

theorem reading_moving (hand : s.Handshake) (reading : s.serverPc = .reading) :
    s.resting = false := by
  have agree := hand.tokens
  rw [State.resting, reading]
  rw [reading] at agree
  cases stage : s.clientPc.stage <;> simp_all [resting]

theorem population_le {count : Nat} {children : List Child} {pc : ClientPc}
    (population : Population count children pc) : children.length ≤ count := by
  cases pc <;> simp_all [Population]

section
variable (inv : Inv s) (moving : s.resting = false)
include inv moving

theorem Inv.sender
    (there : 0 < unread p s.shared s.reader ch + s.reader.inHand p ch + s.reader.stored p ch) :
    ∃ i c messages, s.children[i]? = some c ∧ c.messages? = some messages ∧
      p (messages ch) = true ∧ (messages ch).index = i ∧ i < s.reader.n := by
  rw [inv.conserved moving p ch] at there
  obtain ⟨c, hc, carries⟩ := countP_pos_iff.mp there
  obtain ⟨i, here⟩ := mem_iff_getElem?.mp hc
  obtain ⟨messages, known, holds, index⟩ := carries_sent (inv.family.made i c here) carries
  have bound : i < s.children.length := (List.getElem?_eq_some_iff.mp here).1
  have most := population_le inv.family.population
  exact ⟨i, c, messages, here, known, holds, index, by rw [inv.hand.rows moving]; omega⟩

theorem Inv.single (row : Nat) (ch : Channel) :
    unread (fun m => decide (m.index = row)) s.shared s.reader ch +
      s.reader.inHand (fun m => decide (m.index = row)) ch +
      s.reader.stored (fun m => decide (m.index = row)) ch ≤ 1 := by
  rw [inv.conserved moving]
  rw [countP_position (r := row)]
  · exact Bool.toNat_le _
  · intro i c here carries
    obtain ⟨messages, -, holds, index⟩ := carries_sent (inv.family.made i c here) carries
    exact index.symm.trans (by simpa using holds)

omit inv moving in
theorem storing_held {sh : Shared} {rd : Reader} (placed : rd.Placed sh)
    (storing : rd.storing sh = some (ch, m)) (holds : p m = true) :
    0 < unread p sh rd ch + rd.inHand p ch := by
  cases pc : rd.pc with
  | update q m' =>
    simp only [Reader.storing, pc, Option.some.injEq, Prod.mk.injEq] at storing
    obtain ⟨rfl, rfl⟩ := storing
    simp [Reader.inHand, pc, holds]
  | updateShm i =>
    simp only [Reader.storing, pc, Option.some.injEq, Prod.mk.injEq] at storing
    obtain ⟨rfl, rfl⟩ := storing
    simp only [Reader.Placed, pc] at placed
    refine Nat.add_pos_left (countP_pos_iff.mpr ⟨i, mem_range.mpr placed.1, ?_⟩) _
    simp [placed.2, holds, pc]
  | _ => simp [Reader.storing, pc] at storing

theorem Inv.storing (storing : s.reader.storing s.shared = some (ch, m)) :
    m.index < s.reader.n ∧ s.reader.filesParts m.index ch = none := by
  have row : m.index < s.reader.n := by
    have held := storing_held (p := fun m' => decide (m' = m)) inv.credits.reader storing (by simp)
    obtain ⟨i, c, messages, -, -, same, index, bound⟩ := inv.sender moving (Nat.add_pos_left held _)
    rw [of_decide_eq_true same] at index
    exact index ▸ bound
  refine ⟨row, ?_⟩
  have held := storing_held (p := fun m' => decide (m'.index = m.index)) inv.credits.reader storing
    (by simp)
  have single := inv.single moving m.index ch
  cases entry : s.reader.filesParts m.index ch with
  | none => rfl
  | some m' =>
    have stored : 0 < s.reader.stored (fun m' => decide (m'.index = m.index)) ch := by
      refine countP_pos_iff.mpr ⟨m.index, mem_range.mpr row, ?_⟩
      simp [entry, (inv.tables.indexed _ _ _ entry).1]
    omega

end

variable {t : State}

theorem Inv.unfailed (inv : Inv s) (c : Child) (hc : c ∈ s.children) (w : Writer)
    (pc : c.pc = .writing w) : w.pc ≠ .errExit := by
  have mem : w ∈ s.writers := mem_map.mpr ⟨c, hc, by simp [Child.writer, pc]⟩
  have placed := inv.credits.writers w mem
  intro failed
  simp [Writer.Placed, failed] at placed

theorem Inv.sigint (inv : Inv s) {files : List File} (enumerated : Enumerated files)
    (pause : s.clientPc = .pause) :
    Inv { s with
      files
      children := []
      clientPc := if files.length = 0 then .pause else .sendN } := by
  have idle : ∀ w ∈ s.writers, w.pc.credit = none ∧ w.inSection = false := by
    intro w hw
    obtain ⟨c, hc, rfl⟩ := mem_map.mp hw
    obtain ⟨messages, pc⟩ := inv.family.home (by rw [pause]; rfl) c hc
    obtain ⟨credit, outside, -⟩ := idle_writer c (by simp [pc])
    exact ⟨credit, outside⟩
  refine ⟨handshake_sigint inv.hand files pause, family_sigint enumerated _,
    inv.credits.forget idle, inv.tables, inv.defined, inv.drained, ?_⟩
  intro moving
  have early : (if files.length = 0 then ClientPc.pause else .sendN).stage = .early := by
    split <;> rfl
  rw [State.resting, early] at moving
  cases moving

structure Aside (sh sh' : Shared) (rd : Reader) : Prop where
  messages : ∀ p ch, unread p sh' rd ch = unread p sh rd ch
  credit : ∀ ch, sh'.sems (.credit ch) = sh.sems (.credit ch)
  mutex : sh'.sems .shmMutex = sh.sems .shmMutex
  flags : sh'.flags = sh.flags
  buffer : sh'.buffer = sh.buffer

variable {packet : Packet}

theorem aside_send (sh : Shared) (rd : Reader) (q : Queue) (control : packet.isControl = true) :
    Aside sh (sh.send q packet) rd := by
  refine ⟨fun p ch => ?_, fun _ => rfl, rfl, rfl, rfl⟩
  cases ch with
  | shm => rfl
  | queue q' =>
    have other : packet.isPart p = false := by
      cases packet <;> simp_all [Packet.isPart, Packet.isControl]
    by_cases same : q' = q
    · subst same
      simp [unread, Shared.send, other]
    · simp [unread, Shared.send, same]

theorem aside_receive {q : Queue} {rest : List Packet} (rd : Reader)
    (first : sh.queues q = packet :: rest) (control : packet.isControl = true) :
    Aside sh (sh.receive q rest) rd := by
  refine ⟨fun p ch => unread_receive_other first fun m same => ?_, fun _ => rfl, rfl, rfl, rfl⟩
  rw [same] at control
  cases control

theorem aside_waitData (sh : Shared) (rd : Reader) (value : Nat) :
    Aside sh (sh.setSem .waitData value) rd :=
  ⟨fun _ _ => unread_setSem _ _, fun _ => rfl, rfl, rfl, rfl⟩

theorem aside_serverDone (sh : Shared) (rd : Reader) (value : Nat) :
    Aside sh (sh.setSem .serverDone value) rd :=
  ⟨fun _ _ => unread_setSem _ _, fun _ => rfl, rfl, rfl, rfl⟩

theorem aside_refl (sh : Shared) (rd : Reader) : Aside sh sh rd :=
  ⟨fun _ _ => rfl, fun _ => rfl, rfl, rfl, rfl⟩

theorem Aside.credits {sh' : Shared} {ws : List Writer} (aside : Aside sh sh' rd)
    (credits : Credits sh ws rd) : Credits sh' ws rd :=
  credits.congr (aside.messages _) aside.credit aside.mutex aside.flags fun w hw =>
    placed_congr aside.flags aside.buffer (credits.writers w hw)

variable {childrenWait : Nat}

variable {i : Nat}

variable {taken stored : Option (Channel × Message)}

variable {c : Child}

section
variable (inv : Inv s)
include inv

theorem Inv.aside (aside : Aside s.shared sh s.reader) {serverPc : ServerPc} {clientPc : ClientPc}
    {n : Nat} (hand : Handshake sh s.reader n serverPc clientPc s.files.length)
    (family : Family s.files clientPc childrenWait s.children)
    (moving : resting clientPc.stage serverPc.stage = false → s.resting = false) :
    Inv { s with shared := sh, serverPc, clientPc, n, childrenWait } := by
  refine ⟨hand, family, aside.credits inv.credits, inv.tables, inv.defined, ?_,
    fun there p ch => ?_⟩
  · intro returned ch
    rw [aside.messages]
    exact inv.drained returned ch
  · rw [aside.messages]
    exact inv.conserved (moving there) p ch

theorem Inv.client (move : ClientMove s t) : Inv t := by
  have hand := handshake_client inv.hand inv.drained move
  have family := family_client inv.family inv.unfailed move
  have agree := inv.hand.tokens
  cases move with
  | sendN pc =>
    refine inv.aside (aside_send _ _ _ rfl) hand family fun moving => ?_
    rw [pc] at agree
    obtain ⟨server, -⟩ := agreed_sendN agree
    rw [server] at moving
    cases moving
  | createSems pc =>
    refine inv.aside (aside_refl _ _) hand family fun moving => ?_
    rw [State.resting, pc]
    exact moving
  | waitData pc before =>
    refine inv.aside (aside_waitData _ _ _) hand family fun _ => ?_
    rw [pc] at agree
    obtain ⟨server, -⟩ := agreed_waitData agree before
    rw [State.resting, pc, server]
    rfl
  | fork pid pc _ =>
    obtain ⟨credit, outside, wf⟩ := idle_writer { pid, pc := .start } (by simp)
    refine ⟨hand, family, ?_, inv.tables, inv.defined, inv.drained, fun _ => ?_⟩
    · have added := inv.credits.append credit outside wf
      simpa [State.writers] using added
    · intro p ch
      have before := inv.conserved (by rw [State.resting, pc]; rfl) p ch
      simpa [countP_append] using before
  | forked pc _ | waitChildren pc _ =>
    refine inv.aside (aside_refl _ _) hand family fun _ => ?_
    rw [State.resting, pc]
    rfl
  | waitDone pc _ =>
    refine inv.aside (aside_serverDone _ _ _) hand family fun _ => ?_
    rw [State.resting, pc]
    rfl
  | recvEnd pc first =>
    rw [pc] at agree
    have outside : s.serverPc ≠ .reading := fun reading =>
      agreed_outside agree rfl (by rw [reading]; rfl)
    have control := first_control first (inv.drained (inv.hand.idle outside) (.queue .msgq))
    exact inv.aside (aside_receive _ first control) hand family nofun

theorem Inv.flags_clear (outside : s.serverPc ≠ .reading) (bound : i < shmSlots) :
    s.shared.flags i = false := by
  have returned := inv.hand.idle outside
  have none := inv.drained returned .shm
  have slot := countP_eq_zero.mp none i (mem_range.mpr bound)
  simpa [returned] using slot

theorem Inv.no_children (asking : s.clientPc.stage = .asking) : s.children = [] := by
  have population := inv.family.population
  cases pc : s.clientPc <;> simp_all [ClientPc.stage, Population]

theorem Inv.returned_busy (reading : s.serverPc = .reading) (returned : s.reader.pc = .returned) :
    s.clientPc.stage = .busy := by
  have moving := reading_moving inv.hand reading
  have agree := inv.hand.tokens
  rw [reading] at agree
  cases stage : s.clientPc.stage with
  | busy => rfl
  | early | leaving => simp [stage] at agree
  | asking =>
    have equal := inv.conserved moving (fun _ => true) .shm
    have rows := inv.hand.rows moving
    have occupied := inv.hand.occupied fun pause => by
      rw [pause] at stage
      cases stage
    rw [inv.no_children stage, inv.tables.stored_all returned, rows, countP_nil] at equal
    omega

section
variable (reading : s.serverPc = .reading) (move : ReaderMove s.shared s.reader taken stored sh rd)
include reading move

theorem Inv.read_defined (locked : Bool) : rd.pc ≠ .undefined locked := by
  have moving := reading_moving inv.hand reading
  cases move with
  | garbled pc first other =>
    obtain ⟨m, part⟩ := first_part (handshake_clean inv.hand reading _) first
    exact absurd part (other m)
  | overrun pc outside =>
    have row := (inv.storing moving (storing_update pc)).1
    omega
  | overrunShm pc outside =>
    have row := (inv.storing moving (storing_updateShm _ pc)).1
    omega
  | @empty q _ _ | @store q _ _ _ => cases q <;> simp [Reader.goto, Queue.nextPoll]
  | _ => simp [Reader.goto]

theorem Inv.read : Tables rd ∧ Conserved sh rd s.children ∧ Drained sh rd := by
  have moving := reading_moving inv.hand reading
  have empty : ∀ ch m, stored = some (ch, m) → s.reader.filesParts m.index ch = none := by
    rintro ch m rfl
    refine (inv.storing moving ?_).2
    cases move with
    | store pc _ => exact storing_update pc
    | storeShm pc _ => exact storing_updateShm _ pc
  have tables := move.tables inv.tables empty
  have conserved : Conserved sh rd s.children := by
    intro p ch
    have before := inv.conserved moving p ch
    have messages := move.unread_taken inv.credits.reader p ch
    have hands := move.inHand_stored (inv.read_defined reading move) empty p ch
    omega
  have same : rd.n = s.reader.n := by cases move <;> rfl
  have most := population_le inv.family.population
  rw [← inv.hand.rows moving, ← same] at most
  exact ⟨tables, conserved, drained_of_conserved tables conserved most⟩

end

omit inv in
theorem preparing_asking (hand : s.Handshake) (preparing : s.serverPc.stage = .preparing) :
    s.clientPc.stage = .asking := by
  have agree := hand.tokens
  rw [preparing] at agree
  exact (agreed_postData agree).1

omit inv in
theorem unread_buffer (sh : Shared) (rd : Reader) (buffer : Nat → Message) (ch : Channel) :
    unread (fun _ => true) { sh with buffer } rd ch = unread (fun _ => true) sh rd ch := by
  cases ch with
  | queue q => rfl
  | shm => exact unread_shm_congr fun i => by simp

theorem Inv.server (move : ServerMove s t) : Inv t := by
  have hand := handshake_server inv.hand inv.drained inv.returned_busy move
  have agree := inv.hand.tokens
  cases move with
  | readN pc first =>
    refine inv.aside (aside_receive _ first rfl) hand inv.family fun moving => ?_
    rw [pc] at agree
    obtain ⟨here, -⟩ := tokens_receive_fifo1 first rfl
    obtain ⟨asking, -, -⟩ := agreed_readN agree here
    rw [asking] at moving
    split at moving <;> cases moving
  | garbled pc first other =>
    have agree' := hand.tokens
    cases stage : s.clientPc.stage <;> simp [stage] at agree'
  | @reset i pc bound =>
    have same : { s.shared with flags := update s.shared.flags i false } = s.shared := by
      rw [← inv.flags_clear (by simp [pc]) bound, update_eq_self]
    rw [same] at hand ⊢
    refine inv.aside (aside_refl _ _) hand inv.family fun moving => ?_
    rw [State.resting, pc]
    exact moving
  | ready pc _ =>
    refine inv.aside (aside_refl _ _) hand inv.family fun moving => ?_
    rw [State.resting, pc]
    exact moving
  | greet first pc =>
    have asking := preparing_asking inv.hand (by rw [pc]; rfl)
    have none := inv.no_children asking
    refine ⟨hand, inv.family, ?_, inv.tables, inv.defined, ?_, ?_⟩
    · refine inv.credits.congr (unread_buffer _ _ _) (fun _ => rfl) rfl rfl fun w hw => ?_
      rw [State.writers, none] at hw
      cases hw
    · intro returned ch
      rw [unread_buffer]
      exact inv.drained returned ch
    · intro moving
      rw [State.resting, asking] at moving
      cases moving
  | postData pc =>
    have asking := preparing_asking inv.hand (by rw [pc]; rfl)
    have returned := inv.hand.idle (by simp [pc])
    have aside := aside_waitData s.shared (ipcsRead s.n) (s.shared.sems .waitData + 1)
    refine ⟨hand, inv.family, aside.credits (inv.credits.callRead returned _),
      tables_ipcsRead _, by simp, by simp [Drained], fun _ p ch => ?_⟩
    have took : ∀ i, (ipcsRead s.n).took i = s.reader.took i := fun i => by
      simp [returned]
    have none : unread p s.shared (ipcsRead s.n) ch = 0 := by
      have most := unread_le p s.shared s.reader ch
      rw [inv.drained returned ch] at most
      rw [unread_took s.reader took]
      omega
    rw [aside.messages, none, inv.no_children asking]
    simp [Reader.inHand, Reader.stored]
  | returned pc done =>
    refine inv.aside (aside_refl _ _) hand inv.family fun _ => ?_
    exact reading_moving inv.hand pc
  | read pc move =>
    obtain ⟨tables, conserved, drained⟩ := inv.read pc move
    exact ⟨hand, inv.family, inv.credits.read move, tables, inv.read_defined pc move, drained,
      fun _ => conserved⟩
  | postDone pc =>
    refine inv.aside (aside_serverDone _ _ _) hand inv.family fun _ => ?_
    rw [pc] at agree
    obtain ⟨busy, -⟩ := agreed_postDone agree
    rw [State.resting, busy]
    rfl
  | sendEnd pc =>
    refine inv.aside (aside_send _ _ _ rfl) hand inv.family fun _ => ?_
    rw [pc] at agree
    obtain ⟨stage, -⟩ := agreed_sendEnd agree
    rw [State.resting]
    rcases stage with stage | stage <;> rw [stage] <;> rfl

theorem Inv.write {w w' : Writer} (moving : s.resting = false) (here : s.children[i]? = some c)
    (pc : c.pc = .writing w) (move : WriterMove s.shared w sh w') :
    Conserved sh s.reader (s.children.set i { c with pc := .writing w' }) := by
  intro p ch
  have mem := mem_writers here pc
  have before := inv.conserved moving p ch
  have delivered := move.unread_delivered (inv.credits.wf w mem) (inv.credits.writers w mem)
    (fun inside => (inv.credits.section_alone mem inside).2) p ch
  have carried := (replaced_set here { c with pc := .writing w' }).countP (Child.carries p ch)
  simp only [Child.carries, pc, move.messages] at carried
  omega

omit inv in
theorem busy_of_forking {pc : ClientPc} (forking : pc.forking = true) : pc.stage = .busy := by
  cases pc <;> simp_all [ClientPc.forking, ClientPc.stage]

section
variable (here : s.children[i]? = some c) (running : ∀ messages, c.pc ≠ .exited messages)
include here running

theorem Inv.running_moving : s.resting = false := by
  rw [State.resting, busy_of_forking (family_forking inv.family here running)]
  rfl

theorem Inv.turn {c' : Child}
    (idle : c.writer.pc.credit = none ∧ c.writer.inSection = false ∧ c.writer.Wf)
    (idle' : c'.writer.pc.credit = none ∧ c'.writer.inSection = false ∧ c'.writer.Wf)
    (carries : ∀ p ch, c'.carries p ch = c.carries p ch) (hand : s.Handshake)
    (family : Family s.files s.clientPc childrenWait (s.children.set i c')) :
    Inv { s with children := s.children.set i c', childrenWait } := by
  have moving := inv.running_moving here running
  have replaced := replaced_set here c'
  refine ⟨hand, family, ?_, inv.tables, inv.defined, inv.drained, fun _ p ch => ?_⟩
  · exact inv.credits.replace (replaced.map Child.writer) ⟨idle.1, idle.2.1⟩
      ⟨idle'.1, idle'.2.1⟩ idle'.2.2
  · have before := inv.conserved moving p ch
    have carried := replaced.countP (Child.carries p ch)
    rw [carries] at carried
    simp only
    omega

end

theorem Inv.child (here : s.children[i]? = some c) (move : ChildMove s i c t) : Inv t := by
  have hand := handshake_child inv.hand move
  have family := family_child inv.family here move
  cases move with
  | failed pc _ _ | start pc _ _ | arrive pc _ =>
    exact inv.turn here (by simp [pc]) (idle_writer c (by simp [pc])) (idle_writer _ (by simp))
      (by simp [pc]) inv.hand family
  | @wait messages pc _ =>
    have starts : (ipcsWrite messages).Wf := wf_of_quiet rfl (by simp) (by simp)
    exact inv.turn here (by simp [pc]) (idle_writer c (by simp [pc])) ⟨rfl, rfl, starts⟩
      (by simp [pc, Writer.delivered]) inv.hand family
  | @exit w pc returned =>
    have wf := inv.credits.wf w (mem_writers here pc)
    have ended : c.writer.pc.credit = none ∧ c.writer.inSection = false ∧ c.writer.Wf := by
      simp only [Child.writer, pc]
      exact ⟨by rw [returned]; rfl, by simp [Writer.inSection, returned], wf⟩
    exact inv.turn here (by simp [pc]) ended (idle_writer _ (by simp))
      (by simp [pc, Writer.delivered, wf.returned returned]) inv.hand family
  | @write w w' sh pc move =>
    have moving := inv.running_moving here (by simp [pc])
    have conserved := inv.write moving here pc move
    have replaced := (replaced_set here { c with pc := .writing w' }).map Child.writer
    have same : c.writer = w := by simp [Child.writer, pc]
    rw [same] at replaced
    have credits := inv.credits.write move replaced
    have most := population_le family.population
    rw [← hand.rows moving] at most
    exact ⟨hand, family, credits, inv.tables, inv.defined,
      drained_of_conserved inv.tables conserved most, fun _ => conserved⟩

theorem Inv.step {a : Act} (moved : step s a = some t) : Inv t := by
  cases a with
  | sigint files =>
    simp only [SystemCall.step, sigIntHandlerStart] at moved
    split at moved
    case isTrue ready =>
        rw [← Option.some.inj moved]
        exact inv.sigint ready.2 ready.1
    case isFalse => cases moved
  | client pid => exact inv.client (sigIntHandlerStep_move moved)
  | child i =>
    obtain ⟨c, here, move⟩ := childStep_move moved
    exact inv.child here move
  | server => exact inv.server (mainStep_move moved)

end

theorem inv_start (buffer : Nat → Message) (childrenWait : Nat) :
    Inv (startState buffer childrenWait) := by
  refine ⟨⟨nofun, rfl, rfl, fun _ => rfl, fun there => absurd rfl there, nofun⟩,
    ⟨⟨by simp, nofun⟩, rfl, by simp, by simp, nofun, nofun⟩,
    credits_created buffer, tables_noReader, nofun, ?_, nofun⟩
  intro _ ch
  cases ch <;> rfl

theorem inv_reaches {trace : List (State × Act)} (run : Reaches trace s) : Inv s := by
  obtain ⟨buffer, childrenWait, run⟩ := run
  exact (exec_keeps (inv_start buffer childrenWait) (fun _ _ _ inv moved => inv.step moved) run).2

end Elaborato.SystemCall
