import Elaborato.SystemCall.Credits
import Mathlib.Algebra.BigOperators.Group.Finset.Piecewise
import Mathlib.Algebra.Order.BigOperators.Group.Finset

/-!
The arrays of `ipcs_read` while `update_parts` finds each entry empty.
-/
namespace Elaborato.SystemCall
open Foundation List Function

def rowCount (parts : Channel → Option Message) : Nat :=
  channels.countP fun ch => (parts ch).isSome

def Reader.stored (p : Message → Bool) (rd : Reader) (ch : Channel) : Nat :=
  (List.range rd.n).countP fun row => (rd.filesParts row ch).any p

def Reader.inHand (p : Message → Bool) (rd : Reader) (ch : Channel) : Nat :=
  match rd.pc with
  | .credit q m | .update q m => (decide (ch = .queue q) && p m).toNat
  | _ => 0

def Reader.uncounted (rd : Reader) : Nat :=
  match rd.pc with
  | .creditShm _ | .clear _ => 1
  | _ => 0

structure Tables (rd : Reader) : Prop where
  indexed : ∀ row ch m, rd.filesParts row ch = some m → m.index = row ∧ row < rd.n
  counted : ∀ row, rd.contatori row = rowCount (rd.filesParts row)
  received : rd.received + rd.uncounted = ∑ row ∈ Finset.range rd.n, rd.contatori row
  written : ∀ row, rd.written.countP (fun e => decide (e.1 = row)) =
    (decide (rd.contatori row = 4)).toNat
  entries : ∀ e ∈ rd.written, e.2 = rd.filesParts e.1
  returned : rd.pc = .returned → rd.n * 4 ≤ rd.received

attribute [local simp] Reader.uncounted ipcsRead updateParts Reader.inHand tally

theorem tables_ipcsRead (n : Nat) : Tables (ipcsRead n) := by
  refine ⟨nofun, fun _ => rfl, ?_, fun _ => rfl, nofun, nofun⟩
  simp

theorem tables_noReader : Tables noReader := by
  refine ⟨nofun, fun _ => rfl, ?_, fun _ => rfl, nofun, fun _ => ?_⟩
  · simp [noReader, Reader.goto]
  · simp [noReader, Reader.goto]

theorem channels_nodup : channels.Nodup := by decide

theorem rowCount_le (parts : Channel → Option Message) : rowCount parts ≤ 4 := countP_le_length

variable {parts : Channel → Option Message}

theorem rowCount_update {ch : Channel} (empty : parts ch = none) (m : Message) :
    rowCount (update parts ch (some m)) = rowCount parts + 1 := by
  have differ := countP_differ (p := fun ch' => (update parts ch (some m) ch').isSome)
    (q := fun ch' => (parts ch').isSome) channels_nodup (mem_channels ch)
    fun ch' _ apart => by simp [apart]
  simpa [empty, rowCount] using differ

theorem rowCount_full (full : rowCount parts = 4) (ch : Channel) : (parts ch).isSome = true :=
  countP_eq_length.mp (full.trans rfl) ch (mem_channels ch)

variable {rd rd' : Reader} {m : Message} {ch : Channel}

theorem Tables.entry_full (tables : Tables rd) {e : Nat × (Channel → Option Message)}
    (he : e ∈ rd.written) : rd.contatori e.1 = 4 := by
  have once : 0 < rd.written.countP (fun e' => decide (e'.1 = e.1)) :=
    countP_pos_iff.mpr ⟨e, he, by simp⟩
  rw [tables.written e.1] at once
  by_contra fewer
  simp [fewer] at once

theorem Tables.keep (tables : Tables rd) (n : rd'.n = rd.n)
    (filesParts : rd'.filesParts = rd.filesParts) (contatori : rd'.contatori = rd.contatori)
    (written : rd'.written = rd.written)
    (received : rd'.received + rd'.uncounted = rd.received + rd.uncounted)
    (returned : rd'.pc = .returned → rd'.n * 4 ≤ rd'.received) : Tables rd' := by
  refine ⟨?_, ?_, ?_, ?_, ?_, returned⟩
  · rw [filesParts, n]
    exact tables.indexed
  · rw [filesParts, contatori]
    exact tables.counted
  · rw [received, n, contatori]
    exact tables.received
  · rw [written, contatori]
    exact tables.written
  · rw [written, filesParts]
    exact tables.entries

theorem Tables.store (tables : Tables rd) (row : m.index < rd.n)
    (empty : rd.filesParts m.index ch = none) (n : rd'.n = rd.n)
    (filesParts : rd'.filesParts = (updateParts rd m ch).filesParts)
    (contatori : rd'.contatori = (updateParts rd m ch).contatori)
    (written : rd'.written = (updateParts rd m ch).written)
    (received : rd'.received + rd'.uncounted = rd.received + rd.uncounted + 1)
    (returned : rd'.pc ≠ .returned) : Tables rd' := by
  have fewer : rd.contatori m.index ≠ 4 := by
    intro full
    have some := rowCount_full ((tables.counted m.index).symm.trans full) ch
    rw [empty] at some
    cases some
  refine ⟨?_, ?_, ?_, ?_, ?_, fun there => absurd there returned⟩
  · intro r ch' m' here
    rw [n]
    rw [filesParts] at here
    by_cases same : r = m.index
    · subst same
      by_cases same' : ch' = ch
      · subst same'
        simp at here
        exact ⟨by rw [here], row⟩
      · simp [same'] at here
        exact tables.indexed _ _ _ here
    · simp [same] at here
      exact tables.indexed _ _ _ here
  · intro r
    rw [filesParts, contatori]
    by_cases same : r = m.index
    · subst same
      simp [rowCount_update empty, tables.counted]
    · simp [same, tables.counted]
  · rw [received, tables.received, n, contatori]
    have mem : m.index ∈ Finset.range rd.n := Finset.mem_range.mpr row
    simp only [updateParts]
    rw [Finset.sum_update_of_mem mem, ← Finset.add_sum_erase _ rd.contatori mem,
      Finset.sdiff_singleton_eq_erase]
    omega
  · intro r
    rw [written, contatori]
    have before := tables.written r
    by_cases same : r = m.index
    · subst same
      by_cases last : rd.contatori m.index + 1 = 4
      · simp [last, countP_append, before, fewer]
      · simp [last, before, fewer]
    · by_cases last : rd.contatori m.index + 1 = 4
      · simp [last, countP_append, before, same, Ne.symm same]
      · simp [last, before, same]
  · intro e he
    have old : e ∈ rd.written → e.2 = (updateParts rd m ch).filesParts e.1 := fun he => by
      have apart : e.1 ≠ m.index := fun same => fewer (same ▸ tables.entry_full he)
      simp [apart, tables.entries e he]
    rw [filesParts]
    rw [written] at he
    by_cases last : rd.contatori m.index + 1 = 4
    · simp only [updateParts, last, if_true, mem_append, mem_singleton] at he
      rcases he with he | rfl
      · exact old he
      · simp
    · exact old (by simpa [last] using he)

theorem stored_updateParts (row : m.index < rd.n) (empty : rd.filesParts m.index ch = none)
    (p : Message → Bool) (ch' : Channel) :
    (updateParts rd m ch).stored p ch' = rd.stored p ch' + (decide (ch' = ch) && p m).toNat := by
  have differ := countP_differ
    (p := fun r => ((updateParts rd m ch).filesParts r ch').any p)
    (q := fun r => (rd.filesParts r ch').any p) nodup_range (mem_range.mpr row)
    fun r _ apart => by simp [apart]
  by_cases same : ch' = ch
  · subst same
    simpa [empty, Reader.stored] using differ
  · simpa [same, Reader.stored] using differ

variable {sh sh' : Shared} {taken stored : Option (Channel × Message)}

theorem nextPoll_ne_returned (q : Queue) : q.nextPoll ≠ .returned := by
  cases q <;> simp [Queue.nextPoll]

theorem uncounted_nextPoll (rd : Reader) (q : Queue) : (rd.goto q.nextPoll).uncounted = 0 := by
  cases q <;> rfl

theorem ReaderMove.tables (move : ReaderMove sh rd taken stored sh' rd') (tables : Tables rd)
    (empty : ∀ ch m, stored = some (ch, m) → rd.filesParts m.index ch = none) : Tables rd' := by
  cases move with
  | finish pc all =>
    exact tables.keep rfl rfl rfl rfl (by simp [Reader.goto, pc]) fun _ => all
  | empty pc _ =>
    refine tables.keep rfl rfl rfl rfl ?_ fun there => absurd there (nextPoll_ne_returned _)
    rw [uncounted_nextPoll]
    simp [Reader.goto, pc]
  | store pc row =>
    refine tables.store row (empty _ _ rfl) rfl rfl rfl rfl ?_ (nextPoll_ne_returned _)
    rw [uncounted_nextPoll]
    simp [Reader.goto, Reader.count, pc]
  | storeShm pc row =>
    refine tables.store row (empty _ _ rfl) rfl rfl rfl rfl ?_ (by simp [Reader.goto])
    simp [Reader.goto, pc]
  | clear pc =>
    refine tables.keep rfl rfl rfl rfl ?_ (by simp [Reader.goto])
    simp [Reader.goto, Reader.count, pc]
  | again pc _ | overrun pc _ | busy pc _ | nothing pc _ | find pc _ | overrunShm pc _
  | garbled pc _ _ | lock pc _ | unlock pc | take pc _ | credit pc | creditShm pc =>
    exact tables.keep rfl rfl rfl rfl (by simp [Reader.goto, pc])
      (by simp [Reader.goto])

@[simp] theorem stored_goto (p : Message → Bool) (rd : Reader) (pc : ReadPc) (ch : Channel) :
    (rd.goto pc).stored p ch = rd.stored p ch := rfl

@[simp] theorem stored_count (p : Message → Bool) (rd : Reader) (ch : Channel) :
    rd.count.stored p ch = rd.stored p ch := rfl

theorem Reader.goto_pc (rd : Reader) (pc : ReadPc) : (rd.goto pc).pc = pc := rfl

theorem inHand_nextPoll (p : Message → Bool) (rd : Reader) (q : Queue) (ch : Channel) :
    (rd.goto q.nextPoll).inHand p ch = 0 := by
  cases q <;> rfl

attribute [local simp] Reader.goto_pc

theorem ReaderMove.inHand_stored (move : ReaderMove sh rd taken stored sh' rd')
    (defined : ∀ locked, rd'.pc ≠ .undefined locked)
    (empty : ∀ ch m, stored = some (ch, m) → rd.filesParts m.index ch = none)
    (p : Message → Bool) (ch : Channel) :
    rd'.inHand p ch + rd'.stored p ch = rd.inHand p ch + rd.stored p ch + tally p ch taken := by
  cases move with
  | garbled | overrun | overrunShm => exact absurd rfl (defined _)
  | finish pc _ | again pc _ | busy pc _ | nothing pc _ | find pc _ | lock pc _ | unlock pc
  | credit pc | creditShm pc | clear pc => simp [pc]
  | empty pc _ =>
    rw [inHand_nextPoll]
    simp [pc]
  | take pc _ =>
    simp [pc, Nat.add_comm]
  | store pc row =>
    rw [inHand_nextPoll, stored_goto, stored_count, stored_updateParts row (empty _ _ rfl)]
    simp [pc, Nat.add_comm]
  | storeShm pc row =>
    rw [stored_goto, stored_updateParts row (empty _ _ rfl)]
    simp [pc]

theorem Tables.complete (tables : Tables rd) (returned : rd.pc = .returned) {row : Nat}
    (bound : row < rd.n) : rd.contatori row = 4 := by
  have most : ∀ r ∈ Finset.range rd.n, rd.contatori r ≤ 4 := fun r _ => by
    rw [tables.counted]
    exact rowCount_le _
  have total : ∑ _r ∈ Finset.range rd.n, 4 = rd.n * 4 := by simp
  have none : rd.uncounted = 0 := by simp [returned]
  have enough := tables.returned returned
  have sum := tables.received
  have equal : ∑ r ∈ Finset.range rd.n, rd.contatori r = ∑ _r ∈ Finset.range rd.n, 4 := by
    refine Nat.le_antisymm (Finset.sum_le_sum most) ?_
    omega
  exact (Finset.sum_eq_sum_iff_of_le most).mp equal row (Finset.mem_range.mpr bound)

theorem Tables.stored_all (tables : Tables rd) (returned : rd.pc = .returned) (ch : Channel) :
    rd.stored (fun _ => true) ch = rd.n := by
  have all : (List.range rd.n).countP (fun row => (rd.filesParts row ch).any fun _ => true) =
      (List.range rd.n).length := by
    refine countP_eq_length.mpr fun row hrow => ?_
    have full := tables.complete returned (mem_range.mp hrow)
    have some := rowCount_full ((tables.counted row).symm.trans full) ch
    obtain ⟨m, here⟩ := Option.isSome_iff_exists.mp some
    rw [here]
    rfl
  rw [Reader.stored, all, length_range]

theorem Tables.received_all (tables : Tables rd) (all : ∀ ch, rd.stored (fun _ => true) ch = rd.n) :
    rd.received + rd.uncounted = rd.n * 4 := by
  have full : ∀ row ∈ Finset.range rd.n, rd.contatori row = 4 := by
    intro row hrow
    rw [tables.counted]
    refine countP_eq_length.mpr fun ch _ => ?_
    have stored := countP_eq_length.mp ((all ch).trans (length_range).symm) row
      (mem_range.mpr (Finset.mem_range.mp hrow))
    cases entry : rd.filesParts row ch with
    | none => simp [entry] at stored
    | some m => rfl
  rw [tables.received, Finset.sum_congr rfl full]
  simp

end Elaborato.SystemCall
