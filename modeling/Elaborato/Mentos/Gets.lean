import Elaborato.Mentos.HashmapRuns
import Elaborato.Mentos.Strings

/-!
`gets` and the array of `scanf` (stdio.c), with a record of the indices that are written.
-/
namespace Elaborato.Mentos.Stdio
open Foundation Hashmap Strings List Function

def getsBufferSize : ℕ := 255

def getchar : List UInt8 → Option (ℤ × List UInt8)
  | [] => none
  | c :: raw => if charValue c ≠ -1 then some (charValue c, raw) else getchar raw

structure Reading where
  buffer : Writes
  cptr : ℕ
  rest : Option (List UInt8)

def readLine : ℕ → List UInt8 → ℕ → Writes → Reading
  | 0, raw, cptr, buffer => ⟨buffer, cptr, (getchar raw).map Prod.snd⟩
  | left + 1, raw, cptr, buffer =>
    match getchar raw with
    | none => ⟨buffer, cptr, none⟩
    | some (ch, raw) =>
      if ch = 10 then ⟨buffer, cptr, some raw⟩
      else if ch = -1 then ⟨buffer, cptr, some raw⟩
      else readLine left raw (cptr + 1) (buffer.put cptr (UInt8.ofInt ch))

def strcpy (src : ByteMem) : ℕ → ℕ → Writes → Option Writes
  | 0, _, _ => none
  | fuel + 1, i, dst =>
    if src i ≠ 0 then strcpy src fuel (i + 1) (dst.put i (src i)) else some (dst.put i (src i))

def clearedBuffer (stack : ByteMem) : Writes :=
  ⟨fun i => if i < getsBufferSize then 0 else stack i, List.range getsBufferSize⟩

structure GetsRun where
  buffer : Writes
  str : Option Writes
  rest : Option (List UInt8)

def gets (stack : ByteMem) (raw : List UInt8) : Option Writes → Option GetsRun
  | none => some ⟨⟨stack, []⟩, none, some raw⟩
  | some str =>
    let read := readLine getsBufferSize raw 0 (clearedBuffer stack)
    match read.rest with
    | none => some ⟨read.buffer, some str, none⟩
    | some raw => do
        let buffer := read.buffer.put read.cptr 0
        let str ← strcpy buffer.mem (getsBufferSize + 1) 0 str
        some ⟨buffer, some str, some raw⟩

def scanfInput (stack input : ByteMem) (raw : List UInt8) (conversion : UInt8) (maxChars : ℕ) :
    Option GetsRun := do
  let run ← gets stack raw (some ⟨input, []⟩)
  match run.str, run.rest with
  | some input, some _ => do
      let inputLength ← strlen input.mem (getsBufferSize + 1) 0
      if conversion = 100 ∧ maxChars ≠ 0 ∧ inputLength > maxChars then
        some { run with str := some (input.put maxChars 0) }
      else some run
  | _, _ => some run

structure Inside (run : GetsRun) : Prop where
  buffer : ∀ i ∈ run.buffer.written, i < getsBufferSize
  input : ∀ s ∈ run.str, ∀ i ∈ s.written, i < getsBufferSize

structure NeverOverruns (stack input : ByteMem) (raw : List UInt8) (conversion : UInt8)
    (maxChars : ℕ) : Prop where
  gets : ∃ run, gets stack raw (some ⟨input, []⟩) = some run ∧ Inside run ∧
    ∀ s ∈ run.str, s.written.length ≤ getsBufferSize
  scanf : ∃ run, scanfInput stack input raw conversion maxChars = some run ∧ Inside run

/-- The characters that `getchar` delivers. -/
def delivered (raw : List UInt8) : List UInt8 := raw.filter fun c => charValue c != -1

variable {raw : List UInt8} {left cptr : ℕ} {buffer : Writes}

theorem getchar_delivered (raw : List UInt8) :
    (delivered raw = [] ∧ getchar raw = none) ∨
      ∃ c raw', delivered raw = c :: delivered raw' ∧ charValue c ≠ -1 ∧
        getchar raw = some (charValue c, raw') := by
  induction raw with
  | nil => exact .inl ⟨rfl, rfl⟩
  | cons c raw ih =>
    by_cases eof : charValue c = -1
    · rw [delivered, filter_cons_of_neg (by simp [eof]), getchar, if_neg (not_not.mpr eof)]
      exact ih
    · refine .inr ⟨c, raw, ?_, eof, if_pos eof⟩
      rw [delivered, filter_cons_of_pos (by simp [eof]), delivered]

theorem readLine_written (left cptr : ℕ) (raw : List UInt8) (buffer : Writes) :
    (∀ i ∈ (readLine left raw cptr buffer).buffer.written, i ∈ buffer.written ∨ i < cptr + left) ∧
      (readLine left raw cptr buffer).cptr ≤ cptr + left := by
  induction left generalizing raw cptr buffer with
  | zero => exact ⟨fun i mem => .inl mem, Nat.le_refl _⟩
  | succ left ih =>
    rw [readLine]
    obtain ⟨-, waits⟩ | ⟨c, raw', -, -, got⟩ := getchar_delivered raw
    · rw [waits]
      exact ⟨fun i mem => .inl mem, Nat.le_add_right _ _⟩
    · rw [got]
      dsimp only
      split
      · exact ⟨fun i mem => .inl mem, Nat.le_add_right _ _⟩
      split
      · exact ⟨fun i mem => .inl mem, Nat.le_add_right _ _⟩
      obtain ⟨written, le⟩ := ih (cptr + 1) raw' (buffer.put cptr (UInt8.ofInt (charValue c)))
      refine ⟨fun i mem => ?_, by omega⟩
      obtain before | less := written i mem
      · obtain rfl | mem := mem_cons.mp before
        · exact .inr (by omega)
        · exact .inl mem
      · exact .inr (by omega)

theorem readLine_end (left cptr : ℕ) (raw : List UInt8) (buffer : Writes) :
    ((readLine left raw cptr buffer).rest.isSome ∧
        (readLine left raw cptr buffer).cptr = cptr + left) ↔
      left < (delivered raw).length ∧ 10 ∉ (delivered raw).take left := by
  induction left generalizing raw cptr buffer with
  | zero =>
    obtain ⟨none, waits⟩ | ⟨c, raw', parts, -, got⟩ := getchar_delivered raw
    · simp [readLine, none, waits]
    · simp [readLine, parts, got]
  | succ left ih =>
    rw [readLine]
    obtain ⟨none, waits⟩ | ⟨c, raw', parts, eof, got⟩ := getchar_delivered raw
    · simp [none, waits]
    · have newline : charValue c = 10 ↔ c = 10 := charValue_inj (d := 10)
      rw [got, parts]
      dsimp only
      rw [if_neg eof]
      split
      case isTrue ends => simp [newline.mp ends]
      case isFalse goes =>
        have other : 10 ≠ c := fun same => goes (newline.mpr same.symm)
        rw [← Nat.add_assoc cptr, Nat.add_right_comm, ih]
        simp [other]

variable {m src : ByteMem} {i p z fuel : ℕ}

theorem strcpy_ends (ended : src z = 0) (le : i ≤ z) (enough : z < i + fuel) (dst : Writes) :
    ∃ s n, strcpy src fuel i dst = some s ∧ n ≤ z ∧ s.mem n = 0 ∧
      (∀ a ∈ s.written, a ∈ dst.written ∨ a ≤ z) ∧
      s.written.length ≤ dst.written.length + (z + 1 - i) := by
  induction fuel generalizing i dst with
  | zero => omega
  | succ fuel ih =>
    rw [strcpy]
    by_cases zero : src i = 0
    · refine ⟨_, i, if_neg (not_not.mpr zero), le, ?_, fun a mem => ?_, ?_⟩
      · exact (update_self ..).trans zero
      · obtain rfl | mem := mem_cons.mp mem
        · exact .inr le
        · exact .inl mem
      · rw [Writes.put, length_cons]
        omega
    · have later : i ≠ z := fun same => zero (same ▸ ended)
      obtain ⟨s, n, copied, low, nul, written, count⟩ :=
        ih (i := i + 1) (by omega) (by omega) (dst.put i (src i))
      rw [if_pos zero]
      refine ⟨s, n, copied, low, nul, fun a mem => ?_, ?_⟩
      · obtain before | low := written a mem
        · obtain rfl | mem := mem_cons.mp before
          · exact .inr le
          · exact .inl mem
        · exact .inr low
      · rw [Writes.put, length_cons] at count
        omega

theorem strlen_le (ended : m z = 0) (enough : z < fuel) :
    ∃ n, strlen m fuel 0 = some n ∧ n ≤ z := by
  have found (i fuel : ℕ) (le : i ≤ z) (enough : z < i + fuel) :
      ∃ n, advance (fun c => some (c == 0)) m fuel i = some n ∧ n ≤ z := by
    induction fuel generalizing i with
    | zero => omega
    | succ fuel ih =>
      by_cases zero : m i = 0
      · exact ⟨i, by simp [advance, zero], le⟩
      · have later : i ≠ z := fun same => zero (same ▸ ended)
        obtain ⟨n, got, low⟩ := ih (i + 1) (by omega) (by omega)
        exact ⟨n, by simp [advance, zero, got], low⟩
  obtain ⟨n, got, low⟩ := found 0 fuel (Nat.zero_le _) (by omega)
  exact ⟨n, by rw [strlen, got]; rfl, low⟩

variable {stack input : ByteMem} {conversion : UInt8} {maxChars : ℕ}

def LeavesRoom (raw : List UInt8) : Prop :=
  (delivered raw).length ≤ getsBufferSize ∨ 10 ∈ (delivered raw).take getsBufferSize

/-- The line read into the cleared buffer. -/
def lineOf (stack : ByteMem) (raw : List UInt8) : Reading :=
  readLine getsBufferSize raw 0 (clearedBuffer stack)

theorem lineOf_written (stack : ByteMem) (raw : List UInt8) :
    (∀ i ∈ (lineOf stack raw).buffer.written, i < getsBufferSize) ∧
      (lineOf stack raw).cptr ≤ getsBufferSize := by
  obtain ⟨written, le⟩ := readLine_written getsBufferSize 0 raw (clearedBuffer stack)
  have cleared : (clearedBuffer stack).written = List.range getsBufferSize := by
    rw [clearedBuffer]
  rw [Nat.zero_add] at written le
  simp only [cleared, mem_range, or_self] at written
  exact ⟨written, le⟩

theorem lineOf_end (stack : ByteMem) (raw : List UInt8) :
    ((lineOf stack raw).rest.isSome ∧ (lineOf stack raw).cptr = getsBufferSize) ↔
      ¬ LeavesRoom raw := by
  have ends := readLine_end getsBufferSize 0 raw (clearedBuffer stack)
  rw [Nat.zero_add] at ends
  rw [LeavesRoom, not_or, Nat.not_le]
  exact ends

theorem gets_waits (str : Writes) (waits : (lineOf stack raw).rest = none) :
    gets stack raw (some str) = some ⟨(lineOf stack raw).buffer, some str, none⟩ := by
  rw [lineOf] at waits
  simp only [gets, waits, lineOf]

theorem gets_ends (str : Writes) {rest : List UInt8} (ends : (lineOf stack raw).rest = some rest) :
    gets stack raw (some str) =
      (strcpy ((lineOf stack raw).buffer.put (lineOf stack raw).cptr 0).mem (getsBufferSize + 1) 0
        str).map fun str => ⟨(lineOf stack raw).buffer.put (lineOf stack raw).cptr 0, some str,
          some rest⟩ := by
  rw [lineOf] at ends
  simp only [gets, ends, lineOf]
  generalize strcpy _ _ _ _ = copy
  cases copy with
  | none | some str => rfl

theorem overruns_of_not_leavesRoom (full : ¬ LeavesRoom raw) {run : GetsRun} {str : Writes}
    (done : gets stack raw (some str) = some run) : getsBufferSize ∈ run.buffer.written := by
  obtain ⟨more, last⟩ := (lineOf_end stack raw).mpr full
  obtain ⟨rest, ends⟩ := Option.isSome_iff_exists.mp more
  rw [gets_ends str ends, Option.map_eq_some_iff] at done
  obtain ⟨copy, -, rfl⟩ := done
  rw [last]
  exact mem_cons_self

theorem gets_inside (room : LeavesRoom raw) (stack input : ByteMem) :
    ∃ run str, gets stack raw (some ⟨input, []⟩) = some run ∧ run.str = some str ∧ Inside run ∧
      str.written.length ≤ getsBufferSize ∧
      (run.rest.isSome → ∃ n < getsBufferSize, str.mem n = 0) := by
  obtain ⟨written, le⟩ := lineOf_written stack raw
  cases ends : (lineOf stack raw).rest with
  | none =>
    refine ⟨_, _, gets_waits _ ends, rfl, ⟨written, fun s same i mem => ?_⟩, Nat.zero_le _,
      fun more => absurd more Bool.false_ne_true⟩
    cases same
    exact absurd mem not_mem_nil
  | some rest =>
    have less : (lineOf stack raw).cptr < getsBufferSize := by
      refine Nat.lt_of_le_of_ne le fun last => ?_
      exact (lineOf_end stack raw).mp ⟨by rw [ends]; rfl, last⟩ room
    have ended : ((lineOf stack raw).buffer.put (lineOf stack raw).cptr 0).mem
        (lineOf stack raw).cptr = 0 := update_self ..
    have enough : (lineOf stack raw).cptr < 0 + (getsBufferSize + 1) := by omega
    obtain ⟨str, n, copied, low, nul, places, count⟩ :=
      strcpy_ends ended (Nat.zero_le _) enough ⟨input, []⟩
    rw [length_nil] at count
    refine ⟨_, str, by rw [gets_ends _ ends, copied, Option.map_some], rfl, ⟨?_, ?_⟩, by omega,
      fun _ => ⟨n, by omega, nul⟩⟩
    · intro i mem
      obtain rfl | mem := mem_cons.mp mem
      · exact less
      · exact written i mem
    · intro s same i mem
      cases same
      have := (places i mem).resolve_left not_mem_nil
      omega

theorem scanf_inside (room : LeavesRoom raw) (input : ByteMem) (conversion : UInt8)
    (maxChars : ℕ) :
    ∃ run, scanfInput stack input raw conversion maxChars = some run ∧ Inside run := by
  obtain ⟨run, str, done, has, inside, -, ended⟩ := gets_inside room stack input
  cases more : run.rest with
  | none => exact ⟨run, by simp [scanfInput, done, has, more], inside⟩
  | some rest =>
    rw [more] at ended
    obtain ⟨n, less, nul⟩ := ended rfl
    have enough : n < getsBufferSize + 1 := by omega
    obtain ⟨length, measured, le⟩ := strlen_le nul enough
    by_cases cut : conversion = 100 ∧ maxChars ≠ 0 ∧ length > maxChars
    · refine ⟨{ run with str := some (str.put maxChars 0) }, ?_, inside.buffer, ?_⟩
      · simp only [scanfInput, done, has, more, measured, Option.bind_eq_bind, Option.bind_some,
          if_pos cut]
      · intro s same i mem
        cases same
        obtain rfl | mem := mem_cons.mp mem
        · omega
        · exact inside.input str has i mem
    · exact ⟨run, by simp only [scanfInput, done, has, more, measured, Option.bind_eq_bind,
        Option.bind_some, if_neg cut], inside⟩

/-- Exactly if the newline is among the first `GETS_BUFFERSIZE` characters, or no more come. -/
theorem neverOverruns_iff (stack input : ByteMem) (raw : List UInt8) (conversion : UInt8)
    (maxChars : ℕ) :
    NeverOverruns stack input raw conversion maxChars ↔ LeavesRoom raw := by
  refine ⟨fun safe => ?_, fun room => ⟨?_, scanf_inside room input conversion maxChars⟩⟩
  · obtain ⟨run, done, inside, -⟩ := safe.gets
    by_contra full
    have last := inside.buffer _ (overruns_of_not_leavesRoom full done)
    exact Nat.lt_irrefl _ last
  · obtain ⟨run, str, done, has, inside, count, -⟩ := gets_inside room stack input
    refine ⟨run, done, inside, fun s same => ?_⟩
    rw [has] at same
    cases same
    exact count

theorem longLine_overruns :
    ¬ NeverOverruns (fun _ => 0) (fun _ => 0) (List.replicate 255 97 ++ [10]) 115 0 := by
  intro safe
  have all : delivered (List.replicate 255 97 ++ [10]) = List.replicate 255 97 ++ [10] := by
    rw [delivered, filter_append, filter_replicate_of_pos (by decide)]
    rfl
  have full : ¬ LeavesRoom (List.replicate 255 97 ++ [10]) := by
    have line : (List.replicate 255 97 ++ [(10 : UInt8)]).take getsBufferSize =
        List.replicate 255 97 := take_left' length_replicate
    rw [LeavesRoom, all, line, length_append, length_replicate]
    refine not_or.mpr ⟨by decide, fun mem => ?_⟩
    exact absurd (eq_of_mem_replicate mem) (by decide)
  obtain ⟨run, done, inside, -⟩ := safe.gets
  exact Nat.lt_irrefl _ (inside.buffer _ (overruns_of_not_leavesRoom full done))

end Elaborato.Mentos.Stdio
