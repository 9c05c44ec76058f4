import Elaborato.Foundation.Words
import Elaborato.Mentos.Hashmap
import Elaborato.Mentos.Strings

/-!
`strtok` and `strtok_r` (string.c). An access outside of the table of bits has no result.
-/
namespace Elaborato.Mentos.Strtok
open Foundation Hashmap Strings List Function

structure Scan where
  mem : ByteMem
  last : Option ℕ

def spans (c : UInt8) : List UInt8 → Bool
  | [] => false
  | sc :: delim => c == sc || spans c delim

def spansNul (c : UInt8) : List UInt8 → Bool
  | [] => (0 : UInt8) == c
  | sc :: delim => sc == c || spansNul c delim

def strtok (fuel : ℕ) (delim : CString) (str : Option ℕ) (s : Scan) :
    Option (Option ℕ × Scan) :=
  match str <|> s.last with
  | none => some (none, s)
  | some str => do
      let tok ← advance (fun c => some (!spans c delim.text)) s.mem fuel str
      if s.mem tok = 0 then some (none, { s with last := none })
      else do
        let stop ← advance (fun c => some (spansNul c delim.text)) s.mem fuel (tok + 1)
        if s.mem stop = 0 then some (some tok, { s with last := none })
        else some (some tok, ⟨update s.mem stop 0, some (stop + 1)⟩)

def mapIndex (c : UInt8) : Option ℕ :=
  let i := charValue c >>> (3 : ℕ)
  if 0 ≤ i ∧ i < 32 then some i.toNat else none

def mapBit (c : UInt8) : UInt8 := 1 <<< (c &&& 7)

def setBit (map : ByteMem) (c : UInt8) : Option ByteMem := do
  let i ← mapIndex c
  some (update map i (map i ||| mapBit c))

def hasBit (map : ByteMem) (c : UInt8) : Option Bool := do
  let i ← mapIndex c
  some (map i &&& mapBit c != 0)

/-- The bit of the NUL is set as well. -/
def setBits : List UInt8 → ByteMem → Option ByteMem
  | [], map => setBit map 0
  | c :: ctrl, map => do setBits ctrl (← setBit map c)

def startsToken (map : ByteMem) (c : UInt8) : Option Bool := do
  some (!((← hasBit map c) && c != 0))

def endsToken (map : ByteMem) (c : UInt8) : Option Bool :=
  if c = 0 then some true else hasBit map c

def strtokR (fuel : ℕ) (control : CString) (string : Option ℕ) (s : Scan) :
    Option (Option ℕ × Scan) := do
  let map ← setBits control.text fun _ => 0
  let str ← string <|> s.last
  let string ← advance (startsToken map) s.mem fuel str
  let stop ← advance (endsToken map) s.mem fuel string
  if s.mem stop = 0 then some (if string = stop then none else some string, ⟨s.mem, some stop⟩)
  else some (if string = stop + 1 then none else some string,
    ⟨update s.mem stop 0, some (stop + 1)⟩)

def tokens (fuel : ℕ) (call : Option ℕ → Scan → Option (Option ℕ × Scan)) :
    ℕ → Option ℕ → Scan → Option (List (List UInt8))
  | 0, _, _ => none
  | n + 1, str, s => do
      let (tok, s) ← call str s
      match tok with
      | none => some []
      | some tok => do
          let text ← readText s.mem fuel tok
          let rest ← tokens fuel call n none s
          some (text :: rest)

variable {m : ByteMem} {p fuel : ℕ} {run rest : List UInt8} {stop : UInt8 → Option Bool}

theorem headD_mem (rest : List UInt8) : rest.headD 0 = 0 ∨ rest.headD 0 ∈ rest := by
  cases rest with
  | nil => exact .inl rfl
  | cons b rest => exact .inr mem_cons_self

variable {sep : UInt8 → Bool}

theorem advance_blank (stored : StringAt m p (run ++ rest))
    (looks : ∀ c, c = 0 ∨ c ∈ run ++ rest → stop c = some (!sep c))
    (blank : ∀ c ∈ run, sep c = true) (begins : sep (rest.headD 0) = false)
    (enough : run.length < fuel) : advance stop m fuel p = some (p + run.length) := by
  refine advance_stored stored (fun c mem => ?_) ?_ enough
  · rw [looks c (.inr (mem_append_left rest mem)), blank c mem]
    rfl
  · rw [looks _ ((headD_mem rest).imp_right (mem_append_right run)), begins]
    rfl

theorem advance_word (stored : StringAt m p (run ++ rest))
    (looks : ∀ c, c = 0 ∨ c ∈ run ++ rest → stop c = some (sep c || c == 0))
    (word : ∀ c ∈ run, sep c = false) (ends : ∀ c ∈ rest.head?, sep c = true)
    (enough : run.length < fuel) : advance stop m fuel p = some (p + run.length) := by
  refine advance_stored stored (fun c mem => ?_) ?_ enough
  · have inside : c ∈ run ++ rest := mem_append_left rest mem
    rw [looks c (.inr inside), word c mem, Bool.false_or, beq_false_of_ne (stored.nonzero inside)]
  · rw [looks _ ((headD_mem rest).imp_right (mem_append_right run))]
    cases rest with
    | nil => exact congrArg some (Bool.or_true _)
    | cons b rest => rw [headD_cons, ends b rfl, Bool.true_or]

variable {call : Option ℕ → Scan → Option (Option ℕ × Scan)} {Left : Scan → List UInt8 → Prop}

structure Tokenises (fuel : ℕ) (sep : UInt8 → Bool)
    (call : Option ℕ → Scan → Option (Option ℕ × Scan)) (Left : Scan → List UInt8 → Prop) :
    Prop where
  blank {s : Scan} {text : List UInt8} (left : Left s text) (enough : text.length < fuel)
    (blank : ∀ c ∈ text, sep c = true) : ∃ s', call none s = some (none, s')
  word {s : Scan} {pre w rest : List UInt8} (left : Left s (pre ++ (w ++ rest)))
    (enough : (pre ++ (w ++ rest)).length < fuel) (blank : ∀ c ∈ pre, sep c = true)
    (nonempty : w ≠ []) (run : ∀ c ∈ w, sep c = false) (stop : ∀ c ∈ rest.head?, sep c = true) :
    ∃ p s', call none s = some (some p, s') ∧ StringAt s'.mem p w ∧ Left s' rest.tail

theorem Tokenises.tokens (does : Tokenises fuel sep call Left) {text : List UInt8}
    {ws : List (List UInt8)} (splits : Splits sep text ws) {s : Scan} (left : Left s text)
    (enough : text.length < fuel) {n : ℕ} (calls : ws.length < n) :
    tokens fuel call n none s = some ws := by
  induction splits generalizing s n with
  | blank blank =>
    cases n with
    | zero => exact absurd calls (Nat.not_lt_zero _)
    | succ n =>
      obtain ⟨s', called⟩ := does.blank left enough blank
      rw [Strtok.tokens, called]
      rfl
  | @word pre w rest ws blank nonempty run stop splits ih =>
    cases n with
    | zero => exact absurd calls (Nat.not_lt_zero _)
    | succ n =>
      obtain ⟨p, s', called, stored, left'⟩ := does.word left enough blank nonempty run stop
      simp only [length_append] at enough
      have later := ih left' (by rw [length_tail]; omega) (Nat.lt_of_succ_lt_succ calls)
      have text := readText_stored stored (show w.length < fuel by omega)
      rw [Strtok.tokens, called]
      simp [text, later]

variable {delim : CString}

theorem spans_eq (c : UInt8) (delim : List UInt8) : spans c delim = delim.contains c := by
  induction delim with
  | nil => rfl
  | cons sc delim ih => rw [spans, ih, contains_cons]

theorem spansNul_eq (c : UInt8) (delim : List UInt8) :
    spansNul c delim = (delim.contains c || c == 0) := by
  induction delim with
  | nil => simp [spansNul, eq_comm]
  | cons sc delim ih => rw [spansNul, ih, contains_cons, Bool.or_assoc, BEq.comm]

theorem contains_zero (delim : CString) : delim.text.contains 0 = false := by
  simpa using delim.noNul

def LeftStrtok (s : Scan) (text : List UInt8) : Prop :=
  (∃ p, s.last = some p ∧ StringAt s.mem p text) ∨ (s.last = none ∧ text = [])

variable {s : Scan}

attribute [local simp] strtok strtokR

theorem strtok_blank {text : List UInt8} (kept : s.last = some p) (stored : StringAt s.mem p text)
    (enough : text.length < fuel) (blank : ∀ c ∈ text, delim.text.contains c = true) :
    strtok fuel delim none s = some (none, { s with last := none }) := by
  have whole : StringAt s.mem p (text ++ []) := by rwa [append_nil]
  have skipped : advance (fun c => some (!spans c delim.text)) s.mem fuel p =
      some (p + text.length) :=
    advance_blank whole (fun c _ => by rw [spans_eq]) blank (contains_zero delim) enough
  have ended : s.mem (p + text.length) = 0 := whole.behind.first
  simp [kept, skipped, ended]

theorem strtok_word {pre w rest : List UInt8} (kept : s.last = some p)
    (stored : StringAt s.mem p (pre ++ (w ++ rest))) (enough : (pre ++ (w ++ rest)).length < fuel)
    (blank : ∀ c ∈ pre, delim.text.contains c = true) (nonempty : w ≠ [])
    (run : ∀ c ∈ w, delim.text.contains c = false)
    (stop : ∀ c ∈ rest.head?, delim.text.contains c = true) :
    strtok fuel delim none s = some (some (p + pre.length),
      if rest = [] then { s with last := none }
      else ⟨update s.mem (p + pre.length + w.length) 0, some (p + pre.length + w.length + 1)⟩) := by
  obtain ⟨c, w, rfl⟩ := exists_cons_of_ne_nil nonempty
  obtain ⟨first, others⟩ := forall_mem_cons.mp run
  have word := stored.behind
  simp only [length_append, length_cons] at enough
  have skipped : advance (fun c => some (!spans c delim.text)) s.mem fuel p =
      some (p + pre.length) :=
    advance_blank stored (fun c _ => by rw [spans_eq]) blank first (by omega)
  have ended : advance (fun c => some (spansNul c delim.text)) s.mem fuel (p + pre.length + 1) =
      some (p + pre.length + 1 + w.length) :=
    advance_word word.2.2.2 (fun c _ => by rw [spansNul_eq]) others stop (by omega)
  have begins : s.mem (p + pre.length) ≠ 0 := by
    rw [word.2.1]
    exact word.2.2.1
  have last : s.mem (p + pre.length + (c :: w).length) = rest.headD 0 := word.behind.first
  rw [Nat.add_assoc _ 1, Nat.add_comm 1] at ended
  rw [length_cons] at last
  cases rest with
  | nil => simp [kept, skipped, ended, begins, last]
  | cons b rest =>
    have nonzero : b ≠ 0 := word.behind.2.2.1
    simp [kept, skipped, ended, begins, last, nonzero]

theorem strtok_tokenises (fuel : ℕ) (delim : CString) :
    Tokenises fuel delim.text.contains (strtok fuel delim) LeftStrtok where
  blank := by
    intro s text left enough blank
    obtain ⟨p, kept, stored⟩ | ⟨kept, -⟩ := left
    · exact ⟨_, strtok_blank kept stored enough blank⟩
    · exact ⟨s, by simp [kept]⟩
  word := by
    intro s pre w rest left enough blank nonempty run stop
    obtain ⟨p, kept, stored⟩ | ⟨-, none⟩ := left
    · refine ⟨_, _, strtok_word kept stored enough blank nonempty run stop, ?_⟩
      cases rest with
      | nil =>
        refine ⟨?_, .inr ⟨rfl, rfl⟩⟩
        have word := stored.behind
        rwa [append_nil] at word
      | cons b rest =>
        have word := stored.behind
        exact ⟨word.cut, .inl ⟨_, rfl, word.behind.2.2.2.update (Nat.lt_succ_self _) 0⟩⟩
    · simp [nonempty] at none

variable {map : ByteMem} {c b : UInt8}

theorem charValue_low (low : c < 128) : charValue c = c.toNat := by
  have small : c.toBitVec.toNat < 128 := UInt8.lt_iff_toNat_lt.mp low
  exact BitVec.toInt_eq_toNat_of_lt (x := c.toBitVec) (by omega)

theorem mapIndex_low (low : c < 128) : mapIndex c = some (c.toNat / 8) := by
  have small : c.toNat < 128 := UInt8.lt_iff_toNat_lt.mp low
  have index : charValue c >>> (3 : ℕ) = ((c.toNat / 8 : ℕ) : ℤ) := by
    rw [charValue_low low, Int.shiftRight_eq_div_pow]
    rfl
  rw [mapIndex, index, if_pos (by omega), Int.toNat_natCast]

theorem mapBit_eq (c : UInt8) : mapBit c = UInt8.ofNat (2 ^ (c.toNat % 8)) := by
  have low : (c &&& 7).toNat = c.toNat % 8 := by
    rw [UInt8.toNat_and]
    exact Nat.and_two_pow_sub_one_eq_mod c.toNat 3
  have one : (1 : UInt8).toNat = 1 := rfl
  apply UInt8.toNat_inj.mp
  rw [mapBit, UInt8.toNat_shiftLeft, low, one, Nat.one_shiftLeft, Nat.mod_mod, UInt8.toNat_ofNat']

theorem bits_apart : ∀ i < 8, ∀ j < 8,
    (UInt8.ofNat (2 ^ i) &&& UInt8.ofNat (2 ^ j) != 0) = (i == j) := by
  decide

theorem hasBit_low (map : ByteMem) (low : c < 128) :
    hasBit map c = some (map (c.toNat / 8) &&& mapBit c != 0) := by
  rw [hasBit, mapIndex_low low]
  rfl

theorem setBit_low (map : ByteMem) (low : c < 128) : setBit map c =
    some (update map (c.toNat / 8) (map (c.toNat / 8) ||| mapBit c)) := by
  rw [setBit, mapIndex_low low]
  rfl

theorem update_hasBit (map : ByteMem) (c : UInt8) (lowB : b < 128) :
    hasBit (update map (c.toNat / 8) (map (c.toNat / 8) ||| mapBit c)) b =
      (hasBit map b).map (· || b == c) := by
  rw [hasBit_low _ lowB, hasBit_low _ lowB, Option.map_some]
  by_cases index : b.toNat / 8 = c.toNat / 8
  · have same : (mapBit c &&& mapBit b != 0) = (b == c) := by
      rw [mapBit_eq, mapBit_eq,
        bits_apart _ (Nat.mod_lt _ (by decide)) _ (Nat.mod_lt _ (by decide)),
        Bool.eq_iff_iff, beq_iff_eq, beq_iff_eq, ← UInt8.toNat_inj]
      omega
    have parts (x y : UInt8) : (x ||| y != 0) = (x != 0 || y != 0) := by
      rw [Bool.eq_iff_iff, Bool.or_eq_true, bne_iff_ne, bne_iff_ne, bne_iff_ne, Ne,
        UInt8.or_eq_zero_iff, not_and_or]
    have spread (x y z : UInt8) : (x ||| y) &&& z = (x &&& z) ||| (y &&& z) := by
      apply UInt8.toNat_inj.mp
      simp only [UInt8.toNat_and, UInt8.toNat_or, Nat.and_or_distrib_right]
    rw [index, update_self, spread, parts, same]
  · have apart : (b == c) = false := beq_false_of_ne fun same => index (by rw [same])
    rw [update_of_ne index, apart, Bool.or_false]

variable {ctrl : List UInt8}

theorem setBits_low (low : ∀ c ∈ ctrl, c < 128) (map : ByteMem) :
    ∃ map', setBits ctrl map = some map' ∧ ∀ b < (128 : UInt8),
      hasBit map' b = (hasBit map b).map (· || (ctrl.contains b || b == 0)) := by
  induction ctrl generalizing map with
  | nil =>
    refine ⟨_, setBit_low map (by decide), fun b lowB => ?_⟩
    rw [update_hasBit map 0 lowB]
    rfl
  | cons c ctrl ih =>
    obtain ⟨first, others⟩ := forall_mem_cons.mp low
    obtain ⟨map', set, bits⟩ := ih others
      (update map (c.toNat / 8) (map (c.toNat / 8) ||| mapBit c))
    refine ⟨map', ?_, fun b lowB => ?_⟩
    · rw [setBits, setBit_low map first]
      exact set
    · rw [bits b lowB, update_hasBit map c lowB, Option.map_map, contains_cons]
      simp only [comp_def, Bool.or_assoc]

theorem table_low (low : ∀ c ∈ ctrl, c < 128) :
    ∃ map, setBits ctrl (fun _ => 0) = some map ∧ ∀ b < (128 : UInt8),
      hasBit map b = some (ctrl.contains b || b == 0) := by
  obtain ⟨map, set, bits⟩ := setBits_low low fun _ => 0
  refine ⟨map, set, fun b lowB => ?_⟩
  rw [bits b lowB, hasBit_low _ lowB, UInt8.zero_and]
  rfl

variable {control : CString}

def LeftStrtokR (s : Scan) (text : List UInt8) : Prop :=
  (∃ p, s.last = some p ∧ StringAt s.mem p text) ∧ ∀ c, c = 0 ∨ c ∈ text → c < 128

section
variable (bits : hasBit map c = some (control.text.contains c || c == 0))
include bits

theorem startsToken_low : startsToken map c = some (!control.text.contains c) := by
  rw [startsToken, bits]
  by_cases zero : c = 0
  · rw [zero, contains_zero]
    rfl
  · have nonzero : (c != 0) = true := bne_iff_ne.mpr zero
    rw [beq_false_of_ne zero, nonzero, Bool.or_false]
    exact congrArg (fun b => some (!b)) (Bool.and_true _)

theorem endsToken_low : endsToken map c = some (control.text.contains c || c == 0) := by
  rw [endsToken, bits]
  split
  case isTrue zero => simp [zero]
  case isFalse => rfl

end

section
variable (lowControl : ∀ c ∈ control.text, c < 128) (kept : s.last = some p)
include lowControl kept

theorem strtokR_blank {text : List UInt8} (stored : StringAt s.mem p text)
    (low : ∀ c, c = 0 ∨ c ∈ text → c < 128) (enough : text.length < fuel)
    (blank : ∀ c ∈ text, control.text.contains c = true) :
    strtokR fuel control none s = some (none, ⟨s.mem, some (p + text.length)⟩) := by
  obtain ⟨map, set, bits⟩ := table_low lowControl
  have whole : StringAt s.mem p (text ++ []) := by rwa [append_nil]
  have skipped : advance (startsToken map) s.mem fuel p = some (p + text.length) := by
    refine advance_blank whole (fun c mem => ?_) blank (contains_zero control) enough
    rw [append_nil] at mem
    exact startsToken_low (bits c (low c mem))
  have ended : s.mem (p + text.length) = 0 := whole.behind.first
  have stays : advance (endsToken map) s.mem fuel (p + text.length) = some (p + text.length) := by
    obtain ⟨fuel, rfl⟩ := Nat.exists_eq_succ_of_ne_zero (Nat.ne_zero_of_lt enough)
    rw [advance, ended, endsToken, if_pos rfl]
    rfl
  simp [set, kept, skipped, stays, ended]

theorem strtokR_word {pre w rest : List UInt8} (stored : StringAt s.mem p (pre ++ (w ++ rest)))
    (low : ∀ c, c = 0 ∨ c ∈ pre ++ (w ++ rest) → c < 128)
    (enough : (pre ++ (w ++ rest)).length < fuel)
    (blank : ∀ c ∈ pre, control.text.contains c = true) (nonempty : w ≠ [])
    (run : ∀ c ∈ w, control.text.contains c = false)
    (stop : ∀ c ∈ rest.head?, control.text.contains c = true) :
    strtokR fuel control none s = some (some (p + pre.length),
      if rest = [] then ⟨s.mem, some (p + pre.length + w.length)⟩
      else ⟨update s.mem (p + pre.length + w.length) 0, some (p + pre.length + w.length + 1)⟩) := by
  obtain ⟨map, set, bits⟩ := table_low lowControl
  have word := stored.behind
  simp only [length_append] at enough
  have skipped : advance (startsToken map) s.mem fuel p = some (p + pre.length) := by
    have begins : control.text.contains ((w ++ rest).headD 0) = false := by
      obtain ⟨c, w, rfl⟩ := exists_cons_of_ne_nil nonempty
      exact run c mem_cons_self
    exact advance_blank stored (fun c mem => startsToken_low (bits c (low c mem))) blank begins
      (by omega)
  have ended : advance (endsToken map) s.mem fuel (p + pre.length) =
      some (p + pre.length + w.length) := by
    refine advance_word word (fun c mem => endsToken_low (bits c (low c ?_))) run stop (by omega)
    exact mem.imp_right (mem_append_right pre)
  have last : s.mem (p + pre.length + w.length) = rest.headD 0 := word.behind.first
  cases rest with
  | nil => simp [set, kept, skipped, ended, last, nonempty]
  | cons b rest =>
    have nonzero : b ≠ 0 := word.behind.2.2.1
    have apart : p + pre.length ≠ p + pre.length + w.length + 1 := by omega
    simp [set, kept, skipped, ended, last, nonzero, apart]

end

theorem strtokR_tokenises (fuel : ℕ) (low : ∀ c ∈ control.text, c < 128) :
    Tokenises fuel control.text.contains (strtokR fuel control) LeftStrtokR where
  blank := by
    intro s text left enough blank
    obtain ⟨⟨p, kept, stored⟩, lowText⟩ := left
    exact ⟨_, strtokR_blank low kept stored lowText enough blank⟩
  word := by
    intro s pre w rest left enough blank nonempty run stop
    obtain ⟨⟨p, kept, stored⟩, lowText⟩ := left
    have word := stored.behind
    refine ⟨_, _, strtokR_word low kept stored lowText enough blank nonempty run stop, ?_⟩
    cases rest with
    | nil =>
      refine ⟨?_, ⟨_, rfl, word.behind⟩, fun c mem => lowText c (.inl ?_)⟩
      · rwa [append_nil] at word
      · simpa using mem
    | cons b rest =>
      refine ⟨word.cut, ⟨_, rfl, word.behind.2.2.2.update (Nat.lt_succ_self _) 0⟩,
        fun c mem => lowText c (mem.imp_right fun mem => ?_)⟩
      exact mem_append_right pre (mem_append_right w (mem_cons_of_mem b mem))

/-- Both tokenisers return the maximal runs without delimiters, in order. -/
theorem tokenisers_agree {text : List UInt8} {delim : CString} (lowText : ∀ c ∈ text, c < 128)
    (lowDelim : ∀ c ∈ delim.text, c < 128) {m m' : ByteMem} {p p' : ℕ} (stored : StringAt m p text)
    (copy : StringAt m' p' text) (last last' : Option ℕ) {fuel : ℕ} (enough : text.length < fuel) :
    tokens fuel (strtok fuel delim) fuel (some p) ⟨m, last⟩ =
        some (wordsOf delim.text.contains text) ∧
      tokens fuel (strtokR fuel delim) fuel (some p') ⟨m', last'⟩ =
        some (wordsOf delim.text.contains text) := by
  have splits := splits_wordsOf delim.text.contains text
  have calls : (wordsOf delim.text.contains text).length < fuel :=
    Nat.lt_of_le_of_lt splits.length_le enough
  obtain ⟨n, rfl⟩ := Nat.exists_eq_succ_of_ne_zero (Nat.ne_zero_of_lt enough)
  have low : ∀ c, c = 0 ∨ c ∈ text → c < 128 := by
    intro c mem
    obtain rfl | mem := mem
    · decide
    · exact lowText c mem
  -- The first call finds the string where the others find the pointer that was kept.
  have first := (strtok_tokenises _ delim).tokens splits (s := ⟨m, some p⟩)
    (.inl ⟨p, rfl, stored⟩) enough calls
  have second := (strtokR_tokenises _ lowDelim).tokens splits (s := ⟨m', some p'⟩)
    ⟨⟨p', rfl, copy⟩, low⟩ enough calls
  exact ⟨first, second⟩

theorem tokenisers_agree_twoWords :
    tokens 8 (strtok 8 ⟨[32], by decide⟩) 8 (some 0) ⟨padded [32, 97, 98, 32, 32, 99], none⟩ =
        some [[97, 98], [99]] ∧
      tokens 8 (strtokR 8 ⟨[32], by decide⟩) 8 (some 0) ⟨padded [32, 97, 98, 32, 32, 99], none⟩ =
        some [[97, 98], [99]] := by
  have stored : StringAt (padded [32, 97, 98, 32, 32, 99]) 0 [32, 97, 98, 32, 32, 99] := by
    simp [TextAt, padded]
  exact tokenisers_agree (by simp) (by simp) stored stored none none (by decide)

end Elaborato.Mentos.Strtok
