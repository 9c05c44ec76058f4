import Elaborato.Foundation.Cursors
import Elaborato.Mentos.Hashmap
import Elaborato.Mentos.VsprintfNumber

/-!
How `vsprintf` reads its format by position; a read behind the NUL halts.
-/
namespace Elaborato.Mentos.Vsprintf
open Foundation Hashmap List

section Model

inductive ScanHalt
  | beyond
  | fuel
  | null
  deriving DecidableEq, Repr

variable (fmt : List UInt8)

/-- The read `*fmt`. -/
def fmtByte (p : ℕ) : Except ScanHalt UInt8 := readAt 0 .beyond fmt p

def skipAtoiAt : ℕ → ℕ → Int → Except ScanHalt (Int × ℕ)
  | 0, _, _ => .error .fuel
  | fuel + 1, p, i => do
      let c ← fmtByte fmt p
      let i := wrap32 (i * 10 + c.toNat - 48)
      let p := p + 1
      let d ← fmtByte fmt p
      if isdigit d then skipAtoiAt fuel p i else .ok (i, p)

/-- From the label `repeat` on. -/
def scanFlags : ℕ → ℕ → Flags → Except ScanHalt (Flags × ℕ)
  | 0, _, _ => .error .fuel
  | fuel + 1, p, flags => do
      let p := p + 1
      let c ← fmtByte fmt p
      if c = char '-' then scanFlags fuel p { flags with left := true }
      else if c = char '+' then scanFlags fuel p { flags with plus := true }
      else if c = char ' ' then scanFlags fuel p { flags with space := true }
      else if c = char '#' then scanFlags fuel p { flags with hash := true }
      else if c = char '0' then scanFlags fuel p { flags with zeropad := true }
      else .ok (flags, p)

variable (stack : ℕ → UInt32)

def scanWidth (arg : ℕ) (flags : Flags) (p : ℕ) : Except ScanHalt (Field × ℕ) := do
  let c ← fmtByte fmt p
  if isdigit c then do
    let (width, p) ← skipAtoiAt fmt (fmt.length + 1) p 0
    .ok (⟨flags, width, -1, none, arg⟩, p)
  else if c = char '*' then
    let p := p + 1
    let width := signed (stack arg)
    if width < 0 then
      .ok (⟨{ flags with left := true }, wrap32 (-width), -1, none, arg + 1⟩, p)
    else .ok (⟨flags, width, -1, none, arg + 1⟩, p)
  else .ok (⟨flags, -1, -1, none, arg⟩, p)

/-- The precision behind the point. -/
def scanPoint (field : Field) (p : ℕ) : Except ScanHalt (Field × ℕ) := do
  let c ← fmtByte fmt p
  if isdigit c then do
    let (precision, p) ← skipAtoiAt fmt (fmt.length + 1) p 0
    .ok ({ field with precision := if precision < 0 then 0 else precision }, p)
  else if c = char '*' then
    let p := p + 1
    let precision := signed (stack field.arg)
    .ok ({ field with precision := if precision < 0 then 0 else precision, arg := field.arg + 1 },
      p)
  else .ok ({ field with precision := 0 }, p)

def scanPrecision (field : Field) (p : ℕ) : Except ScanHalt (Field × ℕ) := do
  let c ← fmtByte fmt p
  if c = char '.' then scanPoint fmt stack field (p + 1) else .ok (field, p)

def scanQualifier (field : Field) (p : ℕ) : Except ScanHalt (Field × ℕ) := do
  let c ← fmtByte fmt p
  if c = char 'h' ∨ c = char 'l' ∨ c = char 'L' then
    .ok ({ field with qualifier := some c }, p + 1)
  else .ok (field, p)

def scanField (arg p : ℕ) : Except ScanHalt (Field × ℕ) := do
  let (flags, p) ← scanFlags fmt (fmt.length + 1) p noFlags
  let (field, p) ← scanWidth fmt stack arg flags p
  let (field, p) ← scanPrecision fmt stack field p
  scanQualifier fmt field p

def scanConversion (env : Env) (field : Field) (p : ℕ) (out : Out) :
    Except ScanHalt (Out × ℕ) := do
  let c ← fmtByte fmt p
  if c = 0 then .ok ({ out with text := out.text ++ [char '%'], arg := field.arg }, p - 1)
  else (convert env field c out).elim (.error .null) fun out => .ok (out, p)

def scanLoop (env : Env) : ℕ → ℕ → Out → Except ScanHalt (Out × ℕ)
  | 0, _, _ => .error .fuel
  | fuel + 1, p, out => do
      let c ← fmtByte fmt p
      if c = 0 then .ok (out, p)
      else if c = char '%' then do
        let (field, p) ← scanField fmt env.stack out.arg p
        let (out, p) ← scanConversion fmt env field p out
        scanLoop env fuel (p + 1) out
      else scanLoop env fuel (p + 1) { out with text := out.text ++ [c] }

def vsprintfScan (env : Env) : Except ScanHalt (Out × ℕ) :=
  scanLoop fmt env (fmt.length + 1) 0 ⟨[], 0, []⟩

end Model

variable {fmt rest : List UInt8} {p fuel : ℕ} {stack : ℕ → UInt32} {c : UInt8}

theorem fmtByte_ahead (ahead : Ahead fmt p (c :: rest)) : fmtByte fmt p = .ok c := ahead.read

theorem fmtByte_end (ahead : Ahead fmt p []) : fmtByte fmt p = .ok 0 := ahead.read_end

theorem skipAtoiAt_scans (ahead : Ahead fmt p (c :: rest)) (enough : rest.length < fuel) (i : Int) :
    Scans fmt p (skipAtoiAt fmt fuel p i) (skipAtoi (c :: rest) i) := by
  induction fuel generalizing p c rest i with
  | zero => omega
  | succ fuel ih =>
    rw [skipAtoiAt, fmtByte_ahead ahead, bind_ok]
    dsimp only
    cases rest with
    | nil =>
      rw [fmtByte_end ahead.next, bind_ok, if_neg (by decide)]
      exact (Scans.done ahead.next).later (Nat.le_succ p)
    | cons d rest =>
      rw [fmtByte_ahead ahead.next, bind_ok, skipAtoi]
      rw [length_cons] at enough
      split
      · exact (ih ahead.next (by omega) _).later (Nat.le_succ p)
      · exact (Scans.done ahead.next).later (Nat.le_succ p)

theorem scanFlags_scans (ahead : Ahead fmt (p + 1) rest) (enough : rest.length < fuel)
    (flags : Flags) : Scans fmt (p + 1) (scanFlags fmt fuel p flags) (parseFlags rest flags) := by
  induction fuel generalizing p rest flags with
  | zero => omega
  | succ fuel ih =>
    rw [scanFlags]
    cases rest with
    | nil =>
      rw [fmtByte_end ahead, bind_ok]
      exact Scans.done ahead
    | cons c rest =>
      rw [length_cons] at enough
      have goesOn (flags : Flags) := (ih ahead.next (by omega) flags).later (Nat.le_succ (p + 1))
      rw [fmtByte_ahead ahead, bind_ok, parseFlags]
      split
      · exact goesOn _
      split
      · exact goesOn _
      split
      · exact goesOn _
      split
      · exact goesOn _
      split
      · exact goesOn _
      · exact Scans.done ahead

section
variable (ahead : Ahead fmt p rest)
include ahead

theorem scanWidth_scans (arg : ℕ) (flags : Flags) :
    Scans fmt p (scanWidth fmt stack arg flags p) (parseWidth stack arg flags rest) := by
  rw [scanWidth]
  cases rest with
  | nil =>
    rw [fmtByte_end ahead, bind_ok]
    exact Scans.done ahead
  | cons c rest =>
    rw [fmtByte_ahead ahead, bind_ok, parseWidth]
    split
    · exact (skipAtoiAt_scans ahead (ahead.shorter) 0).bind fun q there => Scans.done there
    split
    · dsimp only
      split <;> exact (Scans.done ahead.next).later (Nat.le_succ p)
    · exact Scans.done ahead

theorem scanPoint_scans (field : Field) :
    Scans fmt p (scanPoint fmt stack field p) (pointPrecision stack field rest) := by
  rw [scanPoint]
  cases rest with
  | nil =>
    rw [fmtByte_end ahead, bind_ok]
    exact Scans.done ahead
  | cons c rest =>
    rw [fmtByte_ahead ahead, bind_ok, pointPrecision]
    split
    · exact (skipAtoiAt_scans ahead (ahead.shorter) 0).bind fun q there => Scans.done there
    split
    · exact (Scans.done ahead.next).later (Nat.le_succ p)
    · exact Scans.done ahead

theorem scanPrecision_scans (field : Field) :
    Scans fmt p (scanPrecision fmt stack field p) (parsePrecision stack field rest) := by
  rw [scanPrecision]
  cases rest with
  | nil =>
    rw [fmtByte_end ahead, bind_ok]
    exact Scans.done ahead
  | cons c rest =>
    rw [fmtByte_ahead ahead, bind_ok, parsePrecision]
    split
    · exact (scanPoint_scans ahead.next field).later (Nat.le_succ p)
    · exact Scans.done ahead

theorem scanQualifier_scans (field : Field) :
    Scans fmt p (scanQualifier fmt field p) (parseQualifier field rest) := by
  rw [scanQualifier]
  cases rest with
  | nil =>
    rw [fmtByte_end ahead, bind_ok]
    exact Scans.done ahead
  | cons c rest =>
    rw [fmtByte_ahead ahead, bind_ok, parseQualifier]
    split
    · exact (Scans.done ahead.next).later (Nat.le_succ p)
    · exact Scans.done ahead

end

theorem scanField_scans (stack : ℕ → UInt32) (ahead : Ahead fmt p (c :: rest)) (arg : ℕ) :
    Scans fmt (p + 1) (scanField fmt stack arg p) (parseField stack arg rest) := by
  refine (scanFlags_scans ahead.next ahead.shorter noFlags).bind fun q there => ?_
  refine (scanWidth_scans there arg _).bind fun q there => ?_
  refine (scanPrecision_scans there _).bind fun q there => ?_
  exact scanQualifier_scans there _

theorem exists_ite {α : Type} {P : Prop} [Decidable P] {a b : Option α}
    (yes : ∃ x, a = some x) (no : ∃ x, b = some x) : ∃ x, (if P then a else b) = some x := by
  split
  · exact yes
  · exact no

theorem integer_some (env : Env) (field : Field) {base : Int} (least : 2 ≤ base)
    (most : base ≤ 36) (out : Out) : ∃ out', integer env field base out = some out' := by
  rw [integer, number_eq least most]
  exact ⟨_, rfl⟩

theorem pointerConversion_some (env : Env) (field : Field) (out : Out) :
    ∃ out', pointerConversion env field out = some out' := by
  rw [pointerConversion, number_eq (by decide) (by decide)]
  exact ⟨_, rfl⟩

theorem convert_some (env : Env) (field : Field) (c : UInt8) (out : Out) :
    ∃ out', convert env field c out = some out' := by
  have decimal (field : Field) : ∃ out', integer env field 10 out = some out' :=
    integer_some env field (by decide) (by decide) out
  have octal : ∃ out', integer env field 8 out = some out' :=
    integer_some env field (by decide) (by decide) out
  have hex : ∃ out', integer env field 16 out = some out' :=
    integer_some env field (by decide) (by decide) out
  refine exists_ite ⟨_, rfl⟩ (exists_ite ⟨_, rfl⟩ ?_)
  refine exists_ite (pointerConversion_some env field out) (exists_ite ⟨_, rfl⟩ ?_)
  refine exists_ite (decimal _) (exists_ite ⟨_, rfl⟩ ?_)
  refine exists_ite octal (exists_ite (decimal _) (exists_ite hex ?_))
  refine exists_ite (decimal _) (exists_ite (decimal _) ?_)
  exact exists_ite ⟨_, rfl⟩ ⟨_, rfl⟩

theorem scanConversion_end (env : Env) (ahead : Ahead fmt p []) (field : Field) (out : Out) :
    scanConversion fmt env field p out =
      .ok ({ out with text := out.text ++ [char '%'], arg := field.arg }, p - 1) := by
  rw [scanConversion, fmtByte_end ahead, bind_ok, if_pos rfl]

theorem scanConversion_ahead {env : Env} {field : Field} {out out' : Out}
    (ahead : Ahead fmt p (c :: rest)) (nonzero : c ≠ 0)
    (converted : convert env field c out = some out') :
    scanConversion fmt env field p out = .ok (out', p) := by
  rw [scanConversion, fmtByte_ahead ahead, bind_ok, if_neg nonzero, converted]
  rfl

theorem scanLoop_refines (env : Env) (noNul : 0 ∉ fmt) {count : ℕ} (ahead : Ahead fmt p rest)
    (enough : rest.length < fuel) (le : rest.length ≤ count) (out : Out) :
    ∃ out', scanLoop fmt env fuel p out = .ok (out', fmt.length) ∧
      vsprintfLoop env count rest out = some out' := by
  induction fuel generalizing p rest count out with
  | zero => omega
  | succ fuel ih =>
    rw [scanLoop]
    cases rest with
    | nil =>
      have stop : p = fmt.length := ahead.length_add
      rw [fmtByte_end ahead, bind_ok, if_pos rfl, stop, vsprintfLoop]
      exact ⟨out, rfl, rfl⟩
    | cons c rest =>
      have nonzero : c ≠ 0 := fun zero => noNul (zero ▸ ahead.mem)
      rw [length_cons] at enough le
      obtain ⟨count, rfl⟩ := Nat.exists_eq_succ_of_ne_zero (show count ≠ 0 by omega)
      rw [fmtByte_ahead ahead, bind_ok, if_neg nonzero, vsprintfLoop]
      split
      · obtain ⟨q, after, same, there⟩ := scanField_scans env.stack ahead out.arg
        rw [same, bind_ok]
        generalize parseField env.stack out.arg rest = parsed at there
        obtain ⟨field, left⟩ := parsed
        have shorter : left.length ≤ rest.length := ahead.next.length_le there after
        cases left with
        | nil =>
          dsimp only
          rw [scanConversion_end env there, bind_ok, Nat.sub_add_cancel (by omega)]
          exact ih there (show 0 < fuel by omega) (Nat.le_refl 0) _
        | cons d left =>
          rw [length_cons] at shorter
          have nonzero : d ≠ 0 := fun zero => noNul (zero ▸ there.mem)
          obtain ⟨out', converted⟩ := convert_some env field d out
          dsimp only
          rw [scanConversion_ahead there nonzero converted, bind_ok]
          simp only [converted, Option.bind_eq_bind, Option.bind_some]
          exact ih there.next (by omega) (by omega) _
      · exact ih ahead.next (by omega) (by omega) _

/-- Every format is read up to its NUL and not beyond. -/
theorem vsprintfScan_ends (env : Env) (fmt : CString) :
    ∃ out, vsprintfScan fmt.text env = .ok (out, fmt.text.length) ∧
      sprintf env fmt.text = some out.text := by
  obtain ⟨out, scan, list⟩ := scanLoop_refines env fmt.noNul (ahead_start fmt.text)
    (Nat.lt_succ_self _) (Nat.le_refl _) ⟨[], 0, []⟩
  refine ⟨out, scan, ?_⟩
  rw [sprintf, list]
  rfl

end Elaborato.Mentos.Vsprintf
