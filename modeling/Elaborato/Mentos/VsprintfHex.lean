import Elaborato.Mentos.VsprintfNumber

/-!
`%x` and `%X`: the capital sets the flag for capital digits but leaves the base at ten.
-/
namespace Elaborato.Mentos.Vsprintf
open Foundation List

variable {stack : ℕ → UInt32} {arg : ℕ} {c d : UInt8} {flags text rest : List UInt8}

theorem parseFlags_other (other : c ∉ [char '-', char '+', char ' ', char '#', char '0'])
    (type : Flags) : parseFlags (c :: rest) type = (type, c :: rest) := by
  simp only [mem_cons, not_mem_nil, or_false, not_or] at other
  obtain ⟨left, plus, space, hash, zero⟩ := other
  rw [parseFlags, if_neg left, if_neg plus, if_neg space, if_neg hash, if_neg zero]

theorem parseFlags_append (isFlag : ∀ c ∈ flags, c ∈ [char '-', char '+', char ' ', char '0'])
    (other : ∀ type, parseFlags rest type = (type, rest)) (type : Flags) :
    parseFlags (flags ++ rest) type = ((parseFlags flags type).1, rest) := by
  induction flags generalizing type with
  | nil => exact other type
  | cons c flags ih =>
    have later := ih fun d mem => isFlag d (mem_cons_of_mem _ mem)
    have first := isFlag c mem_cons_self
    simp only [mem_cons, not_mem_nil, or_false] at first
    rcases first with rfl | rfl | rfl | rfl
    all_goals exact later _

theorem skipAtoi_append (all : ∀ e ∈ text, isdigit e) (other : isdigit d = false) (i : Int) :
    skipAtoi (c :: (text ++ d :: rest)) i = ((skipAtoi (c :: text) i).1, d :: rest) := by
  induction text generalizing c i with
  | nil => simp [skipAtoi, other]
  | cons e text ih =>
    have digit := all e mem_cons_self
    simp only [skipAtoi, cons_append, digit, if_true]
    exact ih (fun e mem => all e (mem_cons_of_mem _ mem)) _

theorem parseWidth_star (type : Flags) :
    parseWidth stack arg type (char '*' :: rest) =
      (⟨if signed (stack arg) < 0 then { type with left := true } else type,
        if signed (stack arg) < 0 then wrap32 (-signed (stack arg)) else signed (stack arg), -1,
        none, arg + 1⟩, rest) := by
  rw [parseWidth, if_neg (by decide), if_pos rfl]
  split_ifs with negative
  · exact if_pos negative
  · exact if_neg negative

theorem parseWidth_append
    (isWidth : text = [char '*'] ∨ (∀ e ∈ text, isdigit e) ∧ text.head? ≠ some (char '0'))
    (other : isdigit d = false) (star : d ≠ char '*') (type : Flags) :
    parseWidth stack arg type (text ++ d :: rest) =
      ((parseWidth stack arg type text).1, d :: rest) := by
  rcases isWidth with rfl | ⟨all, -⟩
  · rw [singleton_append, parseWidth_star, parseWidth_star]
  · cases text with
    | nil => simp [parseWidth, other, star]
    | cons e text =>
      have digit := all e mem_cons_self
      have read : skipAtoi (e :: (text ++ d :: rest)) 0 = ((skipAtoi (e :: text) 0).1, d :: rest) :=
        skipAtoi_append (fun e mem => all e (mem_cons_of_mem _ mem)) other 0
      simp only [cons_append, parseWidth, digit, if_true, read]

theorem pointPrecision_append (isPrecision : text = [char '*'] ∨ ∀ e ∈ text, isdigit e)
    (other : isdigit d = false) (star : d ≠ char '*') (field : Field) :
    pointPrecision stack field (text ++ d :: rest) =
      ((pointPrecision stack field text).1, d :: rest) := by
  rcases isPrecision with rfl | all
  · rfl
  · cases text with
    | nil => simp [pointPrecision, other, star]
    | cons e text =>
      have digit := all e mem_cons_self
      have read : skipAtoi (e :: (text ++ d :: rest)) 0 = ((skipAtoi (e :: text) 0).1, d :: rest) :=
        skipAtoi_append (fun e mem => all e (mem_cons_of_mem _ mem)) other 0
      simp only [cons_append, pointPrecision, digit, if_true, read]

section Fields

structure FieldText where
  flags : List UInt8
  width : List UInt8
  precision : List UInt8
  isFlag : ∀ c ∈ flags, c ∈ [char '-', char '+', char ' ', char '0']
  isWidth : width = [char '*'] ∨ (∀ c ∈ width, isdigit c) ∧ width.head? ≠ some (char '0')
  isPrecision : precision = [] ∨ ∃ rest, precision = char '.' :: rest ∧
    (rest = [char '*'] ∨ ∀ c ∈ rest, isdigit c)

/-- The format of one conversion. -/
def FieldText.format (field : FieldText) (c : UInt8) : List UInt8 :=
  char '%' :: (field.flags ++ (field.width ++ (field.precision ++ [c])))

def FieldText.stars (field : FieldText) : ℕ :=
  field.width.count (char '*') + field.precision.count (char '*')

def FieldText.parsed (field : FieldText) (stack : ℕ → UInt32) : Field :=
  (parsePrecision stack (parseWidth stack 0 (parseFlags field.flags noFlags).1 field.width).1
    field.precision).1

variable (field : FieldText)

def IsHex (c : UInt8) : Prop := c = char 'x' ∨ c = char 'X'

theorem FieldText.parsePrecision_append (hex : IsHex c) (parsed : Field) :
    parsePrecision stack parsed (field.precision ++ [c]) =
      ((parsePrecision stack parsed field.precision).1, [c]) := by
  have other : isdigit c = false ∧ c ≠ char '*' ∧ c ≠ char '.' := by
    rcases hex with rfl | rfl
    all_goals decide
  rcases field.isPrecision with none | ⟨rest, point, isNumber⟩
  · rw [none, nil_append]
    exact if_neg other.2.2
  · rw [point, cons_append, parsePrecision, if_pos rfl, parsePrecision, if_pos rfl]
    exact pointPrecision_append isNumber other.1 other.2.1 parsed

theorem FieldText.exists_tail (hex : IsHex c) : ∃ d rest, field.precision ++ [c] = d :: rest ∧
    isdigit d = false ∧ d ≠ char '*' ∧
    d ∉ [char '-', char '+', char ' ', char '#', char '0'] := by
  rcases field.isPrecision with none | ⟨rest, point, -⟩
  · refine ⟨c, [], by rw [none, nil_append], ?_⟩
    rcases hex with rfl | rfl
    all_goals decide
  · exact ⟨char '.', rest ++ [c], by rw [point, cons_append], by decide⟩

theorem FieldText.parseFlags_stop (hex : IsHex c) (type : Flags) :
    parseFlags (field.width ++ (field.precision ++ [c])) type =
      (type, field.width ++ (field.precision ++ [c])) := by
  obtain ⟨d, rest, tail, -, -, other⟩ := field.exists_tail hex
  rcases field.isWidth with star | ⟨all, head⟩
  · rw [star]
    exact parseFlags_other (by decide) type
  · cases width : field.width with
    | nil =>
      rw [nil_append, tail]
      exact parseFlags_other other type
    | cons e text =>
      rw [width] at all head
      have digit := all e mem_cons_self
      refine parseFlags_other ?_ type
      simp only [mem_cons, not_mem_nil, or_false, not_or]
      refine ⟨?_, ?_, ?_, ?_, fun zero => head (congrArg some zero)⟩
      all_goals
        rintro rfl
        exact absurd digit (by decide)

theorem FieldText.parseField_eq (hex : IsHex c) :
    parseField stack 0 (field.flags ++ (field.width ++ (field.precision ++ [c]))) =
      (field.parsed stack, [c]) := by
  have width (type : Flags) : parseWidth stack 0 type (field.width ++ (field.precision ++ [c])) =
      ((parseWidth stack 0 type field.width).1, field.precision ++ [c]) := by
    obtain ⟨d, rest, tail, digit, star, -⟩ := field.exists_tail hex
    rw [tail]
    exact parseWidth_append field.isWidth digit star type
  have qualifier (parsed : Field) : parseQualifier parsed [c] = (parsed, [c]) := by
    rcases hex with rfl | rfl
    all_goals rfl
  simp only [parseField, parseFlags_append field.isFlag (field.parseFlags_stop hex), width,
    field.parsePrecision_append hex, qualifier]
  rfl

structure Field.Plain (field : Field) (arg : ℕ) : Prop where
  hash : field.flags.hash = false
  sign : field.flags.sign = false
  uppercase : field.flags.uppercase = false
  qualifier : field.qualifier = none
  arg : field.arg = arg

theorem parseFlags_plain {flags : List UInt8}
    (isFlag : ∀ c ∈ flags, c ∈ [char '-', char '+', char ' ', char '0']) (type : Flags) :
    (parseFlags flags type).1.hash = type.hash ∧ (parseFlags flags type).1.sign = type.sign ∧
      (parseFlags flags type).1.uppercase = type.uppercase := by
  induction flags generalizing type with
  | nil => exact ⟨rfl, rfl, rfl⟩
  | cons c flags ih =>
    have later := ih fun d mem => isFlag d (mem_cons_of_mem _ mem)
    have first := isFlag c mem_cons_self
    simp only [mem_cons, not_mem_nil, or_false] at first
    rcases first with rfl | rfl | rfl | rfl
    all_goals exact later _

theorem count_star {text : List UInt8} (all : ∀ c ∈ text, isdigit c) : text.count (char '*') = 0 :=
  count_eq_zero.mpr fun mem => absurd (all _ mem) (by decide)

theorem FieldText.parseWidth_plain {type : Flags} (hash : type.hash = false)
    (sign : type.sign = false) (uppercase : type.uppercase = false) :
    (parseWidth stack 0 type field.width).1.Plain (field.width.count (char '*')) := by
  rcases field.isWidth with star | ⟨all, -⟩
  · rw [star, parseWidth_star]
    refine ⟨?_, ?_, ?_, rfl, rfl⟩
    all_goals
      split_ifs
      all_goals assumption
  · rw [count_star all]
    cases width : field.width with
    | nil => exact ⟨hash, sign, uppercase, rfl, rfl⟩
    | cons c text =>
      have digit : isdigit c := all c (width ▸ mem_cons_self)
      rw [parseWidth, if_pos digit]
      exact ⟨hash, sign, uppercase, rfl, rfl⟩

theorem FieldText.parsePrecision_plain {parsed : Field} {arg : ℕ} (plain : parsed.Plain arg) :
    (parsePrecision stack parsed field.precision).1.Plain
      (arg + field.precision.count (char '*')) := by
  obtain ⟨hash, sign, uppercase, qualifier, args⟩ := plain
  rcases field.isPrecision with none | ⟨rest, point, isNumber⟩
  · rw [none]
    exact ⟨hash, sign, uppercase, qualifier, args⟩
  · rw [point, parsePrecision, if_pos rfl, count_cons_of_ne (by decide)]
    rcases isNumber with rfl | all
    · exact ⟨hash, sign, uppercase, qualifier, congrArg (· + 1) args⟩
    · rw [count_star all]
      cases rest with
      | nil => exact ⟨hash, sign, uppercase, qualifier, args⟩
      | cons c text =>
        rw [pointPrecision, if_pos (all c mem_cons_self)]
        exact ⟨hash, sign, uppercase, qualifier, args⟩

theorem FieldText.parsed_plain (stack : ℕ → UInt32) : (field.parsed stack).Plain field.stars := by
  obtain ⟨hash, sign, uppercase⟩ := parseFlags_plain field.isFlag noFlags
  exact field.parsePrecision_plain (field.parseWidth_plain hash sign uppercase)

end Fields

theorem exists_padIf (run : Bool) (c : UInt8) (size : Int) :
    ∃ k, (padIf run c size).1 = List.replicate k c := by
  cases run with
  | false => exact ⟨0, rfl⟩
  | true => exact exists_fill c 0 size

theorem exists_frame (type : Flags) (i size precision : Int) :
    ∃ a b k e : ℕ, frame type i size precision =
      ⟨List.replicate a (char ' '),
        List.replicate b (if type.zeropad then char '0' else char ' '),
        List.replicate k (char '0'), List.replicate e (char ' ')⟩ := by
  obtain ⟨a, spaces⟩ : ∃ a, (frame type i size precision).spaces = List.replicate a (char ' ') :=
    exists_padIf ..
  obtain ⟨b, padding⟩ : ∃ b, (frame type i size precision).padding =
      List.replicate b (if type.zeropad then char '0' else char ' ') :=
    exists_padIf ..
  obtain ⟨k, zeros⟩ : ∃ k, (frame type i size precision).zeros = List.replicate k (char '0') :=
    exists_fill ..
  obtain ⟨e, trailing⟩ : ∃ e, (frame type i size precision).trailing =
      List.replicate e (char ' ') :=
    exists_fill ..
  exact ⟨a, b, k, e, by rw [← spaces, ← padding, ← zeros, ← trailing]⟩

theorem frame_uppercase (type : Flags) (uppercase : Bool) (i size precision : Int) :
    frame { type with uppercase := uppercase } i size precision = frame type i size precision :=
  rfl

variable {type : Flags} {i size precision : Int} {tmp : List UInt8}

/-- Letters a to f turned into A to F. -/
def capital (c : UInt8) : UInt8 := if char 'a' ≤ c ∧ c ≤ char 'f' then c - 32 else c

theorem place_capital :
    (place (frame type i size precision) [] [] tmp).map capital =
      place (frame type i size precision) [] [] (tmp.map capital) := by
  obtain ⟨a, b, k, e, same⟩ := exists_frame type i size precision
  have space : capital (char ' ') = char ' ' := by decide
  have zero : capital (char '0') = char '0' := by decide
  simp only [place, same, map_append, map_replicate, map_reverse, map_nil,
    space, zero, apply_ite capital]

theorem place_value {base : ℕ} (spaceless : char ' ' ∉ tmp) :
    numeralValue digitValue base
        ((place (frame type i size precision) [] [] tmp).filter (· ≠ char ' ')) =
      numeralValue digitValue base tmp.reverse := by
  obtain ⟨a, b, k, e, same⟩ := exists_frame type i size precision
  have kept : tmp.reverse.filter (· ≠ char ' ') = tmp.reverse := by
    rw [filter_eq_self]
    intro c mem
    exact decide_eq_true fun space => spaceless (space ▸ mem_reverse.mp mem)
  have spaces (n : ℕ) : (List.replicate n (char ' ')).filter (· ≠ char ' ') = [] :=
    filter_replicate_of_neg (by decide)
  have zeros (n : ℕ) :
      (List.replicate n (char '0')).filter (· ≠ char ' ') = List.replicate n (char '0') :=
    filter_replicate_of_pos (by decide)
  have value : digitValue (char '0') = 0 := by decide
  rw [place, same]
  cases type.zeropad with
  | true =>
    simp only [filter_append, spaces, zeros, kept, if_true,
      nil_append, append_nil, append_assoc, numeralValue_zeros value]
  | false =>
    simp only [filter_append, spaces, zeros, kept, Bool.false_eq_true,
      if_false, nil_append, append_nil, numeralValue_zeros value]

/-- The digits in the field. -/
def FieldText.place (field : FieldText) (stack : ℕ → UInt32) (tmp : List UInt8) : List UInt8 :=
  Vsprintf.place (frame (field.parsed stack).flags tmp.length (field.parsed stack).width
    (field.parsed stack).precision) [] [] tmp

theorem toNat_signed (word : UInt32) : (signed word % 2 ^ 32).toNat = word.toNat := by
  have wrapped : signed word = (word.toNat : Int).bmod (2 ^ 32) := BitVec.toInt_eq_toNat_bmod _
  have small := word.toNat_lt
  rw [wrapped]
  have same : (word.toNat : Int).bmod (2 ^ 32) % 2 ^ 32 = word.toNat % 2 ^ 32 := Int.bmod_emod
  omega

theorem number_plain {type : Flags} {base : Int} (least : 2 ≤ base) (most : base ≤ 36)
    (sign : type.sign = false) (hash : type.hash = false) (word : UInt32) (size precision : Int) :
    number (signed word) base size precision type =
      some (place (frame type (digitsOf base.toNat word.toNat).length size precision) [] []
        ((digitsOf base.toNat word.toNat).map (digitChar type.uppercase))) := by
  have value : magnitude type (signed word) = word.toNat := by
    rw [magnitude, if_neg (by simp [sign]), toNat_signed]
  have noSign : signText type (signed word) = [] := by simp [signText, sign]
  have noHash : hashText type base = [] := by simp [hashText, hash]
  have sizes : takeHash type base (takeSign type (signed word) size).2.2 = size := by
    simp [takeHash, takeSign, sign, hash]
  rw [number_eq least most, value, noSign, noHash, sizes]

theorem FieldText.sprintf_eq {env : Env} {field : FieldText} {c : UInt8} (hex : IsHex c)
    (base : Int) (least : 2 ≤ base) (most : base ≤ 36) (uppercase : Bool)
    (converted : ∀ parsed : Field, parsed.Plain field.stars →
      convert env parsed c ⟨[], 0, []⟩ =
        integer env { parsed with flags := { parsed.flags with uppercase := uppercase } } base
          ⟨[], 0, []⟩) :
    sprintf env (field.format c) =
      some (field.place env.stack
        ((digitsOf base.toNat (env.stack field.stars).toNat).map (digitChar uppercase))) := by
  have plain := field.parsed_plain env.stack
  refine (sprintf_conversion (field.parseField_eq hex)).trans ?_
  rw [FieldText.place, length_map]
  generalize field.parsed env.stack = parsed at plain
  rw [converted parsed plain, integer_text, integerArg, plain.qualifier, if_neg (by decide),
    plain.arg]
  have sign : { parsed.flags with uppercase := uppercase }.sign = false := plain.sign
  have hash : { parsed.flags with uppercase := uppercase }.hash = false := plain.hash
  rw [number_plain least most sign hash, frame_uppercase]

theorem sprintf_hex (env : Env) (field : FieldText) :
    sprintf env (field.format (char 'x')) =
      some (field.place env.stack
        ((digitsOf 16 (env.stack field.stars).toNat).map (digitChar false))) := by
  refine FieldText.sprintf_eq (.inl rfl) 16 (by decide) (by decide) false fun parsed plain => ?_
  rw [← plain.uppercase]
  rfl

theorem sprintf_capital (env : Env) (field : FieldText) :
    sprintf env (field.format (char 'X')) =
      some (field.place env.stack
        ((digitsOf 10 (env.stack field.stars).toNat).map (digitChar true))) :=
  FieldText.sprintf_eq (.inr rfl) 10 (by decide) (by decide) true fun _ _ => rfl

def Capitalized (env : Env) (field : FieldText) : Prop :=
  ∃ text, sprintf env (field.format (char 'x')) = some text ∧
    sprintf env (field.format (char 'X')) = some (text.map capital)

theorem map_capital (n : ℕ) :
    ((digitsOf 16 n).map (digitChar false)).map capital = (digitsOf 16 n).map (digitChar true) := by
  have capitals : ∀ k < 16, capital (digitChar false k) = digitChar true k := by decide
  rw [map_map]
  exact map_congr_left fun k mem => capitals k (digitsOf_lt (by decide) mem)

theorem capitalized_iff_place (env : Env) (field : FieldText) :
    Capitalized env field ↔
      field.place env.stack ((digitsOf 10 (env.stack field.stars).toNat).map (digitChar true)) =
        field.place env.stack
          ((digitsOf 16 (env.stack field.stars).toNat).map (digitChar true)) := by
  have capitals (tmp : List UInt8) :
      (field.place env.stack tmp).map capital = field.place env.stack (tmp.map capital) := by
    rw [FieldText.place, FieldText.place, length_map, place_capital]
  rw [Capitalized, sprintf_hex, sprintf_capital]
  simp only [Option.some.injEq, exists_eq_left', capitals, map_capital]

theorem FieldText.place_value {field : FieldText} {stack : ℕ → UInt32} {b n : ℕ} (proper : 1 < b)
    (small : b ≤ 36) :
    numeralValue digitValue 16
        ((field.place stack ((digitsOf b n).map (digitChar true))).filter (· ≠ char ' ')) =
      numeralValue digitValue 16 (numeral (digitChar true) b n) := by
  refine Vsprintf.place_value fun mem => ?_
  obtain ⟨k, digit, same⟩ := mem_map.mp mem
  have other : ∀ k < 36, digitChar true k ≠ char ' ' := by decide
  exact other k ((digitsOf_lt proper digit).trans_le small) same

theorem capitalized_iff (env : Env) (field : FieldText) :
    Capitalized env field ↔ (env.stack field.stars).toNat < 10 := by
  rw [capitalized_iff_place]
  generalize (env.stack field.stars).toNat = n
  have inverse : ∀ k < 16, digitValue (digitChar true k) = k := fun k less =>
    digitValue_digitChar true k (by omega)
  constructor
  · intro same
    have read := congrArg (fun text => numeralValue digitValue 16 (text.filter (· ≠ char ' '))) same
    rw [FieldText.place_value (by decide) (by decide),
      FieldText.place_value (by decide) (by decide),
      numeralValue_numeral (by decide) inverse] at read
    exact (numeralValue_numeral_iff (by decide) (by decide) inverse).mp read
  · intro less
    rw [digitsOf_digit less, digitsOf_digit (by omega)]

def bareField : FieldText where
  flags := []
  width := []
  precision := []
  isFlag := fun _ mem => absurd mem not_mem_nil
  isWidth := .inr ⟨fun _ mem => absurd mem not_mem_nil, by decide⟩
  isPrecision := .inl rfl

/-- All the arguments are the same word. -/
def wordEnv (word : UInt32) : Env := ⟨fun _ => word, fun _ => 0, fun _ _ _ _ _ => []⟩

theorem capital_of_ten :
    sprintf (wordEnv 10) (bareField.format (char 'x')) = some [char 'a'] ∧
      sprintf (wordEnv 10) (bareField.format (char 'X')) = some [char '1', char '0'] ∧
      ¬Capitalized (wordEnv 10) bareField := by
  have small : sprintf (wordEnv 10) (bareField.format (char 'x')) = some [char 'a'] := by decide
  have large : sprintf (wordEnv 10) (bareField.format (char 'X')) =
      some [char '1', char '0'] := by decide
  refine ⟨small, large, ?_⟩
  rintro ⟨text, lower, upper⟩
  rw [small, Option.some.injEq] at lower
  rw [large, ← lower] at upper
  exact absurd upper (by decide)

end Elaborato.Mentos.Vsprintf
