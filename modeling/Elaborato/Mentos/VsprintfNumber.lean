import Elaborato.Foundation.Numerals
import Elaborato.Mentos.Vsprintf

/-!
The text of an integer in a field: at most one of the padding loops writes.
-/
namespace Elaborato.Mentos.Vsprintf
open Foundation List

/-- The range of an `int`. -/
def IsInt (x : Int) : Prop := -2 ^ 31 ≤ x ∧ x < 2 ^ 31

theorem wrap32_of_isInt {x : Int} (int : IsInt x) : wrap32 x = x := by
  obtain ⟨low, high⟩ := int
  exact Int.bmod_eq_of_le (by omega) (by omega)

variable {c : UInt8} {low n : Int} {fuel : ℕ}

theorem fillLoop_eq (lowest : -2 ^ 31 < low) (int : IsInt n) (enough : (n - low).toNat < fuel) :
    fillLoop c low fuel n = (List.replicate (n - low).toNat c, wrap32 (min n low - 1)) := by
  induction fuel generalizing n with
  | zero => exact absurd enough (Nat.not_lt_zero _)
  | succ fuel ih =>
    rw [fillLoop]
    by_cases more : low < n
    · have int' : IsInt (n - 1) := ⟨by omega, by have := int.2; omega⟩
      rw [if_pos more, wrap32_of_isInt int', ih int' (by omega)]
      have count : (n - low).toNat = (n - 1 - low).toNat + 1 := by omega
      rw [count, replicate_succ, min_eq_right (by omega), min_eq_right (by omega)]
    · rw [if_neg more, min_eq_left (by omega)]
      have count : (n - low).toNat = 0 := by omega
      rw [count]
      rfl

theorem fill_eq (lowest : -2 ^ 31 < low) (int : IsInt n) :
    fill c low n = (List.replicate (n - low).toNat c, wrap32 (min n low - 1)) :=
  fillLoop_eq lowest int (Nat.lt_succ_self _)

theorem exists_fill (c : UInt8) (low n : Int) : ∃ k, (fill c low n).1 = List.replicate k c := by
  rw [fill]
  generalize (n - low).toNat + 1 = fuel
  induction fuel generalizing n with
  | zero => exact ⟨0, rfl⟩
  | succ fuel ih =>
    rw [fillLoop]
    split_ifs
    · obtain ⟨k, same⟩ := ih (wrap32 (n - 1))
      exact ⟨k + 1, by simp only [same, replicate_succ]⟩
    · exact ⟨0, rfl⟩

theorem digitLoop_eq {dig : List UInt8} {base n : ℕ} (proper : 1 < base) (small : n < 2 ^ fuel) :
    digitLoop dig base fuel n = (Nat.digits base n).map fun k => dig.getD k 0 := by
  induction fuel generalizing n with
  | zero =>
    obtain rfl : n = 0 := by omega
    rw [digitLoop, Nat.digits_zero, map_nil]
  | succ fuel ih =>
    rw [digitLoop]
    split_ifs with zero
    · rw [zero, Nat.digits_zero, map_nil]
    · have half : n / base ≤ n / 2 := Nat.div_le_div_left proper (by decide)
      rw [Nat.digits_def' proper (Nat.pos_of_ne_zero zero), map_cons,
        ih (by rw [Nat.pow_succ] at small; omega)]

/-- The digits that a conversion writes. -/
def digitChar (uppercase : Bool) (k : ℕ) : UInt8 :=
  (if uppercase then upperDigits else digits).getD k 0

def digitValue (c : UInt8) : ℕ :=
  if isdigit c then c.toNat - 48 else if c.toNat < 97 then c.toNat - 55 else c.toNat - 87

theorem digitValue_digitChar (uppercase : Bool) :
    ∀ k < 36, digitValue (digitChar uppercase k) = k := by
  cases uppercase with
  | false | true => decide

theorem numberDigits_eq {uppercase : Bool} {base n : ℕ} (proper : 1 < base) (small : n < 2 ^ 32) :
    numberDigits (if uppercase then upperDigits else digits) base n =
      (digitsOf base n).map (digitChar uppercase) := by
  rw [numberDigits, digitsOf]
  by_cases zero : n = 0
  · rw [if_pos zero, if_pos zero]
    cases uppercase with
    | false | true => rfl
  · rw [if_neg zero, if_neg zero, digitLoop_eq proper (small.trans (by decide))]
    rfl

/-- The sign that is due. -/
def signText (type : Flags) (num : Int) : List UInt8 :=
  if type.sign then
    if num < 0 then [char '-']
    else if type.plus then [char '+']
    else if type.space then [char ' '] else []
  else []

def magnitude (type : Flags) (num : Int) : ℕ :=
  ((if type.sign ∧ num < 0 then -num else num) % 2 ^ 32).toNat

variable {type : Flags} {num base size : Int}

theorem magnitude_lt (type : Flags) (num : Int) : magnitude type num < 2 ^ 32 := by
  rw [magnitude]
  omega

theorem takeSign_text (type : Flags) (num size : Int) :
    (takeSign type num size).1.toList = signText type num := by
  rw [takeSign, signText]
  split_ifs
  all_goals rfl

theorem takeSign_magnitude (type : Flags) (num size : Int) :
    ((takeSign type num size).2.1 % 2 ^ 32).toNat = magnitude type num := by
  rw [takeSign, magnitude]
  by_cases negative : type.sign ∧ num < 0
  · rw [if_pos negative, if_pos negative.1, if_pos negative.2]
    exact congrArg Int.toNat Int.bmod_emod
  · rw [if_neg negative]
    split_ifs with sign below
    · exact absurd ⟨sign, below⟩ negative
    all_goals rfl

theorem takeSign_size (int : IsInt (size - 1)) :
    (takeSign type num size).2.2 = size - (signText type num).length := by
  rw [takeSign, signText]
  split_ifs
  · exact wrap32_of_isInt int
  · exact wrap32_of_isInt int
  · exact wrap32_of_isInt int
  · exact (Int.sub_zero size).symm
  · exact (Int.sub_zero size).symm

theorem takeHash_size (int : IsInt (size - 2)) (int' : IsInt size) :
    takeHash type base size = size - (hashText type base).length := by
  have one : IsInt (size - 1) := ⟨by have := int.1; omega, by have := int'.2; omega⟩
  rw [takeHash, hashText]
  split_ifs with hash sixteen eight eight
  · omega
  · exact wrap32_of_isInt int
  · exact wrap32_of_isInt one
  · exact (Int.sub_zero size).symm
  · exact (Int.sub_zero size).symm

theorem length_signText_le (type : Flags) (num : Int) : (signText type num).length ≤ 1 := by
  rw [signText]
  split_ifs
  all_goals decide

theorem length_hashText_le (type : Flags) (base : Int) : (hashText type base).length ≤ 2 := by
  rw [hashText]
  split_ifs
  all_goals decide

def layout (type : Flags) (pad : ℕ) (front body : List UInt8) : List UInt8 :=
  if type.left then front ++ body ++ List.replicate pad (char ' ')
  else if type.zeropad then front ++ List.replicate pad (char '0') ++ body
  else List.replicate pad (char ' ') ++ front ++ body

variable {sign hash tmp : List UInt8} {precision : Int}

theorem fill_size {c : UInt8} {n : Int} (low : -2 ^ 30 ≤ n) (high : n ≤ 2 ^ 30) :
    fill c 0 n = (List.replicate n.toNat c, min n 0 - 1) := by
  rw [fill_eq (by decide) ⟨by omega, by omega⟩, wrap32_of_isInt ⟨by omega, by omega⟩, Int.sub_zero]

theorem place_eq (low : -2 ^ 24 ≤ size) (high : size ≤ 2 ^ 24) {n : ℕ} (digits : n ≤ 2 ^ 24)
    (lowest : -2 ^ 24 ≤ precision) (highest : precision ≤ 2 ^ 24) :
    place (frame type n size precision) sign hash tmp =
      layout type (size - max precision n).toNat (sign ++ hash)
        (List.replicate (precision - n).toNat (char '0') ++ tmp.reverse) := by
  have larger : (if (n : Int) > precision then (n : Int) else precision) = max precision n := by
    split_ifs <;> omega
  have zeros : (max precision n - n).toNat = (precision - n).toNat := by omega
  have bounds : -2 ^ 25 ≤ size - max precision n ∧ size - max precision n ≤ 2 ^ 24 :=
    ⟨by omega, by omega⟩
  simp only [place, frame, padIf, larger]
  rw [wrap32_of_isInt ⟨by omega, by omega⟩,
    fill_eq (by omega : (-2 : Int) ^ 31 < n) ⟨by omega, by omega⟩, zeros]
  generalize size - max precision n = rest at bounds
  have first (c : UInt8) : fill c 0 rest = (List.replicate rest.toNat c, min rest 0 - 1) :=
    fill_size (by omega) (by omega)
  have next {n : Int} (low : -2 ^ 30 ≤ n) (negative : n < 0) (c : UInt8) :
      fill c 0 n = ([], n - 1) := by
    rw [fill_size low (by omega), min_eq_left negative.le, Int.toNat_of_nonpos negative.le]
    rfl
  have second := next (n := min rest 0 - 1) (by omega) (by omega)
  have third := next (n := min rest 0 - 1 - 1) (by omega) (by omega)
  cases flush : type.left with
  | true => simp [layout, flush, first]
  | false =>
    cases zeropad : type.zeropad with
    | true =>
      simp [layout, flush, zeropad, first, second, -replicate_append_replicate]
    | false => simp [layout, flush, zeropad, first, second, third]

variable {width : Int}

theorem frame_left (type : Flags) (i size precision : Int) :
    frame (if type.left then { type with zeropad := false } else type) i size precision =
      frame type i size precision := by
  cases flush : type.left with
  | true => simp [frame, padIf, flush]
  | false => simp

theorem number_eq (least : 2 ≤ base) (most : base ≤ 36) (num size precision : Int) (type : Flags) :
    number num base size precision type =
      some (place (frame type (digitsOf base.toNat (magnitude type num)).length
          (takeHash type base (takeSign type num size).2.2) precision)
        (signText type num) (hashText type base)
        ((digitsOf base.toNat (magnitude type num)).map (digitChar type.uppercase))) := by
  have same : takeSign (if type.left then { type with zeropad := false } else type) num size =
        takeSign type num size ∧
      takeHash (if type.left then { type with zeropad := false } else type) base =
        takeHash type base ∧
      hashText (if type.left then { type with zeropad := false } else type) base =
        hashText type base := by
    split_ifs
    all_goals exact ⟨rfl, rfl, rfl⟩
  simp only [number]
  rw [if_neg (by omega), same.1, same.2.1, same.2.2, frame_left, takeSign_text, takeSign_magnitude,
    numberDigits_eq (by omega) (magnitude_lt type num), length_map]

theorem number_layout (least : 2 ≤ base) (most : base ≤ 36) (narrow : -1 ≤ width)
    (wide : width ≤ 2 ^ 20) (lowest : -1 ≤ precision) (highest : precision ≤ 2 ^ 20) (num : Int)
    (type : Flags) :
    number num base width precision type =
      some (layout type
        (width - (signText type num).length - (hashText type base).length -
          max precision (digitsOf base.toNat (magnitude type num)).length).toNat
        (signText type num ++ hashText type base)
        (List.replicate (precision - (digitsOf base.toNat (magnitude type num)).length).toNat
          (char '0') ++ numeral (digitChar type.uppercase) base.toNat (magnitude type num))) := by
  have proper : 1 < base.toNat := by omega
  have small : magnitude type num < base.toNat ^ (31 + 1) :=
    (magnitude_lt type num).trans_le (Nat.pow_le_pow_left proper 32)
  have count := length_digitsOf_le proper small
  have sign := length_signText_le type num
  have hash := length_hashText_le type base
  rw [number_eq least most, takeSign_size ⟨by omega, by omega⟩,
    takeHash_size ⟨by omega, by omega⟩ ⟨by omega, by omega⟩,
    place_eq (by omega) (by omega) (by omega) (by omega) (by omega)]
  rfl

example : number (-42) 10 6 (-1) { noFlags with zeropad := true, sign := true } =
    some ("-00042".toList.map char) := by
  decide

variable {env : Env} {field : Field} {fmt : List UInt8}

theorem sprintf_conversion (parsed : parseField env.stack 0 fmt = (field, [c])) :
    sprintf env (char '%' :: fmt) = (convert env field c ⟨[], 0, []⟩).map Out.text := by
  rw [sprintf, length_cons, vsprintfLoop, if_pos rfl]
  simp only [parsed]
  cases convert env field c ⟨[], 0, []⟩ with
  | none => rfl
  | some out => simp [vsprintfLoop]

theorem integer_text (env : Env) (field : Field) (base : Int) :
    (integer env field base ⟨[], 0, []⟩).map Out.text =
      number (integerArg field (env.stack field.arg)) base field.width field.precision
        field.flags := by
  rw [integer]
  cases number (integerArg field (env.stack field.arg)) base field.width field.precision
    field.flags with
  | none | some text => rfl

end Elaborato.Mentos.Vsprintf
