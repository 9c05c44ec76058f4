import Elaborato.Mentos.VsprintfNumber

/-!
The decimal numbers of `sprintf`, read back by `atoi` modulo 2^32.
-/
namespace Elaborato.Mentos.Vsprintf
open Foundation List

theorem isInt_signed (word : UInt32) : IsInt (signed word) := ⟨Int32.le_toInt _, Int32.toInt_lt _⟩

theorem wrap32_step (n d : Int) :
    wrap32 (wrap32 (wrap32 (wrap32 n * 10) + d) - 48) = wrap32 (n * 10 + d - 48) := by
  simp only [wrap32]
  rw [Int.bmod_mul_bmod, Int.bmod_add_bmod, Int.bmod_sub_bmod]

variable {text : List UInt8}

theorem digitValue_of_isdigit {c : UInt8} (digit : isdigit c) :
    (c.toNat : Int) - 48 = digitValue c := by
  rw [digitValue, if_pos digit]
  simp only [isdigit, Bool.and_eq_true, decide_eq_true_eq, UInt8.le_iff_toNat_le] at digit
  have low : 48 ≤ c.toNat := digit.1
  omega

theorem atoiLoop_eq (all : ∀ c ∈ text, isdigit c) :
    atoiLoop text = wrap32 (numeralValue digitValue 10 text) := by
  have run (n : ℕ) : text.foldl
      (fun result c => wrap32 (wrap32 (wrap32 (result * 10) + c.toNat) - 48)) (wrap32 n) =
        wrap32 (text.foldl (fun n c => n * 10 + digitValue c) n : ℕ) := by
    induction text generalizing n with
    | nil => rw [foldl_nil, foldl_nil]
    | cons c text ih =>
      have next := ih (fun d mem => all d (mem_cons_of_mem _ mem)) (n * 10 + digitValue c)
      rw [foldl_cons, foldl_cons, ← next, wrap32_step, add_sub_assoc,
        digitValue_of_isdigit (all c mem_cons_self), Nat.cast_add, Nat.cast_mul]
      rfl
  exact run 0

theorem isdigit_digitChar (uppercase : Bool) : ∀ k < 10, isdigit (digitChar uppercase k) := by
  cases uppercase with
  | false | true => decide

theorem isdigit_numeral {uppercase : Bool} {n : ℕ} :
    ∀ c ∈ numeral (digitChar uppercase) 10 n, isdigit c := by
  intro c mem
  rw [numeral, mem_reverse, mem_map] at mem
  obtain ⟨k, digit, rfl⟩ := mem
  exact isdigit_digitChar uppercase k (digitsOf_lt (by decide) digit)

theorem atoi_digits (all : ∀ c ∈ text, isdigit c) :
    atoi text = wrap32 (numeralValue digitValue 10 text) := by
  have positive : text.headD 0 ≠ char '-' := by
    cases text with
    | nil => decide
    | cons c text =>
      rintro rfl
      exact absurd (all _ mem_cons_self) (by decide)
  simp only [atoi, if_neg positive]
  rw [if_neg (by decide : ¬(1 : Int) = -1), if_pos (all_eq_true.mpr all), one_mul, atoiLoop_eq all]
  exact Int.bmod_bmod

theorem atoi_minus (all : ∀ c ∈ text, isdigit c) :
    atoi (char '-' :: text) = wrap32 (-(numeralValue digitValue 10 text)) := by
  simp only [atoi, headD_cons, tail_cons, if_true]
  rw [if_pos (all_eq_true.mpr all), atoiLoop_eq all, ← neg_eq_neg_one_mul]
  exact Int.bmod_neg_bmod

/-- The flags of `%d`. -/
def decimalFlags : Flags := { noFlags with sign := true }

theorem sprintf_decimal (env : Env) :
    sprintf env ("%d".toList.map char) =
      some (signText decimalFlags (signed (env.stack 0)) ++
        numeral (digitChar false) 10 (magnitude decimalFlags (signed (env.stack 0)))) := by
  have parsed : parseField env.stack 0 [char 'd'] = (⟨noFlags, -1, -1, none, 0⟩, [char 'd']) := rfl
  have converted : convert env ⟨noFlags, -1, -1, none, 0⟩ (char 'd') ⟨[], 0, []⟩ =
      integer env ⟨decimalFlags, -1, -1, none, 0⟩ 10 ⟨[], 0, []⟩ := rfl
  refine (sprintf_conversion parsed).trans ?_
  rw [converted, integer_text, number_layout (by decide) (by decide) (by decide) (by decide)
    (by decide) (by decide)]
  have pad (s h d : ℕ) : ((-1 : Int) - s - h - max (-1) (d : Int)).toNat = 0 := by omega
  have zeros (d : ℕ) : ((-1 : Int) - d).toNat = 0 := by omega
  have plain : hashText decimalFlags 10 = [] := rfl
  have front (front body : List UInt8) : layout decimalFlags 0 front body = front ++ body := rfl
  simp only [pad, zeros, plain, front, replicate_zero, nil_append, append_nil]
  rfl

theorem atoi_sprintf (env : Env) :
    ∃ text, sprintf env ("%d".toList.map char) = some text ∧ atoi text = signed (env.stack 0) := by
  refine ⟨_, sprintf_decimal env, ?_⟩
  have int := isInt_signed (env.stack 0)
  generalize signed (env.stack 0) = num at int
  have value : numeralValue digitValue 10
      (numeral (digitChar false) 10 (magnitude decimalFlags num)) = magnitude decimalFlags num :=
    numeralValue_numeral (by decide) fun k less => digitValue_digitChar false k (by omega)
  by_cases negative : num < 0
  · have sign : signText decimalFlags num = [char '-'] := by
      simp [signText, decimalFlags, negative]
    rw [sign, singleton_append, atoi_minus isdigit_numeral, value, magnitude,
      if_pos ⟨rfl, negative⟩]
    have back : ((-num % 2 ^ 32).toNat : Int) = -num := by
      have := int.1
      omega
    rw [back, neg_neg, wrap32_of_isInt int]
  · have sign : signText decimalFlags num = [] := by
      simp [signText, decimalFlags, negative, noFlags]
    rw [sign, nil_append, atoi_digits isdigit_numeral, value, magnitude,
      if_neg fun both => negative both.2]
    have back : ((num % 2 ^ 32).toNat : Int) = num := by
      have := int.2
      omega
    rw [back, wrap32_of_isInt int]

end Elaborato.Mentos.Vsprintf
