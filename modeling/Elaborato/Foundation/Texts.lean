import Elaborato.Foundation.Records

/-!
Strings with a final zero byte, and tables of pointers to strings, in byte memory.
-/
namespace Foundation
open List Function

/-- The string at an address. -/
def TextAt (place : Nat → Prop) (m : ByteMem) : Nat → List UInt8 → Prop
  | p, [] => place p ∧ m p = 0
  | p, b :: text => place p ∧ m p = b ∧ b ≠ 0 ∧ TextAt place m (p + 1) text

/-- The words from an address on. -/
def WordsAt (m : ByteMem) : Nat → List Nat → Prop
  | _, [] => True
  | a, w :: words => readWord m a = w ∧ WordsAt m (a + 4) words

def TextsAt (place : Nat → Prop) (m : ByteMem) : Nat → List (List UInt8) → Prop
  | a, [] => (∀ i < 4, place (a + i)) ∧ readWord m a = 0
  | a, text :: texts => (∀ i < 4, place (a + i)) ∧ readWord m a ≠ 0 ∧
      TextAt place m (readWord m a) text ∧ TextsAt place m (a + 4) texts

variable {place place' : Nat → Prop} {m m' : ByteMem} {p q a : Nat} {text : List UInt8}
  {texts : List (List UInt8)} {words words' ptrs : List Nat}

section
variable (stored : TextAt place m p text)
include stored

theorem TextAt.byte {k : Nat} (le : k ≤ text.length) :
    place (p + k) ∧ (m (p + k) = 0 ↔ k = text.length) := by
  induction text generalizing p k with
  | nil =>
    obtain rfl : k = 0 := Nat.le_zero.mp le
    exact ⟨stored.1, by simpa using stored.2⟩
  | cons b text ih =>
    obtain ⟨here, same, nonzero, rest⟩ := stored
    cases k with
    | zero =>
      refine ⟨here, ?_⟩
      simpa [same] using nonzero
    | succ k =>
      have later := ih rest (Nat.le_of_succ_le_succ le)
      rw [Nat.add_assoc, Nat.add_comm 1 k] at later
      simpa using later

theorem TextAt.copy (same : ∀ k ≤ text.length, place' (q + k) ∧ m' (q + k) = m (p + k)) :
    TextAt place' m' q text := by
  induction text generalizing p q with
  | nil =>
    obtain ⟨here, copied⟩ := same 0 (Nat.le_refl 0)
    exact ⟨here, copied.trans stored.2⟩
  | cons b text ih =>
    obtain ⟨-, first, nonzero, rest⟩ := stored
    obtain ⟨here, copied⟩ := same 0 (Nat.zero_le _)
    refine ⟨here, copied.trans first, nonzero, ih rest fun k le => ?_⟩
    have later := same (k + 1) (Nat.succ_le_succ le)
    rwa [Nat.add_comm k 1, ← Nat.add_assoc, ← Nat.add_assoc] at later

theorem TextAt.kept (same : ∀ x, place x → place' x ∧ m' x = m x) : TextAt place' m' p text :=
  stored.copy fun _ le => same _ (stored.byte le).1

theorem TextAt.first : m p = text.headD 0 := by
  cases text with
  | nil => exact stored.2
  | cons b text => exact stored.2.1

theorem TextAt.nonzero {b : UInt8} (mem : b ∈ text) : b ≠ 0 := by
  induction text generalizing p with
  | nil => exact absurd mem not_mem_nil
  | cons c text ih =>
    obtain ⟨-, -, nonzero, rest⟩ := stored
    cases mem with
    | head => exact nonzero
    | tail _ mem => exact ih rest mem

theorem TextAt.byte_mem {k : Nat} (less : k < text.length) : m (p + k) ∈ text := by
  induction text generalizing p k with
  | nil => exact absurd less (Nat.not_lt_zero k)
  | cons b text ih =>
    obtain ⟨-, same, -, rest⟩ := stored
    cases k with
    | zero =>
      rw [Nat.add_zero, same]
      exact mem_cons_self
    | succ k =>
      have later := ih rest (Nat.lt_of_succ_lt_succ less)
      rw [Nat.add_assoc, Nat.add_comm 1 k] at later
      exact mem_cons_of_mem b later

end

theorem TextAt.behind {a b : List UInt8} (stored : TextAt place m p (a ++ b)) :
    TextAt place m (p + a.length) b := by
  induction a generalizing p with
  | nil => exact stored
  | cons c a ih =>
    have rest := ih stored.2.2.2
    rwa [Nat.add_assoc, Nat.add_comm 1] at rest

theorem TextAt.cut {a b : List UInt8} (stored : TextAt place m p (a ++ b)) :
    TextAt place (update m (p + a.length) 0) p a := by
  induction a generalizing p with
  | nil =>
    have here := (stored.byte (Nat.zero_le _)).1
    exact ⟨here, update_self ..⟩
  | cons c a ih =>
    obtain ⟨here, same, nonzero, rest⟩ := stored
    have later := ih rest
    rw [Nat.add_assoc, Nat.add_comm 1] at later
    exact ⟨here, (update_of_ne (by simp) ..).trans same, nonzero, later⟩

theorem TextAt.concat {b : UInt8}
    (stored : TextAt place (update m (p + text.length) 0) p text) (nonzero : b ≠ 0)
    (here : place (p + text.length + 1)) :
    TextAt place (update (update m (p + text.length) b) (p + text.length + 1) 0) p
      (text ++ [b]) := by
  induction text generalizing p with
  | nil =>
    refine ⟨stored.1, ?_, nonzero, here, ?_⟩
    · rw [update_of_ne (by simp), length_nil, Nat.add_zero, update_self]
    · exact update_self ..
  | cons c text ih =>
    obtain ⟨there, same, other, rest⟩ := stored
    rw [length_cons, Nat.add_comm text.length, ← Nat.add_assoc] at same rest here ⊢
    refine ⟨there, ?_, other, ih rest here⟩
    rw [update_of_ne (by omega)] at same
    rw [update_of_ne (by omega), update_of_ne (by omega), same]

theorem TextAt.update (stored : TextAt place m p text) {x : Nat} (before : x < p) (b : UInt8) :
    TextAt place (update m x b) p text :=
  stored.copy fun _ le => ⟨(stored.byte le).1, update_of_ne (by omega) ..⟩

theorem TextsAt.kept (stored : TextsAt place m a texts)
    (same : ∀ x, place x → place' x ∧ m' x = m x) : TextsAt place' m' a texts := by
  induction texts generalizing a with
  | nil =>
    obtain ⟨here, zero⟩ := stored
    exact ⟨fun i hi => (same _ (here i hi)).1,
      (readWord_congr fun i hi => (same _ (here i hi)).2).trans zero⟩
  | cons text texts ih =>
    obtain ⟨here, nonzero, first, rest⟩ := stored
    have word : readWord m' a = readWord m a := readWord_congr fun i hi => (same _ (here i hi)).2
    refine ⟨fun i hi => (same _ (here i hi)).1, ?_, ?_, ih rest⟩
    · rwa [word]
    · rw [word]
      exact first.kept same

theorem TextsAt.pointer (stored : TextsAt place m a texts) {i : Nat} (hi : i < texts.length) :
    (∀ k < 4, place (a + 4 * i + k)) ∧
      TextAt place m (readWord m (a + 4 * i)) (texts.get ⟨i, hi⟩) := by
  induction texts generalizing a i with
  | nil => exact absurd hi (Nat.not_lt_zero i)
  | cons text texts ih =>
    obtain ⟨here, -, first, rest⟩ := stored
    cases i with
    | zero => exact ⟨here, first⟩
    | succ i =>
      have later := ih rest (Nat.lt_of_succ_lt_succ hi)
      rwa [show a + 4 + 4 * i = a + 4 * (i + 1) by omega] at later

theorem wordsAt_append :
    WordsAt m a (words ++ words') ↔
      WordsAt m a words ∧ WordsAt m (a + 4 * words.length) words' := by
  induction words generalizing a with
  | nil => simp [WordsAt]
  | cons w words ih =>
    simp only [cons_append, WordsAt, ih, length_cons, and_assoc]
    rw [show a + 4 + 4 * words.length = a + 4 * (words.length + 1) by omega]

theorem textsAt_of_words (table : WordsAt m a (ptrs ++ [0]))
    (inside : ∀ x, a ≤ x → x < a + 4 * (ptrs.length + 1) → place x)
    (strings : List.Forall₂ (fun q text => q ≠ 0 ∧ TextAt place m q text) ptrs texts) :
    TextsAt place m a texts := by
  induction strings generalizing a with
  | nil => exact ⟨fun i hi => inside _ (by omega) (by simp; omega), table.1⟩
  | @cons q text ptrs texts first _ ih =>
    obtain ⟨here, rest⟩ := table
    rw [length_cons] at inside
    refine ⟨fun i hi => inside _ (by omega) (by omega), here ▸ first.1, here ▸ first.2, ?_⟩
    exact ih rest fun x low high => inside x (by omega) (by omega)

def padded (text : List UInt8) : ByteMem := fun i => text.getD i 0

end Foundation
