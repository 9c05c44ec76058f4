import Elaborato.Foundation.Execution

/-!
Reading a text by position up to its terminator: a scanner that refines a parser of lists.
-/
namespace Foundation
open List

variable {α ε β γ : Type} {text rest : List α} {p : ℕ} {c nul : α} {beyond : ε}

def Ahead (text : List α) (p : ℕ) (rest : List α) : Prop :=
  p ≤ text.length ∧ text.drop p = rest

def readAt (nul : α) (beyond : ε) (text : List α) (p : ℕ) : Except ε α :=
  (text ++ [nul])[p]?.elim (.error beyond) .ok

theorem ahead_start (text : List α) : Ahead text 0 text := ⟨Nat.zero_le _, rfl⟩

theorem Ahead.length_add (ahead : Ahead text p rest) : p + rest.length = text.length := by
  obtain ⟨le, rfl⟩ := ahead
  rw [length_drop]
  omega

variable {q : ℕ}

theorem Ahead.length_le {later : List α} (ahead : Ahead text p rest) (there : Ahead text q later)
    (le : p ≤ q) : later.length ≤ rest.length := by
  have before := ahead.length_add
  have behind := there.length_add
  omega

section
variable (ahead : Ahead text p (c :: rest))
include ahead

theorem Ahead.mem : c ∈ text := by
  apply mem_of_mem_drop (i := p)
  rw [ahead.2]
  exact mem_cons_self

theorem Ahead.shorter : rest.length < text.length + 1 := by
  have length := ahead.length_add
  rw [length_cons] at length
  omega

theorem Ahead.next : Ahead text (p + 1) rest := by
  have length := ahead.length_add
  rw [length_cons] at length
  refine ⟨by omega, ?_⟩
  rw [← drop_drop, ahead.2]
  rfl

theorem Ahead.read : readAt nul beyond text p = .ok c := by
  have length := ahead.length_add
  rw [length_cons] at length
  have here : text[p]? = some c := by
    rw [← head?_drop, ahead.2]
    rfl
  rw [readAt, getElem?_append_left (by omega), here]
  rfl

end

theorem Ahead.read_end (ahead : Ahead text p []) : readAt nul beyond text p = .ok nul := by
  have length : p = text.length := ahead.length_add
  rw [readAt, length, getElem?_concat_length]
  rfl

def Scans (text : List α) (p : ℕ) (scan : Except ε (β × ℕ)) (parsed : β × List α) : Prop :=
  ∃ q, p ≤ q ∧ scan = .ok (parsed.1, q) ∧ Ahead text q parsed.2

theorem Scans.done {value : β} (ahead : Ahead text p rest) :
    Scans text p (.ok (value, p) : Except ε (β × ℕ)) (value, rest) :=
  ⟨p, Nat.le_refl p, rfl, ahead⟩

variable {scan : Except ε (β × ℕ)} {parsed : β × List α}

theorem Scans.later (scans : Scans text q scan parsed) (le : p ≤ q) : Scans text p scan parsed := by
  obtain ⟨r, after, same, ahead⟩ := scans
  exact ⟨r, Nat.le_trans le after, same, ahead⟩

theorem Scans.bind {next : β × ℕ → Except ε (γ × ℕ)} {result : γ × List α}
    (first : Scans text p scan parsed)
    (second : ∀ q, Ahead text q parsed.2 → Scans text q (next (parsed.1, q)) result) :
    Scans text p (scan >>= next) result := by
  obtain ⟨q, le, same, ahead⟩ := first
  rw [same, bind_ok]
  exact (second q ahead).later le

end Foundation
