import Elaborato.Foundation.Texts

/-!
Strings in memory, and the loops of string.c, with enough fuel for the characters.
-/
namespace Elaborato.Mentos.Strings
open Foundation List

structure Writes where
  mem : ByteMem
  written : List ℕ

def Writes.put (s : Writes) (a : ℕ) (b : UInt8) : Writes :=
  ⟨Function.update s.mem a b, a :: s.written⟩

def advance (stop : UInt8 → Option Bool) (m : ByteMem) : ℕ → ℕ → Option ℕ
  | 0, _ => none
  | fuel + 1, str => do
      if ← stop (m str) then some str else advance stop m fuel (str + 1)

def strlen (m : ByteMem) (fuel s : ℕ) : Option ℕ :=
  (advance (fun c => some (c == 0)) m fuel s).map (· - s)

/-- The string at an address. -/
def readText (m : ByteMem) : ℕ → ℕ → Option (List UInt8)
  | 0, _ => none
  | fuel + 1, p => if m p = 0 then some [] else (readText m fuel (p + 1)).map (m p :: ·)

/-- All of the memory may be read. -/
abbrev StringAt (m : ByteMem) (p : ℕ) (text : List UInt8) : Prop := TextAt (fun _ => True) m p text

variable {m : ByteMem} {p fuel : ℕ} {text run rest : List UInt8} {stop : UInt8 → Option Bool}

theorem readText_stored (stored : StringAt m p text) (enough : text.length < fuel) :
    readText m fuel p = some text := by
  induction text generalizing p fuel with
  | nil =>
    cases fuel with
    | zero => exact absurd enough (Nat.not_lt_zero _)
    | succ fuel => rw [readText, if_pos stored.2]
  | cons b text ih =>
    obtain ⟨-, same, nonzero, rest⟩ := stored
    cases fuel with
    | zero => exact absurd enough (Nat.not_lt_zero _)
    | succ fuel =>
      rw [readText, same, if_neg nonzero, ih rest (Nat.lt_of_succ_lt_succ enough)]
      rfl

theorem advance_stored (stored : StringAt m p (run ++ rest)) (goes : ∀ c ∈ run, stop c = some false)
    (stops : stop (rest.headD 0) = some true) (enough : run.length < fuel) :
    advance stop m fuel p = some (p + run.length) := by
  induction run generalizing p fuel with
  | nil =>
    cases fuel with
    | zero => exact absurd enough (Nat.not_lt_zero _)
    | succ fuel =>
      rw [advance, stored.first, nil_append, stops]
      rfl
  | cons c run ih =>
    obtain ⟨first, others⟩ := forall_mem_cons.mp goes
    cases fuel with
    | zero => exact absurd enough (Nat.not_lt_zero _)
    | succ fuel =>
      have later := ih stored.2.2.2 others (Nat.lt_of_succ_lt_succ enough)
      rw [advance, stored.first, cons_append, headD_cons, first]
      exact later.trans (congrArg some (by rw [length_cons]; omega))

theorem strlen_stored (stored : StringAt m p text) (enough : text.length < fuel) :
    strlen m fuel p = some text.length := by
  have whole : StringAt m p (text ++ []) := by rwa [append_nil]
  have ended : advance (fun c => some (c == 0)) m fuel p = some (p + text.length) := by
    refine advance_stored whole (fun c mem => ?_) rfl enough
    rw [beq_false_of_ne (stored.nonzero mem)]
  rw [strlen, ended, Option.map_some, Nat.add_sub_cancel_left]

end Elaborato.Mentos.Strings
