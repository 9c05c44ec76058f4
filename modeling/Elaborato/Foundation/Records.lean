import Mathlib.Algebra.Order.Ring.Nat
import Mathlib.Data.List.Nodup
import Mathlib.Data.Fin.Basic

/-!
Byte memory with 32-bit words, records of three words, and lists threaded through them.
-/
namespace Foundation
open List

abbrev ByteMem := Nat → UInt8

def readWord (m : ByteMem) (a : Nat) : Nat :=
  (m a).toNat + 2 ^ 8 * (m (a + 1)).toNat + 2 ^ 16 * (m (a + 2)).toNat +
    2 ^ 24 * (m (a + 3)).toNat

def writeWord (m : ByteMem) (a v : Nat) : ByteMem := fun x =>
  if a ≤ x ∧ x < a + 4 then UInt8.ofNat (v / 2 ^ (8 * (x - a))) else m x

variable {m m' : ByteMem} {a b v x : Nat}

theorem readWord_lt (m : ByteMem) (a : Nat) : readWord m a < 2 ^ 32 := by
  have h0 := (m a).toNat_lt
  have h1 := (m (a + 1)).toNat_lt
  have h2 := (m (a + 2)).toNat_lt
  have h3 := (m (a + 3)).toNat_lt
  unfold readWord
  omega

theorem readWord_congr (same : ∀ i < 4, m' (a + i) = m (a + i)) : readWord m' a = readWord m a := by
  have h0 := same 0 (by omega)
  rw [Nat.add_zero] at h0
  simp only [readWord, h0, same 1 (by omega), same 2 (by omega), same 3 (by omega)]

theorem writeWord_outside (out : x < a ∨ a + 4 ≤ x) : writeWord m a v x = m x := if_neg (by omega)

theorem writeWord_byte (m : ByteMem) (a v : Nat) {i : Nat} (hi : i < 4) :
    (writeWord m a v (a + i)).toNat = v / 2 ^ (8 * i) % 2 ^ 8 := by
  rw [writeWord, if_pos (by omega), Nat.add_sub_cancel_left, UInt8.toNat_ofNat']

theorem readWord_writeWord (small : v < 2 ^ 32) : readWord (writeWord m a v) a = v := by
  have first := writeWord_byte m a v (show 0 < 4 by omega)
  rw [Nat.add_zero] at first
  simp only [readWord, first, writeWord_byte m a v (show 1 < 4 by omega),
    writeWord_byte m a v (show 2 < 4 by omega), writeWord_byte m a v (show 3 < 4 by omega)]
  omega

theorem readWord_writeWord_apart (apart : b + 4 ≤ a ∨ a + 4 ≤ b) :
    readWord (writeWord m a v) b = readWord m b :=
  readWord_congr fun i hi => writeWord_outside (by omega)

/-- The `k`th word of the record at `r`. -/
def cell (m : ByteMem) (r : Nat) (k : Fin 3) : Nat := readWord m (r + 4 * k)

def setCell (m : ByteMem) (r : Nat) (k : Fin 3) (v : Nat) : ByteMem := writeWord m (r + 4 * k) v

def updCell (σ : Nat → Fin 3 → Nat) (r : Nat) (k : Fin 3) (v : Nat) : Nat → Fin 3 → Nat :=
  fun r' k' => if r' = r ∧ k' = k then v else σ r' k'

def Spaced (r r' : Nat) : Prop := r = r' ∨ r + 12 ≤ r' ∨ r' + 12 ≤ r

variable {r r' : Nat} {k k' : Fin 3} {σ : Nat → Fin 3 → Nat}

theorem cell_lt (m : ByteMem) (r : Nat) (k : Fin 3) : cell m r k < 2 ^ 32 := readWord_lt _ _

theorem setCell_outside (out : x < r ∨ r + 12 ≤ x) : setCell m r k v x = m x :=
  writeWord_outside (by omega)

theorem cell_congr (same : ∀ x, r ≤ x → x < r + 12 → m' x = m x) : cell m' r k = cell m r k :=
  readWord_congr fun i hi => same _ (by omega) (by omega)

theorem cell_setCell (spaced : Spaced r r') (small : v < 2 ^ 32) :
    cell (setCell m r k v) r' k' = updCell (cell m) r k v r' k' := by
  unfold updCell
  by_cases here : r' = r ∧ k' = k
  · obtain ⟨rfl, rfl⟩ := here
    rw [if_pos ⟨rfl, rfl⟩]
    exact readWord_writeWord small
  · rw [if_neg here]
    refine readWord_writeWord_apart ?_
    unfold Spaced at spaced
    by_cases same : r' = r
    · subst same
      have other : (k' : Nat) ≠ k := fun h => here ⟨rfl, Fin.ext h⟩
      omega
    · omega

theorem updCell_word (other : k' ≠ k) : updCell σ r k v r' k' = σ r' k' := if_neg fun h => other h.2

def CellsAre (rs : List Nat) (m : ByteMem) (σ : Nat → Fin 3 → Nat) : Prop :=
  ∀ r ∈ rs, ∀ k, cell m r k = σ r k

def AllSpaced (rs : List Nat) : Prop := ∀ r ∈ rs, ∀ r' ∈ rs, Spaced r r'

theorem cellsAre_self (rs : List Nat) (m : ByteMem) : CellsAre rs m (cell m) := fun _ _ _ => rfl

variable {rs : List Nat}

theorem CellsAre.set (h : CellsAre rs m σ) (spaced : AllSpaced rs) (hr : r ∈ rs) (k : Fin 3)
    (small : v < 2 ^ 32) : CellsAre rs (setCell m r k v) (updCell σ r k v) := by
  intro r' hr' k'
  rw [cell_setCell (spaced r hr r' hr') small, updCell, updCell, h r' hr' k']

theorem CellsAre.behind (h : CellsAre rs m σ) (behind : ∀ r' ∈ rs, r' + 12 ≤ r) :
    CellsAre rs (setCell m r k v) σ := by
  intro r' hr' k'
  have := behind r' hr'
  rw [cell_congr fun x _ high => setCell_outside (by omega), h r' hr' k']

def Untouched (rs : List Nat) (m m' : ByteMem) : Prop :=
  ∀ x, (∀ r ∈ rs, x < r ∨ r + 12 ≤ x) → m' x = m x

theorem Untouched.trans {m'' : ByteMem} (first : Untouched rs m m') (second : Untouched rs m' m'') :
    Untouched rs m m'' :=
  fun x out => (second x out).trans (first x out)

theorem Untouched.mono {rs' : List Nat} (h : Untouched rs m m') (sub : rs ⊆ rs') :
    Untouched rs' m m' :=
  fun x out => h x fun r hr => out r (sub hr)

theorem untouched_set (m : ByteMem) (hr : r ∈ rs) (k : Fin 3) (v : Nat) :
    Untouched rs m (setCell m r k v) :=
  fun _ out => setCell_outside (out r hr)

def Chained (σ : Nat → Fin 3 → Nat) (k : Fin 3) : Nat × Fin 3 → List Nat → Nat → Prop
  | c, [], z => σ c.1 c.2 = z
  | c, x :: xs, z => σ c.1 c.2 = x ∧ Chained σ k (x, k) xs z

def Threaded (σ : Nat → Fin 3 → Nat) (k : Fin 3) : Nat × Fin 3 → List Nat → Prop
  | c, [] => σ c.1 c.2 = 0
  | c, x :: xs => σ c.1 c.2 = x ∧ Threaded σ k (x, k) xs

def endCell (k : Fin 3) : Nat × Fin 3 → List Nat → Nat × Fin 3
  | c, [] => c
  | _, x :: xs => endCell k (x, k) xs

variable {σ' : Nat → Fin 3 → Nat} {c : Nat × Fin 3} {us vs vs' xs : List Nat} {z z' : Nat}

theorem endCell_append : endCell k c (us ++ vs) = endCell k (endCell k c us) vs := by
  induction us generalizing c with
  | nil => rfl
  | cons u us ih => exact ih

theorem endCell_concat (x : Nat) : endCell k c (us ++ [x]) = (x, k) := endCell_append

theorem endCell_cases (k : Fin 3) (c : Nat × Fin 3) (us : List Nat) :
    endCell k c us = c ∨ ∃ u ∈ us, endCell k c us = (u, k) := by
  induction us generalizing c with
  | nil => exact .inl rfl
  | cons u us ih =>
    rcases ih (u, k) with h | ⟨u', hu', h⟩
    · exact .inr ⟨u, mem_cons_self, h⟩
    · exact .inr ⟨u', mem_cons_of_mem _ hu', h⟩

theorem chained_first (chain : Chained σ k c xs z) : σ c.1 c.2 = xs.headD z := by
  cases xs with
  | nil => exact chain
  | cons x xs => exact chain.1

theorem chained_drop (chain : Chained σ k c (us ++ vs) z) : Chained σ k (endCell k c us) vs z := by
  induction us generalizing c with
  | nil => exact chain
  | cons u us ih => exact ih chain.2

variable {c' : Nat × Fin 3}

theorem chained_move (chain : Chained σ k c xs z) (first : σ' c'.1 c'.2 = σ c.1 c.2)
    (same : ∀ x ∈ xs, σ' x k = σ x k) : Chained σ' k c' xs z := by
  induction xs generalizing c c' with
  | nil => exact first.trans chain
  | cons x xs ih =>
    exact ⟨first.trans chain.1, ih chain.2 (same x mem_cons_self)
      fun y hy => same y (mem_cons_of_mem _ hy)⟩

theorem chained_next_mem {p : Nat} (chain : Chained σ k c (us ++ p :: vs) z) {u : Nat}
    (hu : u ∈ us) : σ u k ∈ us ++ [p] := by
  induction us generalizing c with
  | nil => cases hu
  | cons w us ih =>
    rcases mem_cons.mp hu with rfl | hu
    · rw [chained_first chain.2]
      cases us <;> simp
    · exact mem_cons_of_mem _ (ih chain.2 hu)

theorem chained_relink (chain : Chained σ k c (us ++ vs) z) (nodup : us.Nodup)
    (fresh : ∀ u ∈ us, (u, k) ≠ c) (first : c ≠ endCell k c us → σ' c.1 c.2 = σ c.1 c.2)
    (same : ∀ u ∈ us, (u, k) ≠ endCell k c us → σ' u k = σ u k)
    (after : Chained σ' k (endCell k c us) vs' z') : Chained σ' k c (us ++ vs') z' := by
  induction us generalizing c with
  | nil => exact after
  | cons u us ih =>
    obtain ⟨once, nodup⟩ := nodup_cons.mp nodup
    have notEnd : c ≠ endCell k (u, k) us := by
      rcases endCell_cases k (u, k) us with h | ⟨u', hu', h⟩
      · rw [h]
        exact (fresh u mem_cons_self).symm
      · rw [h]
        exact (fresh u' (mem_cons_of_mem _ hu')).symm
    refine ⟨(first notEnd).trans chain.1, ih chain.2 nodup ?_ ?_ ?_ after⟩
    · intro u' hu' h
      exact once ((Prod.mk.inj h).1 ▸ hu')
    · exact same u mem_cons_self
    · exact fun u' hu' => same u' (mem_cons_of_mem _ hu')

theorem threaded_iff : Threaded σ k c xs ↔ Chained σ k c xs 0 := by
  induction xs generalizing c with
  | nil => rfl
  | cons x xs ih => exact and_congr_right fun _ => ih

theorem threaded_move (thread : Threaded σ k c xs) (first : σ' c'.1 c'.2 = σ c.1 c.2)
    (same : ∀ x ∈ xs, σ' x k = σ x k) : Threaded σ' k c' xs :=
  threaded_iff.mpr (chained_move (threaded_iff.mp thread) first same)

inductive Reached (σ : Nat → Fin 3 → Nat) (k : Fin 3) (c : Nat × Fin 3) : Nat → Prop
  | first : σ c.1 c.2 ≠ 0 → Reached σ k c (σ c.1 c.2)
  | next {r : Nat} : Reached σ k c r → σ r k ≠ 0 → Reached σ k c (σ r k)

theorem reached_mem {r : Nat} (thread : Threaded σ k c xs) (reached : Reached σ k c r) :
    r ∈ xs := by
  induction reached with
  | first nonzero =>
    rw [chained_first (threaded_iff.mp thread)] at nonzero ⊢
    cases xs with
    | nil => exact absurd rfl nonzero
    | cons x xs => exact mem_cons_self
  | next _ nonzero ih =>
    obtain ⟨us, vs, rfl⟩ := append_of_mem ih
    have rest := chained_first (chained_drop (threaded_iff.mp thread)).2
    simp only at rest
    rw [rest] at nonzero ⊢
    cases vs with
    | nil => exact absurd rfl nonzero
    | cons v vs => exact mem_append_right _ (by simp)

/-- The first place at which a walk stops. -/
def seek (stop : Nat → Bool) (next : Nat → Nat) : Nat → Nat → Option Nat
  | 0, _ => none
  | fuel + 1, pos => if stop pos then some pos else seek stop next fuel (next pos)

theorem seek_chained {σ : Nat → Fin 3 → Nat} {k : Fin 3} {c : Nat × Fin 3} {us vs : List Nat}
    {p z fuel : Nat} (stop : Nat → Bool) (chain : Chained σ k c (us ++ p :: vs) z)
    (going : ∀ u ∈ us, stop u = false) (stops : stop p = true) (enough : us.length < fuel) :
    seek stop (σ · k) fuel (σ c.1 c.2) = some p := by
  induction us generalizing c fuel with
  | nil =>
    obtain ⟨fuel, rfl⟩ : ∃ f, fuel = f + 1 := ⟨fuel - 1, by simp at enough; omega⟩
    rw [chain.1, seek, if_pos stops]
  | cons u us ih =>
    obtain ⟨fuel, rfl⟩ : ∃ f, fuel = f + 1 := ⟨fuel - 1, by simp at enough; omega⟩
    have here : stop u = false := going u mem_cons_self
    rw [chain.1, seek, if_neg (by simp [here])]
    exact ih chain.2 (fun u' hu' => going u' (mem_cons_of_mem _ hu'))
      (by simpa using enough)

end Foundation
