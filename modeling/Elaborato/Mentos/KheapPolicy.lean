import Elaborato.Mentos.KheapRep

/-!
What the heap does to its sequence of blocks, whatever the memory: best fit and coalescing.
-/
namespace Elaborato.Mentos.Kheap
open List

structure BestFit (bs : List Block) (size : Nat) (b : Block) : Prop where
  mem : b ∈ bs
  free : b.free = true
  fits : size ≤ b.size
  least : ∀ c ∈ bs, c.free = true → size ≤ c.size → b.size ≤ c.size

def splitBlocks (xs ys : List Block) (b : Block) (size rest : Nat) : List Block :=
  xs ++ ⟨b.addr, size, false⟩ :: ([⟨b.addr + 12 + size, rest, true⟩] ++ ys)

inductive Placed (size curr : Nat) : List Block → Block → List Block → Nat → Prop
  | whole {xs ys : List Block} {b : Block} (best : BestFit (xs ++ b :: ys) size b)
      (rest : b.size < size + 20) :
      Placed size curr (xs ++ b :: ys) { b with free := false }
        (xs ++ { b with free := false } :: ys) curr
  | split {xs ys : List Block} {b : Block} {rest : Nat} (best : BestFit (xs ++ b :: ys) size b)
      (sum : size + 12 + rest = b.size) (enough : 8 ≤ rest)
      (alone : ∀ y ∈ ys.head?, y.free = false) :
      Placed size curr (xs ++ b :: ys) ⟨b.addr, size, false⟩ (splitBlocks xs ys b size rest) curr
  | merge {xs ys : List Block} {b d : Block} {rest : Nat}
      (best : BestFit (xs ++ b :: d :: ys) size b) (sum : size + 12 + rest = b.size)
      (enough : 8 ≤ rest) (free : d.free = true) :
      Placed size curr (xs ++ b :: d :: ys) ⟨b.addr, size, false⟩
        (splitBlocks xs ys b size (rest + 12 + d.size)) curr
  | grown {bs : List Block} (none : ∀ c ∈ bs, c.free = true → c.size < size) :
      Placed size curr bs ⟨curr, size, false⟩ (bs ++ [⟨curr, size, false⟩]) (curr + 12 + size)

inductive Freed : List Block → Block → List Block → Prop
  | both {xs ys : List Block} {p b d : Block} (before : p.free = true) (after : d.free = true) :
      Freed (xs ++ p :: b :: d :: ys) b
        (xs ++ ⟨p.addr, p.size + 24 + b.size + d.size, true⟩ :: ys)
  | previous {xs ys : List Block} {p b : Block} (before : p.free = true)
      (after : ∀ y ∈ ys.head?, y.free = false) :
      Freed (xs ++ p :: b :: ys) b (xs ++ ⟨p.addr, p.size + 12 + b.size, true⟩ :: ys)
  | next {xs ys : List Block} {b d : Block} (before : ∀ x ∈ xs.getLast?, x.free = false)
      (after : d.free = true) :
      Freed (xs ++ b :: d :: ys) b (xs ++ ⟨b.addr, b.size + 12 + d.size, true⟩ :: ys)
  | alone {xs ys : List Block} {b : Block} (before : ∀ x ∈ xs.getLast?, x.free = false)
      (after : ∀ y ∈ ys.head?, y.free = false) :
      Freed (xs ++ b :: ys) b (xs ++ { b with free := true } :: ys)

variable {xs ys : List Block} {p q b : Block} {a e : Nat}

theorem tiles_replace (mid mid' : List Block) (tiles : Tiles a (xs ++ p :: (mid ++ ys)) e)
    (addr : q.addr = p.addr) (fill : ∀ e, Tiles p.stop mid e → Tiles q.stop mid' e) :
    Tiles a (xs ++ q :: (mid' ++ ys)) e := by
  obtain ⟨c, before, first, rest⟩ := tiles_append.mp tiles
  obtain ⟨d, inner, after⟩ := tiles_append.mp rest
  exact tiles_append.mpr ⟨c, before, addr.trans first, tiles_append.mpr ⟨d, fill d inner, after⟩⟩

theorem coalesced_around (left : Coalesced xs) (right : Coalesced ys)
    (before : ∀ x ∈ xs.getLast?, ¬ (x.free = true ∧ q.free = true))
    (after : ∀ y ∈ ys.head?, ¬ (q.free = true ∧ y.free = true)) : Coalesced (xs ++ q :: ys) := by
  refine isChain_append.mpr ⟨left, isChain_cons.mpr ⟨after, right⟩, ?_⟩
  intro x hx y hy
  cases hy
  exact before x hx

theorem Coalesced.parts (h : Coalesced (xs ++ b :: ys)) : Coalesced xs ∧ Coalesced ys ∧
    (∀ x ∈ xs.getLast?, ¬ (x.free = true ∧ b.free = true)) ∧
      ∀ y ∈ ys.head?, ¬ (b.free = true ∧ y.free = true) := by
  obtain ⟨left, right, join⟩ := isChain_append.mp h
  obtain ⟨after, right⟩ := isChain_cons.mp right
  exact ⟨left, right, fun x hx => join x hx b rfl, after⟩

variable {size curr curr' : Nat} {bs bs' : List Block}

section
variable (h : Placed size curr bs q bs' curr')
include h

theorem Placed.size_le : size ≤ q.size := by
  cases h with
  | whole best _ => exact best.fits
  | split _ _ _ _ | merge _ _ _ _ | grown _ => exact Nat.le_refl _

attribute [local simp] filter_append

theorem Placed.allocated : (allocated bs').Perm (q :: allocated bs) := by
  cases h with
  | whole best _ => simp [Kheap.allocated, best.free]
  | split best _ _ _ => simp [Kheap.allocated, splitBlocks, best.free]
  | merge best _ _ free =>
    simp [Kheap.allocated, splitBlocks, best.free, free]
  | grown _ => simp [Kheap.allocated, perm_append_singleton]

theorem Placed.tiles (tiles : Tiles a bs curr) : Tiles a bs' curr' := by
  cases h with
  | whole _ _ => exact tiles_replace [] [] tiles rfl fun _ h => h
  | split _ sum _ _ =>
    refine tiles_replace [] [_] tiles rfl ?_
    rintro e rfl
    refine ⟨rfl, ?_⟩
    unfold Tiles Block.stop
    simp only
    omega
  | @merge _ _ _ d _ _ sum _ _ =>
    refine tiles_replace [d] [_] tiles rfl ?_
    rintro e ⟨first, rfl⟩
    refine ⟨rfl, ?_⟩
    unfold Tiles
    unfold Block.stop at first ⊢
    simp only
    omega
  | grown _ => exact tiles_append.mpr ⟨curr, tiles, rfl, rfl⟩

theorem Placed.coalesced (apart : Coalesced bs) : Coalesced bs' := by
  cases h with
  | whole _ _ =>
    obtain ⟨left, right, -, -⟩ := apart.parts
    exact coalesced_around left right (by simp) (by simp)
  | split best _ _ _ =>
    obtain ⟨left, right, -, after⟩ := apart.parts
    rw [best.free] at after
    exact coalesced_around left (isChain_cons.mpr ⟨after, right⟩) (by simp) (by simp)
  | merge best _ _ free =>
    obtain ⟨-, -, -, after⟩ := apart.parts
    exact absurd ⟨best.free, free⟩ (after _ rfl)
  | grown _ => exact coalesced_around apart .nil (by simp) (by simp)

theorem Placed.isolated (used : ∀ c ∈ bs, c.free = false) :
    q = ⟨curr, size, false⟩ ∧ bs' = bs ++ [q] ∧ curr' = curr + 12 + size := by
  cases h with
  | whole best _ | split best _ _ _ | merge best _ _ _ =>
    exact absurd (used _ best.mem) (by simp [best.free])
  | grown _ => exact ⟨rfl, rfl, rfl⟩

end

variable (h : Freed bs b bs')
include h

theorem Freed.allocated (used : b.free = false) : (allocated bs).Perm (b :: allocated bs') := by
  cases h with
  | both before after => simp [Kheap.allocated, before, after, used]
  | previous before _ => simp [Kheap.allocated, before, used]
  | next _ after => simp [Kheap.allocated, after, used]
  | alone _ _ => simp [Kheap.allocated, used]

theorem Freed.tiles (tiles : Tiles a bs curr) : Tiles a bs' curr := by
  cases h with
  | @both _ _ _ _ d _ _ =>
    refine tiles_replace [b, d] [] tiles rfl ?_
    rintro e ⟨first, second, rfl⟩
    unfold Tiles
    unfold Block.stop at first second ⊢
    simp only
    omega
  | previous _ _ =>
    refine tiles_replace [b] [] tiles rfl ?_
    rintro e ⟨first, rfl⟩
    unfold Tiles
    unfold Block.stop at first ⊢
    simp only
    omega
  | @next _ _ _ d _ _ =>
    refine tiles_replace [d] [] tiles rfl ?_
    rintro e ⟨first, rfl⟩
    unfold Tiles
    unfold Block.stop at first ⊢
    simp only
    omega
  | alone _ _ => exact tiles_replace [] [] tiles rfl fun _ h => h

theorem Freed.coalesced (apart : Coalesced bs) : Coalesced bs' := by
  cases h with
  | @both xs ys p _ d before after =>
    obtain ⟨left, -, previous, -⟩ := apart.parts
    have split : xs ++ p :: b :: d :: ys = (xs ++ [p, b]) ++ d :: ys := by simp
    obtain ⟨-, right, -, next⟩ := Coalesced.parts (split ▸ apart)
    exact coalesced_around left right (before ▸ previous) (after ▸ next)
  | previous before after =>
    obtain ⟨left, inner, previous, -⟩ := apart.parts
    exact coalesced_around left (isChain_cons.mp inner).2 (before ▸ previous)
      fun y hy both => by simp [after y hy] at both
  | @next xs ys _ d before after =>
    obtain ⟨left, -, -, -⟩ := apart.parts
    have split : xs ++ b :: d :: ys = (xs ++ [b]) ++ d :: ys := by simp
    obtain ⟨-, right, -, next⟩ := Coalesced.parts (split ▸ apart)
    exact coalesced_around left right (fun x hx both => by simp [before x hx] at both)
      (after ▸ next)
  | alone before after =>
    obtain ⟨left, right, -, -⟩ := apart.parts
    exact coalesced_around left right (fun x hx both => by simp [before x hx] at both)
      fun y hy both => by simp [after y hy] at both

theorem Freed.isolated (used : ∀ c ∈ bs, c.free = false) :
    ∃ xs ys, bs = xs ++ b :: ys ∧ bs' = xs ++ { b with free := true } :: ys := by
  cases h with
  | @both _ _ p _ _ before _ | @previous _ _ p _ before _ =>
    exact absurd (used p (by simp)) (by simp [before])
  | @next _ _ _ d _ after => exact absurd (used d (by simp)) (by simp [after])
  | @alone xs ys _ _ _ => exact ⟨xs, ys, rfl, rfl⟩

end Elaborato.Mentos.Kheap
