import Elaborato.Mentos.Kheap
import Mathlib.Data.List.Chain
import Mathlib.Data.List.Perm.Basic

/-!
The heap as a sequence of blocks, and the chain of headers that stands for it in memory.
-/
namespace Elaborato.Mentos.Kheap
open Foundation List

/-- A block with its real size. -/
structure Block where
  addr : Nat
  size : Nat
  free : Bool
  deriving DecidableEq, Repr

def Block.stop (b : Block) : Nat := b.addr + 12 + b.size

def Tiles : Nat → List Block → Nat → Prop
  | a, [], e => a = e
  | a, b :: bs, e => b.addr = a ∧ Tiles b.stop bs e

def Spread : Nat → List Block → Nat → Prop
  | a, [], e => a ≤ e
  | a, b :: bs, e => a ≤ b.addr ∧ Spread b.stop bs e

variable {a e : Nat} {b : Block} {bs xs ys : List Block}

theorem tiles_append : Tiles a (xs ++ ys) e ↔ ∃ mid, Tiles a xs mid ∧ Tiles mid ys e := by
  induction xs generalizing a with
  | nil => exact ⟨fun h => ⟨a, rfl, h⟩, fun ⟨_, here, h⟩ => here ▸ h⟩
  | cons x xs ih =>
    constructor
    · rintro ⟨first, rest⟩
      obtain ⟨mid, left, right⟩ := ih.mp rest
      exact ⟨mid, ⟨first, left⟩, right⟩
    · rintro ⟨mid, ⟨first, left⟩, right⟩
      exact ⟨first, ih.mpr ⟨mid, left, right⟩⟩

theorem Tiles.spread (tiles : Tiles a bs e) : Spread a bs e := by
  induction bs generalizing a with
  | nil => exact Nat.le_of_eq tiles
  | cons b bs ih => exact ⟨Nat.le_of_eq tiles.1.symm, ih tiles.2⟩

variable {a' : Nat}

section
variable (spread : Spread a bs e)
include spread

theorem Spread.lower (le : a' ≤ a) : Spread a' bs e := by
  cases bs with
  | nil => exact Nat.le_trans le spread
  | cons b bs => exact ⟨Nat.le_trans le spread.1, spread.2⟩

omit spread in
theorem spread_append : Spread a (xs ++ ys) e ↔ ∃ mid, Spread a xs mid ∧ Spread mid ys e := by
  induction xs generalizing a with
  | nil => exact ⟨fun h => ⟨a, Nat.le_refl a, h⟩, fun ⟨_, here, h⟩ => h.lower here⟩
  | cons x xs ih =>
    constructor
    · rintro ⟨first, rest⟩
      obtain ⟨mid, left, right⟩ := ih.mp rest
      exact ⟨mid, ⟨first, left⟩, right⟩
    · rintro ⟨mid, ⟨first, left⟩, right⟩
      exact ⟨first, ih.mpr ⟨mid, left, right⟩⟩

theorem spread_length : a + 12 * bs.length ≤ e := by
  induction bs generalizing a with
  | nil => exact spread
  | cons b bs ih =>
    have rest := ih spread.2
    have first := spread.1
    rw [Block.stop] at rest
    rw [length_cons]
    omega

theorem spread_bounds (hb : b ∈ bs) : a ≤ b.addr ∧ b.stop ≤ e := by
  induction bs generalizing a with
  | nil => cases hb
  | cons c bs ih =>
    obtain ⟨first, rest⟩ := spread
    have len := spread_length rest
    rcases mem_cons.mp hb with rfl | hb
    · exact ⟨first, by omega⟩
    · have := ih rest hb
      unfold Block.stop at *
      omega

theorem spread_pairwise : bs.Pairwise fun b c => b.stop ≤ c.addr := by
  induction bs generalizing a with
  | nil => exact .nil
  | cons b bs ih =>
    exact .cons (fun c hc => (spread_bounds spread.2 hc).1) (ih spread.2)

theorem spread_apart {c : Block} (hb : b ∈ bs) (hc : c ∈ bs) :
    b = c ∨ b.stop ≤ c.addr ∨ c.stop ≤ b.addr := by
  induction bs generalizing a with
  | nil => cases hb
  | cons d bs ih =>
    rcases mem_cons.mp hb with rfl | later
    · rcases mem_cons.mp hc with rfl | later
      · exact .inl rfl
      · exact .inr (.inl (spread_bounds spread.2 later).1)
    · rcases mem_cons.mp hc with rfl | later'
      · exact .inr (.inr (spread_bounds spread.2 later).1)
      · exact ih spread.2 later later'

theorem spread_addr_inj {c : Block} (hb : b ∈ bs) (hc : c ∈ bs) (same : b.addr = c.addr) :
    b = c := by
  rcases spread_apart spread hb hc with h | h | h
  · exact h
  all_goals
    unfold Block.stop at h
    omega

theorem spread_nodup : (bs.map Block.addr).Nodup := by
  refine pairwise_map.mpr ((spread_pairwise spread).imp fun h => ?_)
  unfold Block.stop at h
  omega

end

def records (start : Nat) (bs : List Block) : List Nat := start :: bs.map Block.addr

theorem records_spaced {start e : Nat} {bs : List Block} (spread : Spread (start + 12) bs e) :
    AllSpaced (records start bs) := by
  have below : ∀ r ∈ bs.map Block.addr, start + 12 ≤ r := by
    intro r hr
    obtain ⟨b, hb, rfl⟩ := mem_map.mp hr
    exact (spread_bounds spread hb).1
  intro r hr r' hr'
  rcases mem_cons.mp hr with rfl | hr
  · rcases mem_cons.mp hr' with rfl | hr'
    · exact .inl rfl
    · exact .inr (.inl (below r' hr'))
  · rcases mem_cons.mp hr' with hstart | hr'
    · exact .inr (.inr (hstart ▸ below r hr))
    · obtain ⟨b, hb, rfl⟩ := mem_map.mp hr
      obtain ⟨c, hc, rfl⟩ := mem_map.mp hr'
      rcases spread_apart spread hb hc with rfl | h | h
      · exact .inl rfl
      all_goals
        unfold Block.stop at h
        unfold Spaced
        omega

def lastAddr (bs : List Block) : Nat := (bs.map Block.addr).getLastD 0

@[simp] theorem lastAddr_concat (bs : List Block) (b : Block) : lastAddr (bs ++ [b]) = b.addr := by
  rw [lastAddr, map_append, map_singleton, getLastD_concat]

theorem lastAddr_append_cons (xs ys : List Block) (b : Block) :
    lastAddr (xs ++ b :: ys) = lastAddr (b :: ys) := by
  simp [lastAddr, getLastD_eq_getLast?, getLast?_append, getLast?_cons]

def firstAddr (bs : List Block) : Nat := (bs.map Block.addr).headD 0

structure BlockChain (σ : Nat → Fin 3 → Nat) (start curr : Nat) (bs : List Block) : Prop where
  tiles : Tiles (start + 12) bs curr
  sizes : ∀ b ∈ bs, σ b.addr sizeWord = b.size + b.free.toNat
  even : ∀ b ∈ bs, b.size % 2 = 0
  chain : Threaded σ nextWord (start, headWord) (bs.map Block.addr)
  tail : σ start tailWord = lastAddr bs

structure BlockList (σ : Nat → Fin 3 → Nat) (start curr : Nat) (bs : List Block) (z : Nat) :
    Prop where
  spread : Spread (start + 12) bs curr
  sizes : ∀ b ∈ bs, σ b.addr sizeWord = b.size + b.free.toNat
  even : ∀ b ∈ bs, b.size % 2 = 0
  chain : Chained σ nextWord (start, headWord) (bs.map Block.addr) z
  null : bs = [] → z = 0
  tail : σ start tailWord = lastAddr bs

theorem blockChain_iff {σ : Nat → Fin 3 → Nat} {start curr : Nat} {bs : List Block} :
    BlockChain σ start curr bs ↔ BlockList σ start curr bs 0 ∧ Tiles (start + 12) bs curr := by
  constructor
  · intro h
    exact ⟨⟨h.tiles.spread, h.sizes, h.even, threaded_iff.mp h.chain, fun _ => rfl, h.tail⟩,
      h.tiles⟩
  · rintro ⟨h, tiles⟩
    exact ⟨tiles, h.sizes, h.even, threaded_iff.mpr h.chain, h.tail⟩

variable {σ σ' : Nat → Fin 3 → Nat} {start curr curr' z z' : Nat} {p q : Block}
  {mid mid' : List Block}

variable (h : BlockList σ start curr bs z)
include h

theorem BlockList.congr (size : ∀ b ∈ bs, σ' b.addr sizeWord = σ b.addr sizeWord)
    (next : ∀ b ∈ bs, σ' b.addr nextWord = σ b.addr nextWord)
    (head : σ' start headWord = σ start headWord) (tail : σ' start tailWord = σ start tailWord) :
    BlockList σ' start curr bs z := by
  refine ⟨h.spread, fun b hb => (size b hb).trans (h.sizes b hb), h.even,
    chained_move h.chain head ?_, h.null, tail.trans h.tail⟩
  intro r hr
  obtain ⟨b, hb, rfl⟩ := mem_map.mp hr
  exact next b hb

omit h in
theorem BlockList.next (h : BlockList σ start curr (xs ++ b :: ys) z) :
    σ b.addr nextWord = (ys.map Block.addr).headD z := by
  have chain := h.chain
  rw [map_append, map_cons] at chain
  exact chained_first (chained_drop chain).2

theorem BlockList.below (hb : b ∈ bs) :
    start + 12 ≤ b.addr ∧ b.stop ≤ curr := spread_bounds h.spread hb

omit h in
theorem BlockList.tail_iff (h : BlockList σ start curr (xs ++ b :: ys) z) :
    b.addr = σ start tailWord ↔ ys = [] := by
  rw [h.tail]
  rcases eq_nil_or_concat ys with rfl | ⟨ys, y, rfl⟩
  · simp
  · rw [concat_eq_append] at h ⊢
    have split : xs ++ b :: (ys ++ [y]) = (xs ++ b :: ys) ++ [y] := by simp
    rw [split, lastAddr_concat]
    have before := spread_pairwise h.spread
    rw [split, pairwise_append] at before
    have := before.2.2 b (by simp) y (by simp)
    unfold Block.stop at this
    simp only [append_eq_nil_iff, cons_ne_self, and_false, iff_false]
    omega

theorem BlockList.tail_ne_zero (hb : b ∈ bs) : σ start tailWord ≠ 0 := by
  rw [h.tail]
  rcases eq_nil_or_concat bs with rfl | ⟨bs, c, rfl⟩
  · cases hb
  · rw [concat_eq_append] at h ⊢
    have := h.below (mem_append_right bs (mem_singleton_self c))
    rw [lastAddr_concat]
    omega

omit h in
theorem BlockList.replace (h : BlockList σ start curr (xs ++ p :: (mid ++ ys)) z)
    (addr : q.addr = p.addr) (spread : ∀ e, Spread p.stop mid e → Spread q.stop mid' e)
    (sizes : ∀ b ∈ q :: mid', σ' b.addr sizeWord = b.size + b.free.toNat)
    (even : ∀ b ∈ q :: mid', b.size % 2 = 0)
    (chain : Chained σ' nextWord (p.addr, nextWord) ((mid' ++ ys).map Block.addr) z')
    (tail : σ' start tailWord = lastAddr (q :: (mid' ++ ys)))
    (sameSize : ∀ b ∈ xs ++ ys, σ' b.addr sizeWord = σ b.addr sizeWord)
    (sameNext : ∀ b ∈ xs, σ' b.addr nextWord = σ b.addr nextWord)
    (sameHead : σ' start headWord = σ start headWord) :
    BlockList σ' start curr (xs ++ q :: (mid' ++ ys)) z' := by
  refine ⟨?_, ?_, ?_, ?_, by simp, ?_⟩
  · obtain ⟨a, before, first, rest⟩ := spread_append.mp h.spread
    obtain ⟨e, inner, after⟩ := spread_append.mp rest
    exact spread_append.mpr ⟨a, before, addr ▸ first, spread_append.mpr ⟨e, spread e inner, after⟩⟩
  · intro b hb
    simp only [mem_append, mem_cons] at hb
    rcases hb with hb | hb | hb | hb
    · exact (sameSize b (mem_append_left _ hb)).trans (h.sizes b (by simp [hb]))
    · exact sizes b (by simp [hb])
    · exact sizes b (by simp [hb])
    · exact (sameSize b (mem_append_right _ hb)).trans (h.sizes b (by simp [hb]))
  · intro b hb
    simp only [mem_append, mem_cons] at hb
    rcases hb with hb | hb | hb | hb
    · exact h.even b (by simp [hb])
    · exact even b (by simp [hb])
    · exact even b (by simp [hb])
    · exact h.even b (by simp [hb])
  · have nodup := spread_nodup h.spread
    have whole := h.chain
    simp only [map_append, map_cons, addr] at nodup whole chain ⊢
    rw [append_cons] at nodup whole ⊢
    refine chained_relink whole (nodup_append.mp nodup).1 ?_ (fun _ => sameHead) ?_ ?_
    · intro u _ equal
      exact absurd (Prod.mk.inj equal).2 (by decide)
    · intro u hu notEnd
      rw [endCell_concat] at notEnd
      rcases mem_append.mp hu with hu | hu
      · obtain ⟨x, hx, rfl⟩ := mem_map.mp hu
        exact sameNext x hx
      · exact absurd (by rw [mem_singleton.mp hu]) notEnd
    · rw [endCell_concat]
      exact chain
  · rw [tail, lastAddr_append_cons]

theorem BlockList.grow (addr : curr ≤ q.addr) (size : σ' q.addr sizeWord = q.size + q.free.toNat)
    (even : q.size % 2 = 0) (first : bs = [] → σ' start headWord = q.addr)
    (link : ∀ xs p, bs = xs ++ [p] → σ' p.addr nextWord = q.addr ∧
      σ' start headWord = σ start headWord ∧ ∀ x ∈ xs, σ' x.addr nextWord = σ x.addr nextWord)
    (last : σ' q.addr nextWord = z') (tail : σ' start tailWord = q.addr)
    (sameSize : ∀ b ∈ bs, σ' b.addr sizeWord = σ b.addr sizeWord) :
    BlockList σ' start q.stop (bs ++ [q]) z' := by
  refine ⟨spread_append.mpr ⟨curr, h.spread, addr, Nat.le_refl _⟩, ?_, ?_, ?_, by simp, ?_⟩
  · intro b hb
    rcases mem_append.mp hb with hb | hb
    · exact (sameSize b hb).trans (h.sizes b hb)
    · exact mem_singleton.mp hb ▸ size
  · intro b hb
    rcases mem_append.mp hb with hb | hb
    · exact h.even b hb
    · exact mem_singleton.mp hb ▸ even
  · rcases eq_nil_or_concat bs with rfl | ⟨xs, p, rfl⟩
    · exact ⟨first rfl, last⟩
    · rw [concat_eq_append] at h link ⊢
      obtain ⟨linked, sameHead, sameNext⟩ := link xs p rfl
      have nodup := spread_nodup h.spread
      have chain : Chained σ nextWord (start, headWord) ((xs ++ [p]).map Block.addr ++ []) z := by
        rw [append_nil]
        exact h.chain
      rw [map_append] at chain nodup ⊢
      rw [map_append]
      refine chained_relink chain nodup ?_ (fun _ => sameHead) ?_ ?_
      · intro u _ equal
        exact absurd (Prod.mk.inj equal).2 (by decide)
      · intro u hu notEnd
        rw [map_singleton, endCell_concat] at notEnd
        rcases mem_append.mp hu with hu | hu
        · obtain ⟨x, hx, rfl⟩ := mem_map.mp hu
          exact sameNext x hx
        · exact absurd (by rw [mem_singleton.mp hu]) notEnd
      · rw [map_singleton, endCell_concat]
        exact ⟨linked, last⟩
  · rw [tail, lastAddr_concat]

end Elaborato.Mentos.Kheap
