import Elaborato.Mentos.KheapRealloc

/-!
The cases in which `krealloc` breaks the chain of blocks.
-/
namespace Elaborato.Mentos.Kheap
open Foundation List

variable {a e : Nat} {bs : List Block} {c f : Block}

theorem tiles_gap (tiles : Tiles a bs e) (hc : c ∈ bs) (hf : f ∈ bs) :
    ¬ (c.stop < f.addr ∧ f.addr < c.stop + 12) := by
  rintro ⟨low, high⟩
  obtain ⟨us, vs, rfl⟩ := append_of_mem hc
  obtain ⟨_, -, -, rest⟩ := tiles_append.mp tiles
  have before := spread_pairwise tiles.spread
  rcases mem_append.mp hf with hf | hf
  · have := (pairwise_append.mp before).2.2 f hf c (by simp)
    unfold Block.stop at this low
    omega
  rcases mem_cons.mp hf with rfl | hf
  · unfold Block.stop at low
    omega
  cases vs with
  | nil => cases hf
  | cons d vs =>
    have first := rest.1
    rcases mem_cons.mp hf with rfl | hf
    · omega
    · have := (spread_bounds rest.2.spread hf).1
      unfold Block.stop at this first low high
      omega

variable {heap : HeapArea} {s : HeapState} {fl : List Nat}

theorem Contiguous.first_free (h : Contiguous heap s bs fl) {a : Nat}
    (first : cell s.mem heap.vmStart freelistWord = a) (nonzero : a ≠ 0) :
    ∃ f ∈ bs, f.free = true ∧ f.addr = a := by
  obtain ⟨⟨z, blocks⟩, -⟩ := h
  refine blocks.mem_fl.mp ?_
  have head := chained_first (threaded_iff.mp blocks.freelist)
  simp only [first] at head
  cases fl with
  | nil => exact absurd head nonzero
  | cons f fl => exact head ▸ mem_cons_self

section
variable (h : Contiguous heap s bs fl) (hc : c ∈ bs)
include h hc

theorem Contiguous.linked (inner : cell s.mem heap.vmStart tailWord ≠ c.addr) :
    cell s.mem c.addr nextWord = c.stop ∧ ∃ e ∈ bs, e.addr = c.stop := by
  obtain ⟨⟨z, blocks⟩, tiles⟩ := h
  obtain ⟨us, vs, rfl⟩ := append_of_mem hc
  cases vs with
  | nil => exact absurd (blocks.blocks.tail_iff.mpr rfl).symm inner
  | cons d vs =>
    obtain ⟨_, -, -, next, -⟩ := tiles_append.mp tiles
    exact ⟨blocks.blocks.next.trans next, d, by simp, next⟩

theorem Contiguous.not_last (hf : f ∈ bs) (later : c.addr < f.addr) :
    cell s.mem heap.vmStart tailWord ≠ c.addr := by
  obtain ⟨⟨z, blocks⟩, tiles⟩ := h
  obtain ⟨us, vs, rfl⟩ := append_of_mem hc
  intro last
  obtain rfl := blocks.blocks.tail_iff.mp last.symm
  rcases mem_append.mp hf with hf | hf
  · have := (pairwise_append.mp (spread_pairwise tiles.spread)).2.2 f hf c (by simp)
    unfold Block.stop at this
    omega
  · rw [mem_singleton.mp hf] at later
    omega

theorem Contiguous.behind_next (hf : f ∈ bs) (later : c.addr < f.addr) {next : Nat}
    (link : cell s.mem c.addr nextWord = next) (other : f.addr ≠ next) :
    next + 12 ≤ f.addr ∧ ∃ e ∈ bs, e.addr = next := by
  obtain ⟨linked, e, he, place⟩ := h.linked hc (h.not_last hc hf later)
  rw [link] at linked
  refine ⟨?_, e, he, place.trans linked.symm⟩
  have gap := tiles_gap h.tiles hc hf
  rcases spread_apart h.tiles.spread hc hf with rfl | apart | apart
  · omega
  · omega
  · unfold Block.stop at apart
    omega

theorem Contiguous.size_of_used (used : c.free = false) : cell s.mem c.addr sizeWord = c.size := by
  obtain ⟨⟨z, blocks⟩, -⟩ := h
  rw [blocks.blocks.sizes c hc, used]
  rfl

end

section Fails
variable {s' : HeapState} {xs ys : List Block} {b d e p : Block} {z size v : Nat} {m m' : ByteMem}

theorem not_reallocated_stale (word : cell s'.mem a sizeWord = v)
    (inner : cell s'.mem heap.vmStart tailWord ≠ a)
    (stale : cell s'.mem a nextWord ≠ a + 12 + v) :
    ¬ Reallocated heap s bs b size (a + 12) s' := by
  rintro ⟨bs', fl', c, rep, hc, used, here, -⟩
  obtain rfl : a = c.addr := by omega
  rw [rep.size_of_used hc used] at word
  obtain ⟨next, -⟩ := rep.linked hc inner
  exact stale (word ▸ next)

theorem not_reallocated_split (word : cell s'.mem a sizeWord = v)
    (first : cell s'.mem heap.vmStart freelistWord = a + 12 + v + 4) :
    ¬ Reallocated heap s bs b size (a + 12) s' := by
  rintro ⟨bs', fl', c, rep, hc, used, here, -⟩
  obtain rfl : a = c.addr := by omega
  rw [rep.size_of_used hc used] at word
  obtain ⟨f, hf, -, place⟩ := rep.first_free first (by omega)
  refine tiles_gap rep.tiles hc hf ?_
  unfold Block.stop
  omega

theorem join_stale (chain : BlockList (cell m) heap.vmStart s.curr (xs ++ c :: d :: e :: ys) z)
    (next : d.addr = c.stop) (top : s.curr < 2 ^ 31)
    (same : ∀ x, x < c.addr + 12 → m' x = resize m c.addr (c.size + 12 + d.size) x) :
    ¬ Reallocated heap s bs b size (c.addr + 12) { s with mem := m' } := by
  have hc : c ∈ xs ++ c :: d :: e :: ys := by simp
  have hd : d ∈ xs ++ c :: d :: e :: ys := by simp
  have lowC := chain.below hc
  have lowD := chain.below hd
  have evenC := chain.even c hc
  have evenD := chain.even d hd
  unfold Block.stop at next lowC lowD
  have spaced : AllSpaced [heap.vmStart, c.addr] := by
    intro r hr r' hr'
    simp only [mem_cons, not_mem_nil, or_false] at hr hr'
    unfold Spaced
    omega
  have cells : CellsAre [heap.vmStart, c.addr] (resize m c.addr (c.size + 12 + d.size)) _ :=
    resize_cells spaced (by simp) (by omega) (by omega) (by
      intro r hr
      simp only [mem_cons, not_mem_nil, or_false] at hr
      omega)
  have read : ∀ r ∈ [heap.vmStart, c.addr], ∀ k, cell m' r k =
      updCell (cell m) c.addr sizeWord (c.size + 12 + d.size) r k := by
    intro r hr k
    rw [← cells r hr k]
    refine cell_congr fun x _ high => same x ?_
    simp only [mem_cons, not_mem_nil, or_false] at hr
    omega
  refine not_reallocated_stale (v := c.size + 12 + d.size) ?_ ?_ ?_
  · rw [read c.addr (by simp)]
    simp [updCell]
  · rw [read heap.vmStart (by simp), updCell_word (by decide)]
    intro last
    exact absurd (chain.tail_iff.mp last.symm) (by simp)
  · rw [read c.addr (by simp), updCell_word (by decide), chain.next]
    change d.addr ≠ _
    omega

theorem tail_ne_of_next {σ : Nat → Fin 3 → Nat} {start curr z : Nat}
    (h : BlockList σ start curr (xs ++ b :: d :: e :: ys) z) : σ start tailWord ≠ d.addr := by
  intro last
  have split : xs ++ b :: d :: e :: ys = (xs ++ [b]) ++ d :: e :: ys := by simp
  rw [split] at h
  exact absurd (h.tail_iff.mp last.symm) (by simp)

theorem growNext_inner (h : Contiguous heap s (xs ++ b :: d :: e :: ys) fl) (free : d.free = true)
    (done : growNext s.mem heap.vmStart b.addr d.addr (cell s.mem heap.vmStart tailWord) = .ok m') :
    ¬ Reallocated heap s bs b size (b.addr + 12) { s with mem := m' } := by
  obtain ⟨⟨z, blocks⟩, tiles⟩ := h
  have hb : b ∈ xs ++ b :: d :: e :: ys := by simp
  have hd : d ∈ xs ++ b :: d :: e :: ys := by simp
  have boundB := blocks.bounds hb
  obtain ⟨_, -, -, next, third, -⟩ := tiles_append.mp tiles
  obtain ⟨m, -, removed, -, -, only⟩ := blocks.remove hd free
  have chain : BlockList (cell m) heap.vmStart s.curr (xs ++ b :: d :: e :: ys) z :=
    blocks.blocks.freelistOnly only fun r hr => hr
  have boundD := blocks.bounds hd
  have notLast := tail_ne_of_next blocks.blocks
  refine join_stale chain next boundB.2.2.2 fun x _ => ?_
  unfold Block.stop at next
  simp only [growNext, removed, Except.map, realSize_eq chain hb, realSize_eq chain hd, overhead,
    u32_of_lt (show b.size + 12 + d.size < 2 ^ 32 by omega), if_neg notLast] at done
  cases done
  rfl

theorem growPrev_inner (h : Contiguous heap s (xs ++ p :: b :: e :: ys) fl) (free : p.free = true)
    (done : growPrev s.mem heap.vmStart p.addr b.addr (b.addr + 12)
      (cell s.mem heap.vmStart tailWord) = .ok m') :
    ¬ Reallocated heap s bs b size (p.addr + 12) { s with mem := m' } := by
  obtain ⟨⟨z, blocks⟩, tiles⟩ := h
  have hp : p ∈ xs ++ p :: b :: e :: ys := by simp
  have hb : b ∈ xs ++ p :: b :: e :: ys := by simp
  have boundB := blocks.bounds hb
  have boundP := blocks.bounds hp
  obtain ⟨_, -, -, next, -⟩ := tiles_append.mp tiles
  obtain ⟨m, -, removed, -, -, only⟩ := blocks.remove hp free
  have chain : BlockList (cell m) heap.vmStart s.curr (xs ++ p :: b :: e :: ys) z :=
    blocks.blocks.freelistOnly only fun r hr => hr
  have notLast := tail_ne_of_next blocks.blocks
  refine join_stale chain next boundB.2.2.2 fun x low => ?_
  unfold Block.stop at next
  simp only [growPrev, removed, Except.map, realSize_eq chain hp, realSize_eq blocks.blocks hb,
    overhead, u32_of_lt (show b.size + 12 + p.size < 2 ^ 32 by omega),
    u32_of_lt (show p.addr + 12 < 2 ^ 32 by omega), if_neg notLast] at done
  rw [show b.size + 12 + p.size = p.size + 12 + b.size by omega] at done
  cases done
  exact memcpy_outside (by omega) (.inl low)

end Fails

variable {start block size : Nat} {m m' : ByteMem}

theorem addToFreelist_writes (done : addToFreelist m start block = .ok m')
    (small : block < 2 ^ 32) : cell m' start freelistWord = block ∧
      ∀ y, (y < start + 8 ∨ start + 12 ≤ y) → (y < block + 4 ∨ block + 8 ≤ y) → m' y = m y := by
  unfold addToFreelist at done
  split at done
  · cases done
  · cases done
    refine ⟨readWord_writeWord small, fun y outStart outBlock => ?_⟩
    rw [setCell, writeWord_outside (by simpa using outStart), setCell,
      writeWord_outside (by simpa using outBlock)]

theorem removeFromFreelist_writes (done : removeFromFreelist m start block = .ok m') :
    (∀ y, block + 4 ≤ y → y < block + 8 → m' y = 0) ∧
      ∃ x, ∀ y, (y < x ∨ x + 4 ≤ y) → (y < block + 4 ∨ block + 8 ≤ y) → m' y = m y := by
  have cleared : ∀ m : ByteMem, ∀ y, block + 4 ≤ y → y < block + 8 →
      setCell m block nextfreeWord 0 y = 0 := by
    intro m y low high
    rw [setCell, writeWord, if_pos ⟨by simpa using low, by simpa using high⟩, Nat.zero_div]
    rfl
  have kept : ∀ m : ByteMem, ∀ y, (y < block + 4 ∨ block + 8 ≤ y) →
      setCell m block nextfreeWord 0 y = m y :=
    fun m y out => writeWord_outside (by simpa using out)
  simp only [removeFromFreelist] at done
  split at done
  · cases done
  split at done
  · cases done
  split at done
  · cases done
    refine ⟨cleared _, start + 8, fun y out outBlock => ?_⟩
    rw [kept _ y outBlock]
    exact writeWord_outside (by simpa using out)
  split at done
  · cases done
  · next prev _ =>
      cases done
      refine ⟨cleared _, prev + 4, fun y out outBlock => ?_⟩
      rw [kept _ y outBlock]
      split
      · rfl
      · exact writeWord_outside (by simpa using out)

theorem spaced_single (r : Nat) : AllSpaced [r] := by
  simp [AllSpaced, Spaced]

theorem freeBlock_writes (m : ByteMem) (block : Nat) (small : size < 2 ^ 32)
    (even : size % 2 = 0) :
    let m' := storeTrailing (setSize m block size true) block
    (∀ y, (y < block ∨ block + 4 ≤ y) → (y < u32 (block + 12 + size) ∨
      u32 (block + 12 + size) + 4 ≤ y) → m' y = m y) ∧
      (u32 (block + 12 + size) + 4 ≤ block ∨ block + 4 ≤ u32 (block + 12 + size) →
        cell m' block sizeWord = size + 1) := by
  intro m'
  have sized : CellsAre [block] (setSize m block size true) _ :=
    setSize_cells (spaced_single block) (by simp) small even true
  have word : cell (setSize m block size true) block sizeWord = size + true.toNat := by
    rw [sized block (by simp)]
    simp [updCell]
  have stored : m' = _ := storeTrailing_eq word even
  rw [stored]
  constructor
  · intro y outBlock outTrailing
    rw [writeWord_outside outTrailing, setSize, setCell,
      writeWord_outside (by simpa using outBlock), setCell,
      writeWord_outside (by simpa using outBlock)]
  · intro apart
    rw [cell, readWord_writeWord_apart (by simpa using Or.symm apart)]
    exact word

variable {xs ys : List Block} {b d : Block} {v rest : Nat}

theorem splitAlone_fails (low : heap.vmStart + 12 ≤ a) (word : cell m a sizeWord = v)
    (top : a + 12 + v + 4 < 2 ^ 32) (even : rest % 2 = 0)
    (far : a + 4 ≤ u32 (a + 12 + v + 4 + 12 + sub32 rest 12))
    (done : splitAlone m heap.vmStart (a + 12 + v + 4) rest = .ok m') :
    ¬ Reallocated heap s bs b size (a + 12) { s with mem := m' } := by
  obtain ⟨first, same⟩ := addToFreelist_writes done top
  have small : sub32 rest overhead < 2 ^ 32 := Nat.mod_lt _ (by decide)
  have evenSize : sub32 rest overhead % 2 = 0 := by
    unfold sub32 overhead
    omega
  refine not_reallocated_split (v := v) ?_ first
  rw [← word]
  refine readWord_congr fun i hi => ?_
  simp only [sizeWord, Fin.val_zero, Nat.mul_zero, Nat.add_zero] at hi ⊢
  rw [same _ (by omega) (by omega)]
  exact (freeBlock_writes _ _ small evenSize).1 _ (by omega) (.inl (by
    unfold overhead
    omega))

theorem splitMerge_writes {start splitBlock nextBlock tailBlock : Nat}
    (done : splitMerge m start splitBlock nextBlock tailBlock rest = .ok m')
    (small : splitBlock < 2 ^ 32) :
    cell m' start freelistWord = splitBlock ∧
      (∀ y, start + 12 ≤ y → y < splitBlock + 4 → nextBlock + 4 ≤ y → y < nextBlock + 8 →
        m' y = 0) ∧
      ∃ x, ∀ y, start + 12 ≤ y → (y < splitBlock + 4 ∨ splitBlock + 8 ≤ y) →
        (y < nextBlock + 4 ∨ nextBlock + 8 ≤ y) → (y < x ∨ x + 4 ≤ y) →
        m' y = storeTrailing (setSize m splitBlock
          (u32 (rest + getRealSize (cell m nextBlock sizeWord))) true) splitBlock y := by
  simp only [splitMerge] at done
  cases removed : removeFromFreelist (storeTrailing (setSize m splitBlock
      (u32 (rest + getRealSize (cell m nextBlock sizeWord))) true) splitBlock) start nextBlock with
  | error halt =>
    rw [removed] at done
    cases done
  | ok m₁ =>
    rw [removed, ok_bind] at done
    obtain ⟨cleared, x, kept⟩ := removeFromFreelist_writes removed
    obtain ⟨first, added⟩ := addToFreelist_writes done small
    have tail : ∀ y, start + 12 ≤ y → (if tailBlock = nextBlock then
        setCell m₁ start tailWord splitBlock else m₁) y = m₁ y := by
      intro y high
      split
      · exact setCell_outside (.inr high)
      · rfl
    refine ⟨first, fun y high low lowNext highNext => ?_, x, fun y high outBlock outNext out => ?_⟩
    · rw [added y (.inr high) (.inl low), tail y high, cleared y lowNext highNext]
    · rw [added y (.inr high) outBlock, tail y high, kept y out outNext]

theorem readWord_parity (m : ByteMem) (x : Nat) : readWord m x % 2 = (m x).toNat % 2 := by
  unfold readWord
  omega

theorem rest_sum {n k : Nat} (small : n + k < 2 ^ 31) (top : v + 12 < 2 ^ 32) :
    v ≤ n + k ∧ u32 (sub32 (n + 12) (v + 12) + k) = n + k - v ∨
      n + k < v ∧ u32 (sub32 (n + 12) (v + 12) + k) = 2 ^ 32 + (n + k) - v := by
  unfold u32 sub32
  omega

theorem resize_outside {y : Nat} (even : v % 2 = 0) (small : a + 12 + v < 2 ^ 32)
    (outSize : y < a ∨ a + 4 ≤ y) (out : y < a + 12 + v ∨ a + 12 + v + 4 ≤ y) :
    resize m a v y = m y := by
  rw [resize_eq (spaced_single a) (by simp) even small, writeWord_outside out,
    setSize, setCell, writeWord_outside (by simpa using outSize), setCell,
    writeWord_outside (by simpa using outSize)]

theorem resize_word (even : v % 2 = 0) (small : a + 12 + v < 2 ^ 32) :
    cell (resize m a v) a sizeWord = v := by
  rw [resize_cells (spaced_single a) (by simp) even small (by simp) a (by simp)]
  simp [updCell]

structure Overlaid (m m' : ByteMem) (b d : Block) (v x : Nat) : Prop where
  size : ¬ (x < b.addr + 4 ∧ b.addr < x + 4) → cell m' b.addr sizeWord = v
  next : x < b.addr + 4 → cell m' b.addr nextWord = cell m b.addr nextWord
  after : x < b.addr + 4 → d.addr + 12 ≤ b.addr + 12 + v + 4 →
    cell m' d.addr sizeWord = cell m d.addr sizeWord
  new : x < b.addr + 4 → b.addr + 12 + v + 4 = d.addr + 12 + d.size →
    cell m' (b.addr + 12 + v + 4) sizeWord = 2 ^ 32 - 8 + 1

theorem splitMerge_overlaid {tailBlock : Nat} (low : heap.vmStart + 12 ≤ b.addr)
    (next : d.addr = b.addr + 12 + b.size) (high : d.addr + 12 + d.size < 2 ^ 31)
    (evenB : b.size % 2 = 0) (evenD : d.size % 2 = 0)
    (real : getRealSize (cell m d.addr sizeWord) = d.size)
    (even : v % 2 = 0) (large : 16 ≤ v) (top : b.addr + 12 + v + 4 < 2 ^ 32)
    (room : v + 20 ≤ b.size ∨ b.size + 4 ≤ v)
    (done : splitMerge (resize m b.addr v) heap.vmStart (b.addr + 12 + v + 4) d.addr tailBlock
      (sub32 (b.size + 12) (v + 12)) = .ok m') : ∃ x, Overlaid m m' b d v x := by
  obtain ⟨-, -, x, same⟩ := splitMerge_writes done top
  have resized : ∀ y, b.addr + 4 ≤ y → (y < b.addr + 12 + v ∨ b.addr + 12 + v + 4 ≤ y) →
      resize m b.addr v y = m y := fun y far => resize_outside even (by omega) (.inr far)
  rw [show getRealSize (cell (resize m b.addr v) d.addr sizeWord) = d.size by
    rw [← real]
    refine congrArg getRealSize (readWord_congr fun i hi => ?_)
    simp only [sizeWord, Fin.val_zero, Nat.mul_zero, Nat.add_zero]
    exact resized _ (by omega) (by omega)] at same
  have sum := rest_sum (v := v) (n := b.size) (k := d.size) (by omega) (by omega)
  generalize hw : u32 (sub32 (b.size + 12) (v + 12) + d.size) = w at same sum
  have trailing : u32 (b.addr + 12 + v + 4 + 12 + w) = d.addr + 12 + d.size + 4 := by
    unfold u32
    omega
  obtain ⟨outside, sized⟩ := freeBlock_writes (resize m b.addr v) (b.addr + 12 + v + 4)
    (show w < 2 ^ 32 by omega) (by omega)
  rw [trailing] at outside sized
  refine ⟨x, ⟨fun clear => ?_, fun before => ?_, fun before behind => ?_, fun before exact => ?_⟩⟩
  · rw [← resize_word (m := m) even (show b.addr + 12 + v < 2 ^ 32 by omega)]
    refine readWord_congr fun i hi => ?_
    simp only [sizeWord, Fin.val_zero, Nat.mul_zero, Nat.add_zero]
    rw [same _ (by omega) (by omega) (by omega) (by omega), outside _ (by omega) (by omega)]
  · refine readWord_congr fun i hi => ?_
    simp only [nextWord, Fin.val_two]
    rw [same _ (by omega) (by omega) (by omega) (by omega), outside _ (by omega) (by omega),
      resized _ (by omega) (by omega)]
  · refine readWord_congr fun i hi => ?_
    simp only [sizeWord, Fin.val_zero, Nat.mul_zero, Nat.add_zero]
    rw [same _ (by omega) (by omega) (by omega) (by omega), outside _ (by omega) (by omega),
      resized _ (by omega) (by omega)]
  · rw [show 2 ^ 32 - 8 + 1 = w + 1 by omega, ← sized (by omega)]
    refine readWord_congr fun i hi => ?_
    simp only [sizeWord, Fin.val_zero, Nat.mul_zero, Nat.add_zero]
    exact same _ (by omega) (by omega) (by omega) (by omega)

theorem overlaid_fails {x : Nat} (h : Overlaid s.mem m' b d v x)
    (link : cell s.mem b.addr nextWord = d.addr) (next : d.addr = b.addr + 12 + b.size)
    (real : getRealSize (cell s.mem d.addr sizeWord) = d.size)
    (room : v + 20 ≤ b.size ∨ b.size + 4 ≤ v ∧ v < b.size + 16)
    (first : cell m' heap.vmStart freelistWord = b.addr + 12 + v + 4) :
    ¬ Reallocated heap s bs b size (b.addr + 12) { s with mem := m' } := by
  by_cases clear : ¬ (x < b.addr + 4 ∧ b.addr < x + 4)
  · exact not_reallocated_split (h.size clear) first
  have before : x < b.addr + 4 := by omega
  rintro ⟨bs', fl', c, rep, hc, -, here, -⟩
  obtain ⟨f, hf, -, place⟩ := rep.first_free first (by omega)
  have link' : cell m' c.addr nextWord = d.addr := by
    rw [show c.addr = b.addr by omega, h.next before, link]
  obtain ⟨behind, e, he, placeE⟩ := rep.behind_next hc hf (by omega) link' (by omega)
  obtain ⟨z, blocks⟩ := rep.blocks
  have sizeE : e.size = d.size := by
    rw [← real, ← h.after before (by omega), ← placeE]
    exact (realSize_eq blocks.blocks he).symm
  have gap := tiles_gap rep.tiles he hf
  have apart := spread_apart rep.tiles.spread he hf
  have exact : f.addr = d.addr + 12 + d.size := by
    unfold Block.stop at gap apart
    rcases apart with rfl | apart | apart <;> omega
  have sizeF : f.size = 2 ^ 32 - 8 := by
    rw [← realSize_eq blocks.blocks hf, place]
    exact (congrArg getRealSize (h.new before (by omega))).trans (by decide)
  have bound := blocks.bounds hf
  simp only at bound
  omega

theorem cleared_fails (first : cell m' heap.vmStart freelistWord = a) (nonzero : a ≠ 0)
    (cleared : m' a = 0) : ¬ Reallocated heap s bs b size v { s with mem := m' } := by
  rintro ⟨bs', fl', c, rep, -⟩
  obtain ⟨f, hf, free, place⟩ := rep.first_free first nonzero
  obtain ⟨z, blocks⟩ := rep.blocks
  have word := blocks.blocks.sizes f hf
  have even := blocks.blocks.even f hf
  have parity : cell m' a sizeWord % 2 = (m' a).toNat % 2 := readWord_parity m' a
  rw [cleared] at parity
  simp only [place, free, Bool.toNat_true] at word
  simp only [UInt8.toNat_zero] at parity
  omega

theorem splitMerge_fails (h : Contiguous heap s (xs ++ b :: d :: ys) fl)
    (even : v % 2 = 0) (large : 16 ≤ v) (top : b.addr + 12 + v + 4 < 2 ^ 32)
    (room : v + 20 ≤ b.size ∨ b.size < v ∧ v < b.size + 16) {tailBlock : Nat}
    (done : splitMerge (resize s.mem b.addr v) heap.vmStart (b.addr + 12 + v + 4) d.addr tailBlock
      (sub32 (b.size + 12) (v + 12)) = .ok m') :
    ¬ Reallocated heap s bs b size (b.addr + 12) { s with mem := m' } := by
  obtain ⟨⟨z, blocks⟩, tiles⟩ := h
  have hb : b ∈ xs ++ b :: d :: ys := by simp
  have hd : d ∈ xs ++ b :: d :: ys := by simp
  have boundB := blocks.bounds hb
  have boundD := blocks.bounds hd
  have evenB := blocks.blocks.even b hb
  obtain ⟨_, -, -, next, -⟩ := tiles_append.mp tiles
  unfold Block.stop at next
  obtain ⟨first, cleared, -⟩ := splitMerge_writes done top
  by_cases two : v = b.size + 2
  · exact cleared_fails first (by omega) (cleared _ (by omega) (by omega) (by omega) (by omega))
  · have real := realSize_eq blocks.blocks hd
    obtain ⟨x, overlaid⟩ := splitMerge_overlaid boundB.2.1 next (by omega) evenB
      (blocks.blocks.even d hd) real even large top (by omega) done
    exact overlaid_fails overlaid blocks.blocks.next next real (by omega) first

theorem shrinkBlock_eq {start nextBlock tailBlock : Nat} (even : v % 2 = 0)
    (top : a + 12 + v + 4 < 2 ^ 32) :
    shrinkBlock m start a nextBlock tailBlock (v + 12) rest =
      if nextBlock ≠ 0 ∧ isFree (resize m a v) nextBlock then
        splitMerge (resize m a v) start (a + 12 + v + 4) nextBlock tailBlock rest
      else splitAlone (resize m a v) start (a + 12 + v + 4) rest := by
  have sized : CellsAre [a] (setSize m a v false) _ :=
    setSize_cells (spaced_single a) (by simp) (by omega) even false
  have word : cell (setSize m a v false) a sizeWord = v := by
    rw [sized a (by simp)]
    simp [updCell]
  have behind : trailingSpace (setSize m a v false) a = a + 12 + v := by
    rw [trailingSpace, word, overhead, show getRealSize v = v from getRealSize_block even false,
      u32_of_lt (by omega)]
  simp only [shrinkBlock, overhead, sub32_of_le (show 12 ≤ v + 12 by omega)
    (show v + 12 < 2 ^ 32 by omega), Nat.add_sub_cancel, behind, u32_of_lt top, resize]
  rfl

theorem shrinkBlock_fails (h : Contiguous heap s (xs ++ b :: ys) fl) (even : v % 2 = 0)
    (large : 16 ≤ v) (top : b.addr + 12 + v + 4 < 2 ^ 32)
    (room : v + 20 ≤ b.size ∨ b.size < v ∧ v < b.size + 16) {tailBlock : Nat}
    (done : shrinkBlock s.mem heap.vmStart b.addr (firstAddr ys) tailBlock (v + 12)
      (sub32 (b.size + 12) (v + 12)) = .ok m') :
    ¬ Reallocated heap s bs b size (b.addr + 12) { s with mem := m' } := by
  obtain ⟨z, blocks⟩ := h.blocks
  have hb : b ∈ xs ++ b :: ys := by simp
  have boundB := blocks.bounds hb
  have evenB := blocks.blocks.even b hb
  rw [shrinkBlock_eq even top] at done
  split at done
  · next next =>
      cases ys with
      | nil => exact absurd rfl next.1
      | cons d ys => exact splitMerge_fails h even large top room done
  · refine splitAlone_fails (by omega) ?_ top ?_ ?_ done
    · exact resize_word even (by omega)
    · unfold sub32
      omega
    · unfold u32 sub32
      omega

variable {s' : HeapState} {q : Nat}

theorem ceil16_of_le (positive : 0 < size) (limit : size ≤ 0x7FFFFF00) :
    size ≤ ceil16 size ∧ ceil16 size ≤ size + 15 ∧ ceil16 size % 16 = 0 ∧ 16 ≤ ceil16 size ∧
      ceil16 size ≤ 0x7FFFFF00 := by
  obtain ⟨above, value⟩ := ceil16_spec (show size + 15 < 2 ^ 32 by omega)
  omega

section
variable (h : Contiguous heap s (xs ++ b :: ys) fl) (used : b.free = false)
include h used

theorem realloc_shrink_iff (positive : 0 < size) (limit : size ≤ 0x7FFFFF00)
    (shrink : size < b.size) (done : krealloc heap s (b.addr + 12) size = .ok (q, s')) :
    Reallocated heap s (xs ++ b :: ys) b size q s' ↔
      ceil16 size ≤ b.size ∧ b.size < ceil16 size + 20 := by
  obtain ⟨z, blocks⟩ := h.blocks
  have hb : b ∈ xs ++ b :: ys := by simp
  have boundB := blocks.bounds hb
  have rounded := ceil16_of_le positive limit
  have evenB := blocks.blocks.even b hb
  rw [krealloc_eq blocks used (by omega), if_neg (by omega), if_neg (by omega),
    u32_of_lt (show ceil16 size + 12 < 2 ^ 32 by omega)] at done
  split at done
  · next few =>
      cases done
      unfold sub32 at few
      exact ⟨fun _ => by omega, fun _ => reallocated_same h hb used (by omega)⟩
  · next many =>
      unfold sub32 at many
      obtain ⟨m', called, same⟩ := map_eq_ok done
      cases same
      refine iff_of_false (shrinkBlock_fails h (by omega) (by omega) (by omega) (by omega)
        called) ?_
      omega

theorem realloc_grow_iff (limit : size ≤ 0x7FFFFF00) (grow : b.size < size)
    (done : krealloc heap s (b.addr + 12) size = .ok (q, s')) :
    Reallocated heap s (xs ++ b :: ys) b size q s' ↔
      (joins size b ys.head? → ys.length = 1) ∧
        (¬ joins size b ys.head? → joins size b xs.getLast? → ys = []) := by
  obtain ⟨z, blocks⟩ := h.blocks
  have hb : b ∈ xs ++ b :: ys := by simp
  rw [krealloc_eq blocks used (by omega), if_neg (by omega), if_pos grow] at done
  split at done
  · next join =>
      obtain ⟨d, head, free, fits⟩ := joins_some join (by omega)
      obtain ⟨ys, rfl⟩ := head?_eq_some_iff.mp head
      simp only [join, not_true_eq_false, false_implies, and_true, true_implies, length_cons,
        Nat.add_eq_right, length_eq_zero_iff]
      obtain ⟨m', called, same⟩ := map_eq_ok done
      cases same
      cases ys with
      | nil =>
        obtain ⟨m'', called', safe⟩ := growNext_last h used free fits
        cases called.symm.trans called'
        exact iff_of_true safe rfl
      | cons e ys => exact iff_of_false (growNext_inner h free called) (by simp)
  next apart =>
  simp only [apart, Bool.false_eq_true, false_implies, true_and, not_false_eq_true, true_implies]
  split at done
  · next join =>
      obtain ⟨p, last, free, fits⟩ := joins_some join (by omega)
      obtain ⟨xs, rfl⟩ := getLast?_eq_some_iff.mp last
      rw [append_assoc, singleton_append] at h blocks ⊢
      have bound := blocks.bounds (show p ∈ xs ++ p :: b :: ys by simp)
      rw [lastAddr_concat, u32_of_lt (by omega)] at done
      simp only [join, true_implies]
      obtain ⟨m', called, same⟩ := map_eq_ok done
      cases same
      cases ys with
      | nil =>
        obtain ⟨m'', called', safe⟩ := growPrev_last h used free fits
        cases called.symm.trans called'
        exact iff_of_true safe rfl
      | cons e ys => exact iff_of_false (growPrev_inner h free called) (by simp)
  · next alone =>
      refine iff_of_true (moveBlock_spec h hb used (by omega) grow done) ?_
      simp [alone]

end

theorem krealloc_iff (h : Contiguous heap s (xs ++ b :: ys) fl) (used : b.free = false)
    (positive : 0 < size) (limit : size ≤ 0x7FFFFF00)
    (done : krealloc heap s (b.addr + 12) size = .ok (q, s')) :
    Reallocated heap s (xs ++ b :: ys) b size q s' ↔ ReallocSafe xs b ys size := by
  obtain ⟨z, blocks⟩ := h.blocks
  unfold ReallocSafe
  rcases Nat.lt_trichotomy b.size size with grow | same | shrink
  · rw [realloc_grow_iff h used limit grow done]
    constructor
    · exact fun safe => .inr (.inl ⟨grow, safe⟩)
    · rintro (same | ⟨-, safe⟩ | ⟨less, -⟩)
      · omega
      · exact safe
      · omega
  · rw [krealloc_eq blocks used (by omega), if_pos same] at done
    cases done
    exact iff_of_true (reallocated_same h (by simp) used (by omega)) (.inl same)
  · rw [realloc_shrink_iff h used positive limit shrink done]
    constructor
    · exact fun safe => .inr (.inr ⟨shrink, safe⟩)
    · rintro (same | ⟨less, -⟩ | ⟨-, safe⟩)
      · omega
      · omega
      · exact safe

theorem pageHeap_block : ∃ s fl,
    kmalloc pageHeap (kheapInit pageHeap fun _ => 0xCC) 64 = .ok (0x100018, s) ∧
      Contiguous pageHeap s ([] ++ [⟨0x10000C, 64, false⟩]) fl := by
  obtain ⟨blocks, tiles, -⟩ := heapRep_iff.mp (heapRep_init pageHeap fun _ => 0xCC)
  obtain ⟨s, fl, z, called, blocks', top⟩ := kmalloc_grows blocks (by simp)
    (show 64 ≠ 0 by decide) (show 0x10000C + 12 + ceil16 64 ≤ 0x101000 by decide)
  exact ⟨s, fl, called, ⟨z, blocks'⟩, rfl, top.symm⟩

theorem krealloc_iff_pageHeap : ∃ s s', krealloc pageHeap s 0x100018 64 = .ok (0x100018, s') ∧
    Reallocated pageHeap s ([] ++ [⟨0x10000C, 64, false⟩]) ⟨0x10000C, 64, false⟩ 64 0x100018
      s' := by
  obtain ⟨s, fl, -, rep⟩ := pageHeap_block
  obtain ⟨z, blocks⟩ := rep.blocks
  have done := (krealloc_eq blocks rfl (show 64 ≠ 0 by decide)).trans (if_pos rfl)
  exact ⟨s, s, done, (krealloc_iff rep rfl (by decide) (by decide) done).mpr (.inl rfl)⟩

theorem not_reallocated_pageHeap : ∃ s p s' q s'',
    kmalloc pageHeap s 64 = .ok (p, s') ∧ krealloc pageHeap s' p 16 = .ok (q, s'') ∧
      ∃ fl, Contiguous pageHeap s' ([] ++ [⟨0x10000C, 64, false⟩]) fl ∧
        ¬ Reallocated pageHeap s' ([] ++ [⟨0x10000C, 64, false⟩]) ⟨0x10000C, 64, false⟩ 16 q
          s'' := by
  obtain ⟨s, fl, called, rep⟩ := pageHeap_block
  obtain ⟨z, blocks⟩ := rep.blocks
  obtain ⟨m', cut⟩ : ∃ m', splitAlone (resize s.mem 0x10000C 16) pageHeap.vmStart 0x10002C 48 =
      .ok m' := ⟨_, rfl⟩
  have done : krealloc pageHeap s 0x100018 16 = (shrinkBlock s.mem pageHeap.vmStart 0x10000C
      (firstAddr []) (cell s.mem pageHeap.vmStart tailWord) (16 + 12) 48).map fun m =>
        (0x100018, { s with mem := m }) :=
    (krealloc_eq blocks rfl (show 16 ≠ 0 by decide)).trans
      ((if_neg (by decide)).trans ((if_neg (by decide)).trans (if_neg (by decide))))
  rw [shrinkBlock_eq (by decide) (by decide), if_neg (by simp [firstAddr]), cut] at done
  refine ⟨_, _, s, _, _, called, done, fl, rep, ?_⟩
  rw [realloc_shrink_iff rep rfl (by decide) (by decide) (by decide) done]
  decide

end Elaborato.Mentos.Kheap
