import Elaborato.Mentos.KheapRuns

/-!
`krealloc`. Where it joins blocks the word `next` stays, and a new free block is written 4
bytes behind the end, so the heap stays well formed only in some cases.
-/
namespace Elaborato.Mentos.Kheap
open Foundation List Function

/-- The loop of `memcpy`. -/
def memcpy : ByteMem → Nat → Nat → Nat → ByteMem
  | m, _, _, 0 => m
  | m, dst, src, num + 1 =>
    memcpy (update m dst (m src)) (u32 (dst + 1)) (u32 (src + 1)) num

def trailingSpace (m : ByteMem) (block : Nat) : Nat :=
  u32 (block + overhead + getRealSize (cell m block sizeWord))

def storeTrailing (m : ByteMem) (block : Nat) : ByteMem :=
  writeWord m (trailingSpace m block) (cell m block sizeWord)

/-- The block takes over the one after it. -/
def growNext (m : ByteMem) (start nptr nextBlock tailBlock : Nat) : Except HeapHalt ByteMem :=
  (removeFromFreelist m start nextBlock).map fun m =>
    let m := setSize m nptr (u32 (getRealSize (cell m nptr sizeWord) + overhead +
      getRealSize (cell m nextBlock sizeWord))) false
    let m := storeTrailing m nptr
    if tailBlock = nextBlock then setCell m start tailWord nptr else m

def growPrev (m : ByteMem) (start prevBlock nptr ptr tailBlock : Nat) :
    Except HeapHalt ByteMem :=
  let originalSize := getRealSize (cell m nptr sizeWord)
  (removeFromFreelist m start prevBlock).map fun m =>
    let m := setSize m prevBlock
      (u32 (originalSize + overhead + getRealSize (cell m prevBlock sizeWord))) false
    let m := storeTrailing m prevBlock
    let m := if tailBlock = nptr then setCell m start tailWord prevBlock else m
    memcpy m (u32 (prevBlock + overhead)) ptr originalSize

/-- The bytes are moved to a new block. -/
def moveBlock (heap : HeapArea) (s : HeapState) (nptr ptr size : Nat) :
    Except HeapHalt (Nat × HeapState) :=
  (kmalloc heap s size).bind fun (newplace, s) =>
    let m := memcpy s.mem newplace ptr (getRealSize (cell s.mem nptr sizeWord))
    (kfree heap { s with mem := m } ptr).map fun s => (newplace, s)

def splitMerge (m : ByteMem) (start splitBlock nextBlock tailBlock rest : Nat) :
    Except HeapHalt ByteMem :=
  let m := setSize m splitBlock (u32 (rest + getRealSize (cell m nextBlock sizeWord))) true
  let m := storeTrailing m splitBlock
  (removeFromFreelist m start nextBlock).bind fun m =>
    let m := if tailBlock = nextBlock then setCell m start tailWord splitBlock else m
    addToFreelist m start splitBlock

def splitAlone (m : ByteMem) (start splitBlock rest : Nat) : Except HeapHalt ByteMem :=
  let m := setSize m splitBlock (sub32 rest overhead) true
  let m := storeTrailing m splitBlock
  addToFreelist m start splitBlock

def shrinkBlock (m : ByteMem) (start nptr nextBlock tailBlock blockSize rest : Nat) :
    Except HeapHalt ByteMem :=
  let m := setSize m nptr (sub32 blockSize overhead) false
  let splitBlock := u32 (trailingSpace m nptr + 4)
  let m := storeTrailing m nptr
  if nextBlock ≠ 0 ∧ isFree m nextBlock then
    splitMerge m start splitBlock nextBlock tailBlock rest
  else splitAlone m start splitBlock rest

def krealloc (heap : HeapArea) (s : HeapState) (ptr size : Nat) :
    Except HeapHalt (Nat × HeapState) :=
  if ptr = 0 then kmalloc heap s size
  else if size = 0 then (kfree heap s ptr).map fun s => (0, s)
  else
    let m := s.mem
    let start := heap.vmStart
    let headBlock := cell m start headWord
    let tailBlock := cell m start tailWord
    let roundedSize := ceil16 size
    let blockSize := u32 (roundedSize + overhead)
    let nptr := sub32 ptr overhead
    (getNextBlock m start nptr).bind fun nextBlock =>
    (getPreviousBlock m start nptr).bind fun prevBlock =>
      let real := getRealSize (cell m nptr sizeWord)
      if cell m nptr sizeWord = size then .ok (ptr, s)
      else if cell m nptr sizeWord < size then
        if tailBlock ≠ nptr ∧ isFree m nextBlock ∧
            roundedSize ≤ u32 (real + overhead + getRealSize (cell m nextBlock sizeWord)) then
          (growNext m start nptr nextBlock tailBlock).map fun m =>
            (u32 (nptr + overhead), { s with mem := m })
        else if headBlock ≠ nptr ∧ isFree m prevBlock ∧
            roundedSize ≤ u32 (real + overhead + getRealSize (cell m prevBlock sizeWord)) then
          (growPrev m start prevBlock nptr ptr tailBlock).map fun m =>
            (u32 (prevBlock + overhead), { s with mem := m })
        else moveBlock heap s nptr ptr size
      else
        let rest := sub32 (u32 (real + overhead)) blockSize
        if rest < 8 + overhead then .ok (ptr, s)
        else
          (shrinkBlock m start nptr nextBlock tailBlock blockSize rest).map fun m =>
            (ptr, { s with mem := m })

def joins (size : Nat) (b : Block) (neighbour : Option Block) : Bool :=
  neighbour.any fun c => c.free && decide (ceil16 size ≤ b.size + 12 + c.size)

def Reallocated (heap : HeapArea) (s : HeapState) (bs : List Block) (b : Block) (size q : Nat)
    (s' : HeapState) : Prop :=
  ∃ bs' fl' c, Contiguous heap s' bs' fl' ∧ c ∈ bs' ∧ c.free = false ∧ q = c.addr + 12 ∧
    size ≤ c.size ∧
      (∀ o ∈ bs, o.free = false → o ≠ b → o ∈ bs' ∧ (c.stop ≤ o.addr ∨ o.stop ≤ c.addr) ∧
        ∀ x, o.addr + 12 ≤ x → x < o.stop → s'.mem x = s.mem x) ∧
        ∀ i < min b.size size, s'.mem (q + i) = s.mem (b.addr + 12 + i)

def ReallocSafe (xs : List Block) (b : Block) (ys : List Block) (size : Nat) : Prop :=
  b.size = size ∨
    (b.size < size ∧ (joins size b ys.head? → ys.length = 1) ∧
      (¬ joins size b ys.head? → joins size b xs.getLast? → ys = [])) ∨
    (size < b.size ∧ ceil16 size ≤ b.size ∧ b.size < ceil16 size + 20)

variable {m : ByteMem} {dst src num x : Nat}

theorem memcpy_outside (small : dst + num < 2 ^ 32) (out : x < dst ∨ dst + num ≤ x) :
    memcpy m dst src num x = m x := by
  induction num generalizing m dst src with
  | zero => rfl
  | succ num ih =>
    rw [memcpy, u32_of_lt (show dst + 1 < 2 ^ 32 by omega), ih (by omega) (by omega),
      update_of_ne (by omega)]

theorem memcpy_copies (small : dst + num < 2 ^ 32) (low : src + num < 2 ^ 32)
    (apart : dst ≤ src ∨ src + num ≤ dst) {i : Nat} (hi : i < num) :
    memcpy m dst src num (dst + i) = m (src + i) := by
  induction num generalizing m dst src i with
  | zero => omega
  | succ num ih =>
    rw [memcpy, u32_of_lt (show dst + 1 < 2 ^ 32 by omega),
      u32_of_lt (show src + 1 < 2 ^ 32 by omega)]
    cases i with
    | zero =>
      rw [memcpy_outside (by omega) (by omega)]
      exact update_self ..
    | succ i =>
      rw [show dst + (i + 1) = dst + 1 + i by omega, ih (by omega) (by omega) (by omega)
        (by omega), update_of_ne (by omega), show src + 1 + i = src + (i + 1) by omega]

variable {heap : HeapArea} {s : HeapState} {xs ys : List Block} {b : Block} {fl : List Nat}
  {z size : Nat}

section
variable (h : HeapBlocks heap s (xs ++ b :: ys) fl z)
include h

theorem joins_next :
    (cell s.mem heap.vmStart tailWord ≠ b.addr ∧ isFree s.mem (firstAddr ys) = true ∧
      ceil16 size ≤ u32 (b.size + overhead + getRealSize (cell s.mem (firstAddr ys) sizeWord))) ↔
      joins size b ys.head? = true := by
  cases ys with
  | nil => simp [joins, firstAddr, isFree]
  | cons d ys =>
    have hd : d ∈ xs ++ b :: d :: ys := by simp
    have inner : cell s.mem heap.vmStart tailWord ≠ b.addr := fun tail =>
      absurd (h.blocks.tail_iff.mp tail.symm) (by simp)
    have boundB := h.bounds (show b ∈ xs ++ b :: d :: ys by simp)
    have boundD := h.bounds hd
    change (_ ∧ isFree s.mem d.addr = true ∧
      _ ≤ u32 (_ + _ + getRealSize (cell s.mem d.addr sizeWord))) ↔ _
    rw [isFree_block h.blocks hd, realSize_eq h.blocks hd, overhead, u32_of_lt (by omega)]
    simp [joins, inner]

theorem joins_previous :
    (cell s.mem heap.vmStart headWord ≠ b.addr ∧ isFree s.mem (lastAddr xs) = true ∧
      ceil16 size ≤ u32 (b.size + overhead + getRealSize (cell s.mem (lastAddr xs) sizeWord))) ↔
      joins size b xs.getLast? = true := by
  rcases eq_nil_or_concat xs with rfl | ⟨xs, p, rfl⟩
  · simp [joins, lastAddr, isFree]
  · rw [concat_eq_append] at h ⊢
    have hp : p ∈ xs ++ [p] ++ b :: ys := by simp
    have hb : b ∈ xs ++ [p] ++ b :: ys := by simp
    have boundB := h.bounds hb
    have boundP := h.bounds hp
    have inner : cell s.mem heap.vmStart headWord ≠ b.addr := by
      obtain ⟨x, rest, split⟩ : ∃ x rest, xs ++ [p] = x :: rest := by
        cases xs <;> simp
      rw [split] at h
      intro first
      have head := chained_first h.blocks.chain
      have nodup := spread_nodup h.blocks.spread
      simp only [cons_append, map_cons, headD_cons] at head nodup
      exact (nodup_cons.mp nodup).1 (by simp [head.symm.trans first])
    rw [lastAddr_concat, isFree_block h.blocks hp, realSize_eq h.blocks hp, overhead,
      u32_of_lt (by omega)]
    simp [joins, inner]

theorem krealloc_eq (used : b.free = false) (positive : size ≠ 0) :
    krealloc heap s (b.addr + 12) size =
      if b.size = size then .ok (b.addr + 12, s)
      else if b.size < size then
        if joins size b ys.head? then
          (growNext s.mem heap.vmStart b.addr (firstAddr ys)
            (cell s.mem heap.vmStart tailWord)).map fun m => (b.addr + 12, { s with mem := m })
        else if joins size b xs.getLast? then
          (growPrev s.mem heap.vmStart (lastAddr xs) b.addr (b.addr + 12)
            (cell s.mem heap.vmStart tailWord)).map fun m =>
              (u32 (lastAddr xs + 12), { s with mem := m })
        else moveBlock heap s b.addr (b.addr + 12) size
      else if sub32 (b.size + 12) (u32 (ceil16 size + 12)) < 20 then .ok (b.addr + 12, s)
      else
        (shrinkBlock s.mem heap.vmStart b.addr (firstAddr ys) (cell s.mem heap.vmStart tailWord)
          (u32 (ceil16 size + 12)) (sub32 (b.size + 12) (u32 (ceil16 size + 12)))).map fun m =>
            (b.addr + 12, { s with mem := m }) := by
  have hb : b ∈ xs ++ b :: ys := by simp
  have bound := h.bounds hb
  have header : sub32 (b.addr + 12) overhead = b.addr := by
    rw [overhead, sub32_of_le (by omega) (by omega), Nat.add_sub_cancel]
  have nonzero : b.addr + 12 ≠ 0 := by omega
  have word : cell s.mem b.addr sizeWord = b.size := by
    rw [h.blocks.sizes b hb, used]
    rfl
  have even := h.blocks.even b hb
  have real : getRealSize b.size = b.size := getRealSize_block even false
  simp only [krealloc, if_neg nonzero, if_neg positive, header, getNextBlock_spec h.blocks,
    getPreviousBlock_spec h.blocks h.curr_lt, ok_bind, word, real, joins_next h,
    joins_previous h]
  simp only [overhead, u32_of_lt (show b.size + 12 < 2 ^ 32 by omega),
    u32_of_lt (show b.addr + 12 < 2 ^ 32 by omega), Nat.reduceAdd]

end

def resize (m : ByteMem) (block size : Nat) : ByteMem :=
  storeTrailing (setSize m block size false) block

def joinTop (m : ByteMem) (start block size : Nat) : ByteMem :=
  setCell (resize m block size) start tailWord block

variable {bs : List Block} {c e : Block} {fl' : List Nat}

theorem HeapBlocks.remove (h : HeapBlocks heap s bs fl z) (hb : b ∈ bs) (free : b.free = true) :
    ∃ m' fl', removeFromFreelist s.mem heap.vmStart b.addr = .ok m' ∧
      FreeList m' heap.vmStart fl' ∧ fl.Perm (b.addr :: fl') ∧
        FreelistOnly (records heap.vmStart bs) heap.vmStart s.mem m' := by
  obtain ⟨us, vs, rfl⟩ := append_of_mem (h.mem_fl.mpr ⟨b, hb, free, rfl⟩)
  have short := h.fl_length
  rw [length_append] at short
  obtain ⟨m', removed, list, changed⟩ := removeFromFreelist_spec h.spaced (start_mem_records _ _)
    h.freelist h.fl_nodup h.headers (by omega)
  exact ⟨m', us ++ vs, removed, list, perm_middle, changed⟩

variable {block : Nat}

theorem storeTrailing_eq {free : Bool} (word : cell m block sizeWord = size + free.toNat)
    (even : size % 2 = 0) :
    storeTrailing m block = writeWord m (u32 (block + 12 + size)) (size + free.toNat) := by
  rw [storeTrailing, trailingSpace, word, overhead, getRealSize_block even]

variable {rs : List Nat}

attribute [local simp] updCell

theorem resize_eq (spaced : AllSpaced rs) (hb : block ∈ rs) (even : size % 2 = 0)
    (small : block + 12 + size < 2 ^ 32) :
    resize m block size = writeWord (setSize m block size false) (block + 12 + size) size := by
  have sized : CellsAre rs (setSize m block size false) _ :=
    setSize_cells spaced hb (by omega) even false
  have word : cell (setSize m block size false) block sizeWord = size + false.toNat := by
    rw [sized block hb]
    simp
  rw [resize, storeTrailing_eq word even, u32_of_lt small]
  rfl

theorem resize_cells (spaced : AllSpaced rs) (hb : block ∈ rs) (even : size % 2 = 0)
    (small : block + 12 + size < 2 ^ 32) (behind : ∀ r ∈ rs, r + 12 ≤ block + 12 + size) :
    CellsAre rs (resize m block size) (updCell (cell m) block sizeWord size) := by
  have sized : CellsAre rs (setSize m block size false) _ :=
    setSize_cells spaced hb (by omega) even false
  rw [resize_eq spaced hb even small]
  exact CellsAre.behind (k := 0) sized behind

theorem HeapBlocks.joinTop (h : HeapBlocks heap s (xs ++ [c, e]) fl z)
    (tiles : Tiles (heap.vmStart + 12) (xs ++ [c, e]) s.curr)
    (removed : FreelistOnly (records heap.vmStart (xs ++ [c, e])) heap.vmStart s.mem m)
    (list : FreeList m heap.vmStart fl')
    (listed : fl'.Perm ((xs.filter Block.free).map Block.addr)) :
    let m' := Kheap.joinTop m heap.vmStart c.addr (c.size + 12 + e.size)
    Contiguous heap { s with mem := m' } (xs ++ [⟨c.addr, c.size + 12 + e.size, false⟩]) fl' ∧
      ∀ x, (∀ r ∈ records heap.vmStart (xs ++ [c, e]), x < r ∨ r + 12 ≤ x) → x < s.curr →
        m' x = s.mem x := by
  intro m'
  have hc : c ∈ xs ++ [c, e] := by simp
  have he : e ∈ xs ++ [c, e] := by simp
  have boundC := h.bounds hc
  have boundE := h.bounds he
  have evenC := h.blocks.even c hc
  have evenE := h.blocks.even e he
  have hcr := mem_records heap.vmStart hc
  have hsr := start_mem_records heap.vmStart (xs ++ [c, e])
  have away : c.addr ≠ heap.vmStart := by omega
  obtain ⟨-, -, -, next, top⟩ := tiles_append.mp tiles
  change e.stop = s.curr at top
  unfold Block.stop at next top
  have behind : ∀ r ∈ records heap.vmStart (xs ++ [c, e]),
      r + 12 ≤ c.addr + 12 + (c.size + 12 + e.size) := by
    intro r hr
    rcases mem_cons.mp hr with rfl | hr
    · omega
    · obtain ⟨b, hb, rfl⟩ := mem_map.mp hr
      have := h.bounds hb
      omega
  have even : (c.size + 12 + e.size) % 2 = 0 := by omega
  have cells : CellsAre _ m' _ :=
    (resize_cells (m := m) h.spaced hcr even (by omega) behind).set h.spaced hsr tailWord
      (show c.addr < 2 ^ 32 by omega)
  refine ⟨⟨⟨cell m' c.addr nextWord, ?_, ?_, ?_, h.top⟩, ?_⟩, ?_⟩
  · have chain : BlockList (cell m) heap.vmStart s.curr (xs ++ c :: ([e] ++ [])) z :=
      h.blocks.freelistOnly removed fun r hr => hr
    change BlockList (cell m') heap.vmStart s.curr
      (xs ++ ⟨c.addr, c.size + 12 + e.size, false⟩ :: ([] ++ [])) _
    refine chain.replace rfl ?_ ?_ ?_ rfl ?_ ?_ ?_ ?_
    · rintro e' ⟨first, rest⟩
      unfold Spread at rest ⊢
      unfold Block.stop at first rest ⊢
      simp only
      omega
    · intro b hb
      rw [mem_singleton.mp hb, cells c.addr hcr]
      simp
    · intro b hb
      rw [mem_singleton.mp hb]
      simp only
      omega
    · rw [cells heap.vmStart hsr]
      simp [lastAddr]
    · intro b hb
      rw [append_nil] at hb
      obtain ⟨hbr, other, -⟩ := spread_others h.blocks.spread (mem_append_left [e] hb)
      rw [cells b.addr hbr]
      simp [other]
    · intro b hb
      obtain ⟨hbr, -, -⟩ := spread_others h.blocks.spread (mem_append_left [e] hb)
      rw [cells b.addr hbr]
      simp
    · rw [cells heap.vmStart hsr]
      simp [Ne.symm away]
  · refine threaded_move list ?_ fun f hf => ?_
    · rw [cells heap.vmStart hsr]
      simp
    · obtain ⟨b, hb, rfl⟩ := mem_map.mp (listed.mem_iff.mp hf)
      have low := h.bounds (mem_append_left [c, e] (mem_filter.mp hb).1)
      rw [cells b.addr (mem_records _ (mem_append_left _ (mem_filter.mp hb).1))]
      have other : b.addr ≠ heap.vmStart := by omega
      simp [other]
  · simpa [filter_append] using listed
  · refine tiles_replace [e] [] tiles rfl ?_
    rintro e' ⟨first, rfl⟩
    unfold Tiles
    unfold Block.stop at first ⊢
    simp only
    omega
  · intro x out low
    simp only [m', Kheap.joinTop]
    rw [setCell_outside (out _ hsr), resize_eq h.spaced hcr even (by omega),
      writeWord_outside (by omega), setSize_untouched hcr false x out]
    exact removed.outside x out

variable {s' : HeapState} {p : Block} {q : Nat}

theorem reallocated_same (h : Contiguous heap s bs fl) (hb : b ∈ bs) (used : b.free = false)
    (fits : size ≤ b.size) : Reallocated heap s bs b size (b.addr + 12) s := by
  obtain ⟨z, blocks⟩ := h.blocks
  refine ⟨bs, fl, b, h, hb, used, rfl, fits, fun o ho _ other => ⟨ho, ?_, fun _ _ _ => rfl⟩,
    fun _ _ => rfl⟩
  rcases spread_apart blocks.blocks.spread hb ho with same | apart
  · exact absurd same.symm other
  · exact apart

theorem joins_some {o : Option Block} (join : joins size b o = true) (small : size + 15 < 2 ^ 32) :
    ∃ c, o = some c ∧ c.free = true ∧ size ≤ b.size + 12 + c.size := by
  cases o with
  | none => cases join
  | some c =>
    simp only [joins, Option.any_some, Bool.and_eq_true, decide_eq_true_eq] at join
    exact ⟨c, rfl, join.1, Nat.le_trans (ceil16_spec small).1 join.2⟩

theorem kept_below {m' : ByteMem} {v : Nat} (h : HeapBlocks heap s (xs ++ [c, e]) fl z)
    (one : c = b ∧ e.free = true ∨ c.free = true ∧ e = b)
    (same : ∀ x, (∀ r ∈ records heap.vmStart (xs ++ [c, e]), x < r ∨ r + 12 ≤ x) →
      x < c.addr → m' x = s.mem x) :
    ∀ o ∈ xs ++ [c, e], o.free = false → o ≠ b → o ∈ xs ++ [⟨c.addr, v, false⟩] ∧
      ((Block.mk c.addr v false).stop ≤ o.addr ∨ o.stop ≤ c.addr) ∧
        ∀ x, o.addr + 12 ≤ x → x < o.stop → m' x = s.mem x := by
  intro o ho used other
  have hx : o ∈ xs := by
    simp only [mem_append, mem_cons, not_mem_nil, or_false] at ho
    rcases ho with ho | rfl | rfl
    · exact ho
    · rcases one with ⟨here, -⟩ | ⟨free, -⟩
      · exact absurd here other
      · rw [used] at free
        cases free
    · rcases one with ⟨-, free⟩ | ⟨-, here⟩
      · rw [used] at free
        cases free
      · exact absurd here other
  have before := (pairwise_append.mp (spread_pairwise h.blocks.spread)).2.2 o hx c (by simp)
  refine ⟨mem_append_left _ hx, .inr before, fun x low high => ?_⟩
  exact same x (payload_outside h.blocks.spread ho low high) (by omega)

theorem Contiguous.joinLast {f : Block} (h : Contiguous heap s (xs ++ [c, e]) fl)
    (one : [c, e].filter Block.free = [f]) :
    ∃ m fl', removeFromFreelist s.mem heap.vmStart f.addr = .ok m ∧
      cell s.mem heap.vmStart tailWord = e.addr ∧
        getRealSize (cell m c.addr sizeWord) = c.size ∧
          getRealSize (cell m e.addr sizeWord) = e.size ∧
      let m' := Kheap.joinTop m heap.vmStart c.addr (c.size + 12 + e.size)
      Contiguous heap { s with mem := m' } (xs ++ [⟨c.addr, c.size + 12 + e.size, false⟩]) fl' ∧
        ∀ x, (∀ r ∈ records heap.vmStart (xs ++ [c, e]), x < r ∨ r + 12 ≤ x) → x < s.curr →
          m' x = s.mem x := by
  obtain ⟨⟨z, blocks⟩, tiles⟩ := h
  obtain ⟨hf, free⟩ := mem_filter.mp (one ▸ mem_singleton_self f)
  obtain ⟨m, fl', removed, list, perm, only⟩ := blocks.remove (mem_append_right xs hf) free
  have listed : fl'.Perm ((xs.filter Block.free).map Block.addr) := by
    have := perm.symm.trans blocks.listed
    rw [filter_append, one, map_append] at this
    exact (this.trans (perm_append_singleton _ _)).cons_inv
  have chain : BlockList (cell m) heap.vmStart s.curr (xs ++ [c, e]) z :=
    blocks.blocks.freelistOnly only fun r hr => hr
  have tail := blocks.blocks.tail
  rw [show xs ++ [c, e] = (xs ++ [c]) ++ [e] by simp, lastAddr_concat] at tail
  exact ⟨m, fl', removed, tail, realSize_eq chain (by simp), realSize_eq chain (by simp),
    blocks.joinTop tiles only list listed⟩

theorem growNext_last (h : Contiguous heap s (xs ++ [b, e]) fl) (used : b.free = false)
    (free : e.free = true) (fits : size ≤ b.size + 12 + e.size) :
    ∃ m', growNext s.mem heap.vmStart b.addr e.addr (cell s.mem heap.vmStart tailWord) = .ok m' ∧
      Reallocated heap s (xs ++ [b, e]) b size (b.addr + 12) { s with mem := m' } := by
  obtain ⟨m, fl', removed, tail, sizeB, sizeE, rep, same⟩ :=
    h.joinLast (f := e) (by simp [used, free])
  obtain ⟨⟨z, blocks⟩, tiles⟩ := h
  have hb : b ∈ xs ++ [b, e] := by simp
  have boundB := blocks.bounds hb
  have boundE := blocks.bounds (show e ∈ xs ++ [b, e] by simp)
  refine ⟨_, ?_, _, fl', _, rep, mem_append_right _ (mem_singleton_self _), rfl, rfl, fits, ?_, ?_⟩
  · rw [growNext, removed]
    simp only [Except.map, sizeB, sizeE, tail, if_true, overhead,
      u32_of_lt (show b.size + 12 + e.size < 2 ^ 32 by omega)]
    rfl
  · exact kept_below blocks (.inl ⟨rfl, free⟩) fun x out low => same x out (by omega)
  · intro i hi
    refine same _ (payload_outside blocks.blocks.spread hb (by omega) ?_) (by omega)
    unfold Block.stop
    omega

theorem growPrev_last (h : Contiguous heap s (xs ++ [p, b]) fl) (used : b.free = false)
    (free : p.free = true) (fits : size ≤ b.size + 12 + p.size) :
    ∃ m', growPrev s.mem heap.vmStart p.addr b.addr (b.addr + 12)
        (cell s.mem heap.vmStart tailWord) = .ok m' ∧
      Reallocated heap s (xs ++ [p, b]) b size (p.addr + 12) { s with mem := m' } := by
  obtain ⟨m, fl', removed, tail, sizeP, sizeB, ⟨⟨z', rep⟩, tiles'⟩, same⟩ :=
    h.joinLast (f := p) (by simp [used, free])
  obtain ⟨⟨z, blocks⟩, tiles⟩ := h
  have hb : b ∈ xs ++ [p, b] := by simp
  have boundB := blocks.bounds hb
  have boundP := blocks.bounds (show p ∈ xs ++ [p, b] by simp)
  obtain ⟨-, -, -, next, -⟩ := tiles_append.mp tiles
  unfold Block.stop at next
  have hq : (⟨p.addr, p.size + 12 + b.size, false⟩ : Block) ∈
      xs ++ [⟨p.addr, p.size + 12 + b.size, false⟩] := by simp
  refine ⟨memcpy (joinTop m heap.vmStart p.addr (p.size + 12 + b.size)) (p.addr + 12)
    (b.addr + 12) b.size, ?_, _, fl', _, ⟨⟨z', rep.payload hq ?_⟩, tiles'⟩, hq, rfl, rfl, ?_,
    ?_, ?_⟩
  · rw [growPrev, removed, realSize_eq blocks.blocks hb]
    simp only [Except.map, sizeP, tail, if_true, overhead,
      u32_of_lt (show b.size + 12 + p.size < 2 ^ 32 by omega),
      u32_of_lt (show p.addr + 12 < 2 ^ 32 by omega)]
    rw [show b.size + 12 + p.size = p.size + 12 + b.size by omega]
    rfl
  · intro x out
    simp only [Block.stop] at out
    exact memcpy_outside (by omega) (by omega)
  · change size ≤ p.size + 12 + b.size
    omega
  · refine kept_below blocks (.inr ⟨free, rfl⟩) fun x out low => ?_
    exact (memcpy_outside (by omega) (by omega)).trans (same x out (by omega))
  · intro i hi
    refine (memcpy_copies (by omega) (by omega) (by omega) (by omega)).trans ?_
    refine same _ (payload_outside blocks.blocks.spread hb (by omega) ?_) (by omega)
    unfold Block.stop
    omega

theorem Placed.fresh {bs' : List Block} {a e curr curr' : Nat}
    (h : Placed size curr bs c bs' curr') (spread : Spread a bs' e) : c ∉ Kheap.allocated bs := by
  have nodup : (Kheap.allocated bs').Nodup :=
    (List.Nodup.of_map Block.addr (spread_nodup spread)).sublist filter_sublist
  exact (nodup_cons.mp (h.allocated.nodup_iff.mp nodup)).1

theorem moveBlock_eq {nptr ptr p : Nat} {s₁ s₂ : HeapState}
    (called : kmalloc heap s size = .ok (p, s₁))
    (freed : kfree heap
      { s₁ with mem := memcpy s₁.mem p ptr (getRealSize (cell s₁.mem nptr sizeWord)) } ptr =
        .ok s₂) : moveBlock heap s nptr ptr size = .ok (p, s₂) := by
  simp only [moveBlock, called, ok_bind, freed, Except.map]

theorem moveBlock_spec (h : Contiguous heap s bs fl) (hb : b ∈ bs) (used : b.free = false)
    (small : size + 15 < 2 ^ 32) (grow : b.size < size)
    (done : moveBlock heap s b.addr (b.addr + 12) size = .ok (q, s')) :
    Reallocated heap s bs b size q s' := by
  obtain ⟨⟨z, blocks⟩, tiles⟩ := h
  have boundB := blocks.bounds hb
  rcases doMalloc_blocks blocks (show size ≠ 0 by omega) with
    ⟨-, failed⟩ | ⟨-, s₁, c, called, bs₁, fl₁, z₁, placed, blocks₁, -, outside₁⟩
  · simp only [moveBlock, kmalloc, failed, Except.bind, reduceCtorEq] at done
  have kept : ∀ o ∈ bs, o.free = false → o ∈ bs₁ ∧ o ≠ c := by
    intro o ho usedO
    have live := mem_allocated.mpr ⟨ho, usedO⟩
    refine ⟨(mem_allocated.mp (placed.allocated.mem_iff.mpr (mem_cons_of_mem _ live))).1, ?_⟩
    rintro rfl
    exact placed.fresh blocks₁.blocks.spread live
  obtain ⟨hc, usedC⟩ := mem_allocated.mp (placed.allocated.mem_iff.mpr mem_cons_self)
  obtain ⟨hb₁, otherB⟩ := kept b hb used
  have fits := Nat.le_trans (ceil16_spec small).1 placed.size_le
  have boundC := blocks₁.bounds hc
  have boundB₁ := blocks₁.bounds hb₁
  have blocks₂ : HeapBlocks heap
      { s₁ with mem := memcpy s₁.mem (c.addr + 12) (b.addr + 12) b.size } bs₁ fl₁ z₁ := by
    refine blocks₁.payload hc fun x out => ?_
    unfold Block.stop at out
    exact memcpy_outside (by omega) (by omega)
  obtain ⟨m', called', bs₂, fl₂, z₂, freed, blocks₃, -, outside₂⟩ := doFree_blocks blocks₂ hb₁ used
  have moved : moveBlock heap s b.addr (b.addr + 12) size = .ok (c.addr + 12, ⟨m', s₁.curr⟩) := by
    refine moveBlock_eq called ?_
    rw [realSize_eq blocks₁.blocks hb₁, kfree, called']
    rfl
  obtain ⟨rfl, rfl⟩ := Prod.mk.inj (Except.ok.inj (moved.symm.trans done))
  have alive : ∀ o ∈ bs₁, o.free = false → o ≠ b → o ∈ bs₂ := by
    intro o ho usedO other
    have := (freed.allocated used).mem_iff.mp (mem_allocated.mpr ⟨ho, usedO⟩)
    rcases mem_cons.mp this with here | there
    · exact absurd here other
    · exact (mem_allocated.mp there).1
  have before : ∀ o ∈ bs, o.free = false → ∀ x, o.addr + 12 ≤ x → x < o.stop →
      s₁.mem x = s.mem x := by
    intro o ho usedO x low high
    refine outside₁ x fun r hr => ?_
    rcases mem_append.mp hr with hr | hr
    · exact payload_outside blocks.blocks.spread ho low high r hr
    · exact payload_outside blocks₁.blocks.spread (kept o ho usedO).1 low high r hr
  have after : ∀ o ∈ bs₁, ∀ x, o.addr + 12 ≤ x → x < o.stop →
      m' x = memcpy s₁.mem (c.addr + 12) (b.addr + 12) b.size x :=
    fun o ho x low high => outside₂ x (payload_outside blocks₁.blocks.spread ho low high)
  have apart : ∀ o ∈ bs₁, o ≠ c → c.stop ≤ o.addr ∨ o.stop ≤ c.addr := by
    intro o ho other
    rcases spread_apart blocks₁.blocks.spread hc ho with same | apart
    · exact absurd same.symm other
    · exact apart
  refine ⟨bs₂, fl₂, c, ⟨⟨z₂, blocks₃⟩, freed.tiles (placed.tiles tiles)⟩,
    alive c hc usedC (Ne.symm otherB), usedC, rfl, fits, ?_, ?_⟩
  · intro o ho usedO other
    obtain ⟨ho₁, otherC⟩ := kept o ho usedO
    have clear := apart o ho₁ otherC
    refine ⟨alive o ho₁ usedO other, clear, fun x low high => ?_⟩
    refine (after o ho₁ x low high).trans ?_
    rw [memcpy_outside (by omega) ?_]
    · exact before o ho usedO x low high
    · unfold Block.stop at clear high
      omega
  · intro i hi
    have clear := apart b hb₁ otherB
    unfold Block.stop at clear
    change m' (c.addr + 12 + i) = _
    rw [after c hc _ (by omega) (by unfold Block.stop; omega),
      memcpy_copies (by omega) (by omega) (by omega) (by omega)]
    refine before b hb used _ (by omega) ?_
    unfold Block.stop
    omega

end Elaborato.Mentos.Kheap
