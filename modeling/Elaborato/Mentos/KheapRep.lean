import Elaborato.Mentos.KheapLists
import Mathlib.Tactic.Tauto

/-!
The representation invariant of the heap, and the changes of the chain that do not grow it.
-/
namespace Elaborato.Mentos.Kheap
open Foundation List

def Coalesced (bs : List Block) : Prop := bs.IsChain fun a b => ¬ (a.free = true ∧ b.free = true)

structure HeapRep (heap : HeapArea) (s : HeapState) (bs : List Block) (fl : List Nat) : Prop where
  blocks : BlockChain (cell s.mem) heap.vmStart s.curr bs
  freelist : FreeList s.mem heap.vmStart fl
  listed : fl.Perm ((bs.filter Block.free).map Block.addr)
  coalesced : Coalesced bs
  top : s.curr ≤ heap.vmEnd

structure HeapBlocks (heap : HeapArea) (s : HeapState) (bs : List Block) (fl : List Nat) (z : Nat) :
    Prop where
  blocks : BlockList (cell s.mem) heap.vmStart s.curr bs z
  freelist : FreeList s.mem heap.vmStart fl
  listed : fl.Perm ((bs.filter Block.free).map Block.addr)
  top : s.curr ≤ heap.vmEnd

variable {heap : HeapArea} {s : HeapState} {bs : List Block} {fl : List Nat}

theorem heapRep_iff :
    HeapRep heap s bs fl ↔
      HeapBlocks heap s bs fl 0 ∧ Tiles (heap.vmStart + 12) bs s.curr ∧ Coalesced bs := by
  constructor
  · rintro ⟨blocks, freelist, listed, coalesced, top⟩
    obtain ⟨blocks, tiles⟩ := blockChain_iff.mp blocks
    exact ⟨⟨blocks, freelist, listed, top⟩, tiles, coalesced⟩
  · rintro ⟨⟨blocks, freelist, listed, top⟩, tiles, coalesced⟩
    exact ⟨blockChain_iff.mpr ⟨blocks, tiles⟩, freelist, listed, coalesced, top⟩

structure Contiguous (heap : HeapArea) (s : HeapState) (bs : List Block) (fl : List Nat) :
    Prop where
  blocks : ∃ z, HeapBlocks heap s bs fl z
  tiles : Tiles (heap.vmStart + 12) bs s.curr

theorem HeapRep.contiguous (h : HeapRep heap s bs fl) : Contiguous heap s bs fl :=
  have ⟨blocks, tiles, _⟩ := heapRep_iff.mp h
  ⟨⟨0, blocks⟩, tiles⟩

theorem HeapRep.toBlocks (h : HeapRep heap s bs fl) :
    HeapBlocks heap s bs fl 0 := (heapRep_iff.mp h).1

/-- The blocks in use. -/
def allocated (bs : List Block) : List Block := bs.filter fun b => !b.free

theorem mem_allocated {b : Block} : b ∈ allocated bs ↔ b ∈ bs ∧ b.free = false := by
  simp [allocated]

variable {xs ys : List Block} {b q : Block} {z : Nat}

section
variable (h : HeapBlocks heap s bs fl z)
include h

theorem HeapBlocks.bounds (hb : b ∈ bs) :
    0 < heap.vmStart ∧ heap.vmStart + 12 ≤ b.addr ∧ b.addr + 12 + b.size ≤ s.curr ∧
      s.curr < 2 ^ 31 := by
  have below := h.blocks.below hb
  have top := h.top
  have low := heap.low
  have positive := heap.positive
  unfold Block.stop at below
  omega

theorem HeapBlocks.spaced : AllSpaced (records heap.vmStart bs) := records_spaced h.blocks.spread

omit h in
theorem mem_records (start : Nat) (hb : b ∈ bs) : b.addr ∈ records start bs :=
  mem_cons_of_mem _ (mem_map_of_mem hb)

omit h in
theorem start_mem_records (start : Nat) (bs : List Block) : start ∈ records start bs :=
  mem_cons_self

theorem HeapBlocks.mem_fl {f : Nat} : f ∈ fl ↔ ∃ b ∈ bs, b.free = true ∧ b.addr = f := by
  rw [h.listed.mem_iff]
  simp [and_assoc]

theorem HeapBlocks.headers : Listed (records heap.vmStart bs)
    heap.vmStart fl := by
  intro f hf
  obtain ⟨b, hb, -, rfl⟩ := h.mem_fl.mp hf
  have := h.bounds hb
  exact ⟨mem_records _ hb, by omega, by omega⟩

theorem HeapBlocks.fl_nodup : fl.Nodup := by
  refine h.listed.nodup_iff.mpr ?_
  exact (spread_nodup h.blocks.spread).sublist (filter_sublist.map Block.addr)

theorem HeapBlocks.fl_length : fl.length < addresses := by
  have spread := spread_length h.blocks.spread
  have top := h.top
  have low := heap.low
  have fewer : fl.length ≤ bs.length := by
    rw [h.listed.length_eq, length_map]
    exact length_filter_le _ _
  unfold addresses
  omega

theorem HeapBlocks.curr_lt : s.curr < addresses := by
  have top := h.top
  have low := heap.low
  unfold addresses
  omega

theorem HeapBlocks.used_not_listed (hb : b ∈ bs) (used : b.free = false) : b.addr ∉ fl := by
  intro listed
  obtain ⟨c, hc, free, same⟩ := h.mem_fl.mp listed
  rw [spread_addr_inj h.blocks.spread hc hb same, used] at free
  cases free

theorem HeapBlocks.congr {m' : ByteMem}
    (same : ∀ r ∈ records heap.vmStart bs, ∀ x, r ≤ x → x < r + 12 → m' x = s.mem x) :
    HeapBlocks heap { s with mem := m' } bs fl z := by
  have cells : ∀ r ∈ records heap.vmStart bs, ∀ k, cell m' r k = cell s.mem r k :=
    fun r hr k => cell_congr (same r hr)
  refine ⟨h.blocks.congr ?_ ?_ ?_ ?_, threaded_move h.freelist ?_ ?_, h.listed, h.top⟩
  · exact fun b hb => cells _ (mem_records _ hb) _
  · exact fun b hb => cells _ (mem_records _ hb) _
  · exact cells _ (start_mem_records _ _) _
  · exact cells _ (start_mem_records _ _) _
  · exact cells _ (start_mem_records _ _) _
  · exact fun f hf => cells _ (h.headers f hf).1 _

end

variable {a : Nat}

theorem sub32_of_le {b : Nat} (le : b ≤ a) (small : a < 2 ^ 32) : sub32 a b = a - b := by
  rw [sub32, show a + 2 ^ 32 - b = a - b + 2 ^ 32 by omega, Nat.add_mod_right,
    Nat.mod_eq_of_lt (by omega)]

theorem u32_of_lt (small : a < 2 ^ 32) : u32 a = a := Nat.mod_eq_of_lt small

variable {size : Nat}

theorem setFree_even (even : size % 2 = 0) (free : Bool) :
    setFree size free = size + free.toNat := by
  cases free <;> simp [setFree] <;> omega

theorem getRealSize_block (even : size % 2 = 0) (free : Bool) :
    getRealSize (size + free.toNat) = size := by
  cases free <;> simp [getRealSize] <;> omega

variable {rs : List Nat} {start curr block : Nat} {m : ByteMem} {p : Block} {mid : List Block}

attribute [local simp] updCell

theorem setSize_cells (spaced : AllSpaced rs) (hb : block ∈ rs) (small : size < 2 ^ 32)
    (even : size % 2 = 0) (free : Bool) : CellsAre rs (setSize m block size free)
      (updCell (cell m) block sizeWord (size + free.toNat)) := by
  have bit : free.toNat ≤ 1 := free.toNat_le
  have first := (cellsAre_self rs m).set spaced hb sizeWord small
  have read : cell (setCell m block sizeWord size) block sizeWord = size := by
    rw [first block hb]
    simp
  have second := first.set spaced hb sizeWord (show size + free.toNat < 2 ^ 32 by omega)
  intro r hr k
  have := second r hr k
  simp only [setSize, read, setFree_even even]
  rw [this]
  simp only [updCell]
  split <;> rfl

theorem setSize_cellsAre {σ : Nat → Fin 3 → Nat} (h : CellsAre rs m σ) (spaced : AllSpaced rs)
    (hb : block ∈ rs) (small : size < 2 ^ 32) (even : size % 2 = 0) (free : Bool) :
    CellsAre rs (setSize m block size free) (updCell σ block sizeWord (size + free.toNat)) := by
  intro r hr k
  rw [setSize_cells spaced hb small even free r hr k, updCell, updCell, h r hr k]

theorem setSize_untouched (hb : block ∈ rs) (free : Bool) :
    Untouched rs m (setSize m block size free) :=
  (untouched_set m hb _ _).trans (untouched_set _ hb _ _)

def absorb (m : ByteMem) (start block size after : Nat) (last : Bool) : ByteMem :=
  let m := setSize m block size true
  let m := setCell m block nextWord after
  if last then setCell m start tailWord block else m

theorem firstAddr_lt (h : BlockList (cell m) start curr (xs ++ ys) z) (small : curr < 2 ^ 32) :
    firstAddr ys < 2 ^ 32 := by
  cases ys with
  | nil => exact Nat.two_pow_pos 32
  | cons y ys =>
    have := h.below (show y ∈ xs ++ y :: ys by simp)
    unfold Block.stop at this
    change y.addr < 2 ^ 32
    omega

theorem spread_others {zs : List Block} (spread : Spread (start + 12) (xs ++ p :: zs) curr)
    (hb : b ∈ xs ++ zs) :
    b.addr ∈ records start (xs ++ p :: zs) ∧ b.addr ≠ p.addr ∧ b.addr ≠ start := by
  have hb' : b ∈ xs ++ p :: zs := by
    rcases mem_append.mp hb with hb | hb <;> simp [hb]
  have low := (spread_bounds spread hb').1
  refine ⟨mem_records _ hb', fun same => ?_, by omega⟩
  have nodup := spread_nodup spread
  simp only [map_append, map_cons, nodup_append, nodup_cons] at nodup
  rcases mem_append.mp hb with hb | hb
  · exact nodup.2.2 b.addr (mem_map_of_mem hb) p.addr (by simp) same
  · exact nodup.2.1.1 (same ▸ mem_map_of_mem hb)

def absorbed (σ : Nat → Fin 3 → Nat) (start block size : Nat) (ys : List Block) :
    Nat → Fin 3 → Nat := fun r k =>
  if r = start ∧ k = tailWord ∧ ys = [] then block
  else updCell (updCell σ block sizeWord (size + 1)) block nextWord (firstAddr ys) r k

attribute [local simp] absorbed

theorem absorb_cells (spaced : AllSpaced rs) (hs : start ∈ rs) (hb : block ∈ rs)
    (small : block < 2 ^ 32) (sizeSmall : size < 2 ^ 32) (even : size % 2 = 0)
    (after : firstAddr ys < 2 ^ 32) :
    CellsAre rs (absorb m start block size (firstAddr ys) ys.isEmpty)
      (absorbed (cell m) start block size ys) := by
  have sized : CellsAre rs (setSize m block size true) _ :=
    setSize_cells spaced hb sizeSmall even true
  have linked := sized.set spaced hb nextWord after
  intro r hr k
  cases ys with
  | nil =>
    have := linked.set spaced hs tailWord small r hr k
    simpa [absorb] using this
  | cons y ys =>
    have := linked r hr k
    simpa [absorb] using this

theorem absorb_untouched (hs : start ∈ rs) (hb : block ∈ rs) :
    Untouched rs m (absorb m start block size (firstAddr ys) ys.isEmpty) := by
  have written : Untouched rs m
      (setCell (setSize m block size true) block nextWord (firstAddr ys)) :=
    (setSize_untouched hb true).trans (untouched_set _ hb _ _)
  cases ys with
  | nil => exact written.trans (untouched_set _ hs _ _)
  | cons y ys => exact written

theorem absorb_chainOnly (spaced : AllSpaced rs) (hs : start ∈ rs) (hb : block ∈ rs)
    (away : block ≠ start) (small : block < 2 ^ 32) (sizeSmall : size < 2 ^ 32)
    (even : size % 2 = 0) (after : firstAddr ys < 2 ^ 32) :
    ChainOnly rs start m (absorb m start block size (firstAddr ys) ys.isEmpty) := by
  have cells : CellsAre rs (absorb m start block size (firstAddr ys) ys.isEmpty) _ :=
    absorb_cells spaced hs hb small sizeSmall even after
  refine ⟨?_, ?_, absorb_untouched hs hb⟩
  · intro r hr notStart
    rw [cells r hr]
    simp [notStart]
  · rw [cells start hs]
    simp [Ne.symm away]

theorem absorb_spec (h : BlockList (cell m) start curr (xs ++ p :: (mid ++ ys)) z)
    (addr : q.addr = p.addr) (free : q.free = true)
    (spread : ∀ e, Spread p.stop mid e → q.stop ≤ e) (even : q.size % 2 = 0)
    (small : q.size < 2 ^ 32) (top : curr < 2 ^ 32) :
    BlockList (cell (absorb m start p.addr q.size (firstAddr ys) ys.isEmpty)) start curr
        (xs ++ q :: ys) (if ys.isEmpty then 0 else z) ∧
      ChainOnly (records start (xs ++ p :: (mid ++ ys))) start m
        (absorb m start p.addr q.size (firstAddr ys) ys.isEmpty) := by
  have hp : p ∈ xs ++ p :: (mid ++ ys) := by simp
  have hpr := mem_records start hp
  have hsr := start_mem_records start (xs ++ p :: (mid ++ ys))
  have low := h.below hp
  have away : p.addr ≠ start := by omega
  have pSmall : p.addr < 2 ^ 32 := by
    unfold Block.stop at low
    omega
  have after : firstAddr ys < 2 ^ 32 := by
    have whole : xs ++ p :: (mid ++ ys) = (xs ++ p :: mid) ++ ys := by simp
    exact firstAddr_lt (whole ▸ h) top
  have cells : CellsAre _ (absorb m start p.addr q.size (firstAddr ys) ys.isEmpty) _ :=
    absorb_cells (records_spaced h.spread) hsr hpr pSmall small even after
  have next : cell (absorb m start p.addr q.size (firstAddr ys) ys.isEmpty) p.addr nextWord =
      firstAddr ys := by
    rw [cells p.addr hpr]
    simp [away]
  constructor
  · have alone : ∀ e, Spread p.stop mid e → Spread q.stop [] e := spread
    refine h.replace addr alone ?_ ?_ ?_ ?_ ?_ ?_ ?_
    · intro b hb
      rw [mem_singleton.mp hb, addr, cells p.addr hpr, free]
      simp [away]
    · intro b hb
      rw [mem_singleton.mp hb]
      exact even
    · cases ys with
      | nil => exact next
      | cons y ys =>
        have whole : (xs ++ p :: (mid ++ y :: ys)).map Block.addr =
            (xs ++ p :: mid).map Block.addr ++ (y :: ys).map Block.addr := by simp
        have chain := h.chain
        rw [whole] at chain
        refine chained_move (chained_drop chain) ?_ fun r hr => ?_
        · exact next.trans (chained_first (chained_drop chain)).symm
        · obtain ⟨b, hb, rfl⟩ := mem_map.mp hr
          obtain ⟨hbr, notP, notStart⟩ := spread_others (b := b) h.spread (by
            rw [← append_assoc]
            exact mem_append_right _ hb)
          rw [cells b.addr hbr]
          simp [notP]
    · rw [cells start hsr, nil_append]
      rcases eq_nil_or_concat ys with rfl | ⟨ys, y, rfl⟩
      · simp [lastAddr, addr]
      · rw [concat_eq_append] at h ⊢
        have tail := h.tail
        have whole : xs ++ p :: (mid ++ (ys ++ [y])) = (xs ++ p :: (mid ++ ys)) ++ [y] := by simp
        rw [whole, lastAddr_concat] at tail
        rw [show q :: (ys ++ [y]) = (q :: ys) ++ [y] from rfl, lastAddr_concat]
        simp only [tailWord] at tail
        simp [Ne.symm away, tail]
    · intro b hb
      obtain ⟨hbr, notP, notStart⟩ := spread_others (b := b) h.spread
        (by rcases mem_append.mp hb with hb | hb <;> simp [hb])
      rw [cells b.addr hbr]
      simp [notP]
    · intro b hb
      obtain ⟨hbr, notP, notStart⟩ := spread_others (b := b) h.spread (by simp [hb])
      rw [cells b.addr hbr]
      simp [notP]
    · rw [cells start hsr]
      simp [Ne.symm away]
  · exact absorb_chainOnly (records_spaced h.spread) hsr hpr away pSmall small even after

theorem records_absorb (start : Nat) (addr : q.addr = p.addr) :
    records start (xs ++ q :: ys) ⊆ records start (xs ++ p :: (mid ++ ys)) := by
  intro r hr
  simp only [records, map_append, map_cons, mem_cons, mem_append, addr] at hr ⊢
  tauto

variable {m' : ByteMem}

theorem BlockList.flip {free : Bool} (h : BlockList (cell m) start curr (xs ++ b :: ys) z)
    (cells : CellsAre (records start (xs ++ b :: ys)) m'
      (updCell (cell m) b.addr sizeWord (b.size + free.toNat))) :
    BlockList (cell m') start curr (xs ++ { b with free } :: ys) z := by
  have hb : b ∈ xs ++ b :: ys := by simp
  have hbr := mem_records start hb
  have hsr := start_mem_records start (xs ++ b :: ys)
  have away : start ≠ b.addr := by
    have := h.below hb
    omega
  have tail := h.tail
  have chain := h.chain
  rw [map_append, map_cons] at chain
  have whole : BlockList (cell m) start curr (xs ++ b :: ([] ++ ys)) z := h
  change BlockList (cell m') start curr (xs ++ { b with free } :: ([] ++ ys)) z
  refine whole.replace rfl (fun _ spread => spread) ?_ ?_ ?_ ?_ ?_ ?_ ?_
  · intro c hc
    rw [mem_singleton.mp hc, cells b.addr hbr]
    simp
  · intro c hc
    rw [mem_singleton.mp hc]
    exact h.even b hb
  · refine chained_move (chained_drop chain).2 ?_ fun r hr => ?_
    · rw [cells b.addr hbr]
      simp
    · obtain ⟨c, hc, rfl⟩ := mem_map.mp hr
      rw [cells c.addr (spread_others h.spread (mem_append_right _ hc)).1]
      simp
  · rw [cells start hsr]
    rw [lastAddr_append_cons] at tail
    simp only [tailWord] at tail
    simp [tail, lastAddr]
  · intro c hc
    obtain ⟨hcr, other, -⟩ := spread_others h.spread hc
    rw [cells c.addr hcr]
    simp [other]
  · intro c hc
    rw [cells c.addr (spread_others h.spread (mem_append_left _ hc)).1]
    simp
  · rw [cells start hsr]
    simp [away]

theorem chainOnly_size {v : Nat} (hs : start ∈ rs)
    (cells : CellsAre rs m' (updCell (cell m) block sizeWord v)) (outside : Untouched rs m m') :
    ChainOnly rs start m m' := by
  refine ⟨?_, ?_, outside⟩
  · intro r hr _
    rw [cells r hr]
    simp
  · rw [cells start hs]
    simp

theorem HeapBlocks.absorb (h : HeapBlocks heap s (xs ++ p :: (mid ++ ys)) fl z) {size : Nat}
    (fill : ∀ e, Spread p.stop mid e → p.addr + 12 + size ≤ e) (even : size % 2 = 0) :
    let m' := Kheap.absorb s.mem heap.vmStart p.addr size (firstAddr ys) ys.isEmpty
    BlockList (cell m') heap.vmStart s.curr (xs ++ ⟨p.addr, size, true⟩ :: ys)
        (if ys.isEmpty then 0 else z) ∧
      FreeList m' heap.vmStart fl ∧
        Untouched (records heap.vmStart (xs ++ p :: (mid ++ ys))) s.mem m' ∧
          records heap.vmStart (xs ++ ⟨p.addr, size, true⟩ :: ys) ⊆
            records heap.vmStart (xs ++ p :: (mid ++ ys)) := by
  have top := h.curr_lt
  obtain ⟨_, -, -, spread⟩ := spread_append.mp h.blocks.spread
  obtain ⟨e, inner, rest⟩ := spread_append.mp spread
  have stop := fill e inner
  have len := spread_length rest
  unfold addresses at top
  obtain ⟨chain, only⟩ := absorb_spec (q := ⟨p.addr, size, true⟩) h.blocks rfl rfl fill even
    (by
      change size < 2 ^ 32
      omega) top
  exact ⟨chain, h.freelist.chainOnly h.headers only, only.outside, records_absorb _ rfl⟩

end Elaborato.Mentos.Kheap
