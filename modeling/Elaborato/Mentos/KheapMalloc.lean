import Elaborato.Mentos.KheapFree

/-!
`__do_malloc`: a block is taken whole, split or added at the top of the heap.
-/
namespace Elaborato.Mentos.Kheap
open Foundation List

def Acquired (heap : HeapArea) (s : HeapState) (bs : List Block) (s' : HeapState) (b : Block) :
    Prop :=
  ∃ bs' fl', HeapRep heap s' bs' fl' ∧ (allocated bs').Perm (b :: allocated bs) ∧
    Untouched (records heap.vmStart bs') s.mem s'.mem

def PlacesTo (heap : HeapArea) (s : HeapState) (bs : List Block) (z size : Nat) (s' : HeapState)
    (b : Block) : Prop :=
  ∃ bs' fl' z', Placed size s.curr bs b bs' s'.curr ∧ HeapBlocks heap s' bs' fl' z' ∧
    (z = 0 → z' = 0) ∧
      Untouched (records heap.vmStart bs ++ records heap.vmStart bs') s.mem s'.mem

theorem ceil16_spec {n : Nat} (small : n + 15 < 2 ^ 32) :
    n ≤ ceil16 n ∧ ceil16 n = (n + 15) / 16 * 16 := by
  rw [ceil16, u32_of_lt small]
  omega

theorem ceil16_le (n : Nat) : ceil16 n ≤ 2 ^ 32 - 16 ∧ ceil16 n % 2 = 0 := by
  have bound : u32 (n + 15) < 2 ^ 32 := Nat.mod_lt _ (by decide)
  rw [ceil16]
  omega

variable {heap : HeapArea} {s : HeapState} {b d : Block} {xs ys mid : List Block}
  {fl us vs : List Nat} {size rest z : Nat}

attribute [local simp] records updCell absorbed

theorem takeBlock_whole (h : HeapBlocks heap s (xs ++ b :: ys) (us ++ b.addr :: vs) z)
    (best : BestFit (xs ++ b :: ys) size b) (tight : b.size < size + 20) :
    ∃ m', takeBlock s.mem heap.vmStart b.addr (size + 12) = .ok m' ∧
      PlacesTo heap s (xs ++ b :: ys) z size { s with mem := m' } { b with free := false } := by
  have hb : b ∈ xs ++ b :: ys := by simp
  have free := best.free
  have fits := best.fits
  have bound := h.bounds hb
  have even := h.blocks.even b hb
  have hbr := mem_records heap.vmStart hb
  have taken : CellsAre _ (setSize s.mem b.addr b.size false) _ :=
    setSize_cells h.spaced hbr (by omega) even false
  have only := chainOnly_size (start_mem_records _ _) taken (setSize_untouched hbr false)
  have short := h.fl_length
  rw [length_append] at short
  obtain ⟨m', removed, list, changed⟩ := removeFromFreelist_spec h.spaced (start_mem_records _ _)
    (h.freelist.chainOnly h.headers only) h.fl_nodup h.headers (by omega)
  have same : records heap.vmStart (xs ++ { b with free := false } :: ys) =
      records heap.vmStart (xs ++ b :: ys) := by simp
  refine ⟨m', ?_, _, us ++ vs, z, .whole best tight,
    ⟨(h.blocks.flip taken).freelistOnly changed (by rw [same]; simp), list, ?_, h.top⟩, id, ?_⟩
  · have chunk : u32 (b.size + 12) = b.size + 12 := u32_of_lt (by omega)
    have remaining : sub32 (b.size + 12) (size + 12) = b.size - size := by
      rw [sub32_of_le (by omega) (by omega)]
      omega
    have little : b.size - size < 8 + 12 := by omega
    have real : sub32 (b.size + 12) 12 = b.size := by
      rw [sub32_of_le (by omega) (by omega), Nat.add_sub_cancel]
    simp only [takeBlock, getNextBlock_spec h.blocks, ok_bind, overhead,
      realSize_eq h.blocks hb, chunk, remaining, if_pos little, real]
    exact removed
  · have listed := perm_middle.symm.trans h.listed
    simp only [filter_append, filter_cons, free, map_append, map_cons, if_true] at listed ⊢
    simpa using (listed.trans perm_middle).cons_inv
  · rw [same]
    exact (only.outside.trans changed.outside).mono (subset_append_left _ _)

variable {start curr : Nat}

section
variable (spread : Spread (start + 12) (xs ++ b :: ys) curr) (sum : size + 12 + rest = b.size)
include spread sum

theorem spread_split : Spread (start + 12) (splitBlocks xs ys b size rest) curr := by
  obtain ⟨a, before, first, after⟩ := spread_append.mp spread
  refine spread_append.mpr ⟨a, before, first, Nat.le_refl _, ?_⟩
  have stop : b.addr + 12 + size + 12 + rest = b.stop := by
    unfold Block.stop
    omega
  change Spread (b.addr + 12 + size + 12 + rest) ys curr
  rw [stop]
  exact after

theorem spread_split_others {c : Block} (hc : c ∈ xs ++ ys) :
    c.addr ∈ records start (splitBlocks xs ys b size rest) ∧
      c.addr ≠ start ∧ c.addr ≠ b.addr ∧ c.addr ≠ b.addr + 12 + size := by
  obtain ⟨-, notB, notStart⟩ := spread_others spread hc
  have moved : splitBlocks xs ys b size rest =
      (xs ++ [⟨b.addr, size, false⟩]) ++ ⟨b.addr + 12 + size, rest, true⟩ :: ys := by
    simp [splitBlocks]
  have spread' := spread_split spread sum
  rw [moved] at spread' ⊢
  have hc' : c ∈ (xs ++ [⟨b.addr, size, false⟩]) ++ ys := by
    rcases mem_append.mp hc with hc | hc <;> simp [hc]
  obtain ⟨mem, notN, -⟩ := spread_others spread' hc'
  exact ⟨mem, notStart, notB, notN⟩

end

structure Resized (rs : List Nat) (start block size : Nat) (m m' : ByteMem) : Prop where
  sizes : ∀ r ∈ rs, cell m' r sizeWord = if r = block then size else cell m r sizeWord
  nexts : ∀ r ∈ rs, r ≠ start → cell m' r nextWord = cell m r nextWord
  tail : cell m' start tailWord = cell m start tailWord
  outside : Untouched rs m m'

variable {rs : List Nat} {block : Nat} {m : ByteMem}

theorem resized_setSize (spaced : AllSpaced rs) (hs : start ∈ rs) (hb : block ∈ rs)
    (small : size < 2 ^ 32) (even : size % 2 = 0) :
    Resized rs start block size m (setSize m block size false) := by
  have cells : CellsAre rs (setSize m block size false) _ :=
    setSize_cells spaced hb small even false
  refine ⟨?_, ?_, ?_, setSize_untouched hb false⟩
  · intro r hr
    rw [cells r hr]
    simp
  · intro r hr _
    rw [cells r hr]
    simp
  · rw [cells start hs]
    simp

variable {m' : ByteMem}

theorem Resized.freelistOnly {m'' : ByteMem} (h : Resized rs start block size m m')
    (only : FreelistOnly rs start m' m'') : Resized rs start block size m m'' :=
  ⟨fun r hr => (only.first r hr).trans (h.sizes r hr),
    fun r hr away => (only.next r hr away).trans (h.nexts r hr away), only.tail.trans h.tail,
    h.outside.trans only.outside⟩

def splitRest (m : ByteMem) (start block rest size : Nat) (ys : List Block) :
    Except HeapHalt ByteMem :=
  (addToFreelist (absorb m start rest size (firstAddr ys) ys.isEmpty) start rest).bind fun m =>
    removeFromFreelist (setCell m block nextWord rest) start block

structure SplitWords (rs : List Nat) (start block rest size : Nat) (ys : List Block)
    (m m' : ByteMem) : Prop where
  sizes : ∀ r ∈ rs, cell m' r sizeWord = if r = rest then size + 1 else cell m r sizeWord
  nexts : ∀ r ∈ rs, r ≠ start → cell m' r nextWord = if r = block then rest
    else if r = rest then firstAddr ys else cell m r nextWord
  tail : cell m' start tailWord = if ys = [] then rest else cell m start tailWord
  outside : Untouched rs m m'

theorem splitRest_spec (spaced : AllSpaced rs) (hs : start ∈ rs) (hb : block ∈ rs) (hn : rest ∈ rs)
    (away : start + 12 ≤ block) (above : block + 12 ≤ rest) (small : rest < 2 ^ 32)
    (sizeSmall : size < 2 ^ 32) (even : size % 2 = 0) (after : firstAddr ys < 2 ^ 32)
    (list : FreeList m start (us ++ block :: vs)) (nodup : (us ++ block :: vs).Nodup)
    (listed : Listed rs start (us ++ block :: vs)) (fresh : rest ∉ us ++ block :: vs)
    (short : us.length + 1 < addresses) :
    ∃ m', splitRest m start block rest size ys = .ok m' ∧ FreeList m' start (rest :: us ++ vs) ∧
      SplitWords rs start block rest size ys m m' := by
  have restAway : rest ≠ start := by omega
  have nonzero : rest ≠ 0 := by omega
  have cells : CellsAre rs (absorb m start rest size (firstAddr ys) ys.isEmpty) _ :=
    absorb_cells spaced hs hn small sizeSmall even after
  have absorbs : ChainOnly rs start m _ :=
    absorb_chainOnly spaced hs hn restAway small sizeSmall even after
  obtain ⟨m₂, added, list₂, only₂⟩ := addToFreelist_spec spaced hs hn nonzero small restAway
    (list.chainOnly listed absorbs) listed fresh
  have listed₂ : Listed rs start (rest :: us ++ block :: vs) := by
    intro f hf
    rcases mem_cons.mp hf with rfl | hf
    · exact ⟨hn, restAway, nonzero⟩
    · exact listed f hf
  have linked := (cellsAre_self rs m₂).set spaced hb nextWord small
  have links : ChainOnly rs start m₂ (setCell m₂ block nextWord rest) := by
    refine ⟨?_, ?_, untouched_set _ hb _ _⟩
    · intro r hr _
      rw [linked r hr, updCell_word (by decide)]
    · rw [linked _ hs, updCell, if_neg (by omega)]
  obtain ⟨m', removed, list', only⟩ := removeFromFreelist_spec spaced hs
    (list₂.chainOnly listed₂ links) (nodup_cons.mpr ⟨fresh, nodup⟩) listed₂
    (by
      rw [length_cons]
      omega)
  refine ⟨m', ?_, list', ?_, ?_, ?_, absorbs.outside.trans
    (only₂.outside.trans (links.outside.trans only.outside))⟩
  · rw [splitRest, added]
    exact removed
  · intro r hr
    rw [only.first r hr, linked r hr, updCell_word (by decide), only₂.first r hr, cells r hr]
    simp
  · intro r hr notStart
    rw [only.next r hr notStart, linked r hr, updCell, only₂.next r hr notStart, cells r hr]
    simp [notStart]
  · rw [only.tail, linked start hs, updCell_word (by decide), only₂.tail, cells start hs]
    simp

variable {m₁ : ByteMem}

theorem BlockList.split (mid : List Block) (whole : Nat)
    (h : BlockList (cell m) start curr (xs ++ b :: (mid ++ ys)) z) (sum : size + 12 + rest = b.size)
    (fill : ∀ e, Spread b.stop mid e → b.addr + 12 + size + 12 + whole ≤ e) (even : size % 2 = 0)
    (evenWhole : whole % 2 = 0)
    (resized : Resized (records start (splitBlocks xs (mid ++ ys) b size rest)) start b.addr size
      m m₁)
    (words : SplitWords (records start (splitBlocks xs (mid ++ ys) b size rest)) start b.addr
      (b.addr + 12 + size) whole ys m₁ m') :
    BlockList (cell m') start curr (splitBlocks xs ys b size whole)
      (if ys.isEmpty then 0 else z) := by
  have low := (h.below (show b ∈ xs ++ b :: (mid ++ ys) by simp)).1
  have hb : b.addr ∈ records start (splitBlocks xs (mid ++ ys) b size rest) := by
    simp [splitBlocks]
  have hn : b.addr + 12 + size ∈ records start (splitBlocks xs (mid ++ ys) b size rest) := by
    simp [splitBlocks]
  have within : xs ++ ys ⊆ xs ++ (mid ++ ys) := by simp
  have sameSize : ∀ c ∈ xs ++ ys, cell m' c.addr sizeWord = cell m c.addr sizeWord := by
    intro c hc
    obtain ⟨mem, -, notB, notN⟩ := spread_split_others h.spread sum (within hc)
    rw [words.sizes _ mem, if_neg notN, resized.sizes _ mem, if_neg notB]
  have sameNext : ∀ c ∈ xs ++ ys, cell m' c.addr nextWord = cell m c.addr nextWord := by
    intro c hc
    obtain ⟨mem, notStart, notB, notN⟩ := spread_split_others h.spread sum (within hc)
    rw [words.nexts _ mem notStart, if_neg notB, if_neg notN, resized.nexts _ mem notStart]
  have restNext : cell m' (b.addr + 12 + size) nextWord = firstAddr ys := by
    rw [words.nexts _ hn (by omega), if_neg (by omega), if_pos rfl]
  refine h.replace rfl ?_ ?_ ?_ ⟨?_, ?_⟩ ?_ sameSize ?_ ?_
  · exact fun e he => ⟨Nat.le_refl _, fill e he⟩
  · intro c hc
    simp only [mem_cons, not_mem_nil, or_false] at hc
    rcases hc with rfl | rfl
    · rw [words.sizes _ hb, if_neg (by omega), resized.sizes _ hb, if_pos rfl]
      rfl
    · rw [words.sizes _ hn, if_pos rfl]
      rfl
  · intro c hc
    simp only [mem_cons, not_mem_nil, or_false] at hc
    rcases hc with rfl | rfl
    · exact even
    · exact evenWhole
  · rw [words.nexts _ hb (by omega), if_pos rfl]
  · cases ys with
    | nil => exact restNext
    | cons y ys =>
      have split : (xs ++ b :: (mid ++ y :: ys)).map Block.addr =
          (xs ++ b :: mid).map Block.addr ++ (y :: ys).map Block.addr := by simp
      have chain := h.chain
      rw [split] at chain
      refine chained_move (chained_drop chain) ?_ fun r hr => ?_
      · exact restNext.trans (chained_first (chained_drop chain)).symm
      · obtain ⟨c, hc, rfl⟩ := mem_map.mp hr
        exact sameNext c (mem_append_right _ hc)
  · rw [words.tail, resized.tail]
    rcases eq_nil_or_concat ys with rfl | ⟨ys, y, rfl⟩
    · rfl
    · rw [concat_eq_append] at h ⊢
      have last := h.tail
      have before : xs ++ b :: (mid ++ (ys ++ [y])) = (xs ++ b :: (mid ++ ys)) ++ [y] := by simp
      rw [before, lastAddr_concat] at last
      rw [if_neg (by simp), last]
      exact (lastAddr_concat (_ :: _ :: ys) y).symm
  · exact fun c hc => sameNext c (mem_append_left _ hc)
  · have hs := start_mem_records start (splitBlocks xs (mid ++ ys) b size rest)
    have first := words.sizes start hs
    rwa [if_neg (by omega), resized.sizes start hs, if_neg (by omega)] at first

section
variable (h : HeapBlocks heap s (xs ++ b :: ys) fl z)
include h

theorem HeapBlocks.splitSpaced (sum : size + 12 + rest = b.size) :
    AllSpaced (records heap.vmStart (splitBlocks xs ys b size rest)) :=
  records_spaced (spread_split h.blocks.spread sum)

theorem HeapBlocks.rest_fresh (sum : size + 12 + rest = b.size) : b.addr + 12 + size ∉ fl := by
  intro hn
  obtain ⟨c, hc, -, same⟩ := h.mem_fl.mp hn
  rcases spread_apart h.blocks.spread hc (show b ∈ xs ++ b :: ys by simp) with rfl | apart | apart
  · omega
  all_goals
    unfold Block.stop at apart
    omega

theorem HeapBlocks.listed_split (size rest : Nat) :
    Listed (records heap.vmStart (splitBlocks xs ys b size rest)) heap.vmStart fl := by
  intro f hf
  obtain ⟨mem, away⟩ := h.headers f hf
  refine ⟨?_, away⟩
  simp only [records, splitBlocks, map_append, map_cons, mem_cons,
    mem_append, map_nil, not_mem_nil] at mem ⊢
  tauto

omit h in
theorem HeapBlocks.split (mid : List Block) (whole : Nat)
    (h : HeapBlocks heap s (xs ++ b :: (mid ++ ys)) fl z) (sum : size + 12 + rest = b.size)
    (fill : ∀ e, Spread b.stop mid e → b.addr + 12 + size + 12 + whole ≤ e) (even : size % 2 = 0)
    (evenWhole : whole % 2 = 0)
    (resized : Resized (records heap.vmStart (splitBlocks xs (mid ++ ys) b size rest)) heap.vmStart
      b.addr size s.mem m₁) (list : FreeList m₁ heap.vmStart (us ++ b.addr :: vs))
    (within : (us ++ b.addr :: vs).Sublist fl) :
    ∃ m', splitRest m₁ heap.vmStart b.addr (b.addr + 12 + size) whole ys = .ok m' ∧
      FreeList m' heap.vmStart ((b.addr + 12 + size) :: us ++ vs) ∧
        BlockList (cell m') heap.vmStart s.curr (splitBlocks xs ys b size whole)
          (if ys.isEmpty then 0 else z) ∧
        Untouched (records heap.vmStart (splitBlocks xs (mid ++ ys) b size rest)) s.mem m' := by
  have bound := h.bounds (show b ∈ xs ++ b :: (mid ++ ys) by simp)
  obtain ⟨_, -, -, spread⟩ := spread_append.mp h.blocks.spread
  obtain ⟨e, inner, after⟩ := spread_append.mp spread
  have filled := fill e inner
  have len := spread_length after
  have short := within.length_le
  have most := h.fl_length
  rw [length_append, length_cons] at short
  obtain ⟨m', done, list', words⟩ := splitRest_spec (h.splitSpaced sum) (start_mem_records _ _)
    (by simp [splitBlocks]) (by simp [splitBlocks]) bound.2.1
    (show b.addr + 12 ≤ b.addr + 12 + size by omega) (by omega) (show whole < 2 ^ 32 by omega)
    evenWhole
    (firstAddr_lt (show BlockList _ _ _ ((xs ++ b :: mid) ++ ys) z by simpa using h.blocks)
      h.curr_lt)
    list (h.fl_nodup.sublist within) (fun f hf => h.listed_split size rest f (within.subset hf))
    (fun hn => h.rest_fresh sum (within.subset hn)) (by omega)
  exact ⟨m', done, list', h.blocks.split mid whole sum fill even evenWhole resized words,
    resized.outside.trans words.outside⟩

omit h in
theorem map_bind {α β γ : Type} (x : Except HeapHalt α) (f : α → β) (g : β → Except HeapHalt γ) :
    (x.map f).bind g = x.bind fun a => g (f a) := by
  cases x <;> rfl

theorem takeBlock_split (sum : size + 12 + rest = b.size) (enough : 8 ≤ rest) :
    takeBlock s.mem heap.vmStart b.addr (size + 12) =
      (if isFree (setSize s.mem b.addr size false) (firstAddr ys) then
          mergeRest (setSize s.mem b.addr size false) heap.vmStart (firstAddr ys)
            (b.addr + 12 + size) (rest + 12) (cell s.mem heap.vmStart tailWord)
        else separateRest (setSize s.mem b.addr size false) heap.vmStart (firstAddr ys) b.addr
          (b.addr + 12 + size) (rest + 12) (cell s.mem heap.vmStart tailWord)).bind fun m =>
        removeFromFreelist (setCell m b.addr nextWord (b.addr + 12 + size)) heap.vmStart
          b.addr := by
  have hb : b ∈ xs ++ b :: ys := by simp
  have bound := h.bounds hb
  have chunk : u32 (b.size + 12) = b.size + 12 := u32_of_lt (by omega)
  have remaining : sub32 (b.size + 12) (size + 12) = rest + 12 := by
    rw [sub32_of_le (by omega) (by omega)]
    omega
  have large : ¬ rest + 12 < 8 + 12 := by omega
  have real : sub32 (size + 12) 12 = size := by
    rw [sub32_of_le (by omega) (by omega), Nat.add_sub_cancel]
  have place : u32 (b.addr + (size + 12)) = b.addr + 12 + size := by
    rw [u32_of_lt (by omega)]
    omega
  simp only [takeBlock, getNextBlock_spec h.blocks, ok_bind, overhead, realSize_eq h.blocks hb,
    chunk, remaining, if_neg large, real, place, map_bind]

theorem isFree_next (small : size < 2 ^ 32) (even : size % 2 = 0) :
    isFree (setSize s.mem b.addr size false) (firstAddr ys) = ys.head?.any Block.free := by
  cases ys with
  | nil => rfl
  | cons d ys =>
    have hb : b ∈ xs ++ b :: d :: ys := by simp
    obtain ⟨hdr, other, -⟩ := spread_others h.blocks.spread (show d ∈ xs ++ d :: ys by simp)
    have resized : Resized _ heap.vmStart b.addr size s.mem _ :=
      resized_setSize h.spaced (start_mem_records _ _) (mem_records _ hb) small even
    have free := isFree_block h.blocks (show d ∈ xs ++ b :: d :: ys by simp)
    rw [isFree] at free
    rw [firstAddr, map_cons, headD_cons, isFree, resized.sizes _ hdr, if_neg other, free]
    rfl

omit h in
theorem takeBlock_separate (h : HeapBlocks heap s (xs ++ b :: ys) (us ++ b.addr :: vs) z)
    (best : BestFit (xs ++ b :: ys) size b) (even : size % 2 = 0)
    (sum : size + 12 + rest = b.size) (enough : 8 ≤ rest)
    (alone : ∀ y ∈ ys.head?, y.free = false) :
    ∃ m', takeBlock s.mem heap.vmStart b.addr (size + 12) = .ok m' ∧
      PlacesTo heap s (xs ++ b :: ys) z size { s with mem := m' } ⟨b.addr, size, false⟩ := by
  have hb : b ∈ xs ++ b :: ys := by simp
  have bound := h.bounds hb
  have evenB := h.blocks.even b hb
  have spaced : AllSpaced (records heap.vmStart (splitBlocks xs ys b size rest)) :=
    h.splitSpaced sum
  have hbr : b.addr ∈ records heap.vmStart (splitBlocks xs ys b size rest) := by
    simp [splitBlocks]
  have resized := resized_setSize (m := s.mem) spaced (start_mem_records _ _) hbr
    (show size < 2 ^ 32 by omega) even
  have sized : CellsAre _ (setSize s.mem b.addr size false) _ :=
    setSize_cells spaced hbr (by omega) even false
  obtain ⟨m', done, list, chain, outside⟩ := HeapBlocks.split [] rest h sum
    (by
      intro e he
      unfold Spread Block.stop at he
      omega) even (by omega) resized
    (h.freelist.chainOnly (h.listed_split size rest)
      (chainOnly_size (start_mem_records _ _) sized resized.outside))
    (List.Sublist.refl _)
  refine ⟨m', ?_, _, _, _, .split best sum enough alone, ⟨chain, list, ?_, h.top⟩,
    by simp +contextual, outside.mono (subset_append_right _ _)⟩
  · have used : ys.head?.any Block.free = false := by
      cases hy : ys.head? with
      | none => rfl
      | some y => exact alone y hy
    have real : sub32 (rest + 12) 12 = rest := by
      rw [sub32_of_le (by omega) (by omega), Nat.add_sub_cancel]
    rw [takeBlock_split h sum enough, isFree_next h (by omega) even, used]
    simp only [Bool.false_eq_true, if_false, separateRest, overhead, real, h.blocks.tail_iff]
    rw [← done, splitRest]
    simp only [absorb, List.isEmpty_iff]
  · have listed := perm_middle.symm.trans h.listed
    simp only [splitBlocks, filter_append, filter_cons, best.free, map_append,
      map_cons, if_true] at listed ⊢
    exact ((listed.trans perm_middle).cons_inv.cons _).trans perm_middle.symm

omit h in
theorem takeBlock_merge (h : HeapBlocks heap s (xs ++ b :: d :: ys) fl z)
    (best : BestFit (xs ++ b :: d :: ys) size b) (even : size % 2 = 0)
    (sum : size + 12 + rest = b.size) (enough : 8 ≤ rest) (free : d.free = true) :
    ∃ m', takeBlock s.mem heap.vmStart b.addr (size + 12) = .ok m' ∧
      PlacesTo heap s (xs ++ b :: d :: ys) z size { s with mem := m' } ⟨b.addr, size, false⟩ := by
  have hb : b ∈ xs ++ b :: d :: ys := by simp
  have hd : d ∈ xs ++ b :: d :: ys := by simp
  have bound := h.bounds hb
  have boundD := h.bounds hd
  have evenB := h.blocks.even b hb
  have evenD := h.blocks.even d hd
  have spaced : AllSpaced (records heap.vmStart (splitBlocks xs (d :: ys) b size rest)) :=
    h.splitSpaced sum
  have hs := start_mem_records heap.vmStart (splitBlocks xs (d :: ys) b size rest)
  have hbr : b.addr ∈ records heap.vmStart (splitBlocks xs (d :: ys) b size rest) := by
    simp [splitBlocks]
  have resized := resized_setSize (m := s.mem) spaced hs hbr (show size < 2 ^ 32 by omega) even
  have sized : CellsAre _ (setSize s.mem b.addr size false) _ :=
    setSize_cells spaced hbr (by omega) even false
  obtain ⟨us, vs, rfl⟩ := append_of_mem (h.mem_fl.mpr ⟨d, hd, free, rfl⟩)
  have short := h.fl_length
  rw [length_append] at short
  obtain ⟨m₁, removed, list₁, only⟩ := removeFromFreelist_spec spaced hs
    (h.freelist.chainOnly (h.listed_split size rest) (chainOnly_size hs sized resized.outside))
    h.fl_nodup (h.listed_split size rest) (by omega)
  have fewer : (us ++ vs).Sublist (us ++ d.addr :: vs) := by simp
  obtain ⟨hdr, away, notB, notN⟩ := spread_split_others h.blocks.spread sum
    (show d ∈ xs ++ d :: ys by simp)
  have still : b.addr ∈ us ++ vs := by
    have := h.mem_fl.mpr ⟨b, hb, best.free, rfl⟩
    simp only [mem_append, mem_cons, Ne.symm notB, false_or] at this ⊢
    exact this
  obtain ⟨us', vs', split⟩ := append_of_mem still
  rw [split] at list₁ fewer
  obtain ⟨m', done, list, chain, outside⟩ := HeapBlocks.split [d] (rest + 12 + d.size) h sum
    (by
      rintro e ⟨first, last⟩
      unfold Spread Block.stop at last
      unfold Block.stop at first
      omega) even (by omega) (resized.freelistOnly only) list₁ fewer
  refine ⟨m', ?_, _, _, _, .merge best sum enough free, ⟨chain, list, ?_, h.top⟩,
    by simp +contextual, outside.mono ?_⟩
  · have real : getRealSize (cell m₁ d.addr sizeWord) = d.size := by
      rw [(resized.freelistOnly only).sizes _ hdr, if_neg notB, realSize_eq h.blocks hd]
    have amount : u32 (rest + 12 + d.size) = rest + 12 + d.size := u32_of_lt (by omega)
    have next : getNextBlock (setSize m₁ (b.addr + 12 + size) (rest + 12 + d.size) true)
        heap.vmStart d.addr = .ok (firstAddr ys) := by
      have hnr : b.addr + 12 + size ∈
          records heap.vmStart (splitBlocks xs (d :: ys) b size rest) := by
        simp [splitBlocks]
      have cells : CellsAre _ (setSize m₁ (b.addr + 12 + size) (rest + 12 + d.size) true) _ :=
        setSize_cells spaced hnr (by omega) (by omega) true
      have tail := cells _ hs tailWord
      have after := cells _ hdr nextWord
      rw [updCell_word (by decide), (resized.freelistOnly only).tail] at tail
      rw [updCell_word (by decide), (resized.freelistOnly only).nexts _ hdr away] at after
      have moved : xs ++ b :: d :: ys = (xs ++ [b]) ++ d :: ys := by simp
      simpa only [getNextBlock, tail, after] using getNextBlock_spec (moved ▸ h.blocks)
    have tail : d.addr = cell s.mem heap.vmStart tailWord ↔ ys = [] := by
      have moved : xs ++ b :: d :: ys = (xs ++ [b]) ++ d :: ys := by simp
      exact (moved ▸ h.blocks).tail_iff
    rw [takeBlock_split h sum enough, isFree_next h (by omega) even]
    simp only [head?_cons, Option.any_some, free, if_true, mergeRest, firstAddr, map_cons,
      headD_cons, removed, ok_bind, real, amount, next, tail]
    rw [← done, splitRest]
    simp only [absorb, List.isEmpty_iff, firstAddr]
  · have listed := perm_middle.symm.trans h.listed
    simp only [splitBlocks, filter_append, filter_cons, best.free, free, map_append,
      map_cons, if_true] at listed ⊢
    rw [append_cons] at listed
    have left := (listed.trans perm_middle).cons_inv
    rw [split, append_assoc, singleton_append] at left
    have rest := (perm_middle.symm.trans (left.trans perm_middle)).cons_inv
    exact (rest.cons _).trans perm_middle.symm
  · intro r hr
    simp only [records, splitBlocks, map_append, map_cons, mem_cons,
      mem_append, map_nil, not_mem_nil] at hr ⊢
    tauto

theorem takeBlock_spec (best : BestFit (xs ++ b :: ys) size b) (even : size % 2 = 0) :
    ∃ m' q, takeBlock s.mem heap.vmStart b.addr (size + 12) = .ok m' ∧ q.addr = b.addr ∧
      PlacesTo heap s (xs ++ b :: ys) z size { s with mem := m' } q := by
  have fits := best.fits
  obtain ⟨us, vs, rfl⟩ := append_of_mem (h.mem_fl.mpr ⟨b, by simp, best.free, rfl⟩)
  by_cases tight : b.size < size + 20
  · obtain ⟨m', done, placed⟩ := takeBlock_whole h best tight
    exact ⟨m', { b with free := false }, done, rfl, placed⟩
  · have sum : size + 12 + (b.size - size - 12) = b.size := by omega
    have enough : 8 ≤ b.size - size - 12 := by omega
    by_cases alone : ∀ y ∈ ys.head?, y.free = false
    · obtain ⟨m', done, placed⟩ := takeBlock_separate h best even sum enough alone
      exact ⟨m', ⟨b.addr, size, false⟩, done, rfl, placed⟩
    · cases ys with
      | nil => exact absurd (by simp) alone
      | cons d ys =>
        have free : d.free = true := by simpa using alone
        obtain ⟨m', done, placed⟩ := takeBlock_merge h best even sum enough free
        exact ⟨m', ⟨b.addr, size, false⟩, done, rfl, placed⟩

end

variable {bs : List Block}

def grown (m : ByteMem) (start curr size : Nat) : ByteMem :=
  let m' := if cell m start headWord = 0 then setCell m start headWord curr
    else setCell m (cell m start tailWord) nextWord curr
  let m' := setCell m' curr nextWord 0
  let m' := setCell m' curr nextfreeWord 0
  let m' := setCell m' start tailWord curr
  setSize m' curr size false

def grownAt (m : ByteMem) (start ret block size : Nat) : ByteMem :=
  let m' := if cell m start headWord = 0 then setCell m start headWord block
    else setCell m (cell m start tailWord) nextWord block
  let m' := setCell m' ret nextWord 0
  let m' := setCell m' ret nextfreeWord 0
  let m' := setCell m' start tailWord block
  setSize m' block size false

theorem growHeap_eq (heap : VmArea) (nonzero : s.curr ≠ 0) (range : size + 12 < 2 ^ 31)
    (small : s.curr + 12 + size < 2 ^ 32) :
    growHeap heap s (size + 12) =
      if s.curr + 12 + size ≤ heap.vmEnd then
        .ok (s.curr + 12, ⟨grown s.mem heap.vmStart s.curr size, s.curr + 12 + size⟩)
      else .error (.assertion "Heap is running out of space\n") := by
  have boundary : u32 (s.curr + (size + 12)) = s.curr + 12 + size := by
    rw [u32_of_lt (by omega)]
    omega
  have increment : 0 < size + 12 ∧ size + 12 < 2 ^ 31 := ⟨by omega, range⟩
  simp only [growHeap, doBrk, if_pos increment, boundary]
  split
  · have real : sub32 (size + 12) 12 = size := by
      rw [sub32_of_le (by omega) (by omega), Nat.add_sub_cancel]
    simp only [real, overhead, u32_of_lt (show s.curr + 12 < 2 ^ 32 by omega), grown]
  · rfl

theorem growHeap_negative (heap : VmArea) (s : HeapState) (large : 2 ^ 31 ≤ size) :
    growHeap heap s size = .error (.assertion "Heap is running out of space\n") := by
  have negative : ¬ (0 < size ∧ size < 2 ^ 31) := by omega
  simp only [growHeap, doBrk, if_neg negative, if_true]

variable {ret : Nat}

section
variable (h : BlockList (cell m) start curr bs z)
include h

theorem link_eq (block : Nat) :
    (if cell m start headWord = 0 then setCell m start headWord block
      else setCell m (cell m start tailWord) nextWord block) =
        setCell m (endCell nextWord (start, headWord) (bs.map Block.addr)).1
          (endCell nextWord (start, headWord) (bs.map Block.addr)).2 block := by
  have head := chained_first h.chain
  have tail := h.tail
  simp only at head
  rcases eq_nil_or_concat bs with rfl | ⟨bs, p, rfl⟩
  · have first : cell m start headWord = 0 := head.trans (h.null rfl)
    simp only [if_pos first, map_nil, endCell]
  · rw [concat_eq_append] at h head tail ⊢
    have first : cell m start headWord ≠ 0 := by
      rw [head]
      cases bs with
      | nil =>
        have := h.below (show p ∈ [] ++ [p] by simp)
        simp only [nil_append, map_cons, headD_cons]
        omega
      | cons x bs =>
        have := h.below (show x ∈ x :: bs ++ [p] by simp)
        simp only [cons_append, map_cons, headD_cons]
        omega
    rw [lastAddr_concat] at tail
    simp only [if_neg first, tail, map_append, map_singleton, endCell_concat]

theorem grownAt_eq (ret block size : Nat) :
    grownAt m start ret block size = setSize (setCell (setCell (setCell (setCell m
      (endCell nextWord (start, headWord) (bs.map Block.addr)).1
      (endCell nextWord (start, headWord) (bs.map Block.addr)).2 block)
      ret nextWord 0) ret nextfreeWord 0) start tailWord block) block size false :=
  congrArg (fun m => setSize (setCell (setCell (setCell m ret nextWord 0) ret nextfreeWord 0) start
    tailWord block) block size false) (link_eq h block)

omit h in
theorem endCell_mem (start : Nat) (bs : List Block) :
    (endCell nextWord (start, headWord) (bs.map Block.addr)).1 ∈ records start bs := by
  rcases endCell_cases nextWord (start, headWord) (bs.map Block.addr) with h | ⟨u, hu, h⟩
  · rw [h]
    exact start_mem_records _ _
  · rw [h]
    exact mem_cons_of_mem _ hu

theorem grownAt_cells (cleared : curr ≤ ret) (placed : curr ≤ block) (small : block < 2 ^ 32) :
    CellsAre (records start bs) (grownAt m start ret block size)
      (updCell (updCell (cell m) (endCell nextWord (start, headWord) (bs.map Block.addr)).1
        (endCell nextWord (start, headWord) (bs.map Block.addr)).2 block) start tailWord
          block) := by
  have spaced := records_spaced h.spread
  have below : ∀ r ∈ records start bs, r + 12 ≤ curr := by
    have low := spread_length h.spread
    intro r hr
    rcases mem_cons.mp hr with rfl | hr
    · omega
    · obtain ⟨b, hb, rfl⟩ := mem_map.mp hr
      have := h.below hb
      unfold Block.stop at this
      omega
  have belowRet : ∀ r ∈ records start bs, r + 12 ≤ ret :=
    fun r hr => Nat.le_trans (below r hr) cleared
  have belowBlock : ∀ r ∈ records start bs, r + 12 ≤ block :=
    fun r hr => Nat.le_trans (below r hr) placed
  have linked := (cellsAre_self (records start bs) m).set spaced (endCell_mem start bs)
    (endCell nextWord (start, headWord) (bs.map Block.addr)).2 small
  rw [grownAt_eq h]
  exact ((((linked.behind belowRet).behind belowRet).set spaced (start_mem_records _ _) tailWord
    small).behind belowBlock).behind belowBlock

end

theorem grownAt_block (m : ByteMem) (start ret : Nat) (small : size < 2 ^ 32)
    (even : size % 2 = 0) : cell (grownAt m start ret block size) block sizeWord = size := by
  have alone : AllSpaced [block] := by simp [AllSpaced, Spaced]
  have cells : CellsAre [block] (grownAt m start ret block size) _ :=
    setSize_cells alone (mem_singleton_self _) small even false
  rw [cells block (mem_singleton_self _)]
  simp

theorem HeapBlocks.grow (h : HeapBlocks heap s bs fl z) (even : size % 2 = 0)
    (cleared : s.curr ≤ ret) (placed : s.curr ≤ block) (room : block + 12 + size ≤ heap.vmEnd) :
    HeapBlocks heap ⟨grownAt s.mem heap.vmStart ret block size, block + 12 + size⟩
        (bs ++ [⟨block, size, false⟩]) fl
        (cell (grownAt s.mem heap.vmStart ret block size) block nextWord) ∧
      Untouched (records heap.vmStart bs ++ [ret, block]) s.mem
        (grownAt s.mem heap.vmStart ret block size) := by
  have low := spread_length h.blocks.spread
  have high := heap.low
  have cells : CellsAre _ (grownAt s.mem heap.vmStart ret block size) _ :=
    grownAt_cells h.blocks cleared placed (by omega)
  have hs := start_mem_records heap.vmStart bs
  generalize he : endCell nextWord (heap.vmStart, headWord) (bs.map Block.addr) = e at cells
  have her : e.1 ∈ records heap.vmStart bs := he ▸ endCell_mem _ _
  have others : ∀ b ∈ bs, b.addr ∈ records heap.vmStart bs ∧ b.addr ≠ heap.vmStart := by
    intro b hb
    have := h.bounds hb
    exact ⟨mem_records _ hb, by omega⟩
  have place : e = (heap.vmStart, headWord) ∨ ∃ b ∈ bs, e = (b.addr, nextWord) := by
    rcases endCell_cases nextWord (heap.vmStart, headWord) (bs.map Block.addr) with h | ⟨u, hu, h⟩
    · exact .inl (he.symm.trans h)
    · obtain ⟨b, hb, rfl⟩ := mem_map.mp hu
      exact .inr ⟨b, hb, he.symm.trans h⟩
  refine ⟨⟨?_, ?_, ?_, room⟩, ?_⟩
  · change BlockList _ _ (Block.stop ⟨block, size, false⟩) _ _
    refine h.blocks.grow placed (grownAt_block _ _ _ (by omega) even) even ?_ ?_ rfl ?_ ?_
    · rintro rfl
      rw [map_nil, endCell] at he
      subst he
      rw [cells _ hs]
      simp
    · rintro xs p rfl
      rw [map_append, map_singleton, endCell_concat] at he
      subst he
      have notStart := (others p (by simp)).2
      refine ⟨?_, ?_, ?_⟩
      · rw [cells _ her]
        simp
      · rw [cells _ hs]
        simp [Ne.symm notStart]
      · intro x hx
        have notP := (spread_others h.blocks.spread (mem_append_left [] hx)).2.1
        rw [cells _ (others x (mem_append_left _ hx)).1]
        simp [notP]
    · rw [cells _ hs]
      simp
    · intro b hb
      obtain ⟨hbr, notStart⟩ := others b hb
      rw [cells _ hbr]
      rcases place with rfl | ⟨c, hc, rfl⟩ <;> simp [notStart]
  · refine threaded_move h.freelist ?_ fun f hf => ?_
    · rw [cells _ hs]
      rcases place with rfl | ⟨c, hc, rfl⟩
      · simp
      · simp [Ne.symm (others c hc).2]
    · obtain ⟨b, hb, -, rfl⟩ := h.mem_fl.mp hf
      obtain ⟨hbr, notStart⟩ := others b hb
      rw [cells _ hbr]
      rcases place with rfl | ⟨c, hc, rfl⟩ <;> simp [notStart]
  · have listed := h.listed
    simpa [filter_append] using listed
  · have hsr : heap.vmStart ∈ records heap.vmStart bs ++ [ret, block] :=
      mem_append_left _ hs
    have hret : ret ∈ records heap.vmStart bs ++ [ret, block] := by simp
    rw [grownAt_eq h.blocks, he]
    exact ((((untouched_set s.mem (mem_append_left _ her) _ _).trans
      (untouched_set _ hret _ _)).trans (untouched_set _ hret _ _)).trans
      (untouched_set _ hsr _ _)).trans (setSize_untouched (by simp) false)

theorem grown_next (m : ByteMem) (away : start + 12 ≤ curr) (small : curr < 2 ^ 32)
    (sizeSmall : size < 2 ^ 32) (even : size % 2 = 0) :
    cell (grown m start curr size) curr nextWord = 0 := by
  have spaced : AllSpaced [start, curr] := by
    intro r hr r' hr'
    simp only [mem_cons, not_mem_nil, or_false] at hr hr'
    unfold Spaced
    omega
  have hs : start ∈ [start, curr] := by simp
  have hc : curr ∈ [start, curr] := by simp
  have cells : CellsAre _ (grown m start curr size) _ := setSize_cellsAre
    ((((cellsAre_self [start, curr] _).set spaced hc nextWord (Nat.two_pow_pos 32)).set spaced hc
      nextfreeWord (Nat.two_pow_pos 32)).set spaced hs tailWord small) spaced hc sizeSmall even
        false
  rw [cells curr hc]
  simp

theorem growHeap_spec (h : HeapBlocks heap s bs fl z) (even : size % 2 = 0)
    (none : ∀ c ∈ bs, c.free = true → c.size < size) (room : s.curr + 12 + size ≤ heap.vmEnd) :
    PlacesTo heap s bs z size ⟨grown s.mem heap.vmStart s.curr size, s.curr + 12 + size⟩
      ⟨s.curr, size, false⟩ := by
  obtain ⟨blocks, outside⟩ := h.grow even (Nat.le_refl _) (Nat.le_refl _) room
  refine ⟨_, fl, _, .grown none, blocks, fun _ => ?_, outside.mono ?_⟩
  · have low := spread_length h.blocks.spread
    have high := heap.low
    exact grown_next s.mem (by omega) (by omega) (by omega) even
  · intro r hr
    simp only [records, map_append, map_cons, map_nil, mem_append, mem_cons, not_mem_nil] at hr ⊢
    tauto

def Serves (heap : HeapArea) (s : HeapState) (bs : List Block) (size : Nat) : Prop :=
  (∃ c ∈ bs, c.free = true ∧ size ≤ c.size) ∨ s.curr + 12 + size ≤ heap.vmEnd

variable {sz : Nat}

section
variable (h : HeapBlocks heap s bs fl z)
include h

theorem doesItFit_block (hb : b ∈ bs) (free : b.free = true) (even : size % 2 = 0) :
    doesItFit s.mem b.addr size = true ↔ size ≤ b.size := by
  have evenB := h.blocks.even b hb
  rw [doesItFit, Bool.and_eq_true, decide_eq_true_eq, isFree_block h.blocks hb,
    h.blocks.sizes b hb, free]
  simp only [Bool.toNat_true, getRealSize, and_true]
  omega

theorem findBestFitting_block (even : size % 2 = 0) :
    (findBestFitting s.mem heap.vmStart size = .ok 0 ∧
        ∀ c ∈ bs, c.free = true → c.size < size) ∨
      ∃ b, findBestFitting s.mem heap.vmStart size = .ok b.addr ∧ BestFit bs size b := by
  obtain ⟨found, best, from_list, least⟩ := findBestFitting_spec size h.freelist
    (fun f hf => (h.headers f hf).2.2) h.fl_length
  rcases from_list with rfl | ⟨listed, fits⟩
  · refine .inl ⟨best, fun c hc free => ?_⟩
    by_contra large
    exact (least c.addr (h.mem_fl.mpr ⟨c, hc, free, rfl⟩)
      ((doesItFit_block h hc free even).mpr (by omega))).1 rfl
  · obtain ⟨b, hb, free, rfl⟩ := h.mem_fl.mp listed
    refine .inr ⟨b, best, hb, free, (doesItFit_block h hb free even).mp fits, ?_⟩
    intro c hc freeC large
    have := (least c.addr (h.mem_fl.mpr ⟨c, hc, freeC, rfl⟩)
      ((doesItFit_block h hc freeC even).mpr large)).2
    rw [h.blocks.sizes b hb, h.blocks.sizes c hc, free, freeC] at this
    omega

theorem doMalloc_blocks (positive : sz ≠ 0) :
    (¬ Serves heap s bs (ceil16 sz) ∧ doMalloc heap.toVmArea s sz =
        .error (.assertion "Heap is running out of space\n")) ∨
      (Serves heap s bs (ceil16 sz) ∧ ∃ s' b, doMalloc heap.toVmArea s sz = .ok (b.addr + 12, s') ∧
        PlacesTo heap s bs z (ceil16 sz) s' b) := by
  obtain ⟨most, even⟩ := ceil16_le sz
  have request : u32 (ceil16 sz + overhead) = ceil16 sz + 12 := u32_of_lt (by
    rw [overhead]
    omega)
  have low := spread_length h.blocks.spread
  have top := h.top
  have high := heap.low
  rcases findBestFitting_block h even with ⟨best, none⟩ | ⟨b, best, fit⟩
  · simp only [doMalloc, if_neg positive, request, best, ok_bind, ne_eq, not_true_eq_false,
      if_false]
    by_cases range : ceil16 sz + 12 < 2 ^ 31
    · rw [growHeap_eq heap.toVmArea (show s.curr ≠ 0 by omega) range (by omega)]
      split
      · next room =>
          exact .inr ⟨.inr room, _, ⟨s.curr, ceil16 sz, false⟩, rfl, growHeap_spec h even none room⟩
      · next full =>
          refine .inl ⟨?_, rfl⟩
          rintro (⟨c, hc, free, large⟩ | room)
          · have := none c hc free
            omega
          · exact full room
    · refine .inl ⟨?_, growHeap_negative _ _ (by omega)⟩
      rintro (⟨c, hc, free, large⟩ | room)
      · have := none c hc free
        omega
      · omega
  · have hb := fit.mem
    have bound := h.bounds hb
    obtain ⟨xs, ys, rfl⟩ := append_of_mem hb
    obtain ⟨m', q, done, same, placed⟩ := takeBlock_spec h fit even
    have nonnull : b.addr ≠ 0 := by omega
    refine .inr ⟨.inl ⟨b, hb, fit.free, fit.fits⟩, { s with mem := m' }, q, ?_, placed⟩
    simp only [doMalloc, if_neg positive, request, best, ok_bind]
    rw [if_pos nonnull, done, same, overhead, u32_of_lt (by omega)]
    rfl

end

theorem Placed.records_subset {curr curr' start : Nat} {bs' : List Block}
    (h : Placed size curr bs b bs' curr') (apart : Coalesced bs) :
    records start bs ⊆ records start bs' := by
  cases h with
  | whole _ _ => simp
  | split _ _ _ _ =>
    intro r hr
    simp only [records, splitBlocks, map_append, map_cons, mem_cons,
      mem_append, map_nil, not_mem_nil] at hr ⊢
    tauto
  | merge best _ _ free =>
    obtain ⟨-, -, -, after⟩ := apart.parts
    exact absurd ⟨best.free, free⟩ (after _ rfl)
  | grown _ =>
    intro r hr
    simp only [records, map_append, mem_cons, mem_append] at hr ⊢
    tauto

theorem PlacesTo.acquired {s' : HeapState} (h : HeapRep heap s bs fl)
    (placed : PlacesTo heap s bs 0 size s' b) : Acquired heap s bs s' b := by
  obtain ⟨-, tiles, coalesced⟩ := heapRep_iff.mp h
  obtain ⟨bs', fl', z', placed, blocks', null, outside⟩ := placed
  rw [null rfl] at blocks'
  refine ⟨bs', fl', heapRep_iff.mpr ⟨blocks', placed.tiles tiles, placed.coalesced coalesced⟩,
    placed.allocated, outside.mono ?_⟩
  intro r hr
  rcases mem_append.mp hr with hr | hr
  · exact placed.records_subset coalesced hr
  · exact hr

theorem doMalloc_spec (h : HeapRep heap s bs fl) (positive : 1 ≤ sz) (small : sz ≤ 0x7FFFFF00) :
    (doMalloc heap.toVmArea s sz = .error (.assertion "Heap is running out of space\n") ∧
        heap.vmEnd < s.curr + 12 + ceil16 sz) ∨
      ∃ s' b, doMalloc heap.toVmArea s sz = .ok (b.addr + 12, s') ∧ sz ≤ b.size ∧
        Acquired heap s bs s' b := by
  have covers := (ceil16_spec (show sz + 15 < 2 ^ 32 by omega)).1
  rcases doMalloc_blocks (heapRep_iff.mp h).1 (show sz ≠ 0 by omega) with
    ⟨full, failed⟩ | ⟨-, s', b, done, placed⟩
  · refine .inl ⟨failed, ?_⟩
    by_contra room
    exact full (.inr (by omega))
  · have acquired := placed.acquired h
    obtain ⟨_, _, _, hosts, -⟩ := placed
    exact .inr ⟨s', b, done, Nat.le_trans covers hosts.size_le, acquired⟩

theorem kmalloc_grows (blocks : HeapBlocks heap s bs fl z) (used : ∀ c ∈ bs, c.free = false)
    (positive : sz ≠ 0) (room : s.curr + 12 + ceil16 sz ≤ heap.vmEnd) :
    ∃ s' fl' z', kmalloc heap s sz = .ok (s.curr + 12, s') ∧
      HeapBlocks heap s' (bs ++ [⟨s.curr, ceil16 sz, false⟩]) fl' z' ∧
        s'.curr = s.curr + 12 + ceil16 sz := by
  rcases doMalloc_blocks blocks positive with
    ⟨full, -⟩ | ⟨-, s', b, done, bs', fl', z', placed, blocks', -⟩
  · exact absurd (.inr room) full
  · obtain ⟨rfl, rfl, top⟩ := placed.isolated used
    exact ⟨s', fl', z', done, blocks', top⟩

end Elaborato.Mentos.Kheap
