import Elaborato.Mentos.KheapPolicy

/-!
`__do_free`: the freed block and its free neighbours become one block, the rest stays.
-/
namespace Elaborato.Mentos.Kheap
open Foundation List

def Released (heap : HeapArea) (s : HeapState) (bs : List Block) (b : Block) (m' : ByteMem) :
    Prop :=
  ∃ bs' fl', HeapRep heap { s with mem := m' } bs' fl' ∧
    (allocated bs).Perm (b :: allocated bs') ∧ Untouched (records heap.vmStart bs) s.mem m'

def FreesTo (heap : HeapArea) (s : HeapState) (bs : List Block) (z : Nat) (b : Block)
    (m' : ByteMem) : Prop :=
  ∃ bs' fl' z', Freed bs b bs' ∧ HeapBlocks heap { s with mem := m' } bs' fl' z' ∧
    (z = 0 → z' = 0) ∧ Untouched (records heap.vmStart bs) s.mem m'

variable {start curr size z : Nat} {m : ByteMem} {b p d : Block} {xs ys bs : List Block}

theorem getNextBlock_setSize (h : BlockList (cell m) start curr (xs ++ b :: ys) z)
    (hp : p ∈ xs ++ b :: ys) (small : size < 2 ^ 32) (even : size % 2 = 0) (free : Bool) :
    getNextBlock (setSize m p.addr size free) start b.addr = .ok (firstAddr ys) := by
  have cells : CellsAre _ (setSize m p.addr size free) _ :=
    setSize_cells (records_spaced h.spread) (mem_records start hp) small even free
  have same := getNextBlock_spec h
  have tail := cells start (start_mem_records start _) tailWord
  have next := cells b.addr (mem_records start (by simp)) nextWord
  rw [updCell_word (by decide)] at tail next
  simpa only [getNextBlock, tail, next] using same

theorem tail_choice {α : Type} (h : BlockList (cell m) start curr (xs ++ b :: ys) z) (x y : α) :
    (if cell m start tailWord = b.addr then x else y) = if ys.isEmpty then x else y := by
  have last := h.tail_iff
  rw [eq_comm] at last
  simp only [last, List.isEmpty_iff]

theorem realSize_eq (h : BlockList (cell m) start curr bs z) (hb : b ∈ bs) :
    getRealSize (cell m b.addr sizeWord) = b.size := by
  rw [h.sizes b hb, getRealSize_block (h.even b hb)]

theorem mergeBoth_eq (h : BlockList (cell m) start curr (xs ++ p :: b :: d :: ys) z)
    (top : curr < 2 ^ 32) :
    mergeBoth m start p.addr b.addr d.addr (cell m start tailWord) =
      removeFromFreelist (absorb m start p.addr (p.size + 24 + b.size + d.size) (firstAddr ys)
        ys.isEmpty) start d.addr := by
  have split : xs ++ p :: b :: d :: ys = (xs ++ [p, b]) ++ d :: ys := by simp
  have stops := h.spread
  obtain ⟨a, -, first, second, third, rest⟩ := spread_append.mp stops
  have len := spread_length rest
  unfold Block.stop at second third len
  have next := getNextBlock_setSize (split ▸ h) (show p ∈ (xs ++ [p, b]) ++ d :: ys by simp)
    (show p.size + 24 + b.size + d.size < 2 ^ 32 by omega)
    (by
      have := h.even p (by simp)
      have := h.even b (by simp)
      have := h.even d (by simp)
      omega) true
  simp only [mergeBoth, overhead, realSize_eq h (show p ∈ _ by simp),
    realSize_eq h (show b ∈ _ by simp), realSize_eq h (show d ∈ _ by simp),
    u32_of_lt (show p.size + 2 * 12 + b.size + d.size < 2 ^ 32 by omega)]
  rw [show p.size + 2 * 12 + b.size + d.size = p.size + 24 + b.size + d.size by omega, next]
  simp only [Except.bind, tail_choice (split ▸ h), absorb]

theorem mergePrev_eq (h : BlockList (cell m) start curr (xs ++ p :: b :: ys) z)
    (top : curr < 2 ^ 32) :
    mergePrev m start p.addr b.addr (firstAddr ys) (cell m start tailWord) =
      absorb m start p.addr (p.size + 12 + b.size) (firstAddr ys) ys.isEmpty := by
  have split : xs ++ p :: b :: ys = (xs ++ [p]) ++ b :: ys := by simp
  obtain ⟨a, -, first, second, rest⟩ := spread_append.mp h.spread
  have len := spread_length rest
  unfold Block.stop at second len
  simp only [mergePrev, overhead, realSize_eq h (show p ∈ _ by simp),
    realSize_eq h (show b ∈ _ by simp), u32_of_lt (show p.size + 12 + b.size < 2 ^ 32 by omega),
    tail_choice (split ▸ h), absorb]

theorem mergeNext_eq (h : BlockList (cell m) start curr (xs ++ b :: d :: ys) z)
    (top : curr < 2 ^ 32) :
    mergeNext m start b.addr d.addr (cell m start tailWord) =
      (removeFromFreelist (absorb m start b.addr (b.size + 12 + d.size) (firstAddr ys)
        ys.isEmpty) start d.addr).bind fun m => addToFreelist m start b.addr := by
  have split : xs ++ b :: d :: ys = (xs ++ [b]) ++ d :: ys := by simp
  obtain ⟨a, -, first, second, rest⟩ := spread_append.mp h.spread
  have len := spread_length rest
  unfold Block.stop at second len
  have next := getNextBlock_setSize (split ▸ h) (show b ∈ (xs ++ [b]) ++ d :: ys by simp)
    (show b.size + 12 + d.size < 2 ^ 32 by omega)
    (by
      have := h.even b (by simp)
      have := h.even d (by simp)
      omega) true
  simp only [mergeNext, overhead, realSize_eq h (show b ∈ _ by simp),
    realSize_eq h (show d ∈ _ by simp), u32_of_lt (show b.size + 12 + d.size < 2 ^ 32 by omega)]
  rw [next]
  simp only [Except.bind, tail_choice (split ▸ h), absorb]

variable {heap : HeapArea} {s : HeapState} {fl : List Nat}

theorem mergeBoth_spec (h : HeapBlocks heap s (xs ++ p :: b :: d :: ys) fl z)
    (used : b.free = false) (freeP : p.free = true) (freeD : d.free = true) :
    ∃ m', mergeBoth s.mem heap.vmStart p.addr b.addr d.addr (cell s.mem heap.vmStart tailWord) =
        .ok m' ∧ FreesTo heap s (xs ++ p :: b :: d :: ys) z b m' := by
  have evenP := h.blocks.even p (by simp)
  have evenB := h.blocks.even b (by simp)
  have evenD := h.blocks.even d (by simp)
  obtain ⟨chain, list, outside, within⟩ := HeapBlocks.absorb
    (show HeapBlocks heap s (xs ++ p :: ([b, d] ++ ys)) fl z from h)
    (show ∀ e, Spread p.stop [b, d] e → p.addr + 12 + (p.size + 24 + b.size + d.size) ≤ e by
      rintro e ⟨hb, hd, he⟩
      unfold Block.stop at hb hd he
      unfold Spread at he
      omega) (by omega)
  obtain ⟨us, vs, rfl⟩ := append_of_mem (h.mem_fl.mpr ⟨d, by simp, freeD, rfl⟩)
  have short := h.fl_length
  rw [length_append] at short
  obtain ⟨m', removed, list, changed⟩ := removeFromFreelist_spec h.spaced (start_mem_records _ _)
    list h.fl_nodup h.headers (by omega)
  refine ⟨m', (mergeBoth_eq h.blocks h.curr_lt).trans removed, _, us ++ vs, _, .both freeP freeD,
    ⟨chain.freelistOnly changed within, list, ?_, h.top⟩, by simp +contextual,
    outside.trans changed.outside⟩
  have listed := perm_middle.symm.trans h.listed
  simp only [filter_append, filter_cons, freeP, freeD, used, map_append,
    map_cons, if_true] at listed ⊢
  rw [append_cons] at listed
  simpa using (listed.trans perm_middle).cons_inv

theorem mergePrev_spec (h : HeapBlocks heap s (xs ++ p :: b :: ys) fl z) (used : b.free = false)
    (freeP : p.free = true) (alone : ∀ y ∈ ys.head?, y.free = false) :
    FreesTo heap s (xs ++ p :: b :: ys) z b
      (mergePrev s.mem heap.vmStart p.addr b.addr (firstAddr ys)
        (cell s.mem heap.vmStart tailWord)) := by
  have evenP := h.blocks.even p (by simp)
  have evenB := h.blocks.even b (by simp)
  obtain ⟨chain, list, outside, -⟩ := HeapBlocks.absorb
    (show HeapBlocks heap s (xs ++ p :: ([b] ++ ys)) fl z from h)
    (show ∀ e, Spread p.stop [b] e → p.addr + 12 + (p.size + 12 + b.size) ≤ e by
      rintro e ⟨hb, he⟩
      unfold Block.stop at hb he
      unfold Spread at he
      omega) (by omega)
  rw [mergePrev_eq h.blocks h.curr_lt]
  refine ⟨_, fl, _, .previous freeP alone, ⟨chain, list, ?_, h.top⟩, by simp +contextual, outside⟩
  have listed := h.listed
  simp only [filter_append, filter_cons, freeP, used] at listed ⊢
  simpa using listed

theorem mergeNext_spec (h : HeapBlocks heap s (xs ++ b :: d :: ys) fl z) (used : b.free = false)
    (freeD : d.free = true) (alone : ∀ x ∈ xs.getLast?, x.free = false) :
    ∃ m', mergeNext s.mem heap.vmStart b.addr d.addr (cell s.mem heap.vmStart tailWord) =
        .ok m' ∧ FreesTo heap s (xs ++ b :: d :: ys) z b m' := by
  have evenB := h.blocks.even b (by simp)
  have evenD := h.blocks.even d (by simp)
  obtain ⟨chain, list, outside, within⟩ := HeapBlocks.absorb
    (show HeapBlocks heap s (xs ++ b :: ([d] ++ ys)) fl z from h)
    (show ∀ e, Spread b.stop [d] e → b.addr + 12 + (b.size + 12 + d.size) ≤ e by
      rintro e ⟨hd, he⟩
      unfold Block.stop at hd he
      unfold Spread at he
      omega) (by omega)
  obtain ⟨us, vs, rfl⟩ := append_of_mem (h.mem_fl.mpr ⟨d, by simp, freeD, rfl⟩)
  have short := h.fl_length
  rw [length_append] at short
  obtain ⟨m', removed, list, changed⟩ := removeFromFreelist_spec h.spaced (start_mem_records _ _)
    list h.fl_nodup h.headers (by omega)
  have bound := h.bounds (show b ∈ xs ++ b :: d :: ys by simp)
  have fresh := h.used_not_listed (show b ∈ xs ++ b :: d :: ys by simp) used
  have shorter : us ++ vs ⊆ us ++ d.addr :: vs := by simp
  obtain ⟨m'', added, list, changed'⟩ := addToFreelist_spec h.spaced (start_mem_records _ _)
    (mem_records _ (show b ∈ xs ++ b :: d :: ys by simp)) (by omega) (by omega) (by omega) list
    (fun f hf => h.headers f (shorter hf)) (fun hf => fresh (shorter hf))
  refine ⟨m'', ?_, _, b.addr :: (us ++ vs), _, .next alone freeD,
    ⟨chain.freelistOnly (changed.trans changed') within, list, ?_, h.top⟩, by simp +contextual,
    outside.trans (changed.trans changed').outside⟩
  · rw [mergeNext_eq h.blocks h.curr_lt, removed]
    exact added
  · have listed := perm_middle.symm.trans h.listed
    simp only [filter_append, filter_cons, freeD, used, map_append, map_cons, if_true] at listed ⊢
    refine ((listed.trans ?_).cons_inv.cons _).trans perm_middle.symm
    simp

theorem markFree_spec (h : HeapBlocks heap s (xs ++ b :: ys) fl z) (used : b.free = false)
    (before : ∀ x ∈ xs.getLast?, x.free = false) (after : ∀ y ∈ ys.head?, y.free = false) :
    ∃ m', markFree s.mem heap.vmStart b.addr = .ok m' ∧ FreesTo heap s (xs ++ b :: ys) z b m' := by
  have hb : b ∈ xs ++ b :: ys := by simp
  have bound := h.bounds hb
  have even := h.blocks.even b hb
  have size := h.blocks.sizes b hb
  rw [used, Bool.toNat_false, Nat.add_zero] at size
  have hbr := mem_records heap.vmStart hb
  have marked : CellsAre _ (setCell s.mem b.addr sizeWord (b.size + true.toNat)) _ :=
    (cellsAre_self _ s.mem).set h.spaced hbr sizeWord
      (by
        rw [Bool.toNat_true]
        omega)
  have only := chainOnly_size (start_mem_records _ _) marked (untouched_set _ hbr _ _)
  obtain ⟨m', added, list, changed⟩ := addToFreelist_spec h.spaced (start_mem_records _ _) hbr
    (by omega) (by omega) (by omega) (h.freelist.chainOnly h.headers only) h.headers
    (h.used_not_listed hb used)
  have within : records heap.vmStart (xs ++ { b with free := true } :: ys) ⊆
      records heap.vmStart (xs ++ b :: ys) := by simp [records]
  refine ⟨m', ?_, _, _, z, .alone before after,
    ⟨(h.blocks.flip marked).freelistOnly changed within, list, ?_, h.top⟩, id,
    only.outside.trans changed.outside⟩
  · simp only [markFree, size, setFree_even even]
    exact added
  · have listed := h.listed
    simp only [filter_append, filter_cons, used, map_append, map_cons, if_true] at listed ⊢
    exact (listed.cons b.addr).trans perm_middle.symm

theorem isFree_last (h : BlockList (cell m) start curr (xs ++ ys) z) :
    isFree m (lastAddr xs) = xs.getLast?.any Block.free := by
  rcases eq_nil_or_concat xs with rfl | ⟨xs, p, rfl⟩
  · rfl
  · rw [concat_eq_append] at h ⊢
    rw [lastAddr_concat, isFree_block h (by simp)]
    simp

theorem isFree_first (h : BlockList (cell m) start curr (xs ++ ys) z) :
    isFree m (firstAddr ys) = ys.head?.any Block.free := by
  cases ys with
  | nil => rfl
  | cons d ys => exact isFree_block h (by simp)

variable {o : Option Block}

theorem some_free (free : o.any Block.free = true) : ∃ p, o = some p ∧ p.free = true := by
  cases o with
  | none => cases free
  | some p => exact ⟨p, rfl, free⟩

theorem none_free (used : o.any Block.free = false) : ∀ p ∈ o, p.free = false := by
  rintro p rfl
  exact used

variable {α β : Type}

theorem ok_bind (x : α) (f : α → Except HeapHalt β) :
    (Except.ok x : Except HeapHalt α).bind f = f x := rfl

theorem map_eq_ok {x : Except HeapHalt α} {f : α → β} {y : β} (done : x.map f = .ok y) :
    ∃ a, x = .ok a ∧ f a = y := by
  cases x with
  | error halt => cases done
  | ok a => exact ⟨a, rfl, Except.ok.inj done⟩

theorem doFree_blocks {z : Nat} (h : HeapBlocks heap s bs fl z) (hb : b ∈ bs)
    (used : b.free = false) :
    ∃ m', doFree heap.toVmArea s.mem (b.addr + 12) = .ok m' ∧ FreesTo heap s bs z b m' := by
  have bound := h.bounds hb
  obtain ⟨xs, ys, rfl⟩ := append_of_mem hb
  have split : xs ++ b :: ys = (xs ++ [b]) ++ ys := by simp
  have previous := isFree_last h.blocks
  have next := isFree_first (split ▸ h.blocks)
  have header : sub32 (b.addr + 12) overhead = b.addr := by
    rw [overhead, sub32_of_le (by omega) (by omega), Nat.add_sub_cancel]
  have nonzero : b.addr + 12 ≠ 0 := by omega
  simp only [doFree, if_neg nonzero, header, getPreviousBlock_spec h.blocks h.curr_lt,
    getNextBlock_spec h.blocks, ok_bind, previous, next]
  -- which of the two neighbours are free
  rcases hx : xs.getLast?.any Block.free <;> rcases hy : ys.head?.any Block.free
  · simp only [Bool.false_and, Bool.false_eq_true, if_false]
    exact markFree_spec h used (none_free hx) (none_free hy)
  · obtain ⟨d, hd, freeD⟩ := some_free hy
    obtain ⟨ys, rfl⟩ := head?_eq_some_iff.mp hd
    simp only [Bool.false_and, Bool.false_eq_true, if_false, if_true]
    exact mergeNext_spec h used freeD (none_free hx)
  · obtain ⟨p, hp, freeP⟩ := some_free hx
    obtain ⟨xs, rfl⟩ := getLast?_eq_some_iff.mp hp
    rw [append_assoc, singleton_append] at h ⊢
    simp only [Bool.and_false, Bool.false_eq_true, if_false, if_true, lastAddr_concat]
    exact ⟨_, rfl, mergePrev_spec h used freeP (none_free hy)⟩
  · obtain ⟨p, hp, freeP⟩ := some_free hx
    obtain ⟨xs, rfl⟩ := getLast?_eq_some_iff.mp hp
    obtain ⟨d, hd, freeD⟩ := some_free hy
    obtain ⟨ys, rfl⟩ := head?_eq_some_iff.mp hd
    rw [append_assoc, singleton_append] at h ⊢
    simp only [Bool.and_self, if_true, lastAddr_concat]
    exact mergeBoth_spec h used freeP freeD

theorem doFree_spec (h : HeapRep heap s bs fl) (hb : b ∈ bs) (used : b.free = false) :
    ∃ m', doFree heap.toVmArea s.mem (b.addr + 12) = .ok m' ∧ Released heap s bs b m' := by
  obtain ⟨blocks, tiles, coalesced⟩ := heapRep_iff.mp h
  obtain ⟨m', done, bs', fl', z', freed, blocks', null, outside⟩ := doFree_blocks blocks hb used
  rw [null rfl] at blocks'
  exact ⟨m', done, bs', fl',
    heapRep_iff.mpr ⟨blocks', freed.tiles tiles, freed.coalesced coalesced⟩,
    freed.allocated used, outside⟩

end Elaborato.Mentos.Kheap
