import Elaborato.Mentos.KheapBlocks

/-!
The block helpers of kheap.c, and the words that operations on the free list change.
-/
namespace Elaborato.Mentos.Kheap
open Foundation List

def FreeList (m : ByteMem) (start : Nat) (fl : List Nat) : Prop :=
  Threaded (cell m) nextfreeWord (start, freelistWord) fl

structure FreelistOnly (rs : List Nat) (start : Nat) (m m' : ByteMem) : Prop where
  first : ∀ r ∈ rs, cell m' r sizeWord = cell m r sizeWord
  next : ∀ r ∈ rs, r ≠ start → cell m' r nextWord = cell m r nextWord
  tail : cell m' start tailWord = cell m start tailWord
  outside : Untouched rs m m'

/-- No word of the free list has changed. -/
structure ChainOnly (rs : List Nat) (start : Nat) (m m' : ByteMem) : Prop where
  nextfree : ∀ r ∈ rs, r ≠ start → cell m' r nextfreeWord = cell m r nextfreeWord
  freelist : cell m' start freelistWord = cell m start freelistWord
  outside : Untouched rs m m'

def Listed (rs : List Nat) (start : Nat) (fl : List Nat) : Prop :=
  ∀ f ∈ fl, f ∈ rs ∧ f ≠ start ∧ f ≠ 0

variable {rs : List Nat} {start curr : Nat} {m m' m'' : ByteMem} {fl : List Nat} {bs : List Block}

theorem FreelistOnly.trans (first : FreelistOnly rs start m m')
    (second : FreelistOnly rs start m' m'') : FreelistOnly rs start m m'' :=
  ⟨fun r hr => (second.first r hr).trans (first.first r hr),
    fun r hr away => (second.next r hr away).trans (first.next r hr away),
    second.tail.trans first.tail, first.outside.trans second.outside⟩

theorem FreeList.chainOnly (list : FreeList m start fl) (listed : Listed rs start fl)
    (only : ChainOnly rs start m m') : FreeList m' start fl :=
  threaded_move list only.freelist fun f hf =>
    only.nextfree f (listed f hf).1 (listed f hf).2.1

theorem BlockList.freelistOnly {z : Nat} (h : BlockList (cell m) start curr bs z)
    (only : FreelistOnly rs start m m') (within : records start bs ⊆ rs) :
    BlockList (cell m') start curr bs z := by
  have header : ∀ b ∈ bs, b.addr ∈ rs ∧ b.addr ≠ start := by
    intro b hb
    have := (h.below hb).1
    exact ⟨within (mem_cons_of_mem _ (mem_map_of_mem hb)), by omega⟩
  exact h.congr (fun b hb => only.first _ (header b hb).1)
    (fun b hb => only.next _ (header b hb).1 (header b hb).2)
    (only.first start (within mem_cons_self)) only.tail

variable {block : Nat} {us vs : List Nat}

attribute [local simp] updCell

theorem addToFreelist_spec (spaced : AllSpaced rs) (hs : start ∈ rs) (hb : block ∈ rs)
    (positive : block ≠ 0) (small : block < 2 ^ 32) (away : block ≠ start)
    (list : FreeList m start fl) (listed : Listed rs start fl) (fresh : block ∉ fl) :
    ∃ m', addToFreelist m start block = .ok m' ∧ FreeList m' start (block :: fl) ∧
      FreelistOnly rs start m m' := by
  have cells := ((cellsAre_self rs m).set spaced hb nextfreeWord
    (cell_lt m start freelistWord)).set spaced hs freelistWord small
  refine ⟨_, if_neg positive, ⟨?_, ?_⟩, ⟨?_, ?_, ?_, ?_⟩⟩
  · rw [cells start hs]
    simp
  · refine threaded_move list ?_ fun f hf => ?_
    · rw [cells block hb]
      simp [away]
    · have other : f ≠ block := fun h => fresh (h ▸ hf)
      rw [cells f (listed f hf).1]
      simp [other, (listed f hf).2.1]
  · intro r hr
    rw [cells r hr]
    simp
  · intro r hr notStart
    rw [cells r hr]
    simp [notStart]
  · rw [cells start hs]
    simp [Ne.symm away]
  · exact (untouched_set m hb _ _).trans (untouched_set _ hs _ _)

theorem removeFromFreelist_eq (list : FreeList m start (us ++ block :: vs))
    (nodup : (us ++ block :: vs).Nodup) (nonzero : ∀ f ∈ us ++ block :: vs, f ≠ 0)
    (short : us.length < addresses) :
    removeFromFreelist m start block = .ok (setCell
      (setCell m (endCell nextfreeWord (start, freelistWord) us).1
        (endCell nextfreeWord (start, freelistWord) us).2 (cell m block nextfreeWord))
      block nextfreeWord 0) := by
  have positive : block ≠ 0 := nonzero block (by simp)
  rcases eq_nil_or_concat us with rfl | ⟨us, u, rfl⟩
  · have first : cell m start freelistWord = block := list.1
    simp only [removeFromFreelist, first, if_neg positive, if_true, endCell]
  · rw [concat_eq_append] at list nodup nonzero short ⊢
    have split : us ++ [u] ++ block :: vs = us ++ u :: (block :: vs) := by simp
    have first : cell m start freelistWord ≠ 0 ∧ cell m start freelistWord ≠ block := by
      have head := chained_first (threaded_iff.mp list)
      simp only at head
      rw [head]
      cases us with
      | nil =>
        simp only [nil_append, singleton_append, headD_cons] at nodup nonzero ⊢
        exact ⟨nonzero u (by simp), fun h => (nodup_cons.mp nodup).1 (by simp [h])⟩
      | cons w us =>
        simp only [cons_append, headD_cons] at nodup nonzero ⊢
        exact ⟨nonzero w (by simp), fun h => (nodup_cons.mp nodup).1 (by simp [h])⟩
    rw [split] at list nodup nonzero
    have chain := threaded_iff.mp list
    have stops : cell m u nextfreeWord = block := (chained_drop chain).2.1
    have found := seek_chained
      (fun prev => prev == 0 || cell m prev nextfreeWord == block) chain ?_ (by simp [stops])
      (show us.length < addresses by simp at short; omega)
    · simp only [removeFromFreelist, if_neg positive, if_neg first.1, if_neg (Ne.symm first.2),
        found, if_neg (nonzero u (by simp)), endCell_concat]
    · intro w hw
      have next := chained_next_mem chain hw
      have other : cell m w nextfreeWord ≠ block := by
        intro h
        rw [h] at next
        have apart := (nodup_append.mp nodup).2.2
        rcases mem_append.mp next with before | before
        · exact apart block before block (by simp) rfl
        · have inner := (nodup_append.mp nodup).2.1
          exact (nodup_cons.mp inner).1 (by simp [← mem_singleton.mp before])
      simp [nonzero w (by simp [hw]), other]

theorem removeFromFreelist_spec (spaced : AllSpaced rs) (hs : start ∈ rs)
    (list : FreeList m start (us ++ block :: vs)) (nodup : (us ++ block :: vs).Nodup)
    (listed : Listed rs start (us ++ block :: vs)) (short : us.length < addresses) :
    ∃ m', removeFromFreelist m start block = .ok m' ∧ FreeList m' start (us ++ vs) ∧
      FreelistOnly rs start m m' := by
  have hb := listed block (by simp)
  have done := removeFromFreelist_eq list nodup (fun f hf => (listed f hf).2.2) short
  obtain ⟨apartU, nodupV, apart⟩ := nodup_append.mp nodup
  have notIn : block ∉ us := fun h => apart block h block (by simp) rfl
  have notIn' : block ∉ vs := (nodup_cons.mp nodupV).1
  generalize he : endCell nextfreeWord (start, freelistWord) us = e at done
  have place : e = (start, freelistWord) ∨ ∃ u ∈ us, e = (u, nextfreeWord) :=
    he ▸ endCell_cases nextfreeWord (start, freelistWord) us
  have heA : e.1 ∈ rs := by
    rcases place with rfl | ⟨u, hu, rfl⟩
    · exact hs
    · exact (listed u (by simp [hu])).1
  have cells := ((cellsAre_self rs m).set spaced heA e.2 (cell_lt m block nextfreeWord)).set
    spaced hb.1 nextfreeWord (Nat.two_pow_pos 32)
  refine ⟨_, done, threaded_iff.mpr ?_, ⟨?_, ?_, ?_, ?_⟩⟩
  · have chain := threaded_iff.mp list
    refine chained_relink chain apartU ?_ ?_ ?_ ?_
    · intro u hu equal
      exact (listed u (by simp [hu])).2.1 (Prod.mk.inj equal).1
    · intro notEnd
      rw [he] at notEnd
      simp only [cells start hs, updCell]
      rw [if_neg fun h => hb.2.1 h.1.symm, if_neg fun h => notEnd (Prod.ext h.1 h.2)]
    · intro u hu notEnd
      rw [he] at notEnd
      simp only [cells u (listed u (by simp [hu])).1, updCell]
      have other : u ≠ block := fun h => notIn (h ▸ hu)
      rw [if_neg fun h => other h.1, if_neg fun h => notEnd (Prod.ext h.1 h.2)]
    · rw [he]
      refine chained_move (chained_drop chain).2 ?_ fun v hv => ?_
      · have notBlock : e.1 ≠ block := by
          rcases place with rfl | ⟨u, hu, rfl⟩
          · exact Ne.symm hb.2.1
          · exact fun h => notIn (h ▸ hu)
        simp [cells e.1 heA, notBlock]
      · have notEnd : v ≠ e.1 := by
          rcases place with rfl | ⟨u, hu, rfl⟩
          · exact (listed v (by simp [hv])).2.1
          · exact fun h => apart u hu v (by simp [hv]) h.symm
        have other : v ≠ block := fun h => notIn' (h ▸ hv)
        simp only [cells v (listed v (by simp [hv])).1, updCell]
        rw [if_neg fun h => other h.1, if_neg fun h => notEnd h.1]
  · intro r hr
    rw [cells r hr]
    rcases place with rfl | ⟨u, hu, rfl⟩ <;> simp
  · intro r hr notStart
    rw [cells r hr]
    rcases place with rfl | ⟨u, hu, rfl⟩ <;> simp [notStart]
  · rw [cells start hs]
    rcases place with rfl | ⟨u, hu, rfl⟩
    · simp [Ne.symm hb.2.1]
    · simp [Ne.symm hb.2.1, Ne.symm (listed u (by simp [hu])).2.1]
  · exact (untouched_set m heA _ _).trans (untouched_set _ hb.1 _ _)

def Candidate (m : ByteMem) (size : Nat) (fl : List Nat) (best f : Nat) : Prop :=
  f ∈ fl ∧ doesItFit m f size = true ∨ f = best ∧ best ≠ 0

theorem findBestFittingLoop_spec {c : Nat × Fin 3} {fuel : Nat} (size best : Nat)
    (list : Threaded (cell m) nextfreeWord c fl) (nonzero : ∀ f ∈ fl, f ≠ 0)
    (enough : fl.length < fuel) :
    ∃ found, findBestFittingLoop m size fuel (cell m c.1 c.2) best = some found ∧
      (found = best ∨ found ∈ fl ∧ doesItFit m found size = true) ∧
        ∀ f, Candidate m size fl best f →
          found ≠ 0 ∧ cell m found sizeWord ≤ cell m f sizeWord := by
  induction fl generalizing c best fuel with
  | nil =>
    obtain ⟨fuel, rfl⟩ : ∃ n, fuel = n + 1 := ⟨fuel - 1, by simp at enough; omega⟩
    have last : cell m c.1 c.2 = 0 := list
    refine ⟨best, by rw [findBestFittingLoop, if_pos last], .inl rfl, ?_⟩
    rintro f (⟨none, -⟩ | ⟨rfl, nonnull⟩)
    · cases none
    · exact ⟨nonnull, Nat.le_refl _⟩
  | cons f fl ih =>
    obtain ⟨fuel, rfl⟩ : ∃ n, fuel = n + 1 := ⟨fuel - 1, by simp at enough; omega⟩
    have here : cell m c.1 c.2 = f := list.1
    have notNull : f ≠ 0 := nonzero f mem_cons_self
    rw [findBestFittingLoop, here, if_neg notNull]
    obtain ⟨found, result, from_list, least⟩ := ih _ list.2
      (fun g hg => nonzero g (mem_cons_of_mem _ hg)) (by simpa using enough)
    refine ⟨found, result, ?_, ?_⟩
    · rcases from_list with chosen | ⟨mem, fits⟩
      · split at chosen
        · next better =>
            rw [Bool.and_eq_true] at better
            exact .inr ⟨chosen ▸ mem_cons_self, chosen ▸ better.1⟩
        · exact .inl chosen
      · exact .inr ⟨mem_cons_of_mem _ mem, fits⟩
    · rintro g (⟨hg, fits⟩ | ⟨rfl, nonnull⟩)
      · rcases mem_cons.mp hg with rfl | hg
        · split at least
          · exact least g (.inr ⟨rfl, notNull⟩)
          · next worse =>
              simp only [fits, Bool.true_and, Bool.or_eq_true, beq_iff_eq, decide_eq_true_eq,
                not_or, Nat.not_lt] at worse
              have := least best (.inr ⟨rfl, worse.1⟩)
              exact ⟨this.1, Nat.le_trans this.2 worse.2⟩
        · exact least g (.inl ⟨hg, fits⟩)
      · split at least
        · next better =>
            simp only [Bool.and_eq_true, Bool.or_eq_true, beq_iff_eq, nonnull, false_or,
              decide_eq_true_eq] at better
            have := least f (.inr ⟨rfl, notNull⟩)
            exact ⟨this.1, Nat.le_of_lt (Nat.lt_of_le_of_lt this.2 better.2)⟩
        · exact least g (.inr ⟨rfl, nonnull⟩)

theorem findBestFitting_spec (size : Nat) (list : FreeList m start fl) (nonzero : ∀ f ∈ fl, f ≠ 0)
    (short : fl.length < addresses) :
    ∃ found, findBestFitting m start size = .ok found ∧
      (found = 0 ∨ found ∈ fl ∧ doesItFit m found size = true) ∧
        ∀ f ∈ fl, doesItFit m f size = true →
          found ≠ 0 ∧ cell m found sizeWord ≤ cell m f sizeWord := by
  obtain ⟨found, result, from_list, least⟩ := findBestFittingLoop_spec size 0 list nonzero short
  exact ⟨found, by rw [findBestFitting, result], from_list,
    fun f hf fits => least f (.inl ⟨hf, fits⟩)⟩

variable {z : Nat} {b : Block} {xs ys : List Block}

theorem isFree_block (h : BlockList (cell m) start curr bs z) (hb : b ∈ bs) :
    isFree m b.addr = b.free := by
  have low := (h.below hb).1
  have positive : b.addr ≠ 0 := by omega
  have size := h.sizes b hb
  have even := h.even b hb
  rw [isFree, size]
  cases b.free <;> simp [positive] <;> omega

theorem getNextBlock_eq {block : Nat} (positive : block ≠ 0)
    (tail : cell m start tailWord ≠ 0) : getNextBlock m start block =
      .ok (if block = cell m start tailWord then 0 else cell m block nextWord) := by
  simp only [getNextBlock, if_neg positive, if_neg tail]
  split <;> rfl

variable (h : BlockList (cell m) start curr (xs ++ b :: ys) z)
include h

theorem BlockList.next_or_null :
    (if b.addr = cell m start tailWord then 0 else cell m b.addr nextWord) = firstAddr ys := by
  split
  · next last => rw [h.tail_iff.mp last, firstAddr, map_nil, headD_nil]
  · next inner =>
      rw [h.next]
      cases ys with
      | nil => exact absurd (h.tail_iff.mpr rfl) inner
      | cons y ys => rfl

theorem getNextBlock_spec : getNextBlock m start b.addr = .ok (firstAddr ys) := by
  have hb : b ∈ xs ++ b :: ys := by simp
  have low := (h.below hb).1
  rw [getNextBlock_eq (by omega) (h.tail_ne_zero hb), h.next_or_null]

theorem getPreviousBlock_spec (small : curr < addresses) :
    getPreviousBlock m start b.addr = .ok (lastAddr xs) := by
  have low := (h.below (show b ∈ xs ++ b :: ys by simp)).1
  have positive : b.addr ≠ 0 := by omega
  have chain := h.chain
  have nodup := spread_nodup h.spread
  have head := chained_first chain
  simp only at head
  rcases eq_nil_or_concat xs with rfl | ⟨xs, p, rfl⟩
  · have first : cell m start headWord = b.addr := head
    simp only [getPreviousBlock, first, if_neg positive, if_true]
    rfl
  · rw [concat_eq_append] at *
    have split : xs ++ [p] ++ b :: ys = xs ++ p :: b :: ys := by simp
    rw [split] at h chain nodup head
    have first : cell m start headWord ≠ 0 ∧ b.addr ≠ cell m start headWord := by
      rw [head]
      cases xs with
      | nil =>
        have lowP := (h.below (show p ∈ [] ++ p :: b :: ys by simp)).1
        simp only [nil_append, map_cons, headD_cons] at nodup ⊢
        exact ⟨by omega, fun same => (nodup_cons.mp nodup).1 (by simp [same])⟩
      | cons x xs =>
        have lowX := (h.below (show x ∈ x :: xs ++ p :: b :: ys by simp)).1
        simp only [cons_append, map_cons, headD_cons] at nodup ⊢
        exact ⟨by omega, fun same => (nodup_cons.mp nodup).1 (by simp [← same])⟩
    have short : (xs.map Block.addr).length < addresses := by
      have := spread_length h.spread
      simp only [length_append, length_cons, length_map] at this ⊢
      omega
    rw [map_append, map_cons, map_cons] at chain nodup
    have stops : cell m p.addr nextWord = b.addr := (chained_drop chain).2.1
    have found := seek_chained (fun prev => cell m prev nextWord == b.addr) chain ?_
      (by simp [stops]) short
    · simp only [getPreviousBlock, if_neg positive, if_neg first.1, if_neg first.2, found,
        lastAddr_concat]
    · intro w hw
      have next := chained_next_mem chain hw
      refine beq_eq_false_iff_ne.mpr fun same => ?_
      rw [same] at next
      obtain ⟨-, inner, apart⟩ := nodup_append.mp nodup
      rcases mem_append.mp next with before | before
      · exact apart b.addr before b.addr (by simp) rfl
      · exact (nodup_cons.mp inner).1 (by simp [← mem_singleton.mp before])

end Elaborato.Mentos.Kheap
