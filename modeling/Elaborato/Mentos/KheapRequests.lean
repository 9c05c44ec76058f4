import Elaborato.Mentos.KheapRuns

/-!
The 32-bit sizes that callers ask for: a request that wraps gets a block that is too small.
-/
namespace Elaborato.Mentos.Kheap
open Foundation Function

/-- The loop of `memset`. -/
def memset : ByteMem → Nat → UInt8 → Nat → ByteMem
  | m, _, _, 0 => m
  | m, dst, value, num + 1 => memset (update m dst value) (u32 (dst + 1)) value num

def kcalloc (heap : HeapArea) (s : HeapState) (num size : Nat) :
    Except HeapHalt (Nat × HeapState) :=
  (kmalloc heap s (u32 (num * size))).map fun (ptr, s) =>
    if ptr ≠ 0 then (ptr, { s with mem := memset s.mem ptr 0 (u32 (num * size)) }) else (ptr, s)

theorem memset_apply {m : ByteMem} {dst num x : Nat} {value : UInt8} (small : dst + num < 2 ^ 32) :
    memset m dst value num x = if dst ≤ x ∧ x < dst + num then value else m x := by
  induction num generalizing m dst with
  | zero => rw [memset, if_neg (by omega)]
  | succ num ih =>
    rw [memset, u32_of_lt (by omega), ih (by omega)]
    by_cases first : x = dst
    · subst first
      rw [if_neg (by omega), if_pos (by omega), update_self]
    · rw [update_of_ne first]
      exact if_congr (by omega) rfl rfl

def HasBytes (heap : HeapArea) (s : HeapState) (p n : Nat) : Prop :=
  ∃ bs fl b, Contiguous heap s bs fl ∧ b ∈ bs ∧ b.free = false ∧ p = b.addr + 12 ∧ n ≤ b.size

def MallocHolds (heap : HeapArea) (s : HeapState) (sz : Nat) : Prop :=
  ∀ p s', kmalloc heap s sz = .ok (p, s') → p ≠ 0 → HasBytes heap s' p sz

def CallocHolds (heap : HeapArea) (s : HeapState) (num size : Nat) : Prop :=
  ∀ p s', kcalloc heap s num size = .ok (p, s') → p ≠ 0 →
    HasBytes heap s' p (num * size) ∧ ∀ i < num * size, s'.mem (p + i) = 0

variable {heap : HeapArea} {s : HeapState} {bs : List Block} {fl : List Nat} {sz : Nat}

theorem not_hasBytes {p n : Nat} (large : 2 ^ 31 ≤ n) : ¬ HasBytes heap s p n := by
  rintro ⟨bs, fl, b, ⟨⟨z, blocks⟩, -⟩, hb, -, -, size⟩
  have := blocks.bounds hb
  omega

section
variable (h : Contiguous heap s bs fl)
include h

theorem kmalloc_contiguous (positive : sz ≠ 0) :
    (¬ Serves heap s bs (ceil16 sz) ∧ ∃ halt, kmalloc heap s sz = .error halt) ∨
      (Serves heap s bs (ceil16 sz) ∧ ∃ s' b bs' fl', kmalloc heap s sz = .ok (b.addr + 12, s') ∧
        Contiguous heap s' bs' fl' ∧ b ∈ bs' ∧ b.free = false ∧ ceil16 sz ≤ b.size) := by
  obtain ⟨⟨z, blocks⟩, tiles⟩ := h
  rcases doMalloc_blocks blocks positive with
    ⟨full, failed⟩ | ⟨serves, s', b, done, bs', fl', z', placed, blocks', -, -⟩
  · exact .inl ⟨full, _, failed⟩
  · obtain ⟨hb, used⟩ := mem_allocated.mp (placed.allocated.mem_iff.mpr List.mem_cons_self)
    exact .inr ⟨serves, s', b, bs', fl', done, ⟨⟨z', blocks'⟩, placed.tiles tiles⟩, hb, used,
      placed.size_le⟩

theorem mallocHolds_iff (positive : 0 < sz) (small : sz < 2 ^ 32) :
    MallocHolds heap s sz ↔ sz + 15 < 2 ^ 32 ∨ ¬ Serves heap s bs (ceil16 sz) := by
  rcases kmalloc_contiguous h (show sz ≠ 0 by omega) with
    ⟨full, halt, failed⟩ | ⟨serves, s', b, bs', fl', done, rep, hb, used, size⟩
  · refine ⟨fun _ => .inr full, fun _ p s' done => ?_⟩
    exact absurd (done.symm.trans failed) (by simp)
  · constructor
    · intro holds
      by_contra wraps
      exact not_hasBytes (by omega) (holds _ s' done (by omega))
    · rintro (exact | none) p s'' done' -
      · cases done.symm.trans done'
        exact ⟨bs', fl', b, rep, hb, used, rfl, Nat.le_trans (ceil16_spec exact).1 size⟩
      · exact absurd serves none

theorem callocHolds_iff (num size : Nat) :
    CallocHolds heap s num size ↔ num * size + 15 < 2 ^ 32 ∨ u32 (num * size) = 0 ∨
      ¬ Serves heap s bs (ceil16 (u32 (num * size))) := by
  by_cases zero : u32 (num * size) = 0
  · refine ⟨fun _ => .inr (.inl zero), fun _ p s' done nonnull => ?_⟩
    rw [kcalloc, zero] at done
    cases done
    exact absurd rfl nonnull
  rcases kmalloc_contiguous h zero with
    ⟨full, halt, failed⟩ | ⟨serves, s', b, bs', fl', done, rep, hb, used, large⟩
  · refine ⟨fun _ => .inr (.inr full), fun _ p s' done => ?_⟩
    rw [kcalloc, failed] at done
    cases done
  · have called : kcalloc heap s num size =
        .ok (b.addr + 12, { s' with mem := memset s'.mem (b.addr + 12) 0 (u32 (num * size)) }) := by
      rw [kcalloc, done]
      rfl
    constructor
    · intro holds
      by_contra wraps
      exact not_hasBytes (by omega) (holds _ _ called (by omega)).1
    · rintro (exact | none) p s'' done' -
      · cases called.symm.trans done'
        have amount : u32 (num * size) = num * size := u32_of_lt (by omega)
        rw [amount] at large
        obtain ⟨⟨z, blocks⟩, tiles⟩ := rep
        have bound := blocks.bounds hb
        have covers := Nat.le_trans (ceil16_spec exact).1 large
        have cleared : ∀ x, memset s'.mem (b.addr + 12) 0 (num * size) x =
            if b.addr + 12 ≤ x ∧ x < b.addr + 12 + num * size then 0 else s'.mem x :=
          fun x => memset_apply (by omega)
        simp only [amount]
        refine ⟨⟨bs', fl', b, ⟨⟨z, blocks.payload hb ?_⟩, tiles⟩, hb, used, rfl, covers⟩, ?_⟩
        · intro x outside
          unfold Block.stop at outside
          rw [cleared, if_neg (by omega)]
        · intro i hi
          rw [cleared, if_pos (by omega)]
      · rcases none with none | none
        · exact absurd none zero
        · exact absurd serves none

end

/-- Sizes do not wrap exactly when rounding and product fit in 32 bits. -/
theorem requests_iff (h : Contiguous heap s bs fl) :
    (∀ sz, 0 < sz → sz < 2 ^ 32 →
        (MallocHolds heap s sz ↔ sz + 15 < 2 ^ 32 ∨ ¬ Serves heap s bs (ceil16 sz))) ∧
      ∀ num size, num < 2 ^ 32 → size < 2 ^ 32 →
        (CallocHolds heap s num size ↔ num * size + 15 < 2 ^ 32 ∨ u32 (num * size) = 0 ∨
          ¬ Serves heap s bs (ceil16 (u32 (num * size)))) :=
  ⟨fun _ positive small => mallocHolds_iff h positive small,
    fun num size _ _ => callocHolds_iff h num size⟩

theorem contiguous_pageHeap (m : ByteMem) : Contiguous pageHeap (kheapInit pageHeap m) [] [] :=
  (heapRep_init pageHeap m).contiguous

theorem requests_iff_pageHeap : MallocHolds pageHeap (kheapInit pageHeap fun _ => 0xCC) 24 :=
  ((requests_iff (contiguous_pageHeap _)).1 24 (by decide) (by decide)).mpr (.inl (by decide))

theorem not_mallocHolds_largest :
    ¬ MallocHolds pageHeap (kheapInit pageHeap fun _ => 0xCC) 0xFFFFFFFF ∧
      ¬ CallocHolds pageHeap (kheapInit pageHeap fun _ => 0xCC) 0x10000001 16 := by
  constructor
  · intro holds
    rcases (mallocHolds_iff (contiguous_pageHeap _) (by decide) (by decide)).mp holds with
      fits | full
    · exact absurd fits (by decide)
    · exact full (.inr (by decide))
  · intro holds
    rcases (callocHolds_iff (contiguous_pageHeap _) _ _).mp holds with fits | zero | full
    · exact absurd fits (by decide)
    · exact absurd zero (by decide)
    · exact full (.inr (by decide))

end Elaborato.Mentos.Kheap
