import Elaborato.Mentos.KheapRuns

/-!
`__do_malloc_align`: the fast path looks for the start of a page at the wrong distance.
-/
namespace Elaborato.Mentos.Kheap
open Foundation List

/-- The macro `ADDR_ALIGN`. -/
def addrAlign (addr : Nat) : Nat := u32 (addr / 0x1000 * 0x1000 + 0x1000)

/-- The macro `IS_ALIGN`. -/
def isAlign (addr : Nat) : Bool := addr % 0x1000 == 0

def growAligned (heap : HeapArea) (s : HeapState) (roundedSize : Nat) :
    Except HeapHalt (Nat × HeapState) :=
  let start := heap.vmStart
  let headBlock := cell s.mem start headWord
  let tailBlock := cell s.mem start tailWord
  let neededAddr := addrAlign (u32 (s.curr + overhead) / 0x1000 * 0x1000)
  let blockAddr := sub32 neededAddr overhead
  let realsize := u32 (sub32 blockAddr s.curr + overhead + roundedSize)
  let ret := doBrk heap.toVmArea s.curr realsize
  if ret.1 = 0 then .error (.assertion "Heap is running out of space\n")
  else
    let m := if headBlock = 0 then setCell s.mem start headWord blockAddr
      else setCell s.mem tailBlock nextWord blockAddr
    let m := setCell m ret.1 nextWord 0
    let m := setCell m ret.1 nextfreeWord 0
    let m := setCell m start tailWord blockAddr
    let m := setSize m blockAddr roundedSize false
    .ok (neededAddr, ⟨m, ret.2⟩)

def doMallocAlign (heap : HeapArea) (s : HeapState) (size : Nat) :
    Except HeapHalt (Nat × HeapState) :=
  if size = 0 then .ok (0, s)
  else
    let roundedSize := ceil16 size
    (findBestFitting s.mem heap.vmStart roundedSize).bind fun bestFitting =>
      if bestFitting ≠ 0 ∧ isAlign (u32 (bestFitting + 12 * overhead)) = true then
        kmalloc heap s size
      else growAligned heap s roundedSize

def kmallocAlign (heap : HeapArea) (s : HeapState) (size : Nat) :
    Except HeapHalt (Nat × HeapState) :=
  doMallocAlign heap s size

def FastPath (heap : HeapArea) (s : HeapState) (size : Nat) : Prop :=
  ∃ best, findBestFitting s.mem heap.vmStart (ceil16 size) = .ok best ∧ best ≠ 0 ∧
    (best + 144) % 4096 = 0

def nextPage (curr : Nat) : Nat := (curr + 12) / 4096 * 4096 + 4096

theorem nextPage_bounds (curr : Nat) :
    curr + 12 < nextPage curr ∧ nextPage curr ≤ curr + 4108 ∧ nextPage curr % 4096 = 0 := by
  unfold nextPage
  omega

variable {heap : HeapArea} {s s' : HeapState} {bs : List Block} {fl : List Nat} {sz p z : Nat}

theorem growAligned_eq (h : HeapBlocks heap s bs fl z) {size : Nat} (small : size ≤ 0x7FFFE000) :
    growAligned heap s size =
      if nextPage s.curr + size ≤ heap.vmEnd then
        .ok (nextPage s.curr, ⟨grownAt s.mem heap.vmStart s.curr (nextPage s.curr - 12) size,
          nextPage s.curr + size⟩)
      else .error (.assertion "Heap is running out of space\n") := by
  have low := spread_length h.blocks.spread
  have start := heap.positive
  have top := h.top
  have high := heap.low
  obtain ⟨above, near, -⟩ := nextPage_bounds s.curr
  have needed : addrAlign (u32 (s.curr + overhead) / 0x1000 * 0x1000) = nextPage s.curr := by
    rw [overhead, u32_of_lt (by omega), addrAlign, u32_of_lt (by omega), nextPage]
    omega
  have block : sub32 (nextPage s.curr) overhead = nextPage s.curr - 12 := by
    rw [overhead, sub32_of_le (by omega) (by omega)]
  have gap : sub32 (nextPage s.curr - 12) s.curr = nextPage s.curr - 12 - s.curr :=
    sub32_of_le (by omega) (by omega)
  have amount : u32 (nextPage s.curr - 12 - s.curr + overhead + size) =
      nextPage s.curr - s.curr + size := by
    rw [overhead, u32_of_lt (by omega)]
    omega
  have boundary : u32 (s.curr + (nextPage s.curr - s.curr + size)) = nextPage s.curr + size := by
    rw [u32_of_lt (by omega)]
    omega
  have increment : 0 < nextPage s.curr - s.curr + size ∧
      nextPage s.curr - s.curr + size < 2 ^ 31 := by omega
  have notNull : s.curr ≠ 0 := by omega
  by_cases room : nextPage s.curr + size ≤ heap.vmEnd
  · have broken : doBrk heap.toVmArea s.curr (nextPage s.curr - s.curr + size) =
        (s.curr, nextPage s.curr + size) := by
      rw [doBrk, if_pos increment]
      simp only [boundary, if_pos room]
    simp only [growAligned, needed, block, gap, amount, broken, if_neg notNull, if_pos room,
      grownAt]
  · have broken : doBrk heap.toVmArea s.curr (nextPage s.curr - s.curr + size) = (0, s.curr) := by
      rw [doBrk, if_pos increment]
      simp only [boundary, if_neg room]
    simp only [growAligned, needed, block, gap, amount, broken, if_true, if_neg room]

theorem doMallocAlign_eq (positive : 1 ≤ sz) {best : Nat}
    (found : findBestFitting s.mem heap.vmStart (ceil16 sz) = .ok best) :
    kmallocAlign heap s sz =
      if best ≠ 0 ∧ isAlign (u32 (best + 12 * overhead)) = true then kmalloc heap s sz
      else growAligned heap s (ceil16 sz) := by
  have nonzero : sz ≠ 0 := by omega
  simp only [kmallocAlign, doMallocAlign, if_neg nonzero, found, ok_bind]

theorem kmalloc_found (positive : 1 ≤ sz) {best : Nat} (nonnull : best ≠ 0)
    (low : best + 12 < 2 ^ 32) (found : findBestFitting s.mem heap.vmStart (ceil16 sz) = .ok best)
    (done : kmalloc heap s sz = .ok (p, s')) : p = best + 12 := by
  have nonzero : sz ≠ 0 := by omega
  simp only [kmalloc, doMalloc, if_neg nonzero, found, ok_bind, if_pos nonnull] at done
  generalize takeBlock s.mem heap.vmStart best _ = taken at done
  cases taken with
  | error halt => cases done
  | ok m =>
    cases done
    rw [overhead, u32_of_lt low]

theorem kmallocAlign_spec (h : HeapBlocks heap s bs fl z) (positive : 1 ≤ sz)
    (small : sz ≤ 0x7FFFE000) (done : kmallocAlign heap s sz = .ok (p, s')) :
    ∃ b bs' fl' z', HeapBlocks heap s' bs' fl' z' ∧ (allocated bs').Perm (b :: allocated bs) ∧
      p = b.addr + 12 ∧ sz ≤ b.size ∧ (p % 4096 = 0 ↔ ¬ FastPath heap s sz) := by
  obtain ⟨covers, rounded⟩ := ceil16_spec (show sz + 15 < 2 ^ 32 by omega)
  obtain ⟨-, even⟩ := ceil16_le sz
  obtain ⟨best, found, low⟩ : ∃ best, findBestFitting s.mem heap.vmStart (ceil16 sz) = .ok best ∧
      best < 2 ^ 31 := by
    rcases findBestFitting_block h even with ⟨best, -⟩ | ⟨b, best, fit⟩
    · exact ⟨0, best, by decide⟩
    · have := h.bounds fit.mem
      exact ⟨b.addr, best, by omega⟩
  have aligned : isAlign (u32 (best + 12 * overhead)) = true ↔ (best + 144) % 4096 = 0 := by
    rw [overhead, u32_of_lt (by omega), isAlign, beq_iff_eq]
  have fast : FastPath heap s sz ↔ best ≠ 0 ∧ isAlign (u32 (best + 12 * overhead)) = true := by
    rw [aligned]
    constructor
    · rintro ⟨best', found', path⟩
      cases found.symm.trans found'
      exact path
    · exact fun path => ⟨best, found, path⟩
  rw [doMallocAlign_eq positive found] at done
  rw [fast]
  split at done
  · next taken =>
      have place := kmalloc_found positive taken.1 (by omega) found done
      have page := aligned.mp taken.2
      rcases doMalloc_blocks h (show sz ≠ 0 by omega) with ⟨-, failed⟩ | ⟨-, h', b, done', placed⟩
      · exact absurd (done.symm.trans failed) (by simp)
      · cases done.symm.trans done'
        obtain ⟨bs', fl', z', placed, blocks, -⟩ := placed
        refine ⟨b, bs', fl', z', blocks, placed.allocated, rfl,
          Nat.le_trans covers placed.size_le, ?_⟩
        exact iff_of_false (by omega) fun slow => slow taken
  · next other =>
      obtain ⟨above, -, page⟩ := nextPage_bounds s.curr
      rw [growAligned_eq h (by omega)] at done
      split at done
      · next room =>
          cases done
          have block : nextPage s.curr - 12 + 12 + ceil16 sz = nextPage s.curr + ceil16 sz := by
            omega
          obtain ⟨blocks, -⟩ := h.grow even (Nat.le_refl _)
            (show s.curr ≤ nextPage s.curr - 12 by omega) (block ▸ room)
          rw [block] at blocks
          refine ⟨⟨nextPage s.curr - 12, ceil16 sz, false⟩, _, fl, _, blocks, ?_, ?_, covers, ?_⟩
          · simp [allocated, filter_append, perm_append_singleton]
          · change nextPage s.curr = nextPage s.curr - 12 + 12
            omega
          · exact iff_of_true page other
      · cases done

inductive AlignEvent
  | call (e : HeapEvent)
  | mallocAlign (sz : Nat)

def AlignStep (heap : HeapArea) (s : HeapRun) : AlignEvent → HeapRun → Prop
  | .call e, s' => CallStep heap s e s'
  | .mallocAlign sz, s' => 1 ≤ sz ∧ sz ≤ 0x7FFFE000 ∧
      ∃ p h, kmallocAlign heap s.heap sz = .ok (p, h) ∧ s' = ⟨h, ⟨p, sz⟩ :: s.live⟩

def AlignInv (heap : HeapArea) (s : HeapRun) : Prop :=
  ∃ bs fl z, HeapBlocks heap s.heap bs fl z ∧ Hosted s.live bs

section Runs
variable {m : ByteMem} {trace : List (HeapRun × AlignEvent)} {s s' : HeapRun} {e : AlignEvent}
  {h : HeapState}

theorem alignInv_align (inv : AlignInv heap s) (positive : 1 ≤ sz) (small : sz ≤ 0x7FFFE000)
    (done : kmallocAlign heap s.heap sz = .ok (p, h)) : AlignInv heap ⟨h, ⟨p, sz⟩ :: s.live⟩ ∧
      (p % 4096 = 0 ↔ ¬ FastPath heap s.heap sz) := by
  obtain ⟨bs, fl, z, blocks, hosted⟩ := inv
  obtain ⟨b, bs', fl', z', blocks', more, rfl, size, page⟩ :=
    kmallocAlign_spec blocks positive small done
  exact ⟨⟨bs', fl', z', blocks', hosted.acquired blocks' more size⟩, page⟩

theorem alignInv_step (inv : AlignInv heap s) (step : AlignStep heap s e s') :
    AlignInv heap s' := by
  cases e with
  | call e =>
    obtain ⟨bs, fl, z, blocks, hosted⟩ := inv
    obtain ⟨bs', fl', z', blocks', hosted', -⟩ := callStep_blocks blocks hosted step
    exact ⟨bs', fl', z', blocks', hosted'⟩
  | mallocAlign sz =>
    obtain ⟨positive, small, p, h, done, rfl⟩ := step
    exact (alignInv_align inv positive small done).1

theorem alignInv_run (run : Exec (AlignStep heap) (startRun heap m) trace s) : AlignInv heap s := by
  have start : AlignInv heap (startRun heap m) :=
    ⟨[], [], 0, (heapRep_init heap m).toBlocks, .nil, nofun⟩
  exact (exec_keeps start (fun _ _ _ inv step => alignInv_step inv step) run).2

def AlignedRegion (s : HeapRun) (p sz : Nat) : Prop :=
  p % 4096 = 0 ∧ ∀ r ∈ s.live, p + sz ≤ r.ptr ∨ r.stop ≤ p

/-- `kmalloc_align` keeps its promise exactly when the fast path is not taken. -/
theorem alignedRegion_iff (run : Exec (AlignStep heap) (startRun heap m) trace s)
    (positive : 1 ≤ sz) (small : sz ≤ 0x7FFFE000)
    (done : kmallocAlign heap s.heap sz = .ok (p, h)) :
    AlignedRegion s p sz ↔ ¬ FastPath heap s.heap sz := by
  obtain ⟨⟨bs, fl, z, blocks, hosted⟩, page⟩ :=
    alignInv_align (alignInv_run run) positive small done
  have apart := (pairwise_cons.mp (hosted.apart blocks)).1
  exact ⟨fun aligned => page.mp aligned.1, fun slow => ⟨page.mpr slow, apart⟩⟩

end Runs

theorem malloc_grows {heap : HeapArea} {s : HeapRun} {bs : List Block} {fl : List Nat}
    {z curr : Nat} (sz : Nat) (blocks : HeapBlocks heap s.heap bs fl z)
    (used : ∀ c ∈ bs, c.free = false)
    (top : s.heap.curr = curr) (positive : 1 ≤ sz) (exact : sz + 15 < 2 ^ 32)
    (room : curr + 12 + ceil16 sz ≤ heap.vmEnd) :
    ∃ h' fl' z', AlignStep heap s (.call (.malloc sz)) ⟨h', ⟨curr + 12, sz⟩ :: s.live⟩ ∧
      HeapBlocks heap h' (bs ++ [⟨curr, ceil16 sz, false⟩]) fl' z' ∧
        h'.curr = curr + 12 + ceil16 sz := by
  subst top
  obtain ⟨h', fl', z', done, blocks', top⟩ := kmalloc_grows blocks used (show sz ≠ 0 by omega) room
  refine ⟨h', fl', z', ⟨by omega, s.heap.curr + 12, h', done, ?_⟩, blocks', top⟩
  rw [if_neg (by omega), usable, if_pos exact]

/-- A heap of two pages. -/
def twoPages : HeapArea :=
  { pageHeap with
    vmEnd := 0x102000
    room := by decide
    low := by decide }

theorem alignedRegion_iff_twoPages :
    ∃ h, kmallocAlign twoPages (kheapInit twoPages fun _ => 0xCC) 16 = .ok (0x101000, h) ∧
      AlignedRegion (startRun twoPages fun _ => 0xCC) 0x101000 16 := by
  have blocks := (heapRep_init twoPages fun _ => 0xCC).toBlocks
  have found : findBestFitting (kheapInit twoPages fun _ => 0xCC).mem twoPages.vmStart (ceil16 16) =
      .ok 0 := by
    rcases findBestFitting_block blocks (ceil16_le 16).2 with ⟨found, -⟩ | ⟨b, -, fit⟩
    · exact found
    · exact absurd fit.mem not_mem_nil
  have done := (doMallocAlign_eq (show 1 ≤ 16 by decide) found).trans
    ((if_neg (by simp)).trans ((growAligned_eq blocks (by decide)).trans (if_pos (by decide))))
  refine ⟨_, done, (alignedRegion_iff .refl (by decide) (by decide) done).mpr ?_⟩
  rintro ⟨best, found', nonnull, -⟩
  cases found.symm.trans found'
  exact nonnull rfl

theorem fastPath_reached :
    ∃ trace s p h, Exec (AlignStep twoPages) (startRun twoPages fun _ => 0xCC) trace s ∧
      kmallocAlign twoPages s.heap 16 = .ok (p, h) ∧ ¬ AlignedRegion s p 16 := by
  obtain ⟨h₁, _, _, step₁, blocks₁, top₁⟩ := malloc_grows (s := startRun twoPages fun _ => 0xCC) 16
    (heapRep_init twoPages fun _ => 0xCC).toBlocks (by simp) (show _ = 0x10000C from rfl)
    (by decide) (by decide) (by decide)
  obtain ⟨h₂, _, _, step₂, blocks₂, top₂⟩ := malloc_grows (s := ⟨h₁, [⟨0x100018, 16⟩]⟩) 16 blocks₁
    (by simp) (show _ = 0x100028 from top₁) (by decide) (by decide) (by decide)
  obtain ⟨h₃, _, _, step₃, blocks₃, top₃⟩ := malloc_grows
    (s := ⟨h₂, [⟨0x100034, 16⟩, ⟨0x100018, 16⟩]⟩) 3872 blocks₂ (by simp)
    (show _ = 0x100044 from top₂) (by decide) (by decide) (by decide)
  obtain ⟨h₄, _, _, step₄, blocks₄, -⟩ := malloc_grows
    (s := ⟨h₃, [⟨0x100050, 3872⟩, ⟨0x100034, 16⟩, ⟨0x100018, 16⟩]⟩) 16 blocks₃ (by simp)
    (show _ = 0x100F70 from top₃) (by decide) (by decide) (by decide)
  obtain ⟨m', freed, bs, fl, z, split, blocks, -⟩ := doFree_blocks blocks₄
    (b := ⟨0x100F70, 16, false⟩) (by simp [ceil16, u32]) rfl
  obtain ⟨xs, ys, before, rfl⟩ := split.isolated (by simp)
  have step : AlignStep twoPages
      ⟨h₄, [⟨0x100F7C, 16⟩, ⟨0x100050, 3872⟩, ⟨0x100034, 16⟩, ⟨0x100018, 16⟩]⟩
      (.call (.free 0x100F7C)) ⟨{ h₄ with mem := m' }, _⟩ :=
    ⟨⟨0x100F7C, 16⟩, mem_cons_self, rfl, _, by rw [kfree, freed]; rfl, rfl⟩
  have run := ((((Exec.refl.next step₁).next step₂).next step₃).next step₄).next step
  -- the freed block is the only free one
  have only : ∀ c ∈ xs ++ ⟨0x100F70, 16, true⟩ :: ys, c.free = true → c.addr = 0x100F70 := by
    intro c hc free
    by_contra other
    have old : c ∈ xs ++ ⟨0x100F70, 16, false⟩ :: ys := by
      simp only [mem_append, mem_cons] at hc ⊢
      rcases hc with hc | rfl | hc
      · exact .inl hc
      · exact absurd rfl other
      · exact .inr (.inr hc)
    rw [← before] at old
    simp only [nil_append, cons_append, mem_cons, not_mem_nil, or_false] at old
    rcases old with rfl | rfl | rfl | rfl <;> cases free
  have serves : Serves twoPages { h₄ with mem := m' } (xs ++ ⟨0x100F70, 16, true⟩ :: ys)
      (ceil16 16) := .inl ⟨⟨0x100F70, 16, true⟩, by simp, rfl, by decide⟩
  rcases findBestFitting_block blocks (ceil16_le 16).2 with ⟨-, none⟩ | ⟨b, found, fit⟩
  · exact absurd (none ⟨0x100F70, 16, true⟩ (by simp) rfl) (by decide)
  rw [only b fit.mem fit.free] at found
  rcases doMalloc_blocks blocks (show 16 ≠ 0 by decide) with ⟨full, -⟩ | ⟨-, h', q, done, -⟩
  · exact absurd serves full
  have called := (doMallocAlign_eq (show 1 ≤ 16 by decide) found).trans
    ((if_pos (by decide)).trans done)
  refine ⟨_, _, _, _, run, called, fun aligned => ?_⟩
  have page := (alignInv_align (alignInv_run run) (by decide) (by decide) called).2.mp aligned.1
  exact page ⟨0x100F70, found, by decide, by decide⟩

end Elaborato.Mentos.Kheap
