import Elaborato.Mentos.KheapRequests
import Elaborato.Mentos.UserHeap
import Elaborato.Mentos.ZoneAllocator

/-!
Process images (paging.c) on the kernel heap and the page frames.
-/
namespace Elaborato.Mentos.Paging
open Foundation Kheap List Function

structure Memory where
  heap : HeapState
  pages : PageState

def sizeofVmArea : Nat := 24

/-- The fields of a `vm_area_struct`. -/
@[simp] abbrev vmMm : Nat := 0

@[simp] abbrev vmStart : Nat := 4

@[simp] abbrev vmEnd : Nat := 8

@[simp] abbrev vmNext : Nat := 12

def sizeofMm : Nat := 68

/-- The fields of a `mm_struct`. -/
@[simp] abbrev mmap : Nat := 0

@[simp] abbrev mmapCache : Nat := 4

@[simp] abbrev mapCount : Nat := 8

@[simp] abbrev startStack : Nat := 44

@[simp] abbrev totalVm : Nat := 64

def linkSegment (m : ByteMem) (mm newSegment start order : Nat) : ByteMem :=
  let m := writeWord m (newSegment + vmStart) start
  let m := writeWord m (newSegment + vmEnd) (u32 (start + 2 ^ order * pageSize))
  let m := writeWord m (newSegment + vmMm) mm
  let m := writeWord m (newSegment + vmNext) (readWord m (mm + mmap))
  let m := writeWord m (mm + mmap) newSegment
  let m := writeWord m (mm + mmapCache) newSegment
  let m := writeWord m (mm + mapCount) (u32 (readWord m (mm + mapCount) + 1))
  writeWord m (mm + totalVm) (u32 (readWord m (mm + totalVm) + 2 ^ order))

def createSegment (node : PgData) (heap : HeapArea) (beyond : Nat → Int) (s : Memory)
    (mm size : Nat) : Except HeapHalt (Nat × Memory) :=
  (Kheap.kmalloc heap s.heap sizeofVmArea).bind fun (newSegment, h) =>
    let order := findNearestOrderGreater size
    match allocPages node beyond s.pages gfpHighuser order with
    | none => .error (.assertion "Invalid order!")
    | some (pages, block) =>
      let start := block.getD (2 ^ 32 - 1)
      .ok (start, ⟨{ h with mem := linkSegment h.mem mm newSegment start order }, pages⟩)

/-- The new `mm_struct`, cleared. -/
def clearMm (h : HeapState) (mm : Nat) : HeapState := { h with mem := memset h.mem mm 0 sizeofMm }

def createProcessImage (node : PgData) (heap : HeapArea) (beyond : Nat → Int) (s : Memory)
    (stackSize : Nat) : Except HeapHalt (Nat × Memory) :=
  (Kheap.kmalloc heap s.heap sizeofMm).bind fun (mm, h) =>
    (createSegment node heap beyond { s with heap := clearMm h mm } mm stackSize).map
      fun (start, s) =>
        (mm, { s with heap.mem := writeWord s.heap.mem (mm + startStack) start })

/-- The loop of `destroy_process_image`. -/
def destroySegments (node : PgData) (heap : HeapArea) : Nat → Memory → Nat →
    Except HeapHalt Memory
  | 0, _, _ => .error .endless
  | fuel + 1, s, segment =>
    if segment = 0 then .ok s
    else
      let start := readWord s.heap.mem (segment + vmStart)
      let size := sub32 (readWord s.heap.mem (segment + vmEnd)) start
      let order := findNearestOrderGreater size
      match freePages node s.pages start order with
      | none => .error (.assertion "Page is over memory size")
      | some pages =>
        let next := readWord s.heap.mem (segment + vmNext)
        (Kheap.kfree heap s.heap segment).bind fun h =>
          destroySegments node heap fuel ⟨h, pages⟩ next

def destroyProcessImage (node : PgData) (heap : HeapArea) (s : Memory) (mm : Nat) :
    Except HeapHalt Memory :=
  if mm = 0 then .error (.assertion "mm != NULL")
  else
    (destroySegments node heap addresses s (readWord s.heap.mem (mm + mmap))).bind fun s =>
      (Kheap.kfree heap s.heap mm).map fun h => { s with heap := h }

structure Segment (node : PgData) where
  ptr : Nat
  first : Nat
  order : Nat
  small : order ≤ maxOrder - 1
  low : node.first .highmem ≤ first
  inside : first + 2 ^ order ≤ node.stop .highmem

variable {node : PgData}

def Segment.addr (g : Segment node) : Nat := g.first * pageSize

def Segment.region (g : Segment node) : Region := ⟨g.ptr, sizeofVmArea⟩

structure Image (node : PgData) where
  mm : Nat
  segments : List (Segment node)
  nonempty : segments ≠ []

def Image.mmRegion (image : Image node) : Region := ⟨image.mm, sizeofMm⟩

def Image.regions (image : Image node) : List Region :=
  image.segments.map Segment.region ++ [image.mmRegion]

def Image.guarded (image : Image node) : List Region :=
  image.segments.map Segment.region ++ [⟨image.mm, 4⟩]

structure Allocates (heap : HeapArea) (beyond : Nat → Int) (s : Memory) (size : Nat)
    (g : Segment node) : Prop where
  order : g.order = findNearestOrderGreater size
  descriptor : ∃ h, Kheap.kmalloc heap s.heap sizeofVmArea = .ok (g.ptr, h)
  frames : ∃ pages, allocPages node beyond s.pages gfpHighuser g.order = some (pages, some g.addr)

structure ImageRun (node : PgData) where
  mem : Memory
  live : List Region
  images : List (Image node)

inductive ImageEvent
  | create (stackSize : Nat) (beyond : Nat → Int)
  | segment (mm size : Nat) (beyond : Nat → Int)
  | destroy (mm : Nat)
  | heap (e : HeapEvent)

def Foreign (images : List (Image node)) : HeapEvent → Prop
  | .malloc _ => True
  | .free p => ∀ image ∈ images, ∀ r ∈ image.regions, r.ptr ≠ p
  | .write a _ => ∀ image ∈ images, ∀ r ∈ image.guarded, a < r.ptr ∨ r.stop ≤ a

def ImageStep (heap : HeapArea) (s : ImageRun node) : ImageEvent → ImageRun node → Prop
  | .create stackSize beyond, s' => ∃ mm h g mem,
      Kheap.kmalloc heap s.mem.heap sizeofMm = .ok (mm, h) ∧
      Allocates heap beyond { s.mem with heap := clearMm h mm } stackSize g ∧
      createProcessImage node heap beyond s.mem stackSize = .ok (mm, mem) ∧
      s' = ⟨mem, g.region :: ⟨mm, sizeofMm⟩ :: s.live,
        ⟨mm, [g], cons_ne_nil _ _⟩ :: s.images⟩
  | .segment mm size beyond, s' => ∃ image others g start mem,
      s.images.Perm (image :: others) ∧ image.mm = mm ∧ Allocates heap beyond s.mem size g ∧
      createSegment node heap beyond s.mem mm size = .ok (start, mem) ∧
      s' = ⟨mem, g.region :: s.live, ⟨mm, g :: image.segments, cons_ne_nil _ _⟩ :: others⟩
  | .destroy mm, s' => ∃ image others live mem, s.images.Perm (image :: others) ∧
      image.mm = mm ∧ s.live.Perm (image.regions ++ live) ∧
      destroyProcessImage node heap s.mem mm = .ok mem ∧ s' = ⟨mem, live, others⟩
  | .heap e, s' => ∃ h live, HeapStep heap ⟨s.mem.heap, s.live⟩ e ⟨h, live⟩ ∧
      Foreign s.images e ∧ s' = ⟨{ s.mem with heap := h }, live, s.images⟩

def startImages (node : PgData) (heap : HeapArea) (m : ByteMem) (pages : PageState) :
    ImageRun node :=
  ⟨⟨kheapInit heap m, pages⟩, [], []⟩

/-- The list `vm_next` from an address on. -/
def SegmentList (m : ByteMem) : Nat → List (Segment node) → Prop
  | head, [] => head = 0
  | head, g :: gs => head = g.ptr ∧ readWord m (g.ptr + vmStart) = g.addr ∧
      readWord m (g.ptr + vmEnd) = g.addr + 2 ^ g.order * pageSize ∧
      SegmentList m (readWord m (g.ptr + vmNext)) gs

def Image.Stored (m : ByteMem) (image : Image node) : Prop :=
  SegmentList m (readWord m (image.mm + mmap)) image.segments

structure ImagesInv (heap : HeapArea) (s : ImageRun node) : Prop where
  heap : HeapInv heap ⟨s.mem.heap, s.live⟩
  owned : ∃ rest, s.live.Perm (s.images.flatMap Image.regions ++ rest)
  stored : ∀ image ∈ s.images, image.Stored s.mem.heap.mem

variable {m m' : ByteMem} {mm p start order x : Nat} {g : Segment node} {gs : List (Segment node)}

theorem findNearestOrderGreater_block (small : order ≤ maxOrder - 1) :
    findNearestOrderGreater (2 ^ order * pageSize) = order := by
  have all : ∀ o < maxOrder, findNearestOrderGreater (2 ^ o * pageSize) = o := by decide
  exact all order (Nat.lt_of_le_pred (by decide) small)

theorem Segment.bound (g : Segment node) : g.addr + 2 ^ g.order * pageSize < 2 ^ 32 := by
  have inside := g.inside
  have top := node.stop_le .highmem
  have bound := node.bound
  rw [Segment.addr, ← Nat.add_mul, pageSize]
  omega

theorem linkSegment_outside (seg : x < p ∨ p + sizeofVmArea ≤ x)
    (image : x < mm ∨ mm + sizeofMm ≤ x) : linkSegment m mm p start order x = m x := by
  rw [sizeofVmArea] at seg
  rw [sizeofMm] at image
  simp (disch := omega) only [linkSegment, vmMm, vmStart, vmEnd, vmNext, mmap, mmapCache, mapCount,
    totalVm, writeWord_outside]

theorem linkSegment_words (m : ByteMem) (order : Nat)
    (apart : p + sizeofVmArea ≤ mm ∨ mm + sizeofMm ≤ p) (small : p < 2 ^ 32)
    (low : start < 2 ^ 32) :
    let m' := linkSegment m mm p start order
    readWord m' (mm + mmap) = p ∧ readWord m' (p + vmStart) = start ∧
      readWord m' (p + vmEnd) = u32 (start + 2 ^ order * pageSize) ∧
      readWord m' (p + vmNext) = readWord m (mm + mmap) := by
  rw [sizeofVmArea, sizeofMm] at apart
  have stop : u32 (start + 2 ^ order * pageSize) < 2 ^ 32 := Nat.mod_lt _ (by decide)
  have next := readWord_lt m (mm + mmap)
  simp only [linkSegment]
  refine ⟨?_, ?_, ?_, ?_⟩
  all_goals
    simp (disch := omega) only [vmMm, vmStart, vmEnd, vmNext, mmap, mmapCache, mapCount, totalVm,
      Nat.add_zero, readWord_writeWord_apart, readWord_writeWord]

variable {head : Nat}

theorem SegmentList.congr (listed : SegmentList m head gs)
    (same : ∀ g ∈ gs, ∀ x, g.region.ptr ≤ x → x < g.region.stop → m' x = m x) :
    SegmentList m' head gs := by
  induction gs generalizing head with
  | nil => exact listed
  | cons g gs ih =>
    obtain ⟨at_g, start, stop, rest⟩ := listed
    have word : ∀ k, k + 4 ≤ sizeofVmArea → readWord m' (g.ptr + k) = readWord m (g.ptr + k) := by
      refine fun k small => readWord_congr fun i hi => same g mem_cons_self _ ?_ ?_
      · simp only [Segment.region]
        omega
      · simp only [Segment.region, Region.stop]
        omega
    refine ⟨at_g, (word vmStart (by decide)).trans start, (word vmEnd (by decide)).trans stop, ?_⟩
    rw [word vmNext (by decide)]
    exact ih rest fun g' hg' => same g' (mem_cons_of_mem _ hg')

theorem Image.Stored.congr {image : Image node} (stored : image.Stored m)
    (same : ∀ r ∈ image.guarded, ∀ x, r.ptr ≤ x → x < r.stop → m' x = m x) :
    image.Stored m' := by
  have first : readWord m' (image.mm + mmap) = readWord m (image.mm + mmap) := by
    refine readWord_congr fun i hi => same ⟨image.mm, 4⟩ (by simp [Image.guarded]) _ ?_ ?_
    · simp
    · simp only [Region.stop, mmap]
      omega
  rw [Image.Stored, first]
  refine SegmentList.congr stored fun g hg x low high => same g.region ?_ x low high
  exact mem_append_left _ (mem_map_of_mem hg)

variable {heap : HeapArea} {beyond : Nat → Int} {s mem : Memory} {size : Nat} {others : List Region}

theorem createSegment_eq (alloc : Allocates heap beyond s size g) (mm : Nat) :
    ∃ h pages, Kheap.kmalloc heap s.heap sizeofVmArea = .ok (g.ptr, h) ∧
      createSegment node heap beyond s mm size =
        .ok (g.addr, ⟨{ h with mem := linkSegment h.mem mm g.ptr g.addr g.order }, pages⟩) := by
  obtain ⟨order, ⟨h, descriptor⟩, ⟨pages, frames⟩⟩ := alloc
  refine ⟨h, pages, descriptor, ?_⟩
  simp only [createSegment, descriptor, ok_bind, ← order, frames, Option.getD_some]

theorem createSegment_spec (inv : HeapInv heap ⟨s.heap, ⟨mm, sizeofMm⟩ :: others⟩)
    (listed : SegmentList s.heap.mem (readWord s.heap.mem (mm + mmap)) gs)
    (owned : ∀ g' ∈ gs, g'.region ∈ others) (alloc : Allocates heap beyond s size g)
    (done : createSegment node heap beyond s mm size = .ok (start, mem)) :
    HeapInv heap ⟨mem.heap, g.region :: ⟨mm, sizeofMm⟩ :: others⟩ ∧
      SegmentList mem.heap.mem (readWord mem.heap.mem (mm + mmap)) (g :: gs) ∧
      ∀ r ∈ others, ∀ x, r.ptr ≤ x → x < r.stop → mem.heap.mem x = s.heap.mem x := by
  obtain ⟨h, pages, descriptor, done'⟩ := createSegment_eq alloc mm
  cases done.symm.trans done'
  obtain ⟨inv', frame⟩ := inv.malloc (by decide) (by decide) descriptor
  have apart := inv'.apart mem_cons_self
  have other : ∀ r ∈ others, ∀ x, r.ptr ≤ x → x < r.stop →
      linkSegment h.mem mm g.ptr g.addr g.order x = s.heap.mem x := by
    intro r hr x low high
    have fromMm := inv.apart hr
    have fromSegment := inv'.apart (mem_cons_of_mem _ hr)
    rw [← frame r (mem_cons_of_mem _ hr) x low high]
    simp only [Region.stop] at fromMm fromSegment high
    exact linkSegment_outside (by omega) (by omega)
  have bounds := inv'.bounds mem_cons_self
  have top := g.bound
  simp only [Region.stop] at apart bounds
  obtain ⟨first, begins, ends, next⟩ := linkSegment_words h.mem g.order apart
    (show g.ptr < 2 ^ 32 by omega) (show g.addr < 2 ^ 32 by omega)
  refine ⟨?_, ?_, other⟩
  · refine inv'.written fun x outside => linkSegment_outside ?_ ?_
    · exact outside ⟨g.ptr, sizeofVmArea⟩ mem_cons_self
    · exact outside ⟨mm, sizeofMm⟩ (mem_cons_of_mem _ mem_cons_self)
  · refine ⟨first, begins, ?_, ?_⟩
    · exact ends.trans (u32_of_lt top)
    · rw [next, readWord_congr fun i hi => frame ⟨mm, sizeofMm⟩ mem_cons_self _ ?_ ?_]
      · exact listed.congr fun g' hg' => other _ (owned g' hg')
      · simp
      · simp only [Region.stop, sizeofMm, mmap]
        omega

def areas (gs : List (Segment node)) : List VmArea :=
  gs.map fun g => ⟨g.addr, g.addr + 2 ^ g.order * pageSize⟩

theorem createSegment_areas {heap : HeapArea} {beyond : Nat → Int} {s mem : Memory}
    {mm size start : Nat} {g : Segment node} {gs : List (Segment node)}
    (alloc : Allocates heap beyond s size g)
    (done : createSegment node heap beyond s mm size = .ok (start, mem)) {record : Mm}
    (same : record.mmap = areas gs) :
    (Kheap.createSegment record size start).1.mmap = areas (g :: gs) := by
  obtain ⟨h, pages, -, done'⟩ := createSegment_eq alloc mm
  cases done.symm.trans done'
  have stop : u32 (g.addr + 2 ^ g.order * 4096) = g.addr + 2 ^ g.order * 4096 := u32_of_lt g.bound
  simp only [Kheap.createSegment, same, ← alloc.order, stop]
  rfl

/-- The pages of a segment are free again. -/
def giveBack (pages : PageState) (g : Segment node) : PageState where
  count := setCount pages.count g.first (2 ^ g.order) (-1)
  freePages := update pages.freePages .highmem
    ((pages.freePages .highmem + 2 ^ g.order) % 2 ^ 32)

variable {pages : PageState} {rest : List Region}

theorem freePages_segment (pages : PageState) (g : Segment node) :
    freePages node pages g.addr g.order = some (giveBack pages g) := by
  have first : g.addr / pageSize = g.first := Nat.mul_div_cancel g.first (by decide)
  have inside := g.inside
  have nonempty := Nat.two_pow_pos g.order
  have zone := getZoneFromPage_inside g.low (show g.first < node.stop .highmem by omega)
  simp only [freePages, first, zone, Option.map_some]
  rfl

theorem order_of_ends (g : Segment node) :
    findNearestOrderGreater (sub32 (g.addr + 2 ^ g.order * pageSize) g.addr) = g.order := by
  have top := g.bound
  rw [sub32, show g.addr + 2 ^ g.order * pageSize + 2 ^ 32 - g.addr =
    2 ^ g.order * pageSize + 2 ^ 32 by omega, Nat.add_mod_right, Nat.mod_eq_of_lt (by omega)]
  exact findNearestOrderGreater_block g.small

theorem destroySegments_spec {fuel head : Nat}
    (inv : HeapInv heap ⟨s.heap, gs.map Segment.region ++ rest⟩)
    (listed : SegmentList s.heap.mem head gs) (enough : gs.length < fuel) :
    ∃ h, destroySegments node heap fuel s head = .ok ⟨h, gs.foldl giveBack s.pages⟩ ∧
      (gs.map Segment.ptr).foldlM (Kheap.kfree heap) s.heap = .ok h ∧ HeapInv heap ⟨h, rest⟩ ∧
      ∀ r ∈ rest, ∀ x, r.ptr ≤ x → x < r.stop → h.mem x = s.heap.mem x := by
  induction gs generalizing s head fuel with
  | nil =>
    obtain ⟨fuel, rfl⟩ := Nat.exists_eq_succ_of_ne_zero (Nat.ne_of_gt enough)
    exact ⟨s.heap, if_pos listed, rfl, inv, fun r _ x _ _ => rfl⟩
  | cons g gs ih =>
    obtain ⟨fuel, rfl⟩ := Nat.exists_eq_succ_of_ne_zero (Nat.ne_of_gt (Nat.zero_lt_of_lt enough))
    obtain ⟨rfl, start, stop, next⟩ := listed
    obtain ⟨h, (freed : Kheap.kfree heap s.heap g.ptr = .ok h), inv', frame⟩ := inv.free
    have listed' : SegmentList h.mem (readWord s.heap.mem (g.ptr + vmNext)) gs :=
      next.congr fun g' hg' => frame _ (mem_append_left _ (mem_map_of_mem hg'))
    obtain ⟨h', done, all, inv'', frame'⟩ := ih (s := ⟨h, giveBack s.pages g⟩) inv' listed'
      (Nat.lt_of_succ_lt_succ enough)
    have nonnull : g.ptr ≠ 0 := Nat.ne_of_gt (inv.bounds mem_cons_self).1
    refine ⟨h', ?_, ?_, inv'', fun r hr x low high => ?_⟩
    · simp only [destroySegments, if_neg nonnull, start, stop, order_of_ends, freePages_segment,
        freed, ok_bind]
      exact done
    · rw [map_cons, foldlM_cons, freed]
      exact all
    · exact (frame' r hr x low high).trans (frame r (mem_append_right _ hr) x low high)

theorem destroyProcessImage_spec {image : Image node}
    (inv : HeapInv heap ⟨s.heap, image.regions ++ rest⟩) (stored : image.Stored s.heap.mem) :
    ∃ h, destroyProcessImage node heap s image.mm =
        .ok ⟨h, image.segments.foldl giveBack s.pages⟩ ∧
      (image.segments.map Segment.ptr ++ [image.mm]).foldlM (Kheap.kfree heap) s.heap = .ok h ∧
      HeapInv heap ⟨h, rest⟩ ∧
      ∀ r ∈ rest, ∀ x, r.ptr ≤ x → x < r.stop → h.mem x = s.heap.mem x := by
  have short := inv.length
  rw [Image.regions, append_assoc] at inv
  simp only [Image.regions, length_append, length_map] at short
  obtain ⟨h, done, all, inv', frame⟩ := destroySegments_spec inv stored
    (show image.segments.length < addresses by omega)
  obtain ⟨h', (freed : Kheap.kfree heap h image.mm = .ok h'), inv'', frame'⟩ := inv'.free
  have nonnull : image.mm ≠ 0 := Nat.ne_of_gt (inv'.bounds mem_cons_self).1
  refine ⟨h', ?_, ?_, inv'', fun r hr x low high => ?_⟩
  · simp only [destroyProcessImage, if_neg nonnull, done, ok_bind, freed]
    rfl
  · rw [foldlM_append, all]
    change (Kheap.kfree heap h image.mm).bind _ = _
    rw [freed]
    rfl
  · exact (frame' r hr x low high).trans (frame r (mem_cons_of_mem _ hr) x low high)

theorem foldl_giveBack_count (gs : List (Segment node)) (pages : PageState) (page : Nat) :
    (gs.foldl giveBack pages).count page =
      if ∃ g ∈ gs, g.first ≤ page ∧ page < g.first + 2 ^ g.order then -1
      else pages.count page := by
  induction gs generalizing pages with
  | nil => simp
  | cons g gs ih =>
    rw [foldl_cons, ih]
    by_cases later : ∃ g' ∈ gs, g'.first ≤ page ∧ page < g'.first + 2 ^ g'.order
    · rw [if_pos later, if_pos (by simp [later])]
    · rw [if_neg later]
      simp only [exists_mem_cons_iff, later, or_false]
      rfl

theorem foldl_giveBack_free (pages : PageState) (nonempty : gs ≠ []) :
    (gs.foldl giveBack pages).freePages .highmem =
      (pages.freePages .highmem + (gs.map fun g => 2 ^ g.order).sum) % 2 ^ 32 := by
  induction gs generalizing pages with
  | nil => exact absurd rfl nonempty
  | cons g gs ih =>
    have one : (giveBack pages g).freePages .highmem =
        (pages.freePages .highmem + 2 ^ g.order) % 2 ^ 32 := by simp [giveBack]
    cases gs with
    | nil => simpa using one
    | cons g' gs =>
      rw [foldl_cons, ih _ (cons_ne_nil _ _), one, Nat.mod_add_mod, map_cons,
        sum_cons, Nat.add_assoc]
      rfl

theorem foldl_giveBack_normal (gs : List (Segment node)) (pages : PageState) :
    (gs.foldl giveBack pages).freePages .normal = pages.freePages .normal := by
  induction gs generalizing pages with
  | nil => rfl
  | cons g gs ih =>
    rw [foldl_cons, ih]
    simp [giveBack]

variable {h : HeapState} {mem' : Memory} {stackSize : Nat} {live : List Region}

theorem clearMm_apply (small : mm + sizeofMm < 2 ^ 32) (x : Nat) :
    (clearMm h mm).mem x = if mm ≤ x ∧ x < mm + sizeofMm then 0 else h.mem x :=
  memset_apply small

theorem clearMm_spec (inv : HeapInv heap ⟨h, ⟨mm, sizeofMm⟩ :: live⟩) :
    HeapInv heap ⟨clearMm h mm, ⟨mm, sizeofMm⟩ :: live⟩ ∧
      readWord (clearMm h mm).mem (mm + mmap) = 0 ∧
      ∀ r ∈ live, ∀ x, r.ptr ≤ x → x < r.stop → (clearMm h mm).mem x = h.mem x := by
  have bounds := (inv.bounds mem_cons_self).2
  simp only [Region.stop] at bounds
  have small : mm + sizeofMm < 2 ^ 32 := by omega
  refine ⟨inv.written fun x outside => ?_, ?_, fun r hr x low high => ?_⟩
  · have := outside ⟨mm, sizeofMm⟩ mem_cons_self
    simp only [Region.stop] at this
    exact (clearMm_apply small x).trans (if_neg (by omega))
  · have clear : ∀ i < 4, (clearMm h mm).mem (mm + i) = 0 := by
      intro i hi
      rw [clearMm_apply small, if_pos (by simp only [sizeofMm]; omega)]
    have first : (clearMm h mm).mem mm = 0 := clear 0 (by decide)
    simp [readWord, first, clear 1, clear 2, clear 3]
  · have apart := inv.apart hr
    simp only [Region.stop] at apart high
    rw [clearMm_apply small, if_neg (by omega)]

theorem createProcessImage_spec (inv : HeapInv heap ⟨mem.heap, live⟩)
    (descriptor : Kheap.kmalloc heap mem.heap sizeofMm = .ok (mm, h))
    (alloc : Allocates heap beyond { mem with heap := clearMm h mm } stackSize g)
    (done : createProcessImage node heap beyond mem stackSize = .ok (mm, mem')) :
    HeapInv heap ⟨mem'.heap, g.region :: ⟨mm, sizeofMm⟩ :: live⟩ ∧
      SegmentList mem'.heap.mem (readWord mem'.heap.mem (mm + mmap)) [g] ∧
      ∀ r ∈ live, ∀ x, r.ptr ≤ x → x < r.stop → mem'.heap.mem x = mem.heap.mem x := by
  obtain ⟨inv, frame⟩ := inv.malloc (by decide) (by decide) descriptor
  obtain ⟨inv, empty, cleared⟩ := clearMm_spec inv
  obtain ⟨h', pages, -, made⟩ := createSegment_eq alloc mm
  have none : SegmentList (clearMm h mm).mem (readWord (clearMm h mm).mem (mm + mmap))
      ([] : List (Segment node)) := empty
  obtain ⟨inv, listed, linked⟩ := createSegment_spec inv none (by simp) alloc made
  simp only [createProcessImage, descriptor, ok_bind, made, Except.map] at done
  cases done
  have apart := inv.apart mem_cons_self
  have away := inv.perm (.swap ..)
  simp only [Segment.region, Region.stop, sizeofMm] at apart
  refine ⟨inv.written fun x outside => ?_, ?_, fun r hr x low high => ?_⟩
  · have := outside ⟨mm, sizeofMm⟩ (mem_cons_of_mem _ mem_cons_self)
    simp only [Region.stop, sizeofMm] at this
    exact writeWord_outside (by simp only [startStack]; omega)
  · rw [readWord_writeWord_apart (by simp only [startStack, mmap]; omega)]
    refine listed.congr fun g' hg' x low high => ?_
    rw [mem_singleton.mp hg'] at low high
    simp only [Segment.region, Region.stop] at low high
    exact writeWord_outside (by simp only [startStack]; omega)
  · rw [← frame r hr x low high, ← cleared r hr x low high, ← linked r hr x low high]
    have := away.apart (mem_cons_of_mem _ hr)
    simp only [Region.stop, sizeofMm] at this high
    exact writeWord_outside (by simp only [startStack]; omega)

section Steps
variable {s s' : ImageRun node} {e : ImageEvent} {image : Image node}

variable (inv : ImagesInv heap s)
include inv

theorem ImagesInv.region_mem (hi : image ∈ s.images) {r : Region} (hr : r ∈ image.regions) :
    r ∈ s.live := by
  obtain ⟨rest, owned⟩ := inv.owned
  exact owned.mem_iff.mpr (mem_append_left _ (mem_flatMap.mpr ⟨image, hi, hr⟩))

theorem ImagesInv.split {others : List (Image node)} (here : s.images.Perm (image :: others)) :
    ∃ rest, s.live.Perm (image.regions ++ (others.flatMap Image.regions ++ rest)) := by
  obtain ⟨rest, owned⟩ := inv.owned
  refine ⟨rest, owned.trans ?_⟩
  rw [← append_assoc, ← flatMap_cons]
  exact (here.flatMap_right _).append_right _

omit inv in
theorem Image.Stored.kept {m m' : ByteMem} (stored : image.Stored m)
    (same : ∀ r ∈ image.regions, ∀ x, r.ptr ≤ x → x < r.stop → m' x = m x) : image.Stored m' := by
  refine stored.congr fun r hr x low high => ?_
  rcases mem_append.mp hr with hr | hr
  · exact same r (mem_append_left _ hr) x low high
  · rw [mem_singleton.mp hr] at low high
    refine same image.mmRegion (by simp [Image.regions]) x low (Nat.lt_trans high ?_)
    simp only [Region.stop, Image.mmRegion, sizeofMm]
    omega

omit inv in
theorem imagesInv_init (node : PgData) (heap : HeapArea) (m : ByteMem) (pages : PageState) :
    ImagesInv heap (startImages node heap m pages) := by
  refine ⟨heapInv_init heap m, ⟨[], ?_⟩, ?_⟩
  · exact .refl _
  · exact fun image hi => absurd hi not_mem_nil

theorem imagesInv_create {stackSize : Nat} {beyond : Nat → Int}
    (step : ImageStep heap s (.create stackSize beyond) s') : ImagesInv heap s' := by
  obtain ⟨mm, h, g, mem, descriptor, alloc, done, rfl⟩ := step
  obtain ⟨inv', listed, frame⟩ := createProcessImage_spec inv.heap descriptor alloc done
  obtain ⟨rest, owned⟩ := inv.owned
  refine ⟨inv', ⟨rest, (owned.cons _).cons _⟩, fun image hi => ?_⟩
  rcases mem_cons.mp hi with rfl | hi
  · exact listed
  · exact (inv.stored image hi).kept fun r hr => frame r (inv.region_mem hi hr)

theorem imagesInv_segment {mm size : Nat} {beyond : Nat → Int}
    (step : ImageStep heap s (.segment mm size beyond) s') : ImagesInv heap s' := by
  obtain ⟨image, others, g, start, mem, here, rfl, alloc, done, rfl⟩ := step
  obtain ⟨rest, owned⟩ := inv.split here
  have first : s.live.Perm (image.mmRegion :: (image.segments.map Segment.region ++
      (others.flatMap Image.regions ++ rest))) := by
    refine owned.trans ?_
    rw [Image.regions, append_assoc]
    exact perm_middle
  have stored := inv.stored image (here.mem_iff.mpr mem_cons_self)
  obtain ⟨inv', listed, frame⟩ := createSegment_spec (inv.heap.perm first) stored
    (fun g' hg' => mem_append_left _ (mem_map_of_mem hg')) alloc done
  refine ⟨inv'.perm (first.symm.cons _), ⟨rest, ?_⟩, fun image' hi => ?_⟩
  · rw [flatMap_cons, append_assoc]
    exact owned.cons _
  · rcases mem_cons.mp hi with rfl | hi
    · exact listed
    · refine (inv.stored image' (here.mem_iff.mpr (mem_cons_of_mem _ hi))).kept fun r hr => ?_
      refine frame r (mem_append_right _ (mem_append_left _ ?_))
      exact mem_flatMap.mpr ⟨image', hi, hr⟩

theorem imagesInv_destroy {mm : Nat} (step : ImageStep heap s (.destroy mm) s') :
    ImagesInv heap s' := by
  obtain ⟨image, others, live, mem, here, rfl, given, done, rfl⟩ := step
  have stored := inv.stored image (here.mem_iff.mpr mem_cons_self)
  obtain ⟨h, done', -, inv', frame⟩ := destroyProcessImage_spec (inv.heap.perm given) stored
  cases done.symm.trans done'
  obtain ⟨rest, owned⟩ := inv.split here
  have left := (perm_append_left_iff _).mp (given.symm.trans owned)
  refine ⟨inv', ⟨rest, left⟩, fun image' hi => ?_⟩
  refine (inv.stored image' (here.mem_iff.mpr (mem_cons_of_mem _ hi))).kept fun r hr => ?_
  refine frame r (left.mem_iff.mpr (mem_append_left _ ?_))
  exact mem_flatMap.mpr ⟨image', hi, hr⟩

theorem imagesInv_heap {e : HeapEvent} (step : ImageStep heap s (.heap e) s') :
    ImagesInv heap s' := by
  obtain ⟨h, live, called, foreign, rfl⟩ := step
  have inv' := heapInv_step inv.heap called
  obtain ⟨rest, owned⟩ := inv.owned
  have kept (call : e.isCall = true) : ∀ image ∈ s.images, image.Stored h.mem :=
    fun image hi => (inv.stored image hi).kept fun r hr x low high =>
      call_frame inv.heap called call (inv.region_mem hi hr) low high
  cases e with
  | malloc sz =>
    obtain ⟨-, -, p, h', -, same⟩ := called
    cases same
    exact ⟨inv', ⟨_ :: rest, (owned.cons _).trans perm_middle.symm⟩, kept rfl⟩
  | free p =>
    obtain ⟨r, -, rfl, h', -, same⟩ := called
    cases same
    have other : r ∉ s.images.flatMap Image.regions := by
      intro mem
      obtain ⟨image, hi, hr⟩ := mem_flatMap.mp mem
      exact foreign image hi r hr rfl
    refine ⟨inv', ⟨rest.erase r, ?_⟩, kept rfl⟩
    rw [← erase_append_right _ other]
    exact owned.erase r
  | write a v =>
    obtain ⟨r, -, -, -, same⟩ := called
    cases same
    refine ⟨inv', ⟨rest, owned⟩, fun image hi => ?_⟩
    refine (inv.stored image hi).congr fun r hr x low high => update_of_ne ?_ _ _
    have := foreign image hi r hr
    omega

theorem imagesInv_step (step : ImageStep heap s e s') : ImagesInv heap s' := by
  cases e with
  | create stackSize beyond => exact imagesInv_create inv step
  | segment mm size beyond => exact imagesInv_segment inv step
  | destroy mm => exact imagesInv_destroy inv step
  | heap e => exact imagesInv_heap inv step

end Steps

theorem imagesInv_run {heap : HeapArea} {m : ByteMem} {pages : PageState}
    {trace : List (ImageRun node × ImageEvent)} {s : ImageRun node}
    (run : Exec (ImageStep heap) (startImages node heap m pages) trace s) : ImagesInv heap s :=
  (exec_keeps (imagesInv_init node heap m pages) (fun _ _ _ inv step => imagesInv_step inv step)
    run).2

/-- The destruction frees the pages and descriptors of the image, each once. -/
theorem destroyProcessImage_run {heap : HeapArea} {m : ByteMem} {pages : PageState}
    {trace : List (ImageRun node × ImageEvent)} {s : ImageRun node}
    (run : Exec (ImageStep heap) (startImages node heap m pages) trace s) {image : Image node}
    (hi : image ∈ s.images) : ∃ mem, destroyProcessImage node heap s.mem image.mm = .ok mem ∧
      (∀ page, mem.pages.count page =
        if ∃ g ∈ image.segments, g.first ≤ page ∧ page < g.first + 2 ^ g.order then -1
        else s.mem.pages.count page) ∧
      mem.pages.freePages .highmem = (s.mem.pages.freePages .highmem +
        (image.segments.map fun g => 2 ^ g.order).sum) % 2 ^ 32 ∧
      mem.pages.freePages .normal = s.mem.pages.freePages .normal ∧
      let freed := image.segments.map Segment.ptr ++ [image.mm]
      freed.foldlM (Kheap.kfree heap) s.mem.heap = .ok mem.heap ∧ freed.Nodup ∧
        ∀ p ∈ freed, p ∈ s.live.map Region.ptr := by
  have inv := imagesInv_run run
  obtain ⟨others, here⟩ : ∃ others, s.images.Perm (image :: others) := by
    obtain ⟨before, after, split⟩ := append_of_mem hi
    exact ⟨before ++ after, split ▸ perm_middle⟩
  obtain ⟨rest, owned⟩ := inv.split here
  obtain ⟨h, done, freed, -⟩ := destroyProcessImage_spec (inv.heap.perm owned) (inv.stored image hi)
  have ptrs : image.regions.map Region.ptr = image.segments.map Segment.ptr ++ [image.mm] := by
    simp only [Image.regions, map_append, map_map]
    rfl
  refine ⟨_, done, foldl_giveBack_count _ _, foldl_giveBack_free _ image.nonempty,
    foldl_giveBack_normal _ _, freed, ?_, ?_⟩
  · rw [← ptrs]
    have nodup := (inv.heap.perm owned).nodup
    rw [map_append] at nodup
    exact nodup.of_append_left
  · intro p hp
    rw [← ptrs] at hp
    obtain ⟨r, hr, rfl⟩ := mem_map.mp hp
    exact mem_map_of_mem (inv.region_mem hi hr)

def clearMemory : Memory := ⟨kheapInit pageHeap fun _ => 0, (initPages smallNode).pages⟩

theorem clearMemory_ptrs : ∃ h h',
    Kheap.kmalloc pageHeap clearMemory.heap sizeofMm = .ok (0x100018, h) ∧
    Kheap.kmalloc pageHeap (clearMm h 0x100018) sizeofVmArea = .ok (0x100074, h') := by
  have ptrs : ((Kheap.kmalloc pageHeap clearMemory.heap sizeofMm).bind fun (mm, h) =>
      (Kheap.kmalloc pageHeap (clearMm h mm) sizeofVmArea).map fun (p, _) => (mm, p)) =
        .ok (0x100018, 0x100074) := by
    decide +kernel
  rcases first : Kheap.kmalloc pageHeap clearMemory.heap sizeofMm with _ | ⟨mm, h⟩
  · rw [first] at ptrs
    cases ptrs
  simp only [first, ok_bind] at ptrs
  rcases second : Kheap.kmalloc pageHeap (clearMm h mm) sizeofVmArea with _ | ⟨p, h'⟩
  · rw [second] at ptrs
    cases ptrs
  obtain ⟨rfl, rfl⟩ : mm = 0x100018 ∧ p = 0x100074 := by simpa [second, Except.map] using ptrs
  exact ⟨h, h', rfl, second⟩

def firstStack : Segment smallNode where
  ptr := 0x100074
  first := 2048
  order := 0
  small := by decide
  low := by decide
  inside := by decide

theorem clearMemory_frames : allocPages smallNode (fun _ => 0) clearMemory.pages gfpHighuser 0 =
    some (clearMemory.pages.take .highmem 2048 0, some firstStack.addr) := by
  have found : scanZone smallNode (fun _ => 0) clearMemory.pages .highmem 0 = some 2048 := by
    decide
  rw [allocPages_eq (show getZoneFromFlags gfpHighuser = some .highmem from rfl) (by decide), found]
  rfl

theorem destroyProcessImage_run_firstStack : ∃ s : ImageRun smallNode,
    Exec (ImageStep pageHeap) (startImages smallNode pageHeap (fun _ => 0) clearMemory.pages)
      [(startImages smallNode pageHeap (fun _ => 0) clearMemory.pages, .create 100 fun _ => 0)] s ∧
    ∃ mem, destroyProcessImage smallNode pageHeap s.mem 0x100018 = .ok mem ∧
      mem.pages.count 2048 = -1 ∧ mem.pages.freePages .highmem =
        (s.mem.pages.freePages .highmem + 1) % 2 ^ 32 := by
  obtain ⟨h, h', first, second⟩ := clearMemory_ptrs
  have alloc : Allocates pageHeap (fun _ => 0) { clearMemory with heap := clearMm h 0x100018 } 100
      firstStack := ⟨by decide, ⟨h', second⟩, ⟨_, clearMemory_frames⟩⟩
  obtain ⟨h'', pages, -, made⟩ := createSegment_eq alloc 0x100018
  have created : ∃ mem, createProcessImage smallNode pageHeap (fun _ => 0) clearMemory 100 =
      .ok (0x100018, mem) := by
    simp only [createProcessImage, first, ok_bind, made, Except.map]
    exact ⟨_, rfl⟩
  obtain ⟨mem, created⟩ := created
  have step : ImageStep pageHeap (startImages smallNode pageHeap (fun _ => 0) clearMemory.pages)
      (.create 100 fun _ => 0) ⟨mem, [firstStack.region, ⟨0x100018, sizeofMm⟩],
        [⟨0x100018, [firstStack], cons_ne_nil _ _⟩]⟩ :=
    ⟨_, h, firstStack, mem, first, alloc, created, rfl⟩
  have run := Exec.refl.next step
  obtain ⟨mem', done, counts, free, -⟩ := destroyProcessImage_run run mem_cons_self
  refine ⟨_, run, mem', done, ?_, free⟩
  rw [counts, if_pos ⟨firstStack, mem_cons_self, by decide, by decide⟩]

end Elaborato.Mentos.Paging
