import Elaborato.Foundation.Execution
import Elaborato.Foundation.FirstFit
import Mathlib.Logic.Function.Basic

/-!
The page frames (zone_allocator.c without the buddy system). The scan ends `order` frames
before the end of the zone instead of `2^order`, so a block can lie over the boundary.
-/
namespace Elaborato.Mentos
open Foundation List Function

inductive ZoneType
  | normal
  | highmem
  deriving DecidableEq, Repr

def pageSize : Nat := 4096

def maxOrder : Nat := 11

def sizeofPage : Nat := 20

def sizeofPgData : Nat := 332

def maxOrderAlign (addr : Nat) : Nat :=
  let block := pageSize * 2 ^ (maxOrder - 1)
  (addr / block * block + block) % 2 ^ 32

structure PgData where
  startNormal : Nat
  stopNormal : Nat
  nodeSize : Nat
  normal_lt : startNormal < stopNormal
  high_lt : stopNormal < nodeSize
  bound : nodeSize < 2 ^ 20

theorem maxOrderAlign_pages (addr : Nat) :
    maxOrderAlign addr % pageSize = 0 ∧ maxOrderAlign addr < 2 ^ 32 := by
  simp only [maxOrderAlign, pageSize, maxOrder]
  omega

theorem pages_lt {a b : Nat} (ha : a % pageSize = 0) (hb : b % pageSize = 0) (lt : a < b) :
    a / pageSize < b / pageSize := by
  simp only [pageSize] at *
  omega

def pmmngrInit (memoryStart memSize : Nat) : Option PgData :=
  let memorySize := maxOrderAlign memSize
  let numFrames := memorySize / pageSize
  let startNormal :=
    maxOrderAlign ((memoryStart + sizeofPage * numFrames + sizeofPgData) % 2 ^ 32)
  let stopNormal := maxOrderAlign (memorySize / 4)
  if h : startNormal < stopNormal ∧ stopNormal < memorySize then
    some
      { startNormal := startNormal / pageSize
        stopNormal := stopNormal / pageSize
        nodeSize := numFrames
        normal_lt := pages_lt (maxOrderAlign_pages _).1 (maxOrderAlign_pages _).1 h.1
        high_lt := pages_lt (maxOrderAlign_pages _).1 (maxOrderAlign_pages _).1 h.2
        bound := Nat.div_lt_of_lt_mul (maxOrderAlign_pages memSize).2 }
  else none

def PgData.first (node : PgData) : ZoneType → Nat
  | .normal => node.startNormal
  | .highmem => node.stopNormal

def PgData.stop (node : PgData) : ZoneType → Nat
  | .normal => node.stopNormal
  | .highmem => node.nodeSize

structure PageState where
  count : Nat → Int
  freePages : ZoneType → Nat

def gfpKernel : Nat := 0xCC0

def gfpAtomic : Nat := 0xA20

def gfpNofs : Nat := 0xC40

def gfpNoio : Nat := 0xC00

def gfpNowait : Nat := 0x800

def gfpHighuser : Nat := 0xCC2

def getZoneFromFlags (gfp : Nat) : Option ZoneType :=
  if gfp ∈ [gfpKernel, gfpAtomic, gfpNofs, gfpNoio, gfpNowait] then some .normal
  else if gfp = gfpHighuser then some .highmem
  else none

def getZoneFromPage (node : PgData) (page : Nat) : Option ZoneType :=
  if page < node.stop .normal then some .normal
  else if page < node.stop .highmem then some .highmem
  else none

def pageCount (node : PgData) (beyond : Nat → Int) (count : Nat → Int) (page : Nat) : Int :=
  if page < node.nodeSize then count page else beyond page

def setCount (count : Nat → Int) (block size : Nat) (value : Int) (page : Nat) : Int :=
  if block ≤ page ∧ page < block + size then value else count page

def PageState.take (s : PageState) (zone : ZoneType) (block order : Nat) : PageState where
  count := setCount s.count block (2 ^ order) 0
  freePages := update s.freePages zone
    ((s.freePages zone + 2 ^ 32 - 2 ^ order) % 2 ^ 32)

def allocPages (node : PgData) (beyond : Nat → Int) (s : PageState) (gfp order : Nat) :
    Option (PageState × Option Nat) :=
  (getZoneFromFlags gfp).bind fun zone =>
    if order ≤ maxOrder - 1 then
      let blockSize := 2 ^ order
      let size := node.stop zone - node.first zone
      let lastFrame := node.first zone + size - order + 1
      let isFree := fun page => pageCount node beyond s.count page == -1
      match firstFit isFree blockSize lastFrame (size + 2) (node.first zone) with
      | none => some (s, none)
      | some block =>
        let deltaBlockFrame := block - node.first zone
        some (s.take zone block order,
          some ((node.first zone + deltaBlockFrame) * pageSize % 2 ^ 32))
    else none

def freePages (node : PgData) (s : PageState) (addr order : Nat) : Option PageState :=
  let page := addr / pageSize
  (getZoneFromPage node page).map fun zone =>
    { count := setCount s.count page (2 ^ order) (-1)
      freePages := update s.freePages zone
        ((s.freePages zone + 2 ^ order) % 2 ^ 32) }

structure LiveBlock where
  zone : ZoneType
  addr : Nat
  order : Nat
  deriving DecidableEq, Repr

def LiveBlock.first (b : LiveBlock) : Nat := b.addr / pageSize

def LiveBlock.stop (b : LiveBlock) : Nat := b.first + 2 ^ b.order

structure PageRun where
  pages : PageState
  live : List LiveBlock

inductive PageEvent
  | alloc (gfp order : Nat) (beyond : Nat → Int)
  | free (addr order : Nat)

def PageStep (node : PgData) (s : PageRun) : PageEvent → PageRun → Prop
  | .alloc gfp order beyond, s' => ∃ zone pages result, getZoneFromFlags gfp = some zone ∧
      allocPages node beyond s.pages gfp order = some (pages, result) ∧
      s' = ⟨pages, (result.map fun addr => ⟨zone, addr, order⟩).toList ++ s.live⟩
  | .free addr order, s' => ∃ zone pages, ⟨zone, addr, order⟩ ∈ s.live ∧
      freePages node s.pages addr order = some pages ∧
      s' = ⟨pages, s.live.erase ⟨zone, addr, order⟩⟩

/-- After `pmmngr_init` all pages are free. -/
def initPages (node : PgData) : PageRun where
  pages := { count := fun _ => -1, freePages := fun zone => node.stop zone - node.first zone }
  live := []

def PageState.isFree (s : PageState) (page : Nat) : Bool := s.count page == -1

def Apart (a b : LiveBlock) : Prop := a.stop ≤ b.first ∨ b.stop ≤ a.first

structure PagesAccounted (node : PgData) (s : PageRun) : Prop where
  inside : ∀ b ∈ s.live, b.addr = b.first * pageSize ∧ node.first b.zone ≤ b.first ∧
    b.stop ≤ node.stop b.zone
  apart : s.live.Pairwise Apart
  counts : ∀ p < node.nodeSize,
    s.pages.count p = -1 ↔ ∀ b ∈ s.live, ¬ (b.first ≤ p ∧ p < b.stop)
  free : ∀ zone, s.pages.freePages zone =
    freeCells s.pages.isFree (node.first zone) (node.stop zone)

def RunInZone (node : PgData) (s : PageRun) : PageEvent → Prop
  | .alloc gfp order beyond =>
    (allocPages node beyond s.pages gfp order).map Prod.snd = some none ∨
      ∀ zone, getZoneFromFlags gfp = some zone → ∃ block, node.first zone ≤ block ∧
        block + 2 ^ order ≤ node.stop zone ∧ FreeRun s.pages.isFree block (2 ^ order)
  | .free _ _ => True

variable {node : PgData} {s s' : PageRun} {zone : ZoneType} {gfp order addr block : Nat}
  {beyond : Nat → Int} {pages : PageState}

theorem PgData.first_lt (node : PgData) (zone : ZoneType) : node.first zone < node.stop zone := by
  cases zone with
  | normal => exact node.normal_lt
  | highmem => exact node.high_lt

theorem PgData.stop_le (node : PgData) (zone : ZoneType) : node.stop zone ≤ node.nodeSize := by
  cases zone with
  | normal => exact Nat.le_of_lt node.high_lt
  | highmem => exact Nat.le_refl _

theorem PgData.zones_apart (node : PgData) {z z' : ZoneType} (ne : z ≠ z') :
    node.stop z ≤ node.first z' ∨ node.stop z' ≤ node.first z := by
  cases z <;> cases z' <;> simp_all [PgData.first, PgData.stop]

theorem getZoneFromPage_inside {page : Nat} (le : node.first zone ≤ page)
    (lt : page < node.stop zone) : getZoneFromPage node page = some zone := by
  cases zone with
  | normal => exact if_pos lt
  | highmem =>
    have above : ¬ page < node.stop .normal := Nat.not_lt.mpr le
    rw [getZoneFromPage, if_neg above, if_pos lt]

theorem pageCount_inside (beyond : Nat → Int) (le : block + 2 ^ order ≤ node.nodeSize) :
    FreeRun (fun page => pageCount node beyond s.pages.count page == -1) block (2 ^ order) ↔
      FreeRun s.pages.isFree block (2 ^ order) := by
  refine forall_congr' fun i => forall_congr' fun hi => ?_
  simp only [pageCount, PageState.isFree, if_pos (show block + i < node.nodeSize by omega)]

/-- The scan of `__alloc_pages` in a zone. -/
def scanZone (node : PgData) (beyond : Nat → Int) (s : PageState) (zone : ZoneType) (order : Nat) :
    Option Nat :=
  firstFit (fun page => pageCount node beyond s.count page == -1) (2 ^ order)
    (node.stop zone - order + 1) (node.stop zone - node.first zone + 2) (node.first zone)

theorem allocPages_eq (known : getZoneFromFlags gfp = some zone) (small : order ≤ maxOrder - 1) :
    allocPages node beyond pages gfp order = some
      (match scanZone node beyond pages zone order with
        | none => (pages, none)
        | some block => (pages.take zone block order, some (block * pageSize))) := by
  have whole : node.first zone + (node.stop zone - node.first zone) = node.stop zone := by
    have := node.first_lt zone
    omega
  simp only [allocPages, known, Option.bind_some, if_pos small, whole]
  rw [← scanZone]
  cases found : scanZone node beyond pages zone order with
  | none => rfl
  | some block =>
    obtain ⟨le, lt, -⟩ := firstFit_some found
    have bound := node.bound
    have top := node.stop_le zone
    simp only [show node.first zone + (block - node.first zone) = block by omega, pageSize,
      Nat.mod_eq_of_lt (show block * 4096 < 2 ^ 32 by omega)]

theorem allocPages_cases {result : Option Nat} (known : getZoneFromFlags gfp = some zone)
    (done : allocPages node beyond s.pages gfp order = some (pages, result)) :
    (result = none ∧ pages = s.pages) ∨
      ∃ block, scanZone node beyond s.pages zone order = some block ∧
        result = some (block * pageSize) ∧ pages = s.pages.take zone block order := by
  have small : order ≤ maxOrder - 1 := by
    by_contra large
    simp [allocPages, known, large] at done
  rw [allocPages_eq known small] at done
  cases found : scanZone node beyond s.pages zone order with
  | none =>
    rw [found] at done
    cases done
    exact .inl ⟨rfl, rfl⟩
  | some block =>
    rw [found] at done
    cases done
    exact .inr ⟨block, rfl, rfl, rfl⟩

theorem isFree_setCount (count : Nat → Int) (freePages : ZoneType → Nat) (block size p : Nat)
    (value : Int) : PageState.isFree ⟨setCount count block size value, freePages⟩ p =
      if block ≤ p ∧ p < block + size then value == -1 else count p == -1 := by
  simp only [PageState.isFree, setCount]
  split <;> rfl

variable {a b : LiveBlock}

theorem Apart.symm (apart : Apart a b) : Apart b a := Or.symm apart

theorem apart_of_disjoint {a b : LiveBlock}
    (disjoint : ∀ p, a.first ≤ p → p < a.stop → ¬ (b.first ≤ p ∧ p < b.stop)) : Apart a b := by
  have ha : a.first < a.stop := Nat.lt_add_of_pos_right (Nat.two_pow_pos _)
  have hb : b.first < b.stop := Nat.lt_add_of_pos_right (Nat.two_pow_pos _)
  have at_a := disjoint a.first
  have at_b := disjoint b.first
  unfold Apart
  omega

theorem not_mem_of_apart (apart : Apart a b) {p : Nat} (le : a.first ≤ p) (lt : p < a.stop) :
    ¬ (b.first ≤ p ∧ p < b.stop) := by
  unfold Apart at apart
  omega

def blockAt (zone : ZoneType) (block order : Nat) : LiveBlock := ⟨zone, block * pageSize, order⟩

@[simp] theorem blockAt_first : (blockAt zone block order).first = block :=
  Nat.mul_div_cancel block (by decide)

@[simp] theorem blockAt_stop : (blockAt zone block order).stop = block + 2 ^ order := by
  rw [LiveBlock.stop, blockAt_first]
  rfl

theorem pagesAccounted_taken (inv : PagesAccounted node s) (le : node.first zone ≤ block)
    (fits : block + 2 ^ order ≤ node.stop zone) (run : FreeRun s.pages.isFree block (2 ^ order)) :
    PagesAccounted node ⟨s.pages.take zone block order, blockAt zone block order :: s.live⟩ := by
  have top := node.stop_le zone
  have unused : ∀ p, block ≤ p → p < block + 2 ^ order → s.pages.count p = -1 := by
    intro p hle hlt
    have here := run (p - block) (by omega)
    rw [show block + (p - block) = p by omega] at here
    exact beq_iff_eq.mp here
  refine ⟨?_, ?_, ?_, ?_⟩
  · intro b hb
    rcases mem_cons.mp hb with rfl | hb
    · simpa using ⟨rfl, le, fits⟩
    · exact inv.inside b hb
  · refine pairwise_cons.mpr ⟨fun b hb => apart_of_disjoint ?_, inv.apart⟩
    simp only [blockAt_first, blockAt_stop]
    intro p hle hlt
    exact (inv.counts p (by omega)).mp (unused p hle hlt) b hb
  · intro p hp
    simp only [PageState.take, setCount, forall_mem_cons, blockAt_first, blockAt_stop]
    by_cases inside : block ≤ p ∧ p < block + 2 ^ order
    · simp [inside]
    · simp only [inside, if_false, not_false_iff, true_and]
      exact inv.counts p hp
  · intro z
    by_cases same : z = zone
    · subst same
      have taken := freeCells_taken s.pages.isFree (PageState.isFree
          ⟨setCount s.pages.count block (2 ^ order) 0, s.pages.freePages⟩) le fits run
        (fun p hle hlt => by rw [isFree_setCount, if_pos ⟨hle, hlt⟩]; rfl)
        (fun p out => by rw [isFree_setCount, if_neg (by omega)]; rfl)
      have most := freeCells_le s.pages.isFree (node.first z) (node.stop z)
      have small := node.bound
      have before := inv.free z
      simp only [PageState.take, update_self]
      refine Eq.trans ?_ (Nat.eq_sub_of_add_eq taken).symm
      rw [before, show freeCells s.pages.isFree (node.first z) (node.stop z) + 2 ^ 32 - 2 ^ order =
        freeCells s.pages.isFree (node.first z) (node.stop z) - 2 ^ order + 2 ^ 32 by omega,
        Nat.add_mod_right, Nat.mod_eq_of_lt (Nat.lt_of_le_of_lt (Nat.sub_le _ _) (by omega))]
    · simp only [PageState.take, update_of_ne same]
      refine (inv.free z).trans (freeCells_congr fun p hle hlt => ?_).symm
      have other := node.zones_apart same
      rw [isFree_setCount, if_neg (by omega)]
      rfl

theorem pagesAccounted_freed (inv : PagesAccounted node s) (live : b ∈ s.live)
    (freed : freePages node s.pages b.addr b.order = some pages) :
    PagesAccounted node ⟨pages, s.live.erase b⟩ := by
  obtain ⟨-, le, fits⟩ := inv.inside b live
  have nonempty : b.first < b.stop := Nat.lt_add_of_pos_right (Nat.two_pow_pos _)
  have top := node.stop_le b.zone
  have zone : getZoneFromPage node b.first = some b.zone := getZoneFromPage_inside le (by omega)
  rw [freePages, ← LiveBlock.first, zone, Option.map_some] at freed
  cases freed
  have others : ∀ b' ∈ s.live.erase b, Apart b b' :=
    (pairwise_cons.mp ((perm_cons_erase live).pairwise inv.apart Apart.symm)).1
  refine ⟨fun b' hb' => inv.inside b' (mem_of_mem_erase hb'),
    inv.apart.sublist erase_sublist, ?_, ?_⟩
  · intro p hp
    simp only [setCount]
    split
    · next inside =>
        simp only [true_iff]
        exact fun b' hb' => not_mem_of_apart (others b' hb') inside.1 inside.2
    · next outside =>
        rw [inv.counts p hp]
        constructor
        · exact fun all b' hb' => all b' (mem_of_mem_erase hb')
        · intro all b' hb'
          by_cases same : b' = b
          · exact same ▸ outside
          · exact all b' ((mem_erase_of_ne same).mpr hb')
  · intro z
    by_cases same : z = b.zone
    · subst same
      have used : ∀ p, b.first ≤ p → p < b.first + 2 ^ b.order → s.pages.isFree p = false := by
        intro p hle hlt
        refine beq_eq_false_iff_ne.mpr fun unused => ?_
        exact (inv.counts p (by unfold LiveBlock.stop at fits; omega)).mp unused b live ⟨hle, hlt⟩
      have given := freeCells_taken (PageState.isFree
          ⟨setCount s.pages.count b.first (2 ^ b.order) (-1), s.pages.freePages⟩)
        s.pages.isFree le fits
        (fun i hi => by rw [isFree_setCount, if_pos (by omega)]; rfl) used
        (fun p out => by rw [isFree_setCount, if_neg (by omega)]; rfl)
      have most := freeCells_le (PageState.isFree
        ⟨setCount s.pages.count b.first (2 ^ b.order) (-1), s.pages.freePages⟩)
        (node.first b.zone) (node.stop b.zone)
      have small := node.bound
      simp only [update_self]
      rw [inv.free b.zone, given, Nat.mod_eq_of_lt (by omega)]
      rfl
    · simp only [update_of_ne same]
      refine (inv.free z).trans (freeCells_congr fun p hle hlt => ?_).symm
      have other := node.zones_apart same
      unfold LiveBlock.stop at fits
      rw [isFree_setCount, if_neg (by omega)]
      rfl

theorem pagesAccounted_init : PagesAccounted node (initPages node) := by
  refine ⟨nofun, .nil, fun p hp => ?_, fun zone => ?_⟩
  · simp [initPages]
  · simp [initPages, freeCells, PageState.isFree]

theorem scanZone_inside (le : node.first zone ≤ block) (fits : block + 2 ^ order ≤ node.stop zone)
    (run : FreeRun s.pages.isFree block (2 ^ order)) {found : Nat}
    (scanned : scanZone node beyond s.pages zone order = some found) : found ≤ block := by
  have top := node.stop_le zone
  have more : order < 2 ^ order := Nat.lt_two_pow_self
  have enough : node.stop zone - order + 1 <
      node.first zone + (node.stop zone - node.first zone + 2) := by omega
  have before : block < node.stop zone - order + 1 := by omega
  obtain ⟨found', scan', first⟩ := firstFit_of_run enough le before
    ((pageCount_inside beyond (Nat.le_trans fits top)).mpr run)
  rw [← scanZone, scanned] at scan'
  cases scan'
  exact first

variable {e : PageEvent}

theorem pagesAccounted_step (inv : PagesAccounted node s) (step : PageStep node s e s')
    (allowed : RunInZone node s e) : PagesAccounted node s' := by
  cases e with
  | free addr order =>
    obtain ⟨zone, pages, live, freed, rfl⟩ := step
    exact pagesAccounted_freed inv live freed
  | alloc gfp order beyond =>
    obtain ⟨zone, pages, result, known, done, rfl⟩ := step
    rcases allocPages_cases known done with ⟨rfl, rfl⟩ | ⟨found, scanned, rfl, rfl⟩
    · exact inv
    · rcases allowed with failed | inZone
      · simp [done] at failed
      · obtain ⟨block, le, fits, run⟩ := inZone zone known
        have first := scanZone_inside le fits run scanned
        obtain ⟨from_first, -, taken, -⟩ := firstFit_some scanned
        have top := node.stop_le zone
        have within : found + 2 ^ order ≤ node.nodeSize := by omega
        exact pagesAccounted_taken inv from_first (by omega)
          ((pageCount_inside beyond within).mp taken)

theorem pagesAccounted_broken (step : PageStep node s e s') (refused : ¬ RunInZone node s e) :
    ¬ PagesAccounted node s' := by
  cases e with
  | free addr order => exact absurd trivial refused
  | alloc gfp order beyond =>
    obtain ⟨zone, pages, result, known, done, rfl⟩ := step
    rcases allocPages_cases known done with ⟨rfl, rfl⟩ | ⟨found, scanned, rfl, rfl⟩
    · exact absurd (.inl (by simp [done])) refused
    · intro after
      have inside := after.inside (blockAt zone found order) (by simp [blockAt])
      rw [blockAt_first, blockAt_stop] at inside
      obtain ⟨-, -, taken, -⟩ := firstFit_some scanned
      have within := Nat.le_trans inside.2.2 (node.stop_le zone)
      refine refused (.inr fun zone' known' => ?_)
      cases known.symm.trans known'
      exact ⟨found, inside.2.1, inside.2.2, (pageCount_inside beyond within).mp taken⟩

/-- All pages are accounted for exactly when each request finds a run inside its zone. -/
theorem pagesAccounted_run_iff (node : PgData) {trace : List (PageRun × PageEvent)} {s : PageRun}
    (run : Exec (PageStep node) (initPages node) trace s) :
    Always (PagesAccounted node) trace s ↔ ∀ e ∈ trace, RunInZone node e.1 e.2 :=
  exec_always_iff pagesAccounted_init (fun _ inv => inv)
    (fun _ _ _ inv step allowed => pagesAccounted_step inv step allowed)
    (fun _ _ _ _ step refused => pagesAccounted_broken step refused) run

def smallNode : PgData := ⟨1024, 2048, 4096, by decide, by decide, by decide⟩

example : pmmngrInit 0x200000 0xE00000 = some smallNode := rfl

def smallTaken : PageRun where
  pages := (initPages smallNode).pages.take .normal 1024 0
  live := [blockAt .normal 1024 0]

def smallCrossed : PageRun where
  pages := smallTaken.pages.take .normal 1025 10
  live := [blockAt .normal 1025 10, blockAt .normal 1024 0]

def kernelRequest (order : Nat) : PageEvent := .alloc gfpKernel order fun _ => 0

theorem gfpKernel_zone : getZoneFromFlags gfpKernel = some .normal := rfl

theorem smallTaken_step :
    PageStep smallNode (initPages smallNode) (kernelRequest 0) smallTaken := by
  have found :
      scanZone smallNode (fun _ => 0) (initPages smallNode).pages .normal 0 = some 1024 := by
    decide
  refine ⟨.normal, _, some (1024 * pageSize), gfpKernel_zone, ?_, rfl⟩
  rw [allocPages_eq gfpKernel_zone (by decide), found]

theorem smallCrossed_step : PageStep smallNode smallTaken (kernelRequest 10) smallCrossed := by
  have found : scanZone smallNode (fun _ => 0) smallTaken.pages .normal 10 = some 1025 := by
    decide +kernel
  refine ⟨.normal, _, some (1025 * pageSize), gfpKernel_zone, ?_, rfl⟩
  rw [allocPages_eq gfpKernel_zone (by decide), found]

theorem allocPages_crosses :
    Exec (PageStep smallNode) (initPages smallNode)
        [(initPages smallNode, kernelRequest 0), (smallTaken, kernelRequest 10)] smallCrossed ∧
      (blockAt .normal 1025 10).stop = 2049 ∧ smallNode.stop .normal = 2048 ∧
      smallCrossed.pages.freePages .normal = 2 ^ 32 - 1 ∧
      ¬ PagesAccounted smallNode smallCrossed := by
  refine ⟨(Exec.refl.next smallTaken_step).next smallCrossed_step, by simp, rfl, by decide, ?_⟩
  intro accounted
  have inside := (accounted.inside (blockAt .normal 1025 10) (by simp [smallCrossed])).2.2
  rw [blockAt_stop] at inside
  exact absurd inside (by decide)

theorem pagesAccounted_run_smallTaken :
    PagesAccounted smallNode (initPages smallNode) ∧ PagesAccounted smallNode smallTaken := by
  have always := (pagesAccounted_run_iff smallNode (Exec.refl.next smallTaken_step)).mpr ?_
  · exact ⟨always.1 (initPages smallNode, kernelRequest 0) (by simp), always.2⟩
  · simp only [nil_append, mem_singleton, forall_eq]
    refine .inr fun zone known => ⟨1024, ?_⟩
    cases gfpKernel_zone.symm.trans known
    exact ⟨by decide, by decide, by intro i hi; rfl⟩

def startOffsets (node : PgData) (beyond : Nat → Int) (s : PageState) (zone : ZoneType)
    (order : Nat) : Set Nat :=
  {b | b ≤ node.stop zone - node.first zone - order ∧
    ∀ i < 2 ^ order, pageCount node beyond s.count (node.first zone + b + i) = -1}

section Scan
variable {s : PageState}

theorem scanZone_enough (node : PgData) (zone : ZoneType) (order : Nat) :
    node.stop zone - order + 1 < node.first zone + (node.stop zone - node.first zone + 2) := by
  have := node.first_lt zone
  omega

variable (large : order ≤ node.stop zone - node.first zone)
include large

theorem mem_runStarts_iff (page : Nat) :
    page ∈ runStarts (fun p => pageCount node beyond s.count p == -1) (2 ^ order)
        (node.stop zone - order + 1) (node.first zone) ↔
      ∃ b ∈ startOffsets node beyond s zone order, page = node.first zone + b := by
  have nonempty := node.first_lt zone
  constructor
  · rintro ⟨le, lt, run⟩
    refine ⟨page - node.first zone, ⟨by omega, fun i hi => ?_⟩, by omega⟩
    rw [show node.first zone + (page - node.first zone) = page by omega]
    exact beq_iff_eq.mp (run i hi)
  · rintro ⟨b, ⟨le, free⟩, rfl⟩
    exact ⟨by omega, by omega, fun i hi => beq_iff_eq.mpr (free i hi)⟩

theorem scanZone_none (empty : startOffsets node beyond s zone order = ∅) :
    scanZone node beyond s zone order = none := by
  refine (firstFit_eq_none (scanZone_enough node zone order)).mpr ?_
  refine Set.eq_empty_iff_forall_notMem.mpr fun page start => ?_
  obtain ⟨b, offset, -⟩ := (mem_runStarts_iff large page).mp start
  exact Set.eq_empty_iff_forall_notMem.mp empty b offset

theorem scanZone_least {b : Nat} (least : IsLeast (startOffsets node beyond s zone order) b) :
    scanZone node beyond s zone order = some (node.first zone + b) := by
  refine (firstFit_eq_some (scanZone_enough node zone order)).mpr ⟨?_, fun page start => ?_⟩
  · exact (mem_runStarts_iff large _).mpr ⟨b, least.1, rfl⟩
  · obtain ⟨b', offset, rfl⟩ := (mem_runStarts_iff large page).mp start
    exact Nat.add_le_add_left (least.2 offset) _

end Scan

/-- The scan that skips past a page in use is first fit. -/
theorem allocPages_firstFit {node : PgData} {zone : ZoneType} {gfp order : Nat}
    (beyond : Nat → Int) (s : PageState) (known : getZoneFromFlags gfp = some zone)
    (large : 10 ≤ node.stop zone - node.first zone) (small : order ≤ 10) :
    (startOffsets node beyond s zone order = ∅ →
      allocPages node beyond s gfp order = some (s, none)) ∧
    (∀ b, IsLeast (startOffsets node beyond s zone order) b →
      ∃ s', allocPages node beyond s gfp order =
          some (s', some ((node.first zone + b) * pageSize)) ∧
        (∀ page, s'.count page = if node.first zone + b ≤ page ∧
          page < node.first zone + b + 2 ^ order then 0 else s.count page) ∧
        s'.freePages zone = (s.freePages zone + 2 ^ 32 - 2 ^ order) % 2 ^ 32 ∧
        ∀ z ≠ zone, s'.freePages z = s.freePages z) ∧
    ∀ rounds, node.stop zone - node.first zone + 2 ≤ rounds →
      firstFit (fun page => pageCount node beyond s.count page == -1) (2 ^ order)
        (node.stop zone - order + 1) rounds (node.first zone) =
          scanZone node beyond s zone order := by
  have fits : order ≤ node.stop zone - node.first zone := by omega
  refine ⟨fun empty => ?_, fun b least => ?_, fun rounds more => ?_⟩
  · rw [allocPages_eq known small, scanZone_none fits empty]
  · refine ⟨s.take zone (node.first zone + b) order, ?_, fun page => rfl, ?_, fun z other => ?_⟩
    · rw [allocPages_eq known small, scanZone_least fits least]
    · simp only [PageState.take, update_self]
    · simp only [PageState.take, update_of_ne other]
  · have enough := scanZone_enough node zone order
    exact firstFit_rounds (by omega) enough

theorem smallTaken_least :
    IsLeast (startOffsets smallNode (fun _ => 0) smallTaken.pages .normal 1) 1 := by
  refine ⟨⟨by decide, by decide⟩, fun b start => ?_⟩
  by_contra first
  obtain rfl : b = 0 := by omega
  exact absurd (start.2 0 (by decide)) (by decide)

theorem allocPages_firstFit_smallTaken : ∃ s',
    allocPages smallNode (fun _ => 0) smallTaken.pages gfpKernel 1 =
      some (s', some ((1024 + 1) * pageSize)) ∧
    s'.freePages .normal = (1023 + 2 ^ 32 - 2 ^ 1) % 2 ^ 32 := by
  obtain ⟨s', done, -, free, -⟩ := (allocPages_firstFit (fun _ => 0) smallTaken.pages
    gfpKernel_zone (by decide) (by decide)).2.1 1 smallTaken_least
  exact ⟨s', done, free⟩

end Elaborato.Mentos
