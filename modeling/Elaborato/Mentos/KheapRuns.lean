import Elaborato.Foundation.Execution
import Elaborato.Mentos.KheapMalloc

/-!
Runs of `kmalloc` and `kfree` from `kheap_init`, between writes to the bytes asked for.
-/
namespace Elaborato.Mentos.Kheap
open Foundation List Function

structure Region where
  ptr : Nat
  size : Nat
  deriving DecidableEq, Repr

def Region.stop (r : Region) : Nat := r.ptr + r.size

structure HeapRun where
  heap : HeapState
  live : List Region

inductive HeapEvent
  | malloc (sz : Nat)
  | free (ptr : Nat)
  | write (addr : Nat) (value : UInt8)

def HeapEvent.isCall : HeapEvent → Bool
  | .malloc _ => true
  | .free _ => true
  | .write _ _ => false

def HeapStep (heap : HeapArea) (s : HeapRun) : HeapEvent → HeapRun → Prop
  | .malloc sz, s' => 1 ≤ sz ∧ sz ≤ 0x7FFFFF00 ∧ ∃ p h, kmalloc heap s.heap sz = .ok (p, h) ∧
      s' = ⟨h, ⟨p, sz⟩ :: s.live⟩
  | .free p, s' => ∃ r ∈ s.live, r.ptr = p ∧ ∃ h, kfree heap s.heap p = .ok h ∧
      s' = ⟨h, s.live.erase r⟩
  | .write a v, s' => ∃ r ∈ s.live, r.ptr ≤ a ∧ a < r.stop ∧
      s' = { s with heap.mem := update s.heap.mem a v }

def usable (sz : Nat) : Nat := if sz + 15 < 2 ^ 32 then sz else 0

/-- The same with requests of any size. -/
def CallStep (heap : HeapArea) (s : HeapRun) : HeapEvent → HeapRun → Prop
  | .malloc sz, s' => sz < 2 ^ 32 ∧ ∃ p h, kmalloc heap s.heap sz = .ok (p, h) ∧
      s' = ⟨h, if p = 0 then s.live else ⟨p, usable sz⟩ :: s.live⟩
  | .free p, s' => ∃ r ∈ s.live, r.ptr = p ∧ ∃ h, kfree heap s.heap p = .ok h ∧
      s' = ⟨h, s.live.erase r⟩
  | .write a v, s' => ∃ r ∈ s.live, r.ptr ≤ a ∧ a < r.stop ∧
      s' = { s with heap.mem := update s.heap.mem a v }

def startRun (heap : HeapArea) (m : ByteMem) : HeapRun := ⟨kheapInit heap m, []⟩

structure Hosted (live : List Region) (bs : List Block) : Prop where
  ptrs : (live.map Region.ptr).Perm ((allocated bs).map fun b => b.addr + 12)
  sizes : ∀ r ∈ live, ∀ b ∈ allocated bs, r.ptr = b.addr + 12 → r.size ≤ b.size

def HeapInv (heap : HeapArea) (s : HeapRun) : Prop :=
  ∃ bs fl, HeapRep heap s.heap bs fl ∧ Hosted s.live bs

variable {start e x : Nat} {bs : List Block} {b : Block}

theorem payload_outside (spread : Spread (start + 12) bs e) (hb : b ∈ bs) (low : b.addr + 12 ≤ x)
    (high : x < b.stop) : ∀ r ∈ records start bs, x < r ∨ r + 12 ≤ x := by
  intro r hr
  have bounds := spread_bounds spread hb
  rcases mem_cons.mp hr with rfl | hr
  · omega
  · obtain ⟨c, hc, rfl⟩ := mem_map.mp hr
    rcases spread_apart spread hc hb with rfl | apart | apart
    · exact .inr low
    · unfold Block.stop at apart
      omega
    · omega

theorem HeapBlocks.payload {heap : HeapArea} {s : HeapState} {fl : List Nat} {z : Nat}
    {m' : ByteMem} (h : HeapBlocks heap s bs fl z) (hb : b ∈ bs)
    (same : ∀ x, x < b.addr + 12 ∨ b.stop ≤ x → m' x = s.mem x) :
    HeapBlocks heap { s with mem := m' } bs fl z := by
  refine h.congr fun r hr x low high => same x ?_
  by_contra inside
  have := payload_outside h.blocks.spread hb (show b.addr + 12 ≤ x by omega) (by omega) r hr
  omega

variable {heap : HeapArea} {s : HeapState} {live : List Region} {fl : List Nat} {r : Region}
  {z : Nat}

theorem Hosted.block (h : Hosted live bs) (hr : r ∈ live) :
    ∃ b ∈ bs, b.free = false ∧ r.ptr = b.addr + 12 ∧ r.stop ≤ b.stop := by
  have mem := h.ptrs.mem_iff.mp (mem_map_of_mem hr)
  obtain ⟨b, hb, same⟩ := mem_map.mp mem
  have size := h.sizes r hr b hb same.symm
  obtain ⟨hb, used⟩ := mem_allocated.mp hb
  refine ⟨b, hb, used, same.symm, ?_⟩
  unfold Region.stop Block.stop
  omega

theorem allocated_nodup (h : HeapBlocks heap s bs fl z) :
    ((allocated bs).map fun b => b.addr + 12).Nodup := by
  have nodup : ((allocated bs).map Block.addr).Nodup :=
    (spread_nodup h.blocks.spread).sublist (filter_sublist.map Block.addr)
  have := nodup.map (fun a b (h : a + 12 = b + 12) => Nat.add_right_cancel h)
  rwa [map_map] at this

variable {bs' : List Block}

theorem Hosted.acquired {s' : HeapState} {sz : Nat} {fl' : List Nat} (h : Hosted live bs)
    (rep : HeapBlocks heap s' bs' fl' z) (more : (allocated bs').Perm (b :: allocated bs))
    (size : sz ≤ b.size) : Hosted (⟨b.addr + 12, sz⟩ :: live) bs' := by
  have ptrs := more.map fun b => b.addr + 12
  have nodup := ptrs.nodup_iff.mp (allocated_nodup rep)
  rw [map_cons] at ptrs nodup
  obtain ⟨fresh, -⟩ := nodup_cons.mp nodup
  refine ⟨(h.ptrs.cons _).trans ptrs.symm, ?_⟩
  intro r hr c hc same
  rcases mem_cons.mp (more.mem_iff.mp hc) with rfl | hc <;>
    rcases mem_cons.mp hr with rfl | hr
  · exact size
  · obtain ⟨d, hd, used, at_d, -⟩ := h.block hr
    exact absurd (mem_map.mpr ⟨d, mem_allocated.mpr ⟨hd, used⟩, at_d.symm.trans same⟩) fresh
  · exact absurd (mem_map.mpr ⟨c, hc, same.symm⟩) fresh
  · exact h.sizes r hr c hc same

theorem Hosted.apart (h : Hosted live bs) (rep : HeapBlocks heap s bs fl z) :
    live.Pairwise fun r r' => r.stop ≤ r'.ptr ∨ r'.stop ≤ r.ptr := by
  have nodup := h.ptrs.nodup_iff.mpr (allocated_nodup rep)
  refine (pairwise_map.mp nodup).imp_of_mem fun {r r'} hr hr' other => ?_
  obtain ⟨b, hb, -, at_b, stop⟩ := h.block hr
  obtain ⟨c, hc, -, at_c, stop'⟩ := h.block hr'
  rcases spread_apart rep.blocks.spread hb hc with rfl | before | before
  · exact absurd (at_b.trans at_c.symm) other
  · exact .inl (by omega)
  · exact .inr (by omega)

theorem Hosted.released (h : Hosted live bs) (hr : r ∈ live) (at_b : r.ptr = b.addr + 12)
    (fewer : (allocated bs).Perm (b :: allocated bs')) : Hosted (live.erase r) bs' := by
  constructor
  · have ptrs := ((perm_cons_erase hr).map Region.ptr).symm.trans
      (h.ptrs.trans (fewer.map fun b => b.addr + 12))
    rw [map_cons, map_cons, at_b] at ptrs
    exact ptrs.cons_inv
  · intro r' hr' c hc same
    exact h.sizes r' (mem_of_mem_erase hr') c
      (fewer.mem_iff.mpr (mem_cons_of_mem _ hc)) same

section Steps
variable {s s' : HeapRun} {e : HeapEvent}

theorem usable_le (sz : Nat) : usable sz ≤ ceil16 sz := by
  unfold usable
  split
  · next small => exact (ceil16_spec small).1
  · exact Nat.zero_le _

theorem heapRep_init (heap : HeapArea) (m : ByteMem) : HeapRep heap (kheapInit heap m) [] [] := by
  have zero : ∀ k, cell (kheapInit heap m).mem heap.vmStart k = 0 := by
    intro k
    have clear : ∀ x, heap.vmStart ≤ x → x < heap.vmStart + 12 → (kheapInit heap m).mem x = 0 :=
      fun x low high => if_pos ⟨low, high⟩
    have hk := k.isLt
    simp [cell, readWord, clear (heap.vmStart + 4 * k) (by omega) (by omega),
      clear (heap.vmStart + 4 * k + 1) (by omega) (by omega),
      clear (heap.vmStart + 4 * k + 2) (by omega) (by omega),
      clear (heap.vmStart + 4 * k + 3) (by omega) (by omega)]
  exact ⟨⟨rfl, by simp, by simp, zero headWord, zero tailWord⟩, zero freelistWord, .nil, .nil,
    heap.room⟩

theorem heapInv_init (heap : HeapArea) (m : ByteMem) : HeapInv heap (startRun heap m) :=
  ⟨[], [], heapRep_init heap m, .nil, nofun⟩

theorem callStep_blocks {bs : List Block} {fl : List Nat} {z : Nat}
    (h : HeapBlocks heap s.heap bs fl z) (hosted : Hosted s.live bs)
    (step : CallStep heap s e s') :
    ∃ bs' fl' z', HeapBlocks heap s'.heap bs' fl' z' ∧ Hosted s'.live bs' ∧ (z = 0 → z' = 0) ∧
      (∀ a, Tiles a bs s.heap.curr → Tiles a bs' s'.heap.curr) ∧
        (Coalesced bs → Coalesced bs') := by
  cases e with
  | malloc sz =>
    obtain ⟨-, p, top, done, rfl⟩ := step
    by_cases none : sz = 0
    · subst none
      cases done
      exact ⟨bs, fl, z, h, hosted, id, fun _ tiles => tiles, id⟩
    rcases doMalloc_blocks h none with ⟨-, failed⟩ | ⟨-, s', b, done', placed⟩
    · exact absurd (done.symm.trans failed) (by simp)
    · cases done.symm.trans done'
      obtain ⟨bs', fl', z', placed, blocks, null, -⟩ := placed
      refine ⟨bs', fl', z', blocks, ?_, null, fun _ => placed.tiles, placed.coalesced⟩
      rw [if_neg (by omega)]
      exact hosted.acquired blocks placed.allocated
        (Nat.le_trans (usable_le sz) placed.size_le)
  | free p =>
    obtain ⟨r, hr, rfl, top, done, rfl⟩ := step
    obtain ⟨b, hb, used, at_b, -⟩ := hosted.block hr
    obtain ⟨m', done', bs', fl', z', freed, blocks, null, -⟩ := doFree_blocks h hb used
    rw [kfree, at_b, done'] at done
    cases done
    exact ⟨bs', fl', z', blocks, hosted.released hr at_b (freed.allocated used), null,
      fun _ => freed.tiles, freed.coalesced⟩
  | write a v =>
    obtain ⟨r, hr, low, high, rfl⟩ := step
    obtain ⟨b, hb, -, at_b, stop⟩ := hosted.block hr
    refine ⟨bs, fl, z, h.payload hb ?_, hosted, id, fun _ tiles => tiles, id⟩
    exact fun x outside => update_of_ne (by omega) _ _

theorem heapInv_call (inv : HeapInv heap s) (step : CallStep heap s e s') : HeapInv heap s' := by
  obtain ⟨bs, fl, rep, hosted⟩ := inv
  obtain ⟨blocks, tiles, coalesced⟩ := heapRep_iff.mp rep
  obtain ⟨bs', fl', z', blocks', hosted', null, tiles', coalesced'⟩ :=
    callStep_blocks blocks hosted step
  rw [null rfl] at blocks'
  exact ⟨bs', fl', heapRep_iff.mpr ⟨blocks', tiles' _ tiles, coalesced' coalesced⟩, hosted'⟩

variable (inv : HeapInv heap s) (step : HeapStep heap s e s')
include inv step

theorem call_of_step : CallStep heap s e s' := by
  cases e with
  | malloc sz =>
    obtain ⟨positive, small, p, h, done, rfl⟩ := step
    obtain ⟨bs, fl, rep, -⟩ := inv
    rcases doMalloc_spec rep positive small with ⟨failed, -⟩ | ⟨h', b, done', -⟩
    · exact absurd (done.symm.trans failed) (by simp)
    · cases done.symm.trans done'
      refine ⟨by omega, _, h, done, ?_⟩
      rw [if_neg (by omega), usable, if_pos (by omega)]
  | free p | write a v => exact step

theorem heapInv_step : HeapInv heap s' := heapInv_call inv (call_of_step inv step)

theorem call_frame (call : e.isCall = true) (hr : r ∈ s.live) {x : Nat} (low : r.ptr ≤ x)
    (high : x < r.stop) : s'.heap.mem x = s.heap.mem x := by
  obtain ⟨bs, fl, rep, hosted⟩ := inv
  obtain ⟨b, hb, used, at_b, stop⟩ := hosted.block hr
  cases e with
  | malloc sz =>
    obtain ⟨positive, small, p, h, done, rfl⟩ := step
    rcases doMalloc_spec rep positive small with ⟨failed, -⟩ | ⟨h', c, done', size, acquired⟩
    · exact absurd (done.symm.trans failed) (by simp)
    · cases done.symm.trans done'
      obtain ⟨bs', fl', rep', more, outside⟩ := acquired
      have kept : b ∈ allocated bs' :=
        more.mem_iff.mpr (mem_cons_of_mem _ (mem_allocated.mpr ⟨hb, used⟩))
      exact outside x (payload_outside rep'.toBlocks.blocks.spread (mem_allocated.mp kept).1
        (by omega) (by omega))
  | free p =>
    obtain ⟨r', hr', rfl, h, done, rfl⟩ := step
    obtain ⟨c, hc, usedC, at_c, -⟩ := hosted.block hr'
    obtain ⟨m', done', bs', fl', rep', fewer, outside⟩ := doFree_spec rep hc usedC
    rw [kfree, at_c, done'] at done
    cases done
    exact outside x (payload_outside rep.toBlocks.blocks.spread hb (by omega) (by omega))
  | write a v => cases call

omit inv step in
theorem kfree_returns (inv : HeapInv heap s) (hr : r ∈ s.live) :
    ∃ h, kfree heap s.heap r.ptr = .ok h ∧ HeapInv heap ⟨h, s.live.erase r⟩ ∧
      h.curr = s.heap.curr := by
  obtain ⟨bs, fl, rep, hosted⟩ := inv
  obtain ⟨b, hb, used, at_b, -⟩ := hosted.block hr
  obtain ⟨m', done, bs', fl', rep', fewer, -⟩ := doFree_spec rep hb used
  refine ⟨{ s.heap with mem := m' }, ?_, ⟨bs', fl', rep', hosted.released hr at_b fewer⟩, rfl⟩
  rw [kfree, at_b, done]
  rfl

theorem step_curr :
    heap.vmStart + 12 < s'.heap.curr ∨ (∀ sz, e ≠ .malloc sz) ∧ s'.heap.curr = s.heap.curr := by
  cases e with
  | malloc sz =>
    obtain ⟨bs, fl, rep, hosted⟩ := heapInv_step inv step
    obtain ⟨-, -, p, h, -, rfl⟩ := step
    obtain ⟨b, hb, -, -, -⟩ := hosted.block mem_cons_self
    have bounds := rep.toBlocks.bounds hb
    exact .inl (by omega)
  | free p =>
    obtain ⟨r, hr, rfl, h, done, rfl⟩ := step
    obtain ⟨h', done', -, same⟩ := kfree_returns inv hr
    cases done.symm.trans done'
    exact .inr ⟨nofun, same⟩
  | write a v =>
    obtain ⟨r, -, -, -, rfl⟩ := step
    exact .inr ⟨nofun, rfl⟩

end Steps

variable {s : HeapRun}

theorem malloc_step {sz : Nat} (inv : HeapInv heap s) (positive : 1 ≤ sz) (small : sz ≤ 0x7FFFFF00)
    (room : s.heap.curr + 12 + ceil16 sz ≤ heap.vmEnd) :
    ∃ p h, HeapStep heap s (.malloc sz) ⟨h, ⟨p, sz⟩ :: s.live⟩ := by
  obtain ⟨bs, fl, rep, -⟩ := inv
  rcases doMalloc_spec rep positive small with ⟨-, full⟩ | ⟨h, b, done, -⟩
  · omega
  · exact ⟨b.addr + 12, h, positive, small, _, _, done, rfl⟩

/-- What a user of the heap relies on. -/
structure HeapContract (heap : HeapArea) (s : HeapRun) : Prop where
  inside : ∀ r ∈ s.live, heap.vmStart ≤ r.ptr ∧ r.stop ≤ heap.vmEnd
  apart : s.live.Pairwise fun r r' => r.stop ≤ r'.ptr ∨ r'.stop ≤ r.ptr
  headers : ∀ r ∈ s.live, ∀ b,
    Reached (cell s.heap.mem) nextWord (heap.vmStart, headWord) b → b + 12 ≤ r.ptr ∨ r.stop ≤ b
  words : ∀ r ∈ s.live, heap.vmStart + 12 ≤ r.ptr

theorem heapContract_of_inv (inv : HeapInv heap s) : HeapContract heap s := by
  obtain ⟨bs, fl, rep, hosted⟩ := inv
  have top := rep.top
  refine ⟨?_, ?_, ?_, ?_⟩
  · intro r hr
    obtain ⟨b, hb, -, at_b, stop⟩ := hosted.block hr
    have bounds := rep.toBlocks.blocks.below hb
    omega
  · exact hosted.apart rep.toBlocks
  · intro r hr a header
    obtain ⟨b, hb, -, at_b, stop⟩ := hosted.block hr
    obtain ⟨c, hc, rfl⟩ := mem_map.mp (reached_mem rep.blocks.chain header)
    rcases spread_apart rep.toBlocks.blocks.spread hb hc with rfl | h | h
    · exact .inl (by omega)
    · exact .inr (by omega)
    · refine .inl ?_
      unfold Block.stop at h
      omega
  · intro r hr
    obtain ⟨b, hb, -, at_b, -⟩ := hosted.block hr
    have bounds := rep.toBlocks.blocks.below hb
    omega

variable {h h' : HeapState} {live' : List Region} {sz p : Nat}

section
variable (inv : HeapInv heap ⟨h, live⟩)
include inv

theorem HeapInv.perm (same : live.Perm live') : HeapInv heap ⟨h, live'⟩ := by
  obtain ⟨bs, fl, rep, hosted⟩ := inv
  refine ⟨bs, fl, rep, (same.map Region.ptr).symm.trans hosted.ptrs, fun r hr => ?_⟩
  exact hosted.sizes r (same.mem_iff.mpr hr)

theorem HeapInv.written {m : ByteMem}
    (same : ∀ x, (∀ r ∈ live, x < r.ptr ∨ r.stop ≤ x) → m x = h.mem x) :
    HeapInv heap ⟨{ h with mem := m }, live⟩ := by
  obtain ⟨bs, fl, rep, hosted⟩ := inv
  obtain ⟨blocks, tiles, coalesced⟩ := heapRep_iff.mp rep
  have blocks' : HeapBlocks heap { h with mem := m } bs fl 0 := by
    refine blocks.congr fun a ha x low high => same x fun r hr => ?_
    obtain ⟨b, hb, -, at_b, stop⟩ := hosted.block hr
    by_contra inside
    have := payload_outside blocks.blocks.spread hb (show b.addr + 12 ≤ x by omega) (by omega) a ha
    omega
  exact ⟨bs, fl, heapRep_iff.mpr ⟨blocks', tiles, coalesced⟩, hosted⟩

theorem HeapInv.malloc (positive : 1 ≤ sz) (small : sz ≤ 0x7FFFFF00)
    (done : kmalloc heap h sz = .ok (p, h')) : HeapInv heap ⟨h', ⟨p, sz⟩ :: live⟩ ∧
      ∀ r ∈ live, ∀ x, r.ptr ≤ x → x < r.stop → h'.mem x = h.mem x := by
  have step : HeapStep heap ⟨h, live⟩ (.malloc sz) ⟨h', ⟨p, sz⟩ :: live⟩ :=
    ⟨positive, small, p, h', done, rfl⟩
  exact ⟨heapInv_step inv step, fun r hr x low high => call_frame inv step rfl hr low high⟩

omit inv in
theorem HeapInv.free (inv : HeapInv heap ⟨h, r :: live⟩) :
    ∃ h', kfree heap h r.ptr = .ok h' ∧ HeapInv heap ⟨h', live⟩ ∧
      ∀ r' ∈ live, ∀ x, r'.ptr ≤ x → x < r'.stop → h'.mem x = h.mem x := by
  obtain ⟨h', done, inv', -⟩ := kfree_returns inv mem_cons_self
  have step : HeapStep heap ⟨h, r :: live⟩ (.free r.ptr) ⟨h', (r :: live).erase r⟩ :=
    ⟨r, mem_cons_self, rfl, h', done, rfl⟩
  rw [erase_cons_head] at inv'
  exact ⟨h', done, inv', fun r' hr' x low high =>
    call_frame inv step rfl (mem_cons_of_mem _ hr') low high⟩

theorem HeapInv.bounds (hr : r ∈ live) : 0 < r.ptr ∧ r.stop < 2 ^ 31 := by
  have contract := heapContract_of_inv inv
  have inside := contract.inside r hr
  have positive := heap.positive
  have low := heap.low
  omega

omit inv in
theorem HeapInv.apart (inv : HeapInv heap ⟨h, r :: live⟩) {r' : Region} (hr : r' ∈ live) :
    r.stop ≤ r'.ptr ∨ r'.stop ≤ r.ptr :=
  (pairwise_cons.mp (heapContract_of_inv inv).apart).1 r' hr

theorem HeapInv.nodup : (live.map Region.ptr).Nodup := by
  obtain ⟨bs, fl, rep, hosted⟩ := inv
  exact hosted.ptrs.nodup_iff.mpr (allocated_nodup rep.toBlocks)

theorem HeapInv.length : live.length < addresses := by
  obtain ⟨bs, fl, rep, hosted⟩ := inv
  have most := spread_length rep.toBlocks.blocks.spread
  have top := rep.top
  have low := heap.low
  have fewer : (allocated bs).length ≤ bs.length := length_filter_le _ _
  have same : live.length = (allocated bs).length := by simpa using hosted.ptrs.length_eq
  simp only [addresses]
  omega

end

/-- A heap of one page. -/
def pageHeap : HeapArea where
  vmStart := 0x100000
  vmEnd := 0x101000
  positive := by decide
  room := by decide
  low := by decide

theorem pageHeap_step (m : ByteMem) :
    ∃ p h, HeapStep pageHeap (startRun pageHeap m) (.malloc 24) ⟨h, [⟨p, 24⟩]⟩ :=
  malloc_step (heapInv_init pageHeap m) (by decide) (by decide)
    (show 0x100000 + 12 + 12 + ceil16 24 ≤ 0x101000 by decide)

variable {m : ByteMem} {trace : List (HeapRun × HeapEvent)}

theorem heapInv_run (run : Exec (HeapStep heap) (startRun heap m) trace s) : HeapInv heap s :=
  (exec_keeps (heapInv_init heap m) (fun _ _ _ inv step => heapInv_step inv step) run).2

/-- Regions in use lie apart in the heap, and no call changes their bytes. -/
theorem heapContract_run (run : Exec (HeapStep heap) (startRun heap m) trace s) :
    HeapContract heap s ∧
      (∀ e s', HeapStep heap s e s' → e.isCall = true → ∀ r ∈ s.live, ∀ x, r.ptr ≤ x →
        x < r.stop → s'.heap.mem x = s.heap.mem x) ∧
      (∀ r ∈ s.live, ∃ h, kfree heap s.heap r.ptr = .ok h) ∧
      ∀ sz, 1 ≤ sz → sz ≤ 0x7FFFFF00 → (∃ p h, kmalloc heap s.heap sz = .ok (p, h)) ∨
        kmalloc heap s.heap sz = .error (.assertion "Heap is running out of space\n") := by
  have inv := heapInv_run run
  refine ⟨heapContract_of_inv inv, ?_, ?_, ?_⟩
  · exact fun e s' step call r hr x low high => call_frame inv step call hr low high
  · intro r hr
    obtain ⟨h, done, -⟩ := kfree_returns inv hr
    exact ⟨h, done⟩
  · intro sz positive small
    obtain ⟨bs, fl, rep, -⟩ := inv
    rcases doMalloc_spec rep positive small with ⟨failed, -⟩ | ⟨h, b, done, -⟩
    · exact .inr failed
    · exact .inl ⟨_, h, done⟩

theorem heapContract_run_pageHeap :
    ∃ p h, HeapContract pageHeap ⟨h, [⟨p, 24⟩]⟩ := by
  obtain ⟨p, h, step⟩ := pageHeap_step fun _ => 0xCC
  exact ⟨p, h, (heapContract_run (Exec.refl.next step)).1⟩

theorem heapInv_calls (run : Exec (CallStep heap) (startRun heap m) trace s) : HeapInv heap s :=
  (exec_keeps (heapInv_init heap m) (fun _ _ _ inv step => heapInv_call inv step) run).2

/-- Best fit: the least block that is large enough, and else the heap grows by one block. -/
theorem kmalloc_run (run : Exec (CallStep heap) (startRun heap m) trace s) {sz p : Nat}
    {h : HeapState} (positive : 1 ≤ sz) (small : sz ≤ 0x7FFFFF00)
    (done : kmalloc heap s.heap sz = .ok (p, h)) :
    ∃ bs fl bs' fl', HeapRep heap s.heap bs fl ∧ HeapRep heap h bs' fl' ∧
      let size := (sz + 15) / 16 * 16
      ((∃ c ∈ bs, c.free = true ∧ size ≤ c.size) → h.curr = s.heap.curr ∧
        ∃ xs b ys, bs = xs ++ b :: ys ∧ BestFit bs size b ∧ p = b.addr + 12 ∧
          bs' = if b.size - size < 20 then xs ++ { b with free := false } :: ys
            else splitBlocks xs ys b size (b.size - size - 12)) ∧
      ((¬ ∃ c ∈ bs, c.free = true ∧ size ≤ c.size) → h.curr = s.heap.curr + (size + 12) ∧
        p = s.heap.curr + 12 ∧ bs' = bs ++ [⟨s.heap.curr, size, false⟩]) := by
  obtain ⟨bs, fl, rep, -⟩ := heapInv_calls run
  obtain ⟨blocks, tiles, coalesced⟩ := heapRep_iff.mp rep
  have rounded := (ceil16_spec (show sz + 15 < 2 ^ 32 by omega)).2
  rcases doMalloc_blocks blocks (show sz ≠ 0 by omega) with ⟨-, failed⟩ | ⟨-, h', b, done', placed⟩
  · exact absurd (done.symm.trans failed) (by simp)
  cases done.symm.trans done'
  obtain ⟨bs', fl', z', placed, blocks', null, -⟩ := placed
  rw [null rfl] at blocks'
  refine ⟨bs, fl, bs', fl', rep,
    heapRep_iff.mpr ⟨blocks', placed.tiles tiles, placed.coalesced coalesced⟩, ?_⟩
  simp only [← rounded]
  generalize ceil16 sz = size at placed
  generalize h.curr = top at placed
  cases placed with
  | whole best rest =>
    have fits := best.fits
    refine ⟨fun _ => ⟨rfl, _, _, _, rfl, best, rfl, ?_⟩, fun none => ?_⟩
    · rw [if_pos (by omega)]
    · exact absurd ⟨_, best.mem, best.free, fits⟩ none
  | split best sum enough _ =>
    refine ⟨fun _ => ⟨rfl, _, _, _, rfl, best, rfl, ?_⟩, fun none => ?_⟩
    · rw [if_neg (by omega)]
      congr 1
      omega
    · exact absurd ⟨_, best.mem, best.free, best.fits⟩ none
  | merge best _ _ free =>
    obtain ⟨-, -, -, after⟩ := coalesced.parts
    exact absurd ⟨best.free, free⟩ (after _ rfl)
  | grown none =>
    refine ⟨fun ⟨c, hc, free, fits⟩ => ?_, fun _ => ⟨by omega, rfl, rfl⟩⟩
    have := none c hc free
    omega

theorem kmalloc_run_pageHeap :
    ∃ p h bs fl, HeapStep pageHeap (startRun pageHeap fun _ => 0xCC) (.malloc 24) ⟨h, [⟨p, 24⟩]⟩ ∧
      HeapRep pageHeap h bs fl := by
  obtain ⟨p, h, step⟩ := pageHeap_step fun _ => 0xCC
  obtain ⟨positive, small, _, _, done, same⟩ := step
  cases same
  obtain ⟨-, -, bs, fl, -, rep, -⟩ := kmalloc_run .refl positive small done
  exact ⟨p, h, bs, fl, ⟨positive, small, p, h, done, rfl⟩, rep⟩

def MergeDead (heap : HeapArea) (m : ByteMem) : Prop :=
  ∀ request best next, findBestFitting m heap.vmStart request = .ok best → best ≠ 0 →
    getNextBlock m heap.vmStart best = .ok next →
      ∀ size, size < 2 ^ 32 → size % 2 = 0 → isFree (setSize m best size false) next = false

theorem HeapRep.mergeDead {s : HeapState} {bs : List Block} {fl : List Nat}
    (h : HeapRep heap s bs fl) : MergeDead heap s.mem := by
  intro request best next found nonzero after size small even
  obtain ⟨blocks, -, coalesced⟩ := heapRep_iff.mp h
  obtain ⟨found', best', from_list, -⟩ := findBestFitting_spec request blocks.freelist
    (fun f hf => (blocks.headers f hf).2.2) blocks.fl_length
  cases found.symm.trans best'
  rcases from_list with rfl | ⟨listed, -⟩
  · exact absurd rfl nonzero
  · obtain ⟨b, hb, free, rfl⟩ := blocks.mem_fl.mp listed
    obtain ⟨xs, ys, rfl⟩ := append_of_mem hb
    cases after.symm.trans (getNextBlock_spec blocks.blocks)
    rw [isFree_next blocks small even]
    obtain ⟨-, -, -, apart⟩ := coalesced.parts
    cases ys with
    | nil => rfl
    | cons d ys => simpa [free] using apart d rfl

def OneFreeBlock (heap : HeapArea) (s : HeapState) : Prop :=
  HeapRep heap s [⟨heap.vmStart + 12, s.curr - (heap.vmStart + 24), true⟩] [heap.vmStart + 12]

theorem oneFreeBlock_of_inv {s : HeapState} (inv : HeapInv heap ⟨s, []⟩)
    (grown : heap.vmStart + 12 < s.curr) : OneFreeBlock heap s := by
  obtain ⟨bs, fl, rep, hosted⟩ := inv
  have none : allocated bs = [] := by
    have same := hosted.ptrs.length_eq
    rw [length_map, length_map, length_nil] at same
    exact eq_nil_of_length_eq_zero same.symm
  have free : ∀ b ∈ bs, b.free = true := by
    intro b hb
    by_contra used
    have : b ∈ allocated bs := mem_allocated.mpr ⟨hb, by simpa using used⟩
    rw [none] at this
    cases this
  have tiles := rep.blocks.tiles
  cases bs with
  | nil => exact absurd (show heap.vmStart + 12 = s.curr from tiles) (by omega)
  | cons b bs =>
    cases bs with
    | nil =>
      obtain ⟨addr, size, isFree⟩ := b
      obtain rfl : isFree = true := free _ mem_cons_self
      obtain ⟨rfl, stop⟩ := tiles
      obtain rfl := perm_singleton.mp rep.listed
      change heap.vmStart + 12 + 12 + size = s.curr at stop
      have whole : s.curr - (heap.vmStart + 24) = size := by omega
      rw [OneFreeBlock, whole]
      exact rep
    | cons c bs =>
      have := (isChain_cons.mp rep.coalesced).1 c rfl
      exact absurd ⟨free b (by simp), free c (by simp)⟩ this

theorem kfree_all {ps : List Nat} (inv : HeapInv heap s)
    (order : ps.Perm (s.live.map Region.ptr)) : ∃ h, ps.foldlM (kfree heap) s.heap = .ok h ∧
      HeapInv heap ⟨h, []⟩ ∧ h.curr = s.heap.curr := by
  induction ps generalizing s with
  | nil =>
    have none : s.live = [] := by simpa using order.symm
    obtain ⟨h, live⟩ := s
    obtain rfl : live = [] := none
    exact ⟨h, rfl, inv, rfl⟩
  | cons p ps ih =>
    obtain ⟨r, hr, rfl⟩ := mem_map.mp (order.mem_iff.mp mem_cons_self)
    obtain ⟨h, done, inv', same⟩ := kfree_returns inv hr
    have left : ps.Perm ((s.live.erase r).map Region.ptr) :=
      (order.trans ((perm_cons_erase hr).map Region.ptr)).cons_inv
    obtain ⟨h', all, inv'', same'⟩ := ih inv' left
    refine ⟨h', ?_, inv'', same'.trans same⟩
    rw [foldlM_cons, done]
    exact all

theorem heap_grown (run : Exec (HeapStep heap) (startRun heap m) trace s)
    (once : ∃ e ∈ trace, ∃ sz, e.2 = .malloc sz) : heap.vmStart + 12 < s.heap.curr := by
  induction run with
  | refl =>
    obtain ⟨e, he, -⟩ := once
    exact absurd he not_mem_nil
  | next run step ih =>
    rcases step_curr (heapInv_run run) step with grown | ⟨other, same⟩
    · exact grown
    · obtain ⟨e, he, sz, called⟩ := once
      rcases mem_append.mp he with he | he
      · exact same ▸ ih ⟨e, he, sz, called⟩
      · rw [mem_singleton.mp he] at called
        exact absurd called (other sz)

/-- The blocks fill the heap, no two neighbours are free, and at the end one block is left. -/
theorem heapRep_run (run : Exec (HeapStep heap) (startRun heap m) trace s) :
    (∃ bs fl, HeapRep heap s.heap bs fl ∧ fl.Nodup) ∧ MergeDead heap s.heap.mem ∧
      ∀ ps : List Nat, ps.Perm (s.live.map Region.ptr) → (∃ e ∈ trace, ∃ sz, e.2 = .malloc sz) →
        ∃ h, ps.foldlM (kfree heap) s.heap = .ok h ∧ OneFreeBlock heap h := by
  have inv := heapInv_run run
  obtain ⟨bs, fl, rep, hosted⟩ := inv
  refine ⟨⟨bs, fl, rep, rep.toBlocks.fl_nodup⟩, rep.mergeDead, ?_⟩
  intro ps order once
  obtain ⟨h, freed, inv', same⟩ := kfree_all ⟨bs, fl, rep, hosted⟩ order
  exact ⟨h, freed, oneFreeBlock_of_inv inv' (same ▸ heap_grown run once)⟩

theorem heapRep_run_pageHeap :
    ∃ p h h', HeapStep pageHeap (startRun pageHeap fun _ => 0xCC) (.malloc 24) ⟨h, [⟨p, 24⟩]⟩ ∧
      [p].foldlM (kfree pageHeap) h = .ok h' ∧ OneFreeBlock pageHeap h' := by
  obtain ⟨p, h, step⟩ := pageHeap_step fun _ => 0xCC
  obtain ⟨-, -, ends⟩ := heapRep_run (Exec.refl.next step)
  obtain ⟨h', freed, whole⟩ := ends [p] (.refl _)
    ⟨_, mem_singleton_self _, 24, rfl⟩
  exact ⟨p, h, h', step, freed, whole⟩

end Elaborato.Mentos.Kheap
