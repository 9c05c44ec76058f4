import Elaborato.Mentos.ProcessLinks

/-!
The run queue is a ring. `list_head_add_tail` is called with its arguments the other way round,
so a list of children has one node at most.
-/
namespace Elaborato.Mentos.Process
open Foundation List Function

structure Lists (queue : Addr) (l : Links Addr) (parent : Addr → Addr)
    (order structs : List Addr) (child : Addr → Option Addr) : Prop where
  arena : Arena queue structs
  once : order.Nodup
  among : order ⊆ structs
  ring : Ring l queue (order.map runList)
  family : ∀ p ∈ structs, Ring l (children p) ((child p).toList.map sibling)
  owner : ∀ p ∈ structs, ∀ c ∈ child p, c ∈ structs ∧ parent c = p

variable {queue p c t : Addr} {l l' : Links Addr} {parent parent' : Addr → Addr}
  {order structs structs' : List Addr} {child : Addr → Option Addr}

section
variable (lists : Lists queue l parent order structs child)
include lists

theorem Lists.ring_nodup : (order.map runList).Nodup := lists.once.map runList_injective

theorem Lists.queue_out : queue ∉ order.map runList := by
  intro member
  obtain ⟨t, ht, same⟩ := mem_map.mp member
  exact lists.arena.runList_ne_queue (lists.among ht) same

theorem Lists.last : l.prev queue = queue ∨ ∃ t ∈ order, l.prev queue = runList t := by
  rcases trail_prev_end lists.ring.1 with h | h
  · exact .inl h
  · obtain ⟨t, ht, same⟩ := mem_map.mp h
    exact .inr ⟨t, ht, same.symm⟩

theorem Lists.child_ring (hp : p ∈ structs) (hc : child p = some c) :
    Ring l (children p) [sibling c] := by
  have ring := lists.family p hp
  rw [hc] at ring
  exact ring

theorem Lists.ring_kept (atHead : Agree l l' queue)
    (atNodes : ∀ t ∈ order, Agree l l' (runList t)) :
    Ring l' queue (order.map runList) := by
  refine ring_agree lists.ring atHead ?_
  intro x hx
  obtain ⟨t, ht, rfl⟩ := mem_map.mp hx
  exact atNodes t ht

theorem Lists.family_kept (hp : p ∈ structs) (atHead : Agree l l' (children p))
    (atChild : ∀ c ∈ child p, Agree l l' (sibling c)) :
    Ring l' (children p) ((child p).toList.map sibling) := by
  refine ring_agree (lists.family p hp) atHead ?_
  intro x hx
  obtain ⟨c, hc, rfl⟩ := mem_map.mp hx
  exact atChild c (Option.mem_toList.mp hc)

theorem Lists.child_ne {q d : Addr} (hp : p ∈ structs) (hq : q ∈ structs) (other : q ≠ p)
    (hc : child p = some c) (hd : d ∈ child q) : d ≠ c := by
  rintro rfl
  exact other ((lists.owner q hq d hd).2.symm.trans (lists.owner p hp d hc).2)

theorem Lists.members (same : ∀ t, t ∈ structs' ↔ t ∈ structs) :
    Lists queue l parent order structs' child := by
  refine ⟨lists.arena.mono fun t ht => (same t).mp ht, lists.once,
    fun t ht => (same t).mpr (lists.among ht), lists.ring,
    fun q hq => lists.family q ((same q).mp hq), fun q hq c hc => ?_⟩
  obtain ⟨mem, owned⟩ := lists.owner q ((same q).mp hq) c hc
  exact ⟨(same c).mpr mem, owned⟩

theorem Lists.leave (ht : t ∈ order) :
    Lists queue (listHeadDel l (runList t)) parent (order.erase t) structs child := by
  obtain ⟨as, bs, -, whole, erased⟩ := exists_erase_eq ht
  have nodes : order.map runList = as.map runList ++ runList t :: bs.map runList := by
    rw [whole, map_append, map_cons]
  have ring := nodes ▸ lists.ring
  have nodup := nodes ▸ lists.ring_nodup
  have out := nodes ▸ lists.queue_out
  have rem := listHeadDel_trail ring.1 nodup out out
  have isNode : ∀ x, x = queue ∨ x ∈ order.map runList →
      (∀ q ∈ structs, children q ≠ x) ∧ ∀ c ∈ structs, sibling c ≠ x := by
    rintro x (rfl | hx)
    · exact ⟨fun q hq => lists.arena.children_ne_queue hq,
        fun c hc => lists.arena.sibling_ne_queue hc⟩
    · obtain ⟨u, hu, rfl⟩ := mem_map.mp hx
      exact ⟨fun q hq => (lists.arena.runList_ne_children (lists.among hu) hq).symm,
        fun c hc => (lists.arena.runList_ne_sibling (lists.among hu) hc).symm⟩
  have before : l.prev (runList t) = queue ∨ l.prev (runList t) ∈ order.map runList := by
    rcases trail_prev ring.1 with h | h
    · exact .inl h
    · exact .inr (nodes ▸ mem_append_left _ h)
  have after : l.next (runList t) = queue ∨ l.next (runList t) ∈ order.map runList := by
    rw [trail_next ring.1]
    rcases headD_cases queue (bs.map runList) with h | h
    · exact .inl h
    · exact .inr (nodes ▸ mem_append_right _ (mem_cons_of_mem _ h))
  have here : runList t ∈ order.map runList := mem_map_of_mem ht
  have kept : ∀ x, x ≠ l.next (runList t) → x ≠ l.prev (runList t) → x ≠ runList t →
      Agree l (listHeadDel l (runList t)) x :=
    fun x notNext notPrev notNode =>
      ⟨rem.prevElse x notNext notNode, rem.nextElse x notPrev notNode⟩
  refine ⟨lists.arena, lists.once.erase t, fun x hx => lists.among (mem_of_mem_erase hx), ?_,
    ?_, lists.owner⟩
  · rw [erased, map_append]
    exact ring_removed rem ring nodup out
  · intro q hq
    refine lists.family_kept hq ?_ ?_
    · exact kept _ ((isNode _ after).1 q hq) ((isNode _ before).1 q hq)
        ((isNode _ (.inr here)).1 q hq)
    · intro c hc
      have mem := (lists.owner q hq c hc).1
      exact kept _ ((isNode _ after).2 c mem) ((isNode _ before).2 c mem)
        ((isNode _ (.inr here)).2 c mem)

theorem Lists.disown (hp : p ∈ structs) (hc : child p = some c) :
    Lists queue (listHeadDel l (sibling c)) parent order structs
      (update child p none) := by
  have arena := lists.arena
  have hcs := (lists.owner p hp c hc).1
  have ring := lists.child_ring hp hc
  have kept : ∀ x, x ≠ sibling c → x ≠ children p → Agree l (listHeadDel l (sibling c)) x :=
    fun x => agree_del_single ring
  refine ⟨arena, lists.once, lists.among, ?_, ?_, ?_⟩
  · refine lists.ring_kept ?_ fun t ht => ?_
    · exact kept _ (arena.sibling_ne_queue hcs).symm (arena.children_ne_queue hp).symm
    · exact kept _ (arena.runList_ne_sibling (lists.among ht) hcs)
        (arena.runList_ne_children (lists.among ht) hp)
  · intro q hq
    by_cases same : q = p
    · rw [same, update_self]
      exact (ring_del_single ring (arena.children_ne_sibling hp hcs).symm).1
    · rw [update_of_ne same]
      refine lists.family_kept hq ?_ fun d hd => ?_
      · exact kept _ (arena.children_ne_sibling hq hcs) fun h => same (children_injective h)
      · exact kept _ (fun h => lists.child_ne hp hq same hc hd (sibling_injective h))
          (arena.children_ne_sibling hp (lists.owner q hq d hd).1).symm
  · intro q hq d hd
    by_cases same : q = p
    · rw [same, update_self] at hd
      cases hd
    · rw [update_of_ne same] at hd
      exact lists.owner q hq d hd

theorem Lists.disown_alone (hp : p ∈ structs) (hc : child p = some c) :
    Ring (listHeadDel l (sibling c)) (sibling c) [] ∧ ∀ q ∈ structs, c ∉ update child p none q := by
  have hcs := (lists.owner p hp c hc).1
  have away := (lists.arena.children_ne_sibling hp hcs).symm
  refine ⟨(ring_del_single (lists.child_ring hp hc) away).2, fun q hq hd => ?_⟩
  by_cases same : q = p
  · rw [same, update_self] at hd
    cases hd
  · rw [update_of_ne same] at hd
    exact lists.child_ne hp hq same hc hd rfl

theorem Lists.free (orphan : ∀ q ∈ structs, c ∉ child q)
    (left : ∀ t, t ∈ structs' ↔ t ∈ structs ∧ t ≠ c) (still : order ⊆ structs') :
    Lists queue l parent order structs' child := by
  have fewer : structs' ⊆ structs := fun t ht => ((left t).mp ht).1
  refine ⟨lists.arena.mono fewer, lists.once, still, lists.ring,
    fun q hq => lists.family q (fewer hq), ?_⟩
  intro q hq d hd
  obtain ⟨hds, owned⟩ := lists.owner q (fewer hq) d hd
  exact ⟨(left d).mpr ⟨hds, fun h => orphan q (fewer hq) (h ▸ hd)⟩, owned⟩

end

variable {n : Addr}

variable (lists : Lists queue l parent order structs child)
include lists

theorem Lists.enqueue (hn : n ∈ structs) (fresh : n ∉ order) :
    Lists queue (listHeadAddTail l (runList n) queue) parent (order ++ [n]) structs child := by
  have arena := lists.arena
  have away := arena.runList_ne_queue hn
  have last : ∀ x, x ≠ queue → (∀ t ∈ order, x ≠ runList t) → x ≠ l.prev queue := by
    intro x notQueue notRun
    rcases lists.last with h | ⟨t, ht, h⟩
    · rwa [h]
    · rw [h]
      exact notRun t ht
  have notQueued : ∀ t ∈ order, runList n ≠ runList t :=
    fun t ht h => fresh (runList_injective h ▸ ht)
  refine ⟨arena, ?_, ?_, ?_, ?_, lists.owner⟩
  · exact nodup_append.mpr ⟨lists.once, nodup_singleton n, fun a ha b hb h =>
      fresh (mem_singleton.mp hb ▸ h ▸ ha)⟩
  · exact append_subset.mpr ⟨lists.among, by simpa using hn⟩
  · rw [map_append]
    refine ring_inserted (addTail_inserted away (last _ away notQueued).symm) lists.ring
      lists.ring_nodup lists.queue_out ?_ away
    intro h
    obtain ⟨t, ht, eq⟩ := mem_map.mp h
    exact notQueued t ht eq.symm
  · intro q hq
    refine lists.family_kept hq ?_ ?_
    · refine agree_addTail (arena.runList_ne_children hn hq).symm (arena.children_ne_queue hq) ?_
      exact last _ (arena.children_ne_queue hq)
        fun t ht => (arena.runList_ne_children (lists.among ht) hq).symm
    · intro c hc
      have hcs := (lists.owner q hq c hc).1
      refine agree_addTail (arena.runList_ne_sibling hn hcs).symm (arena.sibling_ne_queue hcs) ?_
      exact last _ (arena.sibling_ne_queue hcs)
        fun t ht => (arena.runList_ne_sibling (lists.among ht) hcs).symm

omit lists in
theorem agree_initLists {x : Addr} (notRun : x ≠ runList n) (notHead : x ≠ children n)
    (notSibling : x ≠ sibling n) : Agree l (initLists l n) x :=
  ((agree_init notRun).trans (agree_init notHead)).trans (agree_init notSibling)

omit lists in
theorem Apart.ne {t u : Addr} (apart : Apart t u) : u ≠ t := by
  rintro rfl
  rcases apart with h | h
  all_goals
    simp only [taskSize] at h
    omega

theorem Lists.create (placed : Placed queue n) (fresh : ∀ t ∈ structs, Apart n t)
    (more : ∀ t, t ∈ structs' ↔ t = n ∨ t ∈ structs) :
    Lists queue (initLists l n) parent order structs' (update child n none) := by
  have arena : Arena queue structs' := by
    refine (lists.arena.add placed fresh).mono fun t ht => ?_
    exact mem_cons.mpr ((more t).mp ht)
  have hn : n ∈ structs' := (more n).mpr (.inl rfl)
  have old : ∀ t ∈ structs, t ∈ structs' ∧ t ≠ n :=
    fun t ht => ⟨(more t).mpr (.inr ht), (fresh t ht).ne⟩
  refine ⟨arena, lists.once, fun t ht => (old t (lists.among ht)).1, ?_, ?_, ?_⟩
  · refine lists.ring_kept ?_ fun t ht => ?_
    · exact agree_initLists (arena.runList_ne_queue hn).symm (arena.children_ne_queue hn).symm
        (arena.sibling_ne_queue hn).symm
    · obtain ⟨mem, ne⟩ := old t (lists.among ht)
      exact agree_initLists (fun h => ne (runList_injective h)) (arena.runList_ne_children mem hn)
        (arena.runList_ne_sibling mem hn)
  · intro q hq
    by_cases isNew : q = n
    · rw [isNew, update_self]
      exact ring_agree (ring_init _ _) (agree_init (arena.children_ne_sibling hn hn))
        fun x hx => absurd hx not_mem_nil
    · have mem := ((more q).mp hq).resolve_left isNew
      rw [update_of_ne isNew]
      refine lists.family_kept mem ?_ fun c hc => ?_
      · exact agree_initLists (arena.runList_ne_children hn hq).symm
          (fun h => isNew (children_injective h)) (arena.children_ne_sibling hq hn)
      · obtain ⟨hcs, ne⟩ := old c (lists.owner q mem c hc).1
        exact agree_initLists (arena.runList_ne_sibling hn hcs).symm
          (arena.children_ne_sibling hn hcs).symm fun h => ne (sibling_injective h)
  · intro q hq c hc
    by_cases isNew : q = n
    · rw [isNew, update_self] at hc
      cases hc
    · rw [update_of_ne isNew] at hc
      have mem := ((more q).mp hq).resolve_left isNew
      obtain ⟨hcs, was⟩ := lists.owner q mem c hc
      exact ⟨(old c hcs).1, was⟩

theorem Lists.create_orphan (fresh : ∀ t ∈ structs, Apart n t)
    (more : ∀ t, t ∈ structs' ↔ t = n ∨ t ∈ structs) :
    ∀ q ∈ structs', n ∉ update child n none q := by
  intro q hq hc
  by_cases isNew : q = n
  · rw [isNew, update_self] at hc
    cases hc
  · rw [update_of_ne isNew] at hc
    have mem := (lists.owner q (((more q).mp hq).resolve_left isNew) n hc).1
    exact (fresh n mem).ne rfl

theorem Lists.bear (hp : p ∈ structs) (hn : n ∈ structs) (alone : Ring l (sibling n) [])
    (orphan : ∀ q ∈ structs, n ∉ child q) (owned : parent' n = p)
    (same : ∀ t, t ≠ n → parent' t = parent t) :
    Lists queue (listHeadAddTail l (children p) (sibling n)) parent' order structs
      (update child p (some n)) := by
  have arena := lists.arena
  have kept : ∀ x, x ≠ children p → x ≠ sibling n →
      Agree l (listHeadAddTail l (children p) (sibling n)) x := by
    intro x notHead notChild
    have last : l.prev (sibling n) = sibling n := alone.1
    exact agree_addTail notHead notChild (by rwa [last])
  refine ⟨arena, lists.once, lists.among, ?_, ?_, ?_⟩
  · refine lists.ring_kept ?_ fun t ht => ?_
    · exact kept _ (arena.children_ne_queue hp).symm (arena.sibling_ne_queue hn).symm
    · exact kept _ (arena.runList_ne_children (lists.among ht) hp)
        (arena.runList_ne_sibling (lists.among ht) hn)
  · intro q hq
    by_cases isParent : q = p
    · rw [isParent, update_self]
      exact ring_addTail_single alone (arena.children_ne_sibling hp hn)
    · rw [update_of_ne isParent]
      refine lists.family_kept hq ?_ fun c hc => ?_
      · exact kept _ (fun h => isParent (children_injective h)) (arena.children_ne_sibling hq hn)
      · refine kept _ (arena.children_ne_sibling hp (lists.owner q hq c hc).1).symm fun h => ?_
        exact orphan q hq (sibling_injective h ▸ hc)
  · intro q hq c hc
    by_cases isParent : q = p
    · rw [isParent, update_self] at hc
      obtain rfl : n = c := by simpa using hc
      exact ⟨hn, by rw [owned, isParent]⟩
    · rw [update_of_ne isParent] at hc
      obtain ⟨hcs, was⟩ := lists.owner q hq c hc
      exact ⟨hcs, by rw [same c fun h => orphan q hq (h ▸ hc), was]⟩

end Elaborato.Mentos.Process
