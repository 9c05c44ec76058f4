import Mathlib.Data.Finset.Basic
import Mathlib.Data.Fintype.Card
import Elaborato.Mentos.LinkedListCalls

/-!
Runs of the list functions: a call that forgets an end leaves a list not well formed.
-/
namespace Elaborato.Mentos.LinkedList
open Foundation List Function

variable {P L V : Type} [DecidableEq P] [DecidableEq L]

structure ListRun (P L V : Type) where
  store : Store P L V
  held : Finset L

inductive ListEvent (P L V : Type)
  | create (l : L)
  | insertFront (l : L) (new : Option P) (value : V)
  | insertBack (l : L) (new : Option P) (value : V)
  | removeNode (l : L) (node : P)
  | removeFront (l : L)
  | removeBack (l : L)
  | popBack (l : L)
  | popFront (l : L)
  | merge (target source : L)
  deriving DecidableEq, Repr

namespace ListEvent

def call (s : Store P L V) : ListEvent P L V → Except ListHalt (Store P L V)
  | create l => .ok (listCreate s l)
  | insertFront l new value => (listInsertFront s l new value).map Prod.snd
  | insertBack l new value => (listInsertBack s l new value).map Prod.snd
  | removeNode l node => (listRemoveNode s l node).map Prod.snd
  | removeFront l => (listRemoveFront s l).map Prod.snd
  | removeBack l => (listRemoveBack s l).map Prod.snd
  | popBack l => (listPopBack s l).map Prod.snd
  | popFront l => (listPopFront s l).map Prod.snd
  | merge target source => listMerge s target source

def holds (held : Finset L) : ListEvent P L V → Finset L
  | create l => insert l held
  | merge target source => if target = source then held else held.erase source
  | _ => held

def run (s : ListRun P L V) (a : ListEvent P L V) : Except ListHalt (ListRun P L V) :=
  (a.call s.store).map fun store => ⟨store, a.holds s.held⟩

def Made (s : ListRun P L V) : ListEvent P L V → Prop
  | create l => s.store.list l = none ∧ l ∉ s.held
  | insertFront l new _ => l ∈ s.held ∧ ∀ p, new = some p → s.store.node p = none
  | insertBack l new _ => l ∈ s.held ∧ ∀ p, new = some p → s.store.node p = none
  | removeNode l _ => l ∈ s.held
  | removeFront l => l ∈ s.held
  | removeBack l => l ∈ s.held
  | popBack l => l ∈ s.held
  | popFront l => l ∈ s.held
  | merge target source => target ∈ s.held ∧ source ∈ s.held

end ListEvent

def ListStep (c : Except ListHalt (ListRun P L V)) (a : ListEvent P L V)
    (c' : Except ListHalt (ListRun P L V)) : Prop :=
  ∃ s, c = .ok s ∧ a.Made s ∧ c' = a.run s

def AllWellFormed (c : Except ListHalt (ListRun P L V)) : Prop :=
  ∃ s, c = .ok s ∧ ∀ l ∈ s.held, WellFormed s.store l

def IsEmpty (s : Store P L V) (l : L) : Prop := ∃ list, s.list l = some list ∧ list.head = none

/-- The list has one node. -/
def IsSingle (s : Store P L V) (l : L) : Prop :=
  ∃ list p, s.list l = some list ∧ list.head = some p ∧ list.tail = some p

def HasNode (s : Store P L V) (l : L) (p : P) : Prop :=
  ∃ list fuel xs, s.list l = some list ∧ walk (nextOf s) none fuel list.head = some xs ∧ some p ∈ xs

def ListEvent.Safe (s : Store P L V) : ListEvent P L V → Prop
  | create _ => True
  | insertFront l new _ => new ≠ none ∧ ¬ IsEmpty s l
  | insertBack _ new _ => new ≠ none
  | removeNode l node => HasNode s l node ∧ ¬ IsSingle s l
  | removeFront l => ¬ IsSingle s l
  | removeBack l => ¬ IsSingle s l
  | popBack l => ¬ IsSingle s l
  | popFront l => IsEmpty s l
  | merge target source => target ≠ source ∧ (IsEmpty s target ∨ IsEmpty s source)

structure ListsInv (s : ListRun P L V) (chain : L → List P) : Prop where
  spine : ∀ l ∈ s.held, ∃ list, s.store.list l = some list ∧ Spine s.store list (chain l)
  apart : ∀ l ∈ s.held, ∀ l' ∈ s.held, l ≠ l' → ∀ p ∈ chain l, p ∉ chain l'
  stray : ∀ p n, s.store.node p = some n → (∀ l ∈ s.held, p ∉ chain l) → n.next = none

variable {s : ListRun P L V} {store : Store P L V} {chain : L → List P} {l : L} {list : ListT P}
  {xs : List P} {p : P}

omit [DecidableEq L] in
theorem ListsInv.wellFormed (inv : ListsInv s chain) : AllWellFormed (.ok s) := by
  refine ⟨s, rfl, fun l mem => ?_⟩
  obtain ⟨list, found, spine⟩ := inv.spine l mem
  exact ⟨list, chain l, found, spine.hasNodes⟩

theorem ListsInv.changed (inv : ListsInv s chain) (mem : l ∈ s.held)
    (changed : Changed s.store l (chain l) store xs) :
    ListsInv ⟨store, s.held⟩ (update chain l xs) := by
  obtain ⟨list, lists, spine⟩ := changed.list
  have same : ∀ l' ∈ s.held, l' ≠ l → ∀ p ∈ chain l', p ∉ xs ∧ store.node p = s.store.node p := by
    intro l' mem' other p inside
    obtain ⟨list', -, spine'⟩ := inv.spine l' mem'
    have out := inv.apart l' mem' l mem other p inside
    have out' : p ∉ xs := by
      intro new
      rcases changed.new p new with old | free
      · exact out old
      · exact spine'.fresh_ne free inside
    exact ⟨out', changed.others p out out'⟩
  refine ⟨fun l' mem' => ?_, fun l' mem' l'' mem'' other p inside => ?_, fun p n here out => ?_⟩
  · by_cases isL : l' = l
    · subst isL
      rw [update_self, lists, update_self]
      exact ⟨list, rfl, spine⟩
    · rw [update_of_ne isL, lists, update_of_ne isL]
      obtain ⟨list', found, spine'⟩ := inv.spine l' mem'
      exact ⟨list', found, spine'.congr fun p inside => (same l' mem' isL p inside).2⟩
  · by_cases isL : l' = l
    · subst isL
      rw [update_self] at inside
      rw [update_of_ne (Ne.symm other)]
      exact fun inside' => (same l'' mem'' (Ne.symm other) p inside').1 inside
    · rw [update_of_ne isL] at inside
      by_cases isL' : l'' = l
      · subst isL'
        rw [update_self]
        exact (same l' mem' isL p inside).1
      · rw [update_of_ne isL']
        exact inv.apart l' mem' l'' mem'' other p inside
  · have out' : p ∉ xs := by
      have outside := out l mem
      rwa [update_self] at outside
    by_cases old : p ∈ chain l
    · exact changed.lost p old out' n here
    · rw [changed.others p old out'] at here
      refine inv.stray p n here fun l' mem' => ?_
      by_cases isL : l' = l
      · exact isL ▸ old
      · have outside := out l' mem'
        rwa [update_of_ne isL] at outside

section Reading
variable {s : Store P L V}

section
variable (found : s.list l = some list) (spine : Spine s list xs)
include found spine

omit [DecidableEq P] [DecidableEq L] in
theorem isEmpty_iff : IsEmpty s l ↔ xs = [] := by
  rw [← head?_eq_none_iff, ← spine.head]
  constructor
  · rintro ⟨list', found', none⟩
    cases found.symm.trans found'
    exact none
  · exact fun none => ⟨list, found, none⟩

omit [DecidableEq P] [DecidableEq L] in
theorem isSingle_iff : IsSingle s l ↔ ∃ p, xs = [p] := by
  constructor
  · rintro ⟨list', p, found', first, last⟩
    cases found.symm.trans found'
    obtain ⟨ys, rfl⟩ := head?_eq_some_iff.mp (spine.head.symm.trans first)
    cases ys with
    | nil => exact ⟨p, rfl⟩
    | cons q ys =>
      have spine' : Spine s list ([] ++ p :: q :: ys) := spine
      exact absurd last spine'.tail_ne
  · rintro ⟨p, rfl⟩
    exact ⟨list, p, found, spine.head, spine.tail⟩

omit [DecidableEq L] in
theorem hasNode_iff : HasNode s l p ↔ p ∈ xs := by
  have forward := spine.hasNodes.forward
  constructor
  · rintro ⟨list', fuel, ys, found', walked, mem⟩
    cases found.symm.trans found'
    rw [walk_unique walked forward] at mem
    simpa using mem
  · intro mem
    exact ⟨list, _, _, found, forward, mem_map_of_mem mem⟩

end

omit [DecidableEq L] in
theorem HasNodes.ends (nodes : HasNodes s list xs) : list.head = none ↔ list.tail = none := by
  rw [nodes.last, getLast?_eq_none_iff]
  have forward := nodes.forward
  constructor
  · intro none
    rw [none, walk, if_pos rfl] at forward
    simpa using forward
  · rintro rfl
    by_contra some
    simpa using walk_first some forward

end Reading

variable {a : ListEvent P L V}

def ListsKept (c : Except ListHalt (ListRun P L V)) : Prop :=
  ∃ s chain, c = .ok s ∧ ListsInv s chain

theorem ListsInv.keeps_changed (inv : ListsInv s chain) (mem : l ∈ s.held)
    (holds : a.holds s.held = s.held) (called : a.call s.store = .ok store)
    (changed : Changed s.store l (chain l) store xs) : ListsKept (a.run s) := by
  refine ⟨⟨store, s.held⟩, _, ?_, inv.changed mem changed⟩
  rw [ListEvent.run, called, holds]
  rfl

theorem ListsInv.keeps_same (inv : ListsInv s chain) (holds : a.holds s.held = s.held)
    (called : a.call s.store = .ok s.store) : ListsKept (a.run s) := by
  refine ⟨s, chain, ?_, inv⟩
  rw [ListEvent.run, called, holds]
  rfl

theorem ListsInv.keeps_create (inv : ListsInv s chain) (notHeld : l ∉ s.held) :
    ListsKept ((ListEvent.create l).run s) := by
  refine ⟨⟨listCreate s.store l, insert l s.held⟩, update chain l [], rfl, ?_, ?_, ?_⟩
  · intro l' mem
    by_cases isL : l' = l
    · subst isL
      rw [update_self]
      refine ⟨_, update_self .., ⟨rfl, rfl⟩, nodup_nil, by simp, rfl⟩
    · rw [update_of_ne isL]
      obtain ⟨list, found, spine⟩ := inv.spine l' (Finset.mem_of_mem_insert_of_ne mem isL)
      refine ⟨list, ?_, spine.congr fun p _ => rfl⟩
      exact (update_of_ne isL ..).trans found
  · intro l' mem l'' mem' other p inside
    have notNew : l' ≠ l := by
      rintro rfl
      simp at inside
    rw [update_of_ne notNew] at inside
    by_cases isL : l'' = l
    · simp [isL]
    · rw [update_of_ne isL]
      exact inv.apart l' (Finset.mem_of_mem_insert_of_ne mem notNew) l''
        (Finset.mem_of_mem_insert_of_ne mem' isL) other p inside
  · intro p n here out
    refine inv.stray p n here fun l' mem => ?_
    have outside := out l' (Finset.mem_insert_of_mem mem)
    have notNew : l' ≠ l := by
      rintro rfl
      exact notHeld mem
    rwa [update_of_ne notNew] at outside

omit [DecidableEq P] in
theorem exists_last_two (several : ∀ p, xs ≠ [p]) :
    xs = [] ∨ ∃ ys q p, xs = (ys ++ [q]) ++ [p] := by
  rcases eq_nil_or_concat' xs with rfl | ⟨zs, p, rfl⟩
  · exact .inl rfl
  · rcases eq_nil_or_concat' zs with rfl | ⟨ys, q, rfl⟩
    · exact absurd rfl (several p)
    · exact .inr ⟨ys, q, p, rfl⟩

section
variable (inv : ListsInv s chain) (mem : l ∈ s.held) (safe : ¬ IsSingle s.store l)
include inv mem safe

theorem ListsInv.keeps_removeFront : ListsKept ((ListEvent.removeFront l).run s) := by
  obtain ⟨list, found, spine⟩ := inv.spine l mem
  rw [isSingle_iff found spine, not_exists] at safe
  cases nodes : chain l with
  | nil =>
    rw [nodes] at spine
    have none : list.head = none := spine.head
    refine inv.keeps_same rfl ?_
    simp [ListEvent.call, listRemoveFront, getList, found, none, Except.map]
  | cons p xs =>
    cases xs with
    | nil => exact absurd nodes (safe p)
    | cons q ys =>
      rw [nodes] at spine
      obtain ⟨v, store, called, changed⟩ := listRemoveFront_changed found spine
      rw [← nodes] at changed
      exact inv.keeps_changed mem rfl (congrArg (Except.map Prod.snd) called) changed

theorem ListsInv.keeps_last (holds : a.holds s.held = s.held)
    (empty : ∀ list, s.store.list l = some list → list.head = none → a.call s.store = .ok s.store)
    (several : ∀ list ys q p, s.store.list l = some list →
      Spine s.store list ((ys ++ [q]) ++ [p]) → ∃ store xs, a.call s.store = .ok store ∧
        Changed s.store l ((ys ++ [q]) ++ [p]) store xs) : ListsKept (a.run s) := by
  obtain ⟨list, found, spine⟩ := inv.spine l mem
  rw [isSingle_iff found spine, not_exists] at safe
  rcases exists_last_two safe with nodes | ⟨ys, q, p, nodes⟩
  · rw [nodes] at spine
    exact inv.keeps_same holds (empty list found spine.head)
  · rw [nodes] at spine
    obtain ⟨store, xs, called, changed⟩ := several list ys q p found spine
    rw [← nodes] at changed
    exact inv.keeps_changed mem holds called changed

theorem ListsInv.keeps_removeBack : ListsKept ((ListEvent.removeBack l).run s) := by
  refine inv.keeps_last mem safe rfl (fun list found none => ?_) fun list ys q p found spine => ?_
  · simp [ListEvent.call, listRemoveBack, getList, found, none, Except.map]
  · obtain ⟨v, store, called, changed⟩ := listRemoveBack_changed found spine
    exact ⟨store, _, congrArg (Except.map Prod.snd) called, changed⟩

theorem ListsInv.keeps_popBack : ListsKept ((ListEvent.popBack l).run s) := by
  refine inv.keeps_last mem safe rfl (fun list found none => ?_) fun list ys q p found spine => ?_
  · simp [ListEvent.call, listPopBack, getList, found, none, Except.map]
  · obtain ⟨v, store, called, changed⟩ := listPopBack_changed found spine
    exact ⟨store, _, congrArg (Except.map Prod.snd) called, changed⟩

end

theorem ListsInv.keeps_popFront (inv : ListsInv s chain) (safe : IsEmpty s.store l) :
    ListsKept ((ListEvent.popFront l).run s) := by
  obtain ⟨list, found, none⟩ := safe
  refine inv.keeps_same rfl ?_
  simp [ListEvent.call, listPopFront, getList, found, none, Except.map]

theorem ListsInv.keeps_removeNode (inv : ListsInv s chain) (mem : l ∈ s.held)
    (has : HasNode s.store l p) (safe : ¬ IsSingle s.store l) :
    ListsKept ((ListEvent.removeNode l p).run s) := by
  obtain ⟨list, found, spine⟩ := inv.spine l mem
  obtain ⟨xs, ys, nodes⟩ := append_of_mem ((hasNode_iff found spine).mp has)
  have several : xs ++ ys ≠ [] := by
    intro none
    obtain ⟨rfl, rfl⟩ := append_eq_nil_iff.mp none
    exact safe ((isSingle_iff found spine).mpr ⟨p, nodes⟩)
  rw [nodes] at spine
  obtain ⟨v, store, called, changed⟩ := listRemoveNode_member found spine several
  rw [← nodes] at changed
  exact inv.keeps_changed mem rfl (congrArg (Except.map Prod.snd) called) changed

omit [DecidableEq P] [DecidableEq L] in
theorem Spine.room [Fintype P] (few : Fintype.card P < 2 ^ 32) (spine : Spine store list xs)
    (fresh : store.node p = none) : xs.length + 1 < 2 ^ 32 := by
  have nodup : (p :: xs).Nodup := nodup_cons.mpr ⟨spine.fresh_ne fresh, spine.nodup⟩
  exact Nat.lt_of_le_of_lt nodup.length_le_card few

theorem ListsInv.keeps_insertBack [Fintype P] (few : Fintype.card P < 2 ^ 32)
    (inv : ListsInv s chain) (mem : l ∈ s.held) (fresh : s.store.node p = none) (v : V) :
    ListsKept ((ListEvent.insertBack l (some p) v).run s) := by
  obtain ⟨list, found, spine⟩ := inv.spine l mem
  obtain ⟨store, list', called, appended, lists⟩ := listInsertBack_appended v found spine fresh
  exact inv.keeps_changed mem rfl (congrArg (Except.map Prod.snd) called)
    (appended.changed spine fresh (spine.room few fresh) lists)

theorem ListsInv.keeps_insertFront [Fintype P] (few : Fintype.card P < 2 ^ 32)
    (inv : ListsInv s chain) (mem : l ∈ s.held) (fresh : s.store.node p = none) (v : V)
    (safe : ¬ IsEmpty s.store l) :
    ListsKept ((ListEvent.insertFront l (some p) v).run s) := by
  obtain ⟨list, found, spine⟩ := inv.spine l mem
  rw [isEmpty_iff found spine] at safe
  obtain ⟨q, xs, nodes⟩ := exists_cons_of_ne_nil safe
  rw [nodes] at spine
  obtain ⟨store, list', called, prepended, lists⟩ := listInsertFront_prepended v found spine fresh
  have changed := prepended.changed spine fresh (spine.room few fresh) lists
  rw [← nodes] at changed
  exact inv.keeps_changed mem rfl (congrArg (Except.map Prod.snd) called) changed

variable {target source : L} {t src : ListT P}

theorem listMerge_ok {s : Store P L V} (found : s.list target = some t)
    (found' : s.list source = some src) (spine : Spine s t xs) :
    listMerge s target source = .ok (freeList (setList (withNext s t.tail src.head) target
      { head := if t.tail.isNone then src.head else t.head,
        tail := if src.tail.isNone then t.tail else src.tail,
        size := t.size + src.size }) source) := by
  have linked := setNextIf_ok s t.tail src.head fun x last =>
    Option.isSome_iff_exists.mp
      (spine.allocated x (mem_of_getLast? (spine.tail.symm.trans last)))
  simp only [listMerge, getList, found, found', bind_ok, linked]

variable {ys : List P}

section
variable {s : Store P L V} (spine : Spine s t xs) (spine' : Spine s src ys)
  (empty : xs = [] ∨ ys = [])
include spine spine' empty

omit [DecidableEq L] in
theorem withNext_of_empty : withNext s t.tail src.head = s := by
  refine congrArg (fun node => Store.mk node s.list) (funext fun x => ?_)
  cases here : s.node x with
  | none => rfl
  | some m =>
    rcases empty with rfl | rfl
    · simp [spine.tail]
    · by_cases last : t.tail = some x
      · obtain ⟨zs, rfl⟩ := getLast?_eq_some_iff.mp (spine.tail.symm.trans last)
        obtain ⟨m', here', -, next⟩ := spine.node
        cases here.symm.trans here'
        have leadsNowhere : m.next = src.head := next.trans spine'.head.symm
        simp [last, ← leadsNowhere]
      · simp [last]

omit [DecidableEq P] [DecidableEq L] in
theorem spine_merged :
    Spine s { head := if t.tail.isNone then src.head else t.head,
              tail := if src.tail.isNone then t.tail else src.tail,
              size := t.size + src.size } (xs ++ ys) := by
  rcases empty with rfl | rfl
  · have tail : t.tail = none := spine.tail
    have size : t.size = 0 := UInt32.toNat_inj.mp spine.size
    have same : (if src.tail.isNone then none else src.tail) = src.tail := by
      cases src.tail with
      | none | some p => rfl
    rw [tail, size, same, UInt32.zero_add]
    exact spine'
  · have head : src.head = none := spine'.head
    have tail : src.tail = none := spine'.tail
    have size : src.size = 0 := UInt32.toNat_inj.mp spine'.size
    have same : (if t.tail.isNone then none else t.head) = t.head := by
      cases last : t.tail with
      | none => exact (spine.head_none_iff.mpr last).symm
      | some p => rfl
    rw [head, tail, size, same, UInt32.add_zero, append_nil]
    exact spine

end

theorem ListsInv.keeps_merge (inv : ListsInv s chain) (mem : target ∈ s.held)
    (mem' : source ∈ s.held) (other : target ≠ source)
    (safe : IsEmpty s.store target ∨ IsEmpty s.store source) :
    ListsKept ((ListEvent.merge target source).run s) := by
  obtain ⟨t, found, spine⟩ := inv.spine target mem
  obtain ⟨src, found', spine'⟩ := inv.spine source mem'
  rw [isEmpty_iff found spine, isEmpty_iff found' spine'] at safe
  have called := listMerge_ok found found' spine
  rw [withNext_of_empty spine spine' safe] at called
  have merged := spine_merged spine spine' safe
  generalize (ListT.mk _ _ _ : ListT P) = list' at called merged
  have owner : ∀ l ∈ s.held, ∀ p ∈ update chain target (chain target ++ chain source) l,
      p ∈ chain l ∨ l = target ∧ p ∈ chain source := by
    intro l memL p inside
    by_cases isTarget : l = target
    · subst isTarget
      rw [update_self, mem_append] at inside
      exact inside.imp_right fun inside => ⟨rfl, inside⟩
    · rw [update_of_ne isTarget] at inside
      exact .inl inside
  refine ⟨⟨freeList (setList s.store target list') source, s.held.erase source⟩,
    update chain target (chain target ++ chain source), ?_, ?_, ?_, ?_⟩
  · rw [ListEvent.run, ListEvent.call, called, ListEvent.holds, if_neg other]
    rfl
  · intro l memL
    obtain ⟨notSource, memL⟩ := Finset.mem_erase.mp memL
    change ∃ list, update (update s.store.list target _) source none l = _ ∧ _
    rw [update_of_ne notSource]
    by_cases isTarget : l = target
    · rw [isTarget, update_self, update_self]
      exact ⟨_, rfl, merged.congr fun p _ => rfl⟩
    · rw [update_of_ne isTarget, update_of_ne isTarget]
      obtain ⟨list, here, spineL⟩ := inv.spine l memL
      exact ⟨list, here, spineL.congr fun p _ => rfl⟩
  · intro l memL l' memL' apart p inside inside'
    obtain ⟨notSource, heldL⟩ := Finset.mem_erase.mp memL
    obtain ⟨notSource', heldL'⟩ := Finset.mem_erase.mp memL'
    rcases owner l heldL p inside with inside | ⟨isTarget, inside⟩
    · rcases owner l' heldL' p inside' with inside' | ⟨-, inside'⟩
      · exact inv.apart l heldL l' heldL' apart p inside inside'
      · exact inv.apart l heldL source mem' notSource p inside inside'
    · rcases owner l' heldL' p inside' with inside' | ⟨isTarget', -⟩
      · exact inv.apart source mem' l' heldL' (Ne.symm notSource') p inside inside'
      · exact apart (isTarget.trans isTarget'.symm)
  · intro p n here out
    refine inv.stray p n here fun l memL inside => ?_
    have notTarget := out target (Finset.mem_erase.mpr ⟨other, mem⟩)
    rw [update_self, mem_append, not_or] at notTarget
    by_cases isTarget : l = target
    · exact notTarget.1 (isTarget ▸ inside)
    · by_cases isSource : l = source
      · exact notTarget.2 (isSource ▸ inside)
      · have outside := out l (Finset.mem_erase.mpr ⟨isSource, memL⟩)
        rw [update_of_ne isTarget] at outside
        exact outside inside

variable {list' : ListT P}

theorem not_allWellFormed (store : Store P L V) (mem : l ∈ a.holds s.held)
    (called : a.call s.store = .ok store) (found : store.list l = some list')
    (broken : ∀ xs, ¬ HasNodes store list' xs) : ¬ AllWellFormed (a.run s) := by
  rintro ⟨s', ran, all⟩
  rw [ListEvent.run, called] at ran
  cases ran
  obtain ⟨list'', xs, found', nodes⟩ := all l mem
  cases found.symm.trans found'
  exact broken xs nodes

theorem not_allWellFormed_halt {h : ListHalt} (called : a.call s.store = .error h) :
    ¬ AllWellFormed (a.run s) := by
  rintro ⟨s', ran, -⟩
  rw [ListEvent.run, called] at ran
  cases ran

omit [DecidableEq P] [DecidableEq L] in
theorem Spine.single (spine : Spine store list [p]) :
    list.head = some p ∧ list.tail = some p ∧
      ∃ n, store.node p = some n ∧ n.prev = none ∧ n.next = none :=
  ⟨spine.head, spine.tail, spine.first⟩

section
variable (inv : ListsInv s chain) (mem : l ∈ s.held) (single : IsSingle s.store l)
include inv mem single

theorem ListsInv.single_broken (holds : a.holds s.held = s.held)
    (call : ∀ list p n, s.store.list l = some list → list.head = some p → list.tail = some p →
      s.store.node p = some n → n.prev = none → n.next = none →
        ∃ store list', a.call s.store = .ok (setList store l list') ∧
          ¬(list'.head = none ↔ list'.tail = none)) : ¬ AllWellFormed (a.run s) := by
  obtain ⟨list, found, spine⟩ := inv.spine l mem
  obtain ⟨p, nodes⟩ := (isSingle_iff found spine).mp single
  rw [nodes] at spine
  obtain ⟨head, tail, n, here, prev, next⟩ := spine.single
  obtain ⟨store, list', called, oneEnd⟩ := call list p n found head tail here prev next
  rw [← holds] at mem
  exact not_allWellFormed _ mem called (update_self ..) fun xs nodes => oneEnd nodes.ends

theorem ListsInv.removeFront_single : ¬ AllWellFormed ((ListEvent.removeFront l).run s) := by
  refine inv.single_broken mem single rfl fun list p n found head tail here prev next => ?_
  refine ⟨freeNode s.store p, { list with head := none, size := list.size - 1 }, ?_, by simp [tail]⟩
  simp [ListEvent.call, listRemoveFront, getList, found, head, deref, here, next, setPrevIf,
    Except.map]

theorem ListsInv.removeBack_single : ¬ AllWellFormed ((ListEvent.removeBack l).run s) := by
  refine inv.single_broken mem single rfl fun list p n found head tail here prev next => ?_
  refine ⟨freeNode s.store p, { list with tail := none, size := list.size - 1 }, ?_, by simp [head]⟩
  simp [ListEvent.call, listRemoveBack, getList, found, head, tail, deref, here, prev, setNextIf,
    Except.map]

theorem ListsInv.popBack_single : ¬ AllWellFormed ((ListEvent.popBack l).run s) := by
  refine inv.single_broken mem single rfl fun list p n found head tail here prev next => ?_
  refine ⟨s.store, { list with tail := none, size := list.size - 1 }, ?_, by simp [head]⟩
  simp [ListEvent.call, listPopBack, getList, found, head, tail, deref, here, prev, setNextIf,
    Except.map]

end

omit [DecidableEq L] in
theorem HasNodes.size_eq {store' : Store P L V} (nodes : HasNodes store list xs)
    (nodes' : HasNodes store' list' ys) (prev : prevOf store = prevOf store')
    (tail : list.tail = list'.tail) : list.size = list'.size := by
  have back := nodes.backward
  rw [prev, tail] at back
  have length := congrArg List.length (walk_unique back nodes'.backward)
  rw [length_map, length_map, length_reverse, length_reverse, nodes.size, nodes'.size] at length
  exact UInt32.toNat_inj.mp length

theorem sub_one_ne (n : UInt32) : n - 1 ≠ n := by
  rw [ne_eq, UInt32.sub_eq_iff_eq_add, UInt32.left_eq_add]
  decide

theorem ListsInv.popFront_nodes (inv : ListsInv s chain) (mem : l ∈ s.held)
    (inhabited : ¬ IsEmpty s.store l) : ¬ AllWellFormed ((ListEvent.popFront l).run s) := by
  obtain ⟨list, found, spine⟩ := inv.spine l mem
  rw [isEmpty_iff found spine] at inhabited
  obtain ⟨p, xs, nodes⟩ := exists_cons_of_ne_nil inhabited
  rw [nodes] at spine
  have head : list.head = some p := spine.head
  obtain ⟨n, here, -⟩ := spine.first
  refine not_allWellFormed (setList s.store l
    { list with head := n.next, size := list.size - 1 }) mem ?_ (update_self ..) ?_
  · simp [ListEvent.call, listPopFront, getList, found, head, deref, here, Except.map]
  · exact fun ys nodes => sub_one_ne _ (nodes.size_eq spine.hasNodes rfl rfl)

theorem ListsInv.merge_nodes {target source : L} (inv : ListsInv s chain) (mem : target ∈ s.held)
    (mem' : source ∈ s.held)
    (refused : ¬ (target ≠ source ∧ (IsEmpty s.store target ∨ IsEmpty s.store source))) :
    ¬ AllWellFormed ((ListEvent.merge target source).run s) := by
  obtain ⟨t, found, spine⟩ := inv.spine target mem
  obtain ⟨src, found', spine'⟩ := inv.spine source mem'
  rw [isEmpty_iff found spine, isEmpty_iff found' spine'] at refused
  have called := listMerge_ok found found' spine
  by_cases same : target = source
  · rintro ⟨s', ran, all⟩
    rw [ListEvent.run, ListEvent.call, called] at ran
    cases ran
    obtain ⟨list, xs, gone, -⟩ := all target (by rw [ListEvent.holds, if_pos same]; exact mem)
    rw [same] at gone
    simp [freeList] at gone
  · have both : chain target ≠ [] ∧ chain source ≠ [] := by
      constructor
      · exact fun none => refused ⟨same, .inl none⟩
      · exact fun none => refused ⟨same, .inr none⟩
    have last := spine'.tail.trans (getLast?_eq_some_getLast both.2)
    rw [last, Option.isNone_some] at called
    refine not_allWellFormed _ (l := target) ?_ called
      ((update_of_ne same ..).trans (update_self ..)) ?_
    · rw [ListEvent.holds, if_neg same]
      exact Finset.mem_erase.mpr ⟨same, mem⟩
    · intro ys nodes
      have zero : t.size = 0 :=
        UInt32.add_eq_right.mp (nodes.size_eq spine'.hasNodes prevOf_withNext last.symm)
      have length := spine.size
      rw [zero] at length
      exact both.1 (length_eq_zero_iff.mp length.symm)

theorem ListsInv.insertFront_refused {new : Option P} (v : V) (inv : ListsInv s chain)
    (mem : l ∈ s.held) (refused : ¬ (new ≠ none ∧ ¬ IsEmpty s.store l)) :
    ¬ AllWellFormed ((ListEvent.insertFront l new v).run s) := by
  obtain ⟨list, found, spine⟩ := inv.spine l mem
  rw [isEmpty_iff found spine] at refused
  refine not_allWellFormed_halt (h := .nullPointer) ?_
  cases nodes : chain l with
  | nil =>
    rw [nodes] at spine
    have head : list.head = none := spine.head
    simp [ListEvent.call, listInsertFront, getList, found, head, deref, Except.map]
  | cons q xs =>
    obtain rfl : new = none := by
      by_contra some
      exact refused ⟨some, by simp [nodes]⟩
    rw [nodes] at spine
    have head : list.head = some q := spine.head
    obtain ⟨n, here, -⟩ := spine.first
    simp [ListEvent.call, listInsertFront, getList, found, head, callocNode, deref, here,
      Except.map]

theorem ListsInv.insertBack_refused (v : V) (inv : ListsInv s chain) (mem : l ∈ s.held) :
    ¬ AllWellFormed ((ListEvent.insertBack l none v).run s) := by
  obtain ⟨list, found, -⟩ := inv.spine l mem
  refine not_allWellFormed_halt (h := .nullPointer) ?_
  simp [ListEvent.call, listInsertBack, getList, found, deref, Except.map]

omit [DecidableEq P] [DecidableEq L] in
theorem Spine.ends_ne (spine : Spine store list xs) (absent : p ∉ xs) :
    list.head ≠ some p ∧ list.tail ≠ some p := by
  rw [spine.head, spine.tail]
  exact ⟨fun first => absent (mem_of_head? first), fun last => absent (mem_of_getLast? last)⟩

section
variable (inv : ListsInv s chain) (mem : l ∈ s.held)
include inv mem

theorem ListsInv.removeNode_between {l' : L} {n : ListNode P V} {q r : P} (mem' : l' ∈ s.held)
    (absent : p ∉ chain l) (here : s.store.node p = some n)
    (nodes : chain l' = (xs ++ [r]) ++ p :: q :: ys)
    (spine' : Spine s.store list' ((xs ++ [r]) ++ p :: q :: ys)) :
    ¬ AllWellFormed ((ListEvent.removeNode l p).run s) := by
  obtain ⟨list, found, spine⟩ := inv.spine l mem
  obtain ⟨notHead, notTail⟩ := spine.ends_ne absent
  have called := listRemoveNode_between found notHead notTail spine' here
  have present : p ∈ chain l' := by simp [nodes]
  have other : l' ≠ l := fun same => absent (same ▸ present)
  refine not_allWellFormed _ mem (congrArg (Except.map Prod.snd) called)
    (update_self ..) ?_
  intro zs found'
  have spine'' : Spine (freeNode (setList (relinked s.store n) l
      { list with size := list.size - 1 }) p) list (chain l) := by
    refine spine.congr fun x inside => ?_
    have notP : x ≠ p := fun same => absent (same ▸ inside)
    refine (update_of_ne notP ..).trans (relinked_other fun side => ?_)
    have neighbour := perm_middle.mem_iff.mpr
      (mem_cons_of_mem p (spine'.neighbour here side))
    exact inv.apart l' mem' l mem other x (nodes ▸ neighbour) inside
  have length := congrArg List.length (walk_unique found'.forward spine''.hasNodes.forward)
  rw [length_map, length_map, found'.size, ← spine''.size] at length
  exact sub_one_ne _ (UInt32.toNat_inj.mp length)

attribute [local simp] listRemoveNode

theorem ListsInv.removeNode_absent (absent : p ∉ chain l) :
    ¬ AllWellFormed ((ListEvent.removeNode l p).run s) := by
  obtain ⟨list, found, spine⟩ := inv.spine l mem
  obtain ⟨notHead, notTail⟩ := spine.ends_ne absent
  cases here : s.store.node p with
  | none =>
    refine not_allWellFormed_halt (h := .freed) ?_
    simp [ListEvent.call, getList, found, notHead, notTail, deref, here, Except.map]
  | some n =>
    have noNext : n.next = none → ¬ AllWellFormed ((ListEvent.removeNode l p).run s) := by
      intro next
      refine not_allWellFormed_halt (h := .nullPointer) ?_
      simp [ListEvent.call, getList, found, notHead, notTail, deref, here, next, Except.map]
    by_cases owned : ∀ l' ∈ s.held, p ∉ chain l'
    · exact noNext (inv.stray p n here owned)
    · simp only [not_forall, Classical.not_not] at owned
      obtain ⟨l', mem', present⟩ := owned
      obtain ⟨list', found', spine'⟩ := inv.spine l' mem'
      obtain ⟨xs, ys, nodes⟩ := append_of_mem present
      rw [nodes] at spine'
      obtain ⟨n', here', prev, next⟩ := spine'.node
      cases here.symm.trans here'
      cases ys with
      | nil => exact noNext next
      | cons q ys =>
        rcases eq_nil_or_concat' xs with rfl | ⟨zs, r, rfl⟩
        · refine not_allWellFormed_halt (h := .nullPointer) ?_
          obtain ⟨-, m, there⟩ := spine'.other (spine'.neighbour here (.inr next))
          have prev : n.prev = none := prev
          have next : n.next = some q := next
          simp [ListEvent.call, getList, found, notHead, notTail, deref, here, next, prev, there,
            Except.map]
        · exact inv.removeNode_between mem mem' absent here nodes spine'

theorem ListsInv.removeNode_refused (refused : ¬ (HasNode s.store l p ∧ ¬ IsSingle s.store l)) :
    ¬ AllWellFormed ((ListEvent.removeNode l p).run s) := by
  obtain ⟨list, found, spine⟩ := inv.spine l mem
  by_cases has : HasNode s.store l p
  · have single : IsSingle s.store l := by
      by_contra several
      exact refused ⟨has, several⟩
    obtain ⟨q, nodes⟩ := (isSingle_iff found spine).mp single
    obtain rfl : p = q := by simpa [nodes] using (hasNode_iff found spine).mp has
    rw [nodes] at spine
    have front : (ListEvent.removeNode l p).run s = (ListEvent.removeFront l).run s := by
      have called : listRemoveNode s.store l p = listRemoveFront s.store l := by
        rw [listRemoveNode, getList, found, bind_ok, if_pos spine.single.1]
      rw [ListEvent.run, ListEvent.call, called]
      rfl
    rw [front]
    exact inv.removeFront_single mem single
  · exact inv.removeNode_absent mem fun present => has ((hasNode_iff found spine).mpr present)

end

theorem ListsInv.keeps [Fintype P] (few : Fintype.card P < 2 ^ 32) (inv : ListsInv s chain)
    (made : a.Made s) (safe : a.Safe s.store) : ListsKept (a.run s) := by
  cases a with
  | create l => exact inv.keeps_create made.2
  | insertFront l new v =>
    obtain ⟨some, inhabited⟩ := safe
    obtain ⟨p, rfl⟩ := Option.ne_none_iff_exists'.mp some
    exact inv.keeps_insertFront few made.1 (made.2 p rfl) v inhabited
  | insertBack l new v =>
    obtain ⟨p, rfl⟩ := Option.ne_none_iff_exists'.mp safe
    exact inv.keeps_insertBack few made.1 (made.2 p rfl) v
  | removeNode l node => exact inv.keeps_removeNode made safe.1 safe.2
  | removeFront l => exact inv.keeps_removeFront made safe
  | removeBack l => exact inv.keeps_removeBack made safe
  | popBack l => exact inv.keeps_popBack made safe
  | popFront l => exact inv.keeps_popFront safe
  | merge target source => exact inv.keeps_merge made.1 made.2 safe.1 safe.2

theorem ListsInv.breaks (inv : ListsInv s chain) (made : a.Made s) (refused : ¬ a.Safe s.store) :
    ¬ AllWellFormed (a.run s) := by
  cases a with
  | create l => exact absurd trivial refused
  | insertFront l new v => exact inv.insertFront_refused v made.1 refused
  | insertBack l new v =>
    obtain rfl : new = none := Classical.not_not.mp refused
    exact inv.insertBack_refused v made.1
  | removeNode l node => exact inv.removeNode_refused made refused
  | removeFront l => exact inv.removeFront_single made (Classical.not_not.mp refused)
  | removeBack l => exact inv.removeBack_single made (Classical.not_not.mp refused)
  | popBack l => exact inv.popBack_single made (Classical.not_not.mp refused)
  | popFront l => exact inv.popFront_nodes made refused
  | merge target source => exact inv.merge_nodes made.1 made.2 refused

/-- No list has been created yet. -/
def noLists : ListRun P L V := ⟨⟨fun _ => none, fun _ => none⟩, ∅⟩

def SafeCall (c : Except ListHalt (ListRun P L V)) (a : ListEvent P L V) : Prop :=
  ∃ s, c = .ok s ∧ a.Safe s.store

attribute [local simp] noLists

/-- Well formed exactly if each call is safe where it is made. -/
theorem wellFormed_run_iff [Fintype P] (few : Fintype.card P < 2 ^ 32)
    {trace : List (Except ListHalt (ListRun P L V) × ListEvent P L V)}
    {c : Except ListHalt (ListRun P L V)} (run : Exec ListStep (.ok noLists) trace c) :
    Always AllWellFormed trace c ↔ ∀ e ∈ trace, SafeCall e.1 e.2 := by
  have start : ListsKept (.ok noLists : Except ListHalt (ListRun P L V)) :=
    ⟨noLists, fun _ => [], rfl, by simp, by simp, by simp⟩
  refine exec_always_iff start ?_ ?_ ?_ run
  · rintro c ⟨s, chain, rfl, inv⟩
    exact inv.wellFormed
  · rintro c a c' ⟨s, chain, rfl, inv⟩ ⟨s', same, made, rfl⟩ ⟨s'', same', safe⟩
    cases same
    cases same'
    exact inv.keeps few made safe
  · rintro c a c' ⟨s, chain, rfl, inv⟩ ⟨s', same, made, rfl⟩ refused
    cases same
    exact inv.breaks made fun safe => refused ⟨s, rfl, safe⟩

/-- The first list of a run. -/
def createdList : ListRun (Fin 2) (Fin 1) Unit := ⟨listCreate noLists.store 0, {0}⟩

theorem wellFormed_run_iff_insertBack :
    AllWellFormed ((ListEvent.insertBack 0 (some 0) ()).run createdList) := by
  have created : ListStep (.ok noLists) (.create 0) (.ok createdList) :=
    ⟨noLists, rfl, ⟨rfl, by simp⟩, rfl⟩
  have inserted : ListStep (.ok createdList) (.insertBack 0 (some 0) ())
      ((ListEvent.insertBack 0 (some 0) ()).run createdList) :=
    ⟨createdList, rfl, ⟨by decide, fun _ _ => rfl⟩, rfl⟩
  refine ((wellFormed_run_iff (by decide) ((Exec.refl.next created).next inserted)).mpr ?_).2
  intro e mem
  simp only [nil_append, cons_append, mem_cons, not_mem_nil, or_false] at mem
  rcases mem with rfl | rfl
  · exact ⟨noLists, rfl, trivial⟩
  · exact ⟨createdList, rfl, Option.some_ne_none _⟩

theorem insertions_halt :
    (listInsertFront createdList.store 0 (some 0) ()).map Prod.fst = .error .nullPointer ∧
    ((listInsertBack createdList.store 0 (some 0) ()).bind fun (_, s) =>
      (listRemoveFront s 0).bind fun (_, s) =>
        (listInsertBack s 0 (some 1) ()).map Prod.fst) = .error .freed := by
  constructor <;> rfl

end Elaborato.Mentos.LinkedList
