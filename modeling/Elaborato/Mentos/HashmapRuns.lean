import Mathlib.Data.Fintype.Card
import Mathlib.Data.List.Dedup
import Elaborato.Mentos.HashmapCalls
import Elaborato.Mentos.LinkedListCalls

/-!
Maps from `hashmap_create`: finite maps as long as the bytes of the buckets fit 32 bits.
-/
namespace Elaborato.Mentos.Hashmap
open Foundation LinkedList List Function

theorem charValue_inj {c d : UInt8} : charValue c = charValue d ↔ c = d := by
  rw [charValue, charValue, Int8.toInt_inj]
  exact ⟨fun same => by simpa using congrArg Int8.toUInt8 same, congrArg UInt8.toInt8⟩

attribute [local simp] difference HashmapT.slot

theorem difference_eq_zero {s1 s2 : List UInt8} (noNul : 0 ∉ s1) (noNul' : 0 ∉ s2) :
    difference s1 s2 = 0 ↔ s1 = s2 := by
  induction s2 generalizing s1 with
  | nil =>
    rw [difference, Int.sub_eq_zero, charValue_inj]
    cases s1 with
    | nil => simp
    | cons c s1 =>
      have other : c ≠ 0 := fun same => noNul (same ▸ mem_cons_self)
      simp [other]
  | cons d s2 ih =>
    have rest : 0 ∉ s2 := fun mem => noNul' (mem_cons_of_mem _ mem)
    cases s1 with
    | nil =>
      have other : (0 : UInt8) ≠ d := fun same => noNul' (same ▸ mem_cons_self)
      have differs : charValue 0 - charValue d ≠ 0 := by
        rwa [ne_eq, Int.sub_eq_zero, charValue_inj]
      simp [differs]
    | cons c s1 =>
      have rest' : 0 ∉ s1 := fun mem => noNul (mem_cons_of_mem _ mem)
      by_cases same : c = d
      · simp [same, ih rest' rest]
      · have differs : charValue c - charValue d ≠ 0 := by
          rwa [ne_eq, Int.sub_eq_zero, charValue_inj]
        simp [differs, same]

theorem hashmapStringComp_iff (a b : CString) : hashmapStringComp a b = true ↔ a = b := by
  have same : a = b ↔ a.text = b.text := by
    cases a
    cases b
    simp
  rw [same, ← difference_eq_zero a.noNul b.noNul, hashmapStringComp, beq_iff_eq, strcmp]
  generalize difference a.text b.text = ret
  change (if ret < 0 then (-1 : Int) else if ret > 0 then 1 else 0) = 0 ↔ ret = 0
  split_ifs
  · exact iff_of_false id (by omega)
  · exact iff_of_false one_ne_zero (by omega)
  · exact iff_of_true rfl (by omega)

variable {V E : Type} [DecidableEq E]

section Runs
variable {K : Type} [DecidableEq K]

inductive MapCall (K V E : Type)
  | set (key : K) (value : Option V) (new : E)
  | remove (key : K)
  deriving DecidableEq, Repr

namespace MapCall

def key : MapCall K V E → K
  | set key _ _ => key
  | remove key => key

def run (fuel : ℕ) (s : MapState K V E) : MapCall K V E → Except MapHalt (Option V × MapState K V E)
  | set key value new => hashmapSet fuel s key value new
  | remove key => hashmapRemove fuel s key

def Made (s : MapState K V E) : MapCall K V E → Prop
  | set _ _ new => s.entry new = none
  | remove _ => True

def IsSet : MapCall K V E → Prop
  | set _ _ _ => True
  | remove _ => False

def result : MapCall K V E → Option (Option V)
  | set _ value _ => some value
  | remove _ => none

end MapCall

/-- The finite map that the calls make. -/
def recorded (calls : List (MapCall K V E)) : K → Option (Option V) :=
  calls.foldl (fun f a => update f a.key a.result) fun _ => none

def MapStep (fuel : ℕ) (c : Except MapHalt (MapState K V E)) (a : MapCall K V E)
    (c' : Except MapHalt (MapState K V E)) : Prop :=
  ∃ s, c = .ok s ∧ a.Made s ∧ c' = (a.run fuel s).map Prod.snd

variable {fuel : ℕ} {s s' : MapState K V E} {cells : ℕ → List (E × K × Option V)}
  {a : MapCall K V E} {r : Option V} {key : K}

omit [DecidableEq E] [DecidableEq K] in
theorem find_outside (inv : MapInv s cells) (beyond : ¬ s.map.index key < s.map.room) :
    find fuel s key = .error .outside := by
  simp [find, inv.hash, beyond]

omit [DecidableEq K] in
theorem run_outside (inv : MapInv s cells) (beyond : ¬ s.map.index a.key < s.map.room) :
    a.run fuel s = .error .outside := by
  cases a with
  | set key value new =>
    have out : ¬ s.map.index key < s.map.room := beyond
    simp [MapCall.run, hashmapSet, inv.hash, out]
  | remove key =>
    have out : ¬ s.map.index key < s.map.room := beyond
    simp [MapCall.run, hashmapRemove, inv.hash, out]

def MapCall.Safe (s : MapState K V E) (a : MapCall K V E) : Prop :=
  s.map.index a.key < s.map.room ∧ (a.IsSet ∨ ¬ LoneOther s a.key)

theorem run_stored (inv : MapInv s cells) (made : a.Made s) (safe : a.Safe s)
    (enough : (cells (s.map.index a.key)).length ≤ fuel) :
    ∃ s' cells', a.run fuel s = .ok ((held s.map cells a.key).join, s') ∧
      Stored s cells a.key a.result s' cells' := by
  cases a with
  | set key value new => exact hashmapSet_stored inv safe.1 made enough
  | remove key => exact hashmapRemove_stored inv safe.1 enough (safe.2.resolve_left id)

omit [DecidableEq K] in
theorem run_safe (inv : MapInv s cells) (enough : (cells (s.map.index a.key)).length ≤ fuel)
    (done : a.run fuel s = .ok (r, s')) : a.Safe s := by
  have inside : s.map.index a.key < s.map.room := by
    by_contra beyond
    rw [run_outside inv beyond] at done
    cases done
  refine ⟨inside, ?_⟩
  cases a with
  | set key value new => exact .inl trivial
  | remove key =>
    refine .inr fun lone => ?_
    have some : cells (s.map.index key) ≠ [] := by
      intro none
      obtain ⟨x, e, start, -⟩ := lone
      exact Option.some_ne_none x (start.symm.trans ((inv.chain _ inside).nil_iff.mpr none))
    have positive : 0 < fuel := Nat.lt_of_lt_of_le (length_pos_iff.mpr some) enough
    obtain ⟨n, rfl⟩ := Nat.exists_eq_add_one.mpr positive
    cases (hashmapRemove_lone inv inside lone).symm.trans done

theorem mapInv_run (inv : MapInv s cells) (holds : held s.map cells = fun _ => none)
    (short : ∀ i, cells i = [])
    {trace : List (Except MapHalt (MapState K V E) × MapCall K V E)}
    (run : Exec (MapStep fuel) (.ok s) trace (.ok s')) (enough : trace.length ≤ fuel) :
    ∃ cells', MapInv s' cells' ∧ (∃ entries, s'.map = { s.map with entries }) ∧
      held s'.map cells' = recorded (trace.map Prod.snd) ∧
      ∀ i, (cells' i).length ≤ trace.length := by
  generalize last : (Except.ok s' : Except MapHalt (MapState K V E)) = c at run
  induction run generalizing s' with
  | refl =>
    cases last
    exact ⟨cells, inv, ⟨s.map.entries, rfl⟩, holds, fun i => by simp [short i]⟩
  | @next trace c c' a run hstep ih =>
    obtain ⟨t, rfl, made, rfl⟩ := hstep
    rw [length_append, length_singleton] at enough
    obtain ⟨cells₁, inv₁, ⟨entries₁, shape₁⟩, held₁, short₁⟩ := ih (by omega) rfl
    cases called : a.run fuel t with
    | error halt =>
      rw [called] at last
      cases last
    | ok answer =>
      rw [called] at last
      cases last
      have enough' : (cells₁ (t.map.index a.key)).length ≤ fuel := (short₁ _).trans (by omega)
      obtain ⟨t', cells', called', stored⟩ := run_stored inv₁ made
        (run_safe inv₁ enough' called) enough'
      cases called.symm.trans called'
      obtain ⟨entries, shape⟩ := stored.shape
      refine ⟨cells', stored.inv, ⟨entries, ?_⟩, ?_, fun i => ?_⟩
      · rw [shape, shape₁]
      · rw [stored.held, held₁, recorded, recorded, map_append, foldl_append]
        rfl
      · rw [length_append, length_singleton]
        exact (stored.length i).trans (Nat.add_le_add_right (short₁ i) 1)

end Runs

section Keys
variable {K P L : Type} [DecidableEq P] [DecidableEq L] {s : MapState K V E}
  {cells : ℕ → List (E × K × Option V)} {store store' : Store P L K} {l : L} {list : ListT P}
  {xs nodes : List P} {ks : List K} {fuel : ℕ}

/-- The list has the values, in this order. -/
def ListsValues (store : Store P L K) (l : L) (ks : List K) : Prop :=
  ∃ list xs, store.list l = some list ∧ HasNodes store list xs ∧
    xs.map (fun p => (store.node p).bind ListNode.value) = ks.map some

structure Gathered (store : Store P L K) (l : L) (ks : List K) (nodes : List P) : Prop where
  list : ∃ list xs, store.list l = some list ∧ Spine store list xs ∧
    xs.map (fun p => (store.node p).bind ListNode.value) = ks.map some
  fresh : ∀ p ∈ nodes, store.node p = none
  nodup : nodes.Nodup

omit [DecidableEq L] in
theorem Gathered.lists (gathered : Gathered store l ks nodes) : ListsValues store l ks := by
  obtain ⟨list, xs, found, spine, values⟩ := gathered.list
  exact ⟨list, xs, found, spine.hasNodes, values⟩

omit [DecidableEq P] in
theorem gathered_create (fresh : ∀ p ∈ nodes, store.node p = none) (nodup : nodes.Nodup) :
    Gathered (listCreate store l) l [] nodes := by
  refine ⟨⟨_, [], update_self .., ⟨⟨rfl, rfl⟩, nodup_nil, ?_, rfl⟩, rfl⟩, fresh, nodup⟩
  exact fun p mem => absurd mem not_mem_nil

theorem Gathered.insertBack [Fintype P] (few : Fintype.card P < 2 ^ 32) {p : P}
    (gathered : Gathered store l ks (p :: nodes)) (k : K) :
    ∃ store', listInsertBack store l (some p) k = .ok (p, store') ∧
      Gathered store' l (ks ++ [k]) nodes := by
  obtain ⟨list, xs, found, spine, values⟩ := gathered.list
  have fresh := gathered.fresh p mem_cons_self
  have absent := spine.fresh_ne fresh
  have room : xs.length + 1 < 2 ^ 32 :=
    (List.Nodup.length_le_card (nodup_cons.mpr ⟨absent, spine.nodup⟩)).trans_lt few
  obtain ⟨store', list', called, appended, lists⟩ := listInsertBack_appended k found spine fresh
  have changed := appended.changed spine fresh room lists
  obtain ⟨list'', found', spine'⟩ := changed.list
  obtain ⟨notNew, nodup⟩ := nodup_cons.mp gathered.nodup
  refine ⟨store', called, ⟨list'', xs ++ [p], ?_, spine', ?_⟩, fun q mem => ?_, nodup⟩
  · rw [found', update_self]
  · rw [map_append, map_append, ← values, map_singleton, map_singleton,
      appended.new]
    refine congrArg (· ++ [some k]) (map_congr_left fun x mem => ?_)
    rw [appended.nodes x fun same => absent (same ▸ mem)]
    simp only [withNext]
    cases store.node x with
    | none | some n => rfl
  · have free := gathered.fresh q (mem_cons_of_mem _ mem)
    have out := spine.fresh_ne free
    rw [changed.others q out]
    · exact free
    · rw [mem_append, mem_singleton]
      rintro (inside | rfl)
      · exact out inside
      · exact notNew mem

omit [DecidableEq E] in
theorem insertKeys_gathered [Fintype P] (few : Fintype.card P < 2 ^ 32) {x : Option E}
    {m : E → Option (HashmapEntry K V E)} {bucket : List (E × K × Option V)}
    (chain : Chain m x bucket none) (gathered : Gathered store l ks nodes)
    (enough : bucket.length ≤ fuel) (memory : bucket.length ≤ nodes.length) :
    ∃ store', insertKeys m l fuel x (store, nodes) = .ok (store', nodes.drop bucket.length) ∧
      Gathered store' l (ks ++ cellKeys bucket) (nodes.drop bucket.length) := by
  induction bucket generalizing x store ks nodes fuel with
  | nil =>
    cases chain
    exact ⟨store, by rw [insertKeys]; rfl, by simpa using gathered⟩
  | cons cell bucket ih =>
    obtain ⟨rfl, ⟨k, v, next⟩, found, carried, chain⟩ := chain
    obtain ⟨fuel, rfl⟩ := Nat.exists_eq_add_one.mpr (Nat.zero_lt_of_lt enough)
    cases nodes with
    | nil => exact absurd memory (Nat.not_succ_le_zero _)
    | cons p nodes =>
      obtain ⟨store₁, called, gathered₁⟩ := gathered.insertBack few k
      obtain ⟨store', done, gathered'⟩ := ih chain gathered₁ (Nat.le_of_succ_le_succ enough)
        (Nat.le_of_succ_le_succ memory)
      refine ⟨store', ?_, ?_⟩
      · simp only [insertKeys, deref_of_entry found, bind_ok, head?_cons, called,
          Except.mapError, tail_cons, done, length_cons, drop_succ_cons]
      · have key : cell.2.1 = k := (congrArg Prod.fst carried).symm
        simpa [key] using gathered'

/-- The keys in the first buckets. -/
def keysBelow (cells : ℕ → List (E × K × Option V)) (n : ℕ) : List K :=
  (List.range n).flatMap fun i => cellKeys (cells i)

omit [DecidableEq E] in
theorem keysBelow_succ (cells : ℕ → List (E × K × Option V)) (n : ℕ) :
    keysBelow cells (n + 1) = keysBelow cells n ++ cellKeys (cells n) := by
  simp [keysBelow, range_succ]

omit [DecidableEq E] in
theorem insertBucket_inside {st st' : Store P L K × List P} {n : ℕ}
    (done : (List.range n).foldlM (insertBucket fuel s l) st = .ok st') : n ≤ s.map.room := by
  cases n with
  | zero => exact Nat.zero_le _
  | succ n =>
    by_contra beyond
    have out : ¬ n < s.map.room := by omega
    rw [range_succ, foldlM_append] at done
    cases before : (List.range n).foldlM (insertBucket fuel s l) st with
    | error halt =>
      rw [before] at done
      cases done
    | ok st₁ =>
      rw [before, bind_ok, foldlM_cons, insertBucket, HashmapT.slot, if_neg out] at done
      cases done

omit [DecidableEq E] in
theorem keysBelow_nodup (inv : MapInv s cells) (n : ℕ) : (keysBelow cells n).Nodup := by
  induction n with
  | zero => exact nodup_nil
  | succ n ih =>
    rw [keysBelow_succ]
    refine nodup_append.mpr ⟨ih, inv.once n, ?_⟩
    rintro k mem k' mem' rfl
    obtain ⟨i, below, mem⟩ := mem_flatMap.mp mem
    obtain ⟨c, inside, rfl⟩ := mem_map.mp mem
    obtain ⟨d, inside', same⟩ := mem_map.mp mem'
    have index := inv.keyed i c inside
    rw [← same, inv.keyed n d inside'] at index
    exact Nat.lt_irrefl n (mem_range.mp (index ▸ below))

omit [DecidableEq E] in
theorem mem_keysBelow [DecidableEq K] (inv : MapInv s cells) {k : K} :
    k ∈ keysBelow cells s.map.size.toNat ↔ (held s.map cells k).isSome := by
  have below : s.map.index k < s.map.size.toNat := by
    rw [HashmapT.index, UInt32.toNat_mod]
    refine Nat.mod_lt _ (Nat.pos_of_ne_zero fun zero => inv.sized ?_)
    rwa [← UInt32.toNat_inj]
  rw [held, Option.isSome_iff_ne_none, ne_eq, lookup_none_iff, Classical.not_not, map_map]
  constructor
  · intro mem
    obtain ⟨i, -, mem⟩ := mem_flatMap.mp mem
    obtain ⟨c, inside, rfl⟩ := mem_map.mp mem
    rw [inv.keyed i c inside]
    exact mem
  · exact fun mem => mem_flatMap.mpr ⟨_, mem_range.mpr below, mem⟩

omit [DecidableEq E] in
theorem insertKeys_below [Fintype P] (few : Fintype.card P < 2 ^ 32) (inv : MapInv s cells)
    (enough : ∀ i, (cells i).length ≤ fuel) (gathered : Gathered store l [] nodes) {n : ℕ}
    (inside : n ≤ s.map.room) (memory : (keysBelow cells n).length ≤ nodes.length) :
    ∃ store', (List.range n).foldlM (insertBucket fuel s l) (store, nodes) =
        .ok (store', nodes.drop (keysBelow cells n).length) ∧
      Gathered store' l (keysBelow cells n) (nodes.drop (keysBelow cells n).length) := by
  induction n with
  | zero => exact ⟨store, rfl, gathered⟩
  | succ n ih =>
    rw [keysBelow_succ, length_append, length_map] at memory
    obtain ⟨store₁, done₁, gathered₁⟩ := ih (by omega) (by omega)
    obtain ⟨store', done, gathered'⟩ := insertKeys_gathered few (inv.chain n inside) gathered₁
      (enough n) (by rw [length_drop]; omega)
    rw [drop_drop] at done gathered'
    refine ⟨store', ?_, ?_⟩
    · rw [range_succ, foldlM_append, done₁, bind_ok, foldlM_cons,
        insertBucket, slot_of_lt inside, bind_ok, done, keysBelow_succ, length_append,
        length_map]
      rfl
    · rw [keysBelow_succ, length_append, length_map]
      exact gathered'

end Keys

variable {P L : Type} [DecidableEq P] [DecidableEq L] {size : UInt32} {fuel : ℕ}
  {s s' : MapState CString V E} {c : Except MapHalt (MapState CString V E)}
  {trace : List (Except MapHalt (MapState CString V E) × MapCall CString V E)}

def newMap (size : UInt32) : MapState CString V E := ⟨hashmapCreate size, fun _ => none⟩

omit [DecidableEq E] in
theorem room_create (size : UInt32) :
    (hashmapCreate size : HashmapT CString E).room = size.toNat % 2 ^ 30 := by
  change (4 * size).toNat / 4 = _
  rw [UInt32.toNat_mul, show (4 : UInt32).toNat = 4 from rfl]
  omega

omit [DecidableEq E] in
theorem newMap_inv (positive : size ≠ 0) :
    MapInv (newMap size : MapState CString V E) fun _ => [] := by
  refine ⟨hashmapStringComp_iff, positive, fun i _ => rfl, fun i _ => rfl, ?_, fun i => ?_⟩
  · exact fun i c mem => absurd mem not_mem_nil
  · exact nodup_nil

theorem newMap_run (positive : size ≠ 0)
    (run : Exec (MapStep fuel) (.ok (newMap size)) trace (.ok s)) (enough : trace.length ≤ fuel) :
    ∃ cells, MapInv s cells ∧ s.map.size = size ∧ s.map.room = size.toNat % 2 ^ 30 ∧
      held s.map cells = recorded (trace.map Prod.snd) ∧
      ∀ i, (cells i).length ≤ trace.length := by
  obtain ⟨cells, inv, ⟨entries, shape⟩, holds, short⟩ :=
    mapInv_run (newMap_inv positive) rfl (fun _ => rfl) run enough
  refine ⟨cells, inv, ?_, ?_, holds, short⟩
  · rw [shape]
    rfl
  · rw [shape]
    exact room_create (E := E) size

structure Refined (fuel : ℕ)
    (trace : List (Except MapHalt (MapState CString V E) × MapCall CString V E))
    (c : Except MapHalt (MapState CString V E)) (store : Store P L CString) (l : L)
    (nodes : List P) : Prop where
  answers : ∀ before e after, trace = before ++ e :: after → ∃ s s', e.1 = .ok s ∧
    e.2.run fuel s = .ok ((recorded (before.map Prod.snd) e.2.key).join, s')
  reads : ∃ s, c = .ok s ∧ ∀ k,
    hashmapGet fuel s k = .ok (recorded (trace.map Prod.snd) k).join ∧
    hashmapHas fuel s k = .ok (recorded (trace.map Prod.snd) k).isSome
  keys : ∃ s store' rest ks, c = .ok s ∧ hashmapKeys fuel s store l nodes = .ok (store', rest) ∧
    ListsValues store' l ks ∧ ks.Nodup ∧
    ∀ k, k ∈ ks ↔ (recorded (trace.map Prod.snd) k).isSome

omit [DecidableEq E] in
theorem recorded_concat {K : Type} [DecidableEq K] (calls : List (MapCall K V E))
    (a : MapCall K V E) :
    recorded (calls ++ [a]) = update (recorded calls) a.key a.result := by
  rw [recorded, foldl_append]
  rfl

omit [DecidableEq E] in
theorem mem_of_recorded {K : Type} [DecidableEq K] {calls : List (MapCall K V E)} {k : K}
    (holds : (recorded calls k).isSome) : k ∈ calls.map MapCall.key := by
  induction calls using List.reverseRecOn with
  | nil => exact absurd holds Bool.false_ne_true
  | append_singleton calls a ih =>
    rw [map_append, mem_append]
    by_cases same : k = a.key
    · exact .inr (mem_singleton.mpr same)
    · rw [recorded_concat, update_of_ne same] at holds
      exact .inl (ih holds)

omit [DecidableEq E] in
theorem index_lt {cells : ℕ → List (E × CString × Option V)} (inv : MapInv s cells)
    (full : s.map.room = s.map.size.toNat) (key : CString) : s.map.index key < s.map.room := by
  rw [full, HashmapT.index, UInt32.toNat_mod]
  refine Nat.mod_lt _ (Nat.pos_of_ne_zero fun zero => inv.sized ?_)
  rwa [← UInt32.toNat_inj]

theorem set_answers (positive : size ≠ 0) (small : size.toNat < 2 ^ 30)
    (run : Exec (MapStep fuel) (.ok (newMap size)) trace (.ok s)) (enough : trace.length ≤ fuel)
    {a : MapCall CString V E} (made : a.Made s) (isSet : a.IsSet) :
    ∃ s', a.run fuel s = .ok ((recorded (trace.map Prod.snd) a.key).join, s') := by
  obtain ⟨cells, inv, sized, room, holds, short⟩ := newMap_run positive run enough
  have full : s.map.room = s.map.size.toNat := by
    rw [room, sized, Nat.mod_eq_of_lt small]
  obtain ⟨s', -, called, -⟩ := run_stored inv made ⟨index_lt inv full a.key, .inl isSet⟩
    ((short _).trans enough)
  rw [holds] at called
  exact ⟨s', called⟩

theorem sets_return (positive : size ≠ 0) (small : size.toNat < 2 ^ 30)
    (run : Exec (MapStep fuel) (.ok (newMap size)) trace c) (enough : trace.length ≤ fuel)
    (sets : ∀ e ∈ trace, e.2.IsSet) : ∃ s, c = .ok s := by
  cases run with
  | refl => exact ⟨_, rfl⟩
  | @next trace _ _ a run hstep =>
    obtain ⟨s, rfl, made, rfl⟩ := hstep
    rw [length_append, length_singleton] at enough
    obtain ⟨s', called⟩ := set_answers positive small run (by omega) made
      (sets (.ok s, a) (by simp))
    rw [called]
    exact ⟨s', rfl⟩

/-- A finite map exactly if the size in bytes of the buckets does not overflow. -/
theorem refined_iff [Fintype P] (few : Fintype.card P < 2 ^ 32) (positive : size ≠ 0)
    (run : Exec (MapStep fuel) (.ok (newMap size)) trace c) (enough : trace.length ≤ fuel)
    (sets : ∀ e ∈ trace, e.2.IsSet) {store : Store P L CString} {l : L} {nodes : List P}
    (nodup : nodes.Nodup) (fresh : ∀ p ∈ nodes, store.node p = none)
    (memory : (trace.map fun e => e.2.key).dedup.length ≤ nodes.length) :
    Refined fuel trace c store l nodes ↔ size.toNat < 2 ^ 30 := by
  constructor
  · intro refined
    obtain ⟨s, store', rest, ks, rfl, listed, -⟩ := refined.keys
    obtain ⟨cells, inv, sized, room, -⟩ := newMap_run positive run enough
    have inside := insertBucket_inside listed
    rw [sized, room] at inside
    omega
  · intro small
    obtain ⟨s, rfl⟩ := sets_return positive small run enough sets
    obtain ⟨cells, inv, sized, room, holds, short⟩ := newMap_run positive run enough
    have full : s.map.room = s.map.size.toNat := by
      rw [room, sized, Nat.mod_eq_of_lt small]
    refine ⟨fun before e after split => ?_, ⟨s, rfl, fun k => ?_⟩, ?_⟩
    · obtain ⟨c, a⟩ := e
      subst split
      obtain ⟨u, first, ⟨s₁, rfl, made, -⟩, -⟩ := exec_split run
      rw [length_append] at enough
      obtain ⟨s', called⟩ := set_answers positive small first (by omega) made
        (sets (.ok s₁, a) (by simp))
      exact ⟨s₁, s', rfl, called⟩
    · rw [← holds]
      have inside := index_lt inv full k
      have enough' := (short (s.map.index k)).trans enough
      exact ⟨hashmapGet_held inv inside enough', hashmapHas_held inv inside enough'⟩
    · have once := keysBelow_nodup inv s.map.size.toNat
      have memory' : (keysBelow cells s.map.size.toNat).length ≤ nodes.length := by
        refine (subperm_of_subset once fun k mem => ?_).length_le.trans memory
        rw [mem_keysBelow inv, holds] at mem
        have called := mem_of_recorded mem
        rw [map_map] at called
        exact mem_dedup.mpr called
      obtain ⟨store', listed, gathered⟩ := insertKeys_below few inv
        (fun i => (short i).trans enough) (gathered_create (l := l) fresh nodup) full.ge memory'
      refine ⟨s, store', _, _, rfl, listed, gathered.lists, once, fun k => ?_⟩
      rw [mem_keysBelow inv, holds]

/-- The text "a". -/
def textA : CString := ⟨[97], by decide⟩

/-- The text "b". -/
def textB : CString := ⟨[98], by decide⟩

def mapWithA : MapState CString ℕ Bool :=
  ⟨(hashmapCreate 1).setSlot 0 (some false), setEntry (fun _ => none) false ⟨textA, some 5, none⟩⟩

theorem mapWithA_step (fuel : ℕ) :
    MapStep fuel (.ok (newMap 1)) (.set textA (some 5) false) (.ok mapWithA) :=
  ⟨newMap 1, rfl, rfl, rfl⟩

theorem refined_iff_mapWithA :
    Refined 1 [(.ok (newMap 1), .set textA (some 5) false)] (.ok mapWithA)
      (⟨fun _ => none, fun _ => none⟩ : Store (Fin 1) (Fin 1) CString) 0 [0] := by
  refine (refined_iff (by decide) (by decide) (Exec.refl.next (mapWithA_step 1)) le_rfl ?_
    (nodup_singleton 0) (fun _ _ => rfl) (by decide)).mpr (by decide)
  intro e mem
  rw [nil_append, mem_singleton] at mem
  rw [mem]
  trivial

theorem hashmapSet_outside :
    (hashmapSet 1 (newMap 0x40000000 : MapState CString ℕ Unit) textA (some 5) ()).map Prod.fst =
      .error .outside := by
  decide

/-- The key is taken out and nothing else. -/
structure Removes (fuel : ℕ) (s : MapState CString V E) (key : CString) : Prop where
  answer : ∃ r s', hashmapRemove fuel s key = .ok (r, s') ∧ hashmapGet fuel s key = .ok r ∧
    hashmapGet fuel s' key = .ok none ∧ hashmapHas fuel s' key = .ok false ∧
    ∀ k ≠ key, hashmapGet fuel s' k = hashmapGet fuel s k ∧
      hashmapHas fuel s' k = hashmapHas fuel s k

/-- Right exactly if the bucket of the key has not one entry of another key alone. -/
theorem removes_iff (positive : size ≠ 0)
    (run : Exec (MapStep fuel) (.ok (newMap size)) trace (.ok s)) (enough : trace.length < fuel)
    (key : CString) :
    Removes fuel s key ↔ s.map.index key < s.map.room ∧ ¬ LoneOther s key := by
  obtain ⟨cells, inv, -, -, -, short⟩ := newMap_run positive run enough.le
  have enough' : ∀ i, (cells i).length ≤ fuel := fun i => (short i).trans enough.le
  constructor
  · rintro ⟨r, s', called, -⟩
    have safe : (MapCall.remove key : MapCall CString V E).Safe s :=
      run_safe inv (enough' _) called
    exact ⟨safe.1, safe.2.resolve_left id⟩
  · rintro ⟨inside, more⟩
    obtain ⟨s', cells', called, stored⟩ := hashmapRemove_stored inv inside (enough' _) more
    obtain ⟨entries, shape⟩ := stored.shape
    have index : ∀ k, s'.map.index k = s.map.index k := fun k => by rw [shape]; rfl
    have room : s'.map.room = s.map.room := by rw [shape]
    have enough'' : ∀ i, (cells' i).length ≤ fuel := fun i =>
      (stored.length i).trans ((Nat.add_le_add_right (short i) 1).trans enough)
    have inside' : s'.map.index key < s'.map.room := by rwa [index, room]
    refine ⟨_, s', called, hashmapGet_held inv inside (enough' _), ?_, ?_, fun k other => ?_⟩
    · rw [hashmapGet_held stored.inv inside' (enough'' _), stored.held, update_self]
      rfl
    · rw [hashmapHas_held stored.inv inside' (enough'' _), stored.held, update_self]
      rfl
    · by_cases within : s.map.index k < s.map.room
      · have within' : s'.map.index k < s'.map.room := by rwa [index, room]
        rw [hashmapGet_held stored.inv within' (enough'' _),
          hashmapGet_held inv within (enough' _), hashmapHas_held stored.inv within' (enough'' _),
          hashmapHas_held inv within (enough' _), stored.held, update_of_ne other]
        exact ⟨rfl, rfl⟩
      · have beyond : ¬ s'.map.index k < s'.map.room := by rwa [index, room]
        rw [hashmapGet, hashmapGet, hashmapHas, hashmapHas, find_outside inv within,
          find_outside stored.inv beyond]
        exact ⟨rfl, rfl⟩

theorem removes_iff_mapWithA : Removes 2 mapWithA textA := by
  refine (removes_iff (by decide) (Exec.refl.next (mapWithA_step 2)) (by decide) textA).mpr
    ⟨by decide, ?_⟩
  rintro ⟨x, e, start, found, -, other⟩
  cases start
  cases found
  exact other rfl

theorem hashmapRemove_null :
    (hashmapRemove 2 mapWithA textB).map Prod.fst = .error .nullPointer := by
  decide

end Elaborato.Mentos.Hashmap
