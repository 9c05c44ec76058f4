import Elaborato.Foundation.Chains
import Elaborato.Mentos.Hashmap

/-!
The functions on a map whose buckets are chains, as on a finite map.
-/
namespace Elaborato.Mentos.Hashmap
open Foundation LinkedList List Function

variable {K V E : Type}

/-- The key and the value of an entry. -/
def HashmapEntry.pair (e : HashmapEntry K V E) : K × Option V := (e.key, e.value)

abbrev Chain (m : E → Option (HashmapEntry K V E)) : Option E → List (E × K × Option V) →
    Option E → Prop :=
  Linked HashmapEntry.pair HashmapEntry.next m

abbrev cellKeys (cells : List (E × K × Option V)) : List K := cells.map fun c => c.2.1

variable {m : E → Option (HashmapEntry K V E)} {comp : K → K → Bool} {key k : K} {v : Option V}
  {x p : Option E} {a b : E} {fuel : ℕ} {before after : List (E × K × Option V)}

theorem deref_of_entry {e : HashmapEntry K V E} (found : m a = some e) :
    deref m (some a) = .ok (a, e) := by
  simp [deref, found]

section
variable (lawful : ∀ a b, comp a b = true ↔ a = b)
include lawful

theorem comp_ne (other : k ≠ key) : comp k key = false := by
  rw [Bool.eq_false_iff, ne_eq, lawful]
  exact other

omit lawful in
theorem last_cons (c : E × K × Option V) (before : List (E × K × Option V)) :
    ((c :: before).getLast?.map Prod.fst).or p = (before.getLast?.map Prod.fst).or (some c.1) := by
  cases before with
  | nil => rfl
  | cons d before =>
    rw [getLast?_cons_cons, getLast?_eq_some_getLast (cons_ne_nil d before)]
    rfl

theorem seek_passed (chain : Chain m x (before ++ after) none) (more : after ≠ [])
    (first : key ∉ cellKeys before) (enough : before.length < fuel) :
    ∃ left y, seek comp m key fuel p x =
        seek comp m key (left + 1) ((before.getLast?.map Prod.fst).or p) y ∧
      Chain m y after none := by
  induction before generalizing x p fuel with
  | nil =>
    obtain ⟨fuel, rfl⟩ := Nat.exists_eq_add_one.mpr enough
    exact ⟨fuel, x, rfl, chain⟩
  | cons cell before ih =>
    obtain ⟨rfl, ⟨k, v, next⟩, found, carried, chain⟩ := chain
    obtain ⟨fuel, rfl⟩ := Nat.exists_eq_add_one.mpr (Nat.zero_lt_of_lt enough)
    have other : k ≠ key := fun same => first (by simp [← carried, HashmapEntry.pair, same])
    cases next with
    | none => exact absurd (append_eq_nil_iff.mp (chain.nil_iff.mp rfl)).2 more
    | some y =>
      obtain ⟨left, y', later, rest⟩ := ih (p := some cell.1) chain
        (fun mem => first (mem_cons_of_mem _ mem)) (Nat.lt_of_succ_lt_succ enough)
      refine ⟨left, y', ?_, rest⟩
      rw [last_cons, ← later]
      simp [seek, deref_of_entry found, comp_ne lawful other]

theorem seek_found (chain : Chain m x (before ++ (a, key, v) :: after) none)
    (first : key ∉ cellKeys before) (enough : before.length < fuel) :
    ∃ next, seek comp m key fuel p x =
        .ok ((before.getLast?.map Prod.fst).or p, some (a, ⟨key, v, next⟩)) ∧
      m a = some ⟨key, v, next⟩ ∧ Chain m next after none := by
  obtain ⟨left, y, passed, rfl, ⟨key', v', next⟩, found, carried, rest⟩ :=
    seek_passed (p := p) lawful chain (cons_ne_nil _ _) first enough
  cases carried
  refine ⟨next, ?_, found, rest⟩
  rw [passed]
  simp [seek, deref_of_entry found, (lawful key' key').mpr rfl]

theorem seek_absent (chain : Chain m x (before ++ [(a, k, v)]) none)
    (absent : key ∉ cellKeys (before ++ [(a, k, v)])) (enough : before.length < fuel) :
    seek comp m key fuel p x = .ok (some a, none) := by
  rw [cellKeys, map_append, mem_append, not_or] at absent
  obtain ⟨left, y, passed, rfl, ⟨key', v', next⟩, found, carried, rfl⟩ :=
    seek_passed (p := p) lawful chain (cons_ne_nil _ _) absent.1 enough
  cases carried
  have other : key' ≠ key := fun same => absent.2 (same ▸ mem_cons_self)
  rw [passed]
  simp [seek, deref_of_entry found, comp_ne lawful other]

end

/-- The bucket of a key. -/
def HashmapT.index (map : HashmapT K E) (key : K) : ℕ := (map.hashFunc key % map.size).toNat

structure MapInv (s : MapState K V E) (cells : ℕ → List (E × K × Option V)) : Prop where
  lawful : ∀ a b, s.map.hashComp a b = true ↔ a = b
  sized : s.map.size ≠ 0
  chain : ∀ i < s.map.room, Chain s.entry (s.map.entries i) (cells i) none
  empty : ∀ i, s.map.room ≤ i → cells i = []
  keyed : ∀ i, ∀ c ∈ cells i, s.map.index c.2.1 = i
  once : ∀ i, (cellKeys (cells i)).Nodup

/-- What the map holds for a key. -/
def held [DecidableEq K] (map : HashmapT K E) (cells : ℕ → List (E × K × Option V)) (key : K) :
    Option (Option V) :=
  ((cells (map.index key)).map Prod.snd).lookup key

variable {s : MapState K V E} {cells : ℕ → List (E × K × Option V)} {i j : ℕ} {new : E}
  {c : E × K × Option V}

section
variable (inv : MapInv s cells)
include inv

theorem MapInv.cell (mem : c ∈ cells i) : ∃ e, s.entry c.1 = some e ∧ e.pair = c.2 := by
  rcases Nat.lt_or_ge i s.map.room with inside | beyond
  · exact (inv.chain i inside).cell mem
  · rw [inv.empty i beyond] at mem
    exact absurd mem not_mem_nil

theorem MapInv.same_of_address {d : E × K × Option V} (mem : c ∈ cells i) (mem' : d ∈ cells j)
    (same : c.1 = d.1) : c = d ∧ i = j := by
  obtain ⟨e, found, carried⟩ := inv.cell mem
  obtain ⟨e', found', carried'⟩ := inv.cell mem'
  rw [same] at found
  cases found.symm.trans found'
  have whole : c = d := Prod.ext same (carried.symm.trans carried')
  refine ⟨whole, ?_⟩
  rw [← inv.keyed i c mem, ← inv.keyed j d mem', whole]

theorem MapInv.elsewhere (split : cells i = before ++ (a, k, v) :: after)
    (mem : c ∈ before ++ after) : c.1 ≠ a := by
  intro same
  have inside : c ∈ cells i := by
    rw [split]
    exact perm_middle.mem_iff.mpr (mem_cons_of_mem _ mem)
  have here : (a, k, v) ∈ cells i := by
    rw [split]
    exact mem_append_right _ mem_cons_self
  obtain ⟨rfl, -⟩ := inv.same_of_address inside here same
  have once := inv.once i
  rw [split, (perm_middle.map _).nodup_iff] at once
  exact (nodup_cons.mp once).1 (mem_map_of_mem mem)

omit inv in
theorem bucket_cases [DecidableEq K] (key : K) {bucket : List (E × K × Option V)}
    (once : (cellKeys bucket).Nodup) :
    bucket = [] ∨
    (∃ before a v after, bucket = before ++ (a, key, v) :: after ∧
      key ∉ cellKeys (before ++ after)) ∨
    (key ∉ cellKeys bucket ∧ ∃ before a k v, bucket = before ++ [(a, k, v)]) := by
  by_cases mem : key ∈ cellKeys bucket
  · obtain ⟨⟨a, k, v⟩, inside, rfl⟩ := mem_map.mp mem
    obtain ⟨before, after, rfl⟩ := append_of_mem inside
    rw [(perm_middle.map _).nodup_iff] at once
    exact .inr (.inl ⟨before, a, v, after, rfl, (nodup_cons.mp once).1⟩)
  · rcases eq_nil_or_concat' bucket with rfl | ⟨before, ⟨a, k, v⟩, rfl⟩
    · exact .inl rfl
    · exact .inr (.inr ⟨mem, before, a, k, v, rfl⟩)

theorem MapInv.fresh_ne (fresh : s.entry new = none) (mem : c ∈ cells i) : c.1 ≠ new := by
  rintro rfl
  obtain ⟨e, found, -⟩ := inv.cell mem
  cases fresh.symm.trans found

theorem MapInv.other_bucket (mem : (a, k, v) ∈ cells i) (other : j ≠ i) (mem' : c ∈ cells j) :
    c.1 ≠ a := fun same => other (inv.same_of_address mem' mem same).2

end

attribute [local simp] HashmapT.setSlot Except.map

theorem setSlot_self (map : HashmapT K E) (i : ℕ) : map.setSlot i (map.entries i) = map := by
  simp

theorem not_before (absent : key ∉ cellKeys (before ++ after)) : key ∉ cellKeys before := by
  intro mem
  rw [cellKeys, map_append] at absent
  exact absent (mem_append_left _ mem)

theorem MapInv.hash (inv : MapInv s cells) (key : K) : s.map.hash key = .ok (s.map.index key) :=
  if_neg inv.sized

theorem slot_of_lt {map : HashmapT K E} (inside : i < map.room) :
    map.slot i = .ok (map.entries i) :=
  if_pos inside

theorem before_lt {fuel : ℕ} (enough : (cells i).length ≤ fuel)
    (split : cells i = before ++ c :: after) : before.length < fuel := by
  rw [split, length_append, length_cons] at enough
  omega

variable [DecidableEq K] {s' : MapState K V E} {cells' : ℕ → List (E × K × Option V)}
  {bucket : List (E × K × Option V)} {w : Option V}

theorem lookup_cells_none (absent : key ∉ cellKeys bucket) :
    (bucket.map Prod.snd).lookup key = none := by
  rw [lookup_none_iff, map_map]
  exact absent

theorem lookup_cells_between (first : key ∉ cellKeys before) :
    ((before ++ (a, key, v) :: after).map Prod.snd).lookup k =
      if k = key then some v else ((before ++ after).map Prod.snd).lookup k := by
  rw [map_append, map_cons, map_append]
  refine lookup_between ?_
  rw [map_map]
  exact first

theorem lookup_cells_key (first : key ∉ cellKeys before) :
    ((before ++ (a, key, v) :: after).map Prod.snd).lookup key = some v := by
  rw [lookup_cells_between first, if_pos rfl]

structure Stored (s : MapState K V E) (cells : ℕ → List (E × K × Option V)) (key : K)
    (w : Option (Option V)) (s' : MapState K V E) (cells' : ℕ → List (E × K × Option V)) :
    Prop where
  inv : MapInv s' cells'
  shape : ∃ entries, s'.map = { s.map with entries }
  held : held s'.map cells' = update (held s.map cells) key w
  length : ∀ i, (cells' i).length ≤ (cells i).length + 1

variable (inv : MapInv s cells) (inside : s.map.index key < s.map.room)
include inv inside

omit [DecidableEq K] in
theorem exists_slot (some : cells (s.map.index key) ≠ []) :
    ∃ x, s.map.entries (s.map.index key) = .some x := by
  rw [← Option.ne_none_iff_exists']
  exact fun none => some ((inv.chain _ inside).nil_iff.mp none)

section
variable (enough : (cells (s.map.index key)).length ≤ fuel)
include enough

omit [DecidableEq K] in
theorem seek_key (split : cells (s.map.index key) = before ++ (a, key, v) :: after)
    (first : key ∉ cellKeys before) :
    ∃ x p next, s.map.entries (s.map.index key) = some x ∧
      seek s.map.hashComp s.entry key fuel none (some x) = .ok (p, some (a, ⟨key, v, next⟩)) ∧
        Chain s.entry next after none := by
  have chain := inv.chain _ inside
  obtain ⟨x, start⟩ := exists_slot inv inside (by simp [split])
  rw [split, start] at chain
  obtain ⟨next, done, -, rest⟩ := seek_found inv.lawful chain first (before_lt enough split)
  exact ⟨x, _, next, start, done, rest⟩

omit [DecidableEq K] in
theorem seek_none (absent : key ∉ cellKeys (cells (s.map.index key)))
    (split : cells (s.map.index key) = before ++ [(a, k, v)]) :
    ∃ x, s.map.entries (s.map.index key) = some x ∧
      seek s.map.hashComp s.entry key fuel none (some x) = .ok (some a, none) := by
  have chain := inv.chain _ inside
  obtain ⟨x, start⟩ := exists_slot inv inside (by simp [split])
  rw [split, start] at chain
  exact ⟨x, start, seek_absent inv.lawful chain (split ▸ absent) (before_lt enough split)⟩

theorem find_held :
    (find fuel s key).map (Option.map HashmapEntry.value) = .ok (held s.map cells key) := by
  rw [find, inv.hash, bind_ok, slot_of_lt inside, bind_ok, held]
  rcases bucket_cases key (inv.once (s.map.index key)) with
    none | ⟨before, a, v, after, split, absent⟩ | ⟨absent, before, a, k, v, split⟩
  · rw [(inv.chain _ inside).nil_iff.mpr none, none]
    rfl
  · have first := not_before absent
    obtain ⟨x, p, next, start, done, -⟩ := seek_key inv inside enough split first
    rw [split, lookup_cells_key first, start]
    simp [done]
  · obtain ⟨x, start, done⟩ := seek_none inv inside enough absent split
    rw [lookup_cells_none absent, start]
    simp [done]

theorem hashmapGet_held : hashmapGet fuel s key = .ok (held s.map cells key).join := by
  have done := find_held inv inside enough
  cases found : find fuel s key with
  | error halt => simp [found] at done
  | ok e =>
    rw [found] at done
    cases e with
    | none | some e => simp [hashmapGet, found, ← Except.ok.inj done]

theorem hashmapHas_held : hashmapHas fuel s key = .ok (held s.map cells key).isSome := by
  have done := find_held inv inside enough
  cases found : find fuel s key with
  | error halt => simp [found] at done
  | ok e =>
    rw [found] at done
    simp [hashmapHas, found, ← Except.ok.inj done]

end

theorem MapInv.rechain {w : Option (Option V)} (chain : Chain m x bucket none)
    (others : ∀ j ≠ s.map.index key, ∀ c ∈ cells j, m c.1 = s.entry c.1)
    (keyed : ∀ c ∈ bucket, s.map.index c.2.1 = s.map.index key) (once : (cellKeys bucket).Nodup)
    (length : bucket.length ≤ (cells (s.map.index key)).length + 1)
    (lookup : ∀ k, (bucket.map Prod.snd).lookup k =
      if k = key then w else ((cells (s.map.index key)).map Prod.snd).lookup k) :
    Stored s cells key w ⟨s.map.setSlot (s.map.index key) x, m⟩
      (update cells (s.map.index key) bucket) := by
  have index : ∀ k, (s.map.setSlot (s.map.index key) x).index k = s.map.index k := fun k => rfl
  refine ⟨⟨inv.lawful, inv.sized, ?_, ?_, ?_, ?_⟩, ⟨_, rfl⟩, ?_, ?_⟩
  · intro i inside'
    by_cases same : i = s.map.index key
    · subst same
      rw [update_self]
      simpa using chain
    · rw [update_of_ne same]
      simpa [same] using (inv.chain i inside').congr (others i same)
  · intro i beyond
    have other : i ≠ s.map.index key := fun same => Nat.not_le_of_lt inside (same ▸ beyond)
    rw [update_of_ne other]
    exact inv.empty i beyond
  · exact (forall_update_iff cells fun i bucket => ∀ c ∈ bucket, s.map.index c.2.1 = i).mpr
      ⟨keyed, fun i _ => inv.keyed i⟩
  · exact (forall_update_iff cells fun _ bucket => (cellKeys bucket).Nodup).mpr
      ⟨once, fun i _ => inv.once i⟩
  · funext k
    rw [Hashmap.held, index]
    by_cases isKey : k = key
    · rw [isKey, update_self, update_self, lookup, if_pos rfl]
    · rw [update_of_ne isKey, Hashmap.held]
      by_cases same : s.map.index k = s.map.index key
      · rw [same, update_self, lookup, if_neg isKey]
      · rw [update_of_ne same]
  · exact (forall_update_iff cells fun i bucket => bucket.length ≤ (cells i).length + 1).mpr
      ⟨length, fun i _ => Nat.le_succ _⟩

theorem MapInv.appended (absent : key ∉ cellKeys (cells (s.map.index key)))
    (chain : Chain m x (cells (s.map.index key) ++ [(new, key, v)]) none)
    (others : ∀ j ≠ s.map.index key, ∀ c ∈ cells j, m c.1 = s.entry c.1) :
    ∃ cells', Stored s cells key (some v) ⟨s.map.setSlot (s.map.index key) x, m⟩ cells' := by
  refine ⟨_, inv.rechain inside chain others (fun c mem => ?_) ?_ (by simp) fun k => ?_⟩
  · rcases mem_append.mp mem with mem | mem
    · exact inv.keyed _ c mem
    · rw [mem_singleton.mp mem]
  · rw [cellKeys, map_append]
    exact nodup_append_comm.mp (nodup_cons.mpr ⟨absent, inv.once _⟩)
  · rw [lookup_cells_between absent, append_nil]

section Set
variable [DecidableEq E]

theorem hashmapSet_empty (fresh : s.entry new = none) (none : cells (s.map.index key) = []) :
    ∃ s' cells', hashmapSet fuel s key v new = .ok (.none, s') ∧
      Stored s cells key (some v) s' cells' := by
  have start := (inv.chain _ inside).nil_iff.mpr none
  have chain : Chain (setEntry s.entry new ⟨key, v, .none⟩) (some new)
      (cells (s.map.index key) ++ [(new, key, v)]) .none := by
    rw [none]
    exact ⟨rfl, _, update_self .., rfl, rfl⟩
  obtain ⟨cells', stored⟩ := inv.appended inside (by simp [none]) chain fun j _ c mem =>
    update_of_ne (inv.fresh_ne fresh mem) ..
  refine ⟨_, cells', ?_, stored⟩
  simp only [hashmapSet, inv.hash, bind_ok, slot_of_lt inside, start]

theorem hashmapSet_found (enough : (cells (s.map.index key)).length ≤ fuel)
    (split : cells (s.map.index key) = before ++ (a, key, w) :: after)
    (first : key ∉ cellKeys before) :
    ∃ s' cells', hashmapSet fuel s key v new = .ok (w, s') ∧
      Stored s cells key (some v) s' cells' := by
  have here : (a, key, w) ∈ cells (s.map.index key) := by simp [split]
  obtain ⟨x, p, next, start, done, rest⟩ := seek_key inv inside enough split first
  have chain := inv.chain _ inside
  rw [split, start] at chain
  have chain' : Chain (setEntry s.entry a ⟨key, v, next⟩) (some x)
      (before ++ (a, key, v) :: after) none := by
    obtain ⟨y, start', here', -⟩ := linked_append.mp chain
    refine linked_append.mpr ⟨y, start'.congr fun c mem => ?_, here', _,
      update_self .., rfl, rest.congr fun c mem => ?_⟩
    · exact update_of_ne (inv.elsewhere split (mem_append_left _ mem)) ..
    · exact update_of_ne (inv.elsewhere split (mem_append_right _ mem)) ..
  have stored := inv.rechain (w := some v) inside chain' (fun j other c mem => ?_)
    (fun c mem => ?_) ?_ ?_ fun k => ?_
  · rw [← start, setSlot_self] at stored
    refine ⟨_, _, ?_, stored⟩
    simp only [hashmapSet, inv.hash, bind_ok, slot_of_lt inside, start, done]
  · exact update_of_ne (inv.other_bucket here other mem) ..
  · rcases mem_cons.mp (perm_middle.mem_iff.mp mem) with rfl | mem
    · rfl
    · refine inv.keyed _ c ?_
      rw [split]
      exact perm_middle.mem_iff.mpr (mem_cons_of_mem _ mem)
  · have once := inv.once (s.map.index key)
    rw [split] at once
    simpa [cellKeys] using once
  · rw [split]
    simp
  · rw [split, lookup_cells_between first, lookup_cells_between first]
    split_ifs <;> rfl

variable (fresh : s.entry new = none) (enough : (cells (s.map.index key)).length ≤ fuel)
include fresh enough

theorem hashmapSet_absent (absent : key ∉ cellKeys (cells (s.map.index key)))
    (split : cells (s.map.index key) = before ++ [(a, k, w)]) :
    ∃ s' cells', hashmapSet fuel s key v new = .ok (none, s') ∧
      Stored s cells key (some v) s' cells' := by
  have here : (a, k, w) ∈ cells (s.map.index key) := by simp [split]
  have other : a ≠ new := inv.fresh_ne fresh here
  obtain ⟨e, found, carried⟩ := inv.cell here
  have found' : setEntry s.entry new ⟨key, v, none⟩ a = some e :=
    (update_of_ne other ..).trans found
  obtain ⟨x, start, done⟩ := seek_none inv inside enough absent split
  have chain := inv.chain _ inside
  rw [split, start] at chain
  have apart : ∀ c ∈ before, c.1 ≠ a ∧ c.1 ≠ new := by
    intro c mem
    refine ⟨inv.elsewhere split (mem_append_left _ mem), inv.fresh_ne fresh (i := ?_) ?_⟩
    · exact s.map.index key
    · simp [split, mem]
  have chain' : Chain (setEntry (setEntry s.entry new ⟨key, v, none⟩) a { e with next := some new })
      (some x) (cells (s.map.index key) ++ [(new, key, v)]) none := by
    rw [split]
    refine linked_append.mpr ⟨some new, ?_, rfl, ⟨key, v, none⟩, ?_, rfl, rfl⟩
    · refine chain.relast (n := { e with next := some new }) (fun c mem => ?_)
        (update_self ..) carried
      exact (update_of_ne (apart c mem).1 ..).trans
        (update_of_ne (apart c mem).2 ..)
    · exact (update_of_ne (Ne.symm other) ..).trans (update_self ..)
  obtain ⟨cells', stored⟩ := inv.appended inside absent chain' fun j isOther c mem =>
    (update_of_ne (inv.other_bucket here isOther mem) ..).trans
      (update_of_ne (inv.fresh_ne fresh mem) ..)
  rw [← start, setSlot_self] at stored
  refine ⟨_, cells', ?_, stored⟩
  simp only [hashmapSet, inv.hash, bind_ok, slot_of_lt inside, start, done, deref_of_entry found']

theorem hashmapSet_stored :
    ∃ s' cells', hashmapSet fuel s key v new = .ok ((held s.map cells key).join, s') ∧
      Stored s cells key (some v) s' cells' := by
  rw [held]
  rcases bucket_cases key (inv.once (s.map.index key)) with
    none | ⟨before, a, w, after, split, absent⟩ | ⟨absent, before, a, k, w, split⟩
  · rw [none]
    exact hashmapSet_empty inv inside fresh none
  · have first := not_before absent
    rw [split, lookup_cells_key first]
    exact hashmapSet_found inv inside enough split first
  · rw [lookup_cells_none absent]
    exact hashmapSet_absent inv inside fresh enough absent split

end Set

variable [DecidableEq E]

def LoneOther (s : MapState K V E) (key : K) : Prop :=
  ∃ x e, s.map.entries (s.map.index key) = some x ∧ s.entry x = some e ∧ e.next = none ∧
    e.key ≠ key

omit [DecidableEq E] in
theorem MapInv.removed
    (split : cells (s.map.index key) = before ++ (a, key, v) :: after)
    (absent : key ∉ cellKeys (before ++ after)) (chain : Chain m x (before ++ after) none)
    (others : ∀ j ≠ s.map.index key, ∀ c ∈ cells j, m c.1 = s.entry c.1) :
    ∃ cells', Stored s cells key none ⟨s.map.setSlot (s.map.index key) x, m⟩ cells' := by
  refine ⟨_, inv.rechain inside chain others (fun c mem => ?_) ?_ ?_ fun k => ?_⟩
  · refine inv.keyed _ c ?_
    rw [split]
    exact perm_middle.mem_iff.mpr (mem_cons_of_mem _ mem)
  · have once := inv.once (s.map.index key)
    rw [split, (perm_middle.map _).nodup_iff] at once
    exact (nodup_cons.mp once).2
  · rw [split]
    simp only [length_append, length_cons]
    omega
  · rw [split, lookup_cells_between (not_before absent)]
    by_cases same : k = key
    · rw [if_pos same, same, lookup_cells_none absent]
    · rw [if_neg same, if_neg same]

theorem hashmapRemove_first
    (split : cells (s.map.index key) = (a, key, v) :: after) (absent : key ∉ cellKeys after) :
    ∃ s' cells', hashmapRemove fuel s key = .ok (v, s') ∧ Stored s cells key none s' cells' := by
  have chain := inv.chain _ inside
  have split' : cells (s.map.index key) = [] ++ (a, key, v) :: after := split
  rw [split] at chain
  obtain ⟨start, ⟨key', v', next⟩, found, carried, rest⟩ := chain
  cases carried
  have rest' : Chain (update s.entry a none) next after none :=
    rest.congr fun c mem => update_of_ne (inv.elsewhere split' mem) ..
  obtain ⟨cells', stored⟩ := inv.removed inside split' absent rest' fun j other c mem =>
    update_of_ne (inv.other_bucket (by rw [split]; exact mem_cons_self) other mem) ..
  refine ⟨_, cells', ?_, stored⟩
  simp only [hashmapRemove, inv.hash, bind_ok, slot_of_lt inside, start, deref_of_entry found,
    (inv.lawful _ _).mpr rfl, if_true]

variable {cell : E × K × Option V}

omit [DecidableEq K] in
theorem hashmapRemove_second (fuel : ℕ) (split : cells (s.map.index key) = cell :: after)
    (other : cell.2.1 ≠ key) :
    ∃ next, Chain s.entry next after none ∧
      hashmapRemove fuel s key = removeBehind fuel s key (some cell.1) next := by
  have chain := inv.chain _ inside
  rw [split] at chain
  obtain ⟨start, ⟨key', v', next⟩, found, carried, rest⟩ := chain
  have differs := comp_ne inv.lawful fun same : key' = key =>
    other (same ▸ (congrArg Prod.fst carried).symm)
  refine ⟨next, rest, ?_⟩
  simp only [hashmapRemove, inv.hash, bind_ok, slot_of_lt inside, start, deref_of_entry found,
    differs, Bool.false_eq_true, if_false]

theorem hashmapRemove_later (enough : (cells (s.map.index key)).length ≤ fuel)
    (split : cells (s.map.index key) = (cell :: before) ++ (a, key, v) :: after)
    (absent : key ∉ cellKeys ((cell :: before) ++ after)) :
    ∃ s' cells', hashmapRemove fuel s key = .ok (v, s') ∧ Stored s cells key none s' cells' := by
  have first := not_before absent
  obtain ⟨next, rest, called⟩ := hashmapRemove_second inv inside fuel split
    fun same => first (same ▸ mem_cons_self)
  have short := Nat.lt_of_succ_lt (before_lt enough split)
  obtain ⟨next', done, found, rest'⟩ := seek_found (p := some cell.1) inv.lawful rest
    (fun mem => first (mem_cons_of_mem _ mem)) short
  obtain ⟨init, ⟨b, k, w⟩, last⟩ : ∃ init c, cell :: before = init ++ [c] :=
    (eq_nil_or_concat' _).resolve_left (cons_ne_nil _ _)
  have previous : (before.getLast?.map Prod.fst).or (some cell.1) = some b := by
    rw [← last_cons (p := none), last, getLast?_concat]
    rfl
  have apart : ∀ c ∈ (cell :: before) ++ after, c.1 ≠ a := fun c mem => inv.elsewhere split mem
  have chain := inv.chain _ inside
  rw [split] at chain
  obtain ⟨y, front, -⟩ := linked_append.mp chain
  rw [last] at front split apart
  have here : (b, k, w) ∈ cells (s.map.index key) := by simp [split]
  have gone : (a, key, v) ∈ cells (s.map.index key) := by simp [split]
  have split' : cells (s.map.index key) = init ++ (b, k, w) :: (a, key, v) :: after := by
    rw [split, append_assoc]
    rfl
  have apart' : ∀ c ∈ init ++ after, c.1 ≠ b := fun c mem => inv.elsewhere split'
    (mem_append.mpr ((mem_append.mp mem).imp_right (mem_cons_of_mem _)))
  obtain ⟨e, found', carried⟩ := inv.cell here
  have chain' : Chain (update (setEntry s.entry b { e with next := next' }) a none)
      (s.map.entries (s.map.index key)) ((cell :: before) ++ after) none := by
    rw [last]
    refine linked_append.mpr ⟨next', ?_, rest'.congr fun c mem => ?_⟩
    · refine front.relast (n := { e with next := next' }) (fun c mem => ?_) ?_ carried
      · exact (update_of_ne (apart c (by simp [mem])) ..).trans
          (update_of_ne (apart' c (mem_append_left _ mem)) ..)
      · exact (update_of_ne (apart (b, k, w) (by simp)) ..).trans
          (update_self ..)
    · exact (update_of_ne (apart c (mem_append_right _ mem)) ..).trans
          (update_of_ne (apart' c (mem_append_right _ mem)) ..)
  rw [← last] at split
  obtain ⟨cells', stored⟩ := inv.removed inside split absent chain' fun j other c mem =>
    (update_of_ne (inv.other_bucket gone other mem) ..).trans
      (update_of_ne (inv.other_bucket here other mem) ..)
  rw [setSlot_self] at stored
  refine ⟨_, cells', ?_, stored⟩
  simp only [called, removeBehind, done, bind_ok, previous, deref_of_entry found']

theorem hashmapRemove_stored (enough : (cells (s.map.index key)).length ≤ fuel)
    (more : ¬ LoneOther s key) :
    ∃ s' cells', hashmapRemove fuel s key = .ok ((held s.map cells key).join, s') ∧
      Stored s cells key none s' cells' := by
  have chain := inv.chain _ inside
  have unchanged : held s.map cells key = none → Stored s cells key none s cells := by
    intro none
    refine ⟨inv, ⟨s.map.entries, rfl⟩, ?_, fun i => Nat.le_succ _⟩
    rw [← none, update_eq_self]
  rcases bucket_cases key (inv.once (s.map.index key)) with
    none | ⟨before, a, w, after, split, absent⟩ | ⟨absent, before, a, k, w, split⟩
  · have nothing : held s.map cells key = .none := by rw [held, none]; rfl
    refine ⟨s, cells, ?_, unchanged nothing⟩
    simp only [hashmapRemove, inv.hash, bind_ok, slot_of_lt inside, chain.nil_iff.mpr none, nothing,
      Option.join_none]
  · rw [held, split, lookup_cells_key (not_before absent)]
    cases before with
    | nil => exact hashmapRemove_first inv inside split absent
    | cons cell before => exact hashmapRemove_later inv inside enough split absent
  · have nothing : held s.map cells key = none := lookup_cells_none absent
    refine ⟨s, cells, ?_, unchanged nothing⟩
    rw [nothing]
    cases before with
    | nil =>
      rw [split] at chain absent
      obtain ⟨start, e, found, carried, next⟩ := chain
      refine absurd ⟨a, e, start, found, next, ?_⟩ more
      rintro rfl
      exact absent (by simp [← carried, HashmapEntry.pair])
    | cons cell before =>
      obtain ⟨next, rest, called⟩ := hashmapRemove_second inv inside fuel split
        fun same => absent (by simp [split, same])
      have short := Nat.lt_of_succ_lt (before_lt enough split)
      have rest' : Chain s.entry next (before ++ [(a, k, w)]) none := rest
      have done := seek_absent (p := some cell.1) inv.lawful rest'
        (fun mem => absent (by rw [split]; exact mem_cons_of_mem _ mem)) short
      rw [called, removeBehind, done, bind_ok]
      rfl

omit [DecidableEq K] in
theorem hashmapRemove_lone (lone : LoneOther s key) :
    hashmapRemove (fuel + 1) s key = .error .nullPointer := by
  obtain ⟨x, e, start, found, next, other⟩ := lone
  have differs := comp_ne inv.lawful other
  have stop : deref s.entry none = .error .nullPointer := rfl
  simp only [hashmapRemove, inv.hash, bind_ok, slot_of_lt inside, start, deref_of_entry found,
    differs, next, removeBehind, seek, stop, bind_error, Bool.false_eq_true, if_false]

end Elaborato.Mentos.Hashmap
