import Mathlib.Data.List.DropRight
import Elaborato.Mentos.Strings

/-!
`trim` (string.c), with a record of the addresses it writes.
-/
namespace Elaborato.Mentos.Trim
open Foundation Strings List Function

/-- Only a space is white space (ctype.c). -/
def isspace (c : UInt8) : Bool := c == 32

/-- The loop that moves `endp` back. -/
def retreat (m : ByteMem) (frontp : ℕ) : ℕ → ℕ → Option ℕ
  | 0, _ => none
  | fuel + 1, endp =>
    if isspace (m (endp - 1)) ∧ endp - 1 ≠ frontp then retreat m frontp fuel (endp - 1)
    else some (endp - 1)

def shift : ℕ → ℕ → ℕ → Writes → Option Writes
  | 0, _, _, _ => none
  | fuel + 1, frontp, endp, s =>
    if s.mem frontp ≠ 0 then shift fuel (frontp + 1) (endp + 1) (s.put endp (s.mem frontp))
    else some (s.put endp 0)

def terminate (str len frontp endp : ℕ) (s : Writes) : Writes :=
  if str + len - 1 ≠ endp then s.put (endp + 1) 0
  else if frontp ≠ str ∧ endp = frontp then s.put str 0
  else s

def trim (fuel : ℕ) : Option ℕ → Writes → Option (Option ℕ × Writes)
  | none, s => some (none, s)
  | some str, s =>
    if s.mem str = 0 then some (some str, s)
    else do
      let len ← strlen s.mem fuel str
      let frontp ← advance (fun c => some (!isspace c)) s.mem fuel str
      let endp ← (if str + len ≠ frontp then retreat s.mem frontp fuel (str + len)
        else some (str + len))
      let s := terminate str len frontp endp s
      let s ← (if frontp ≠ str then shift fuel frontp str s else some s)
      some (some str, s)

def trimmed (text : List UInt8) : List UInt8 := (text.dropWhile isspace).rdropWhile isspace

def TrimsInPlace (fuel : ℕ) (m : ByteMem) (str : ℕ) (text : List UInt8) : Prop :=
  ∃ s, trim fuel (some str) ⟨m, []⟩ = some (some str, s) ∧ StringAt s.mem str (trimmed text) ∧
    ∀ a ∈ s.written, str ≤ a ∧ a ≤ str + text.length

variable {m : ByteMem} {p q e f k fuel : ℕ} {text : List UInt8} {s : Writes}

theorem retreat_blanks (front : f ≤ e) (last : isspace (m e) = false)
    (blanks : ∀ i < k, isspace (m (e + 1 + i)) = true) (enough : k < fuel) :
    retreat m f fuel (e + 1 + k) = some e := by
  induction k generalizing fuel with
  | zero =>
    obtain ⟨fuel, rfl⟩ := Nat.exists_eq_succ_of_ne_zero (Nat.ne_zero_of_lt enough)
    rw [retreat, Nat.add_zero, Nat.add_sub_cancel, if_neg (by simp [last])]
  | succ k ih =>
    obtain ⟨fuel, rfl⟩ := Nat.exists_eq_succ_of_ne_zero (Nat.ne_zero_of_lt enough)
    rw [retreat, ← Nat.add_assoc, Nat.add_sub_cancel,
      if_pos ⟨blanks k (Nat.lt_succ_self k), by omega⟩]
    exact ih (fun i less => blanks i (Nat.lt_succ_of_lt less)) (Nat.lt_of_succ_lt_succ enough)

theorem shift_stored (down : p < q) (stored : StringAt s.mem q text) (enough : text.length < fuel) :
    ∃ s', shift fuel q p s = some s' ∧ StringAt s'.mem p text ∧ (∀ a < p, s'.mem a = s.mem a) ∧
      ∀ a ∈ s'.written, a ∈ s.written ∨ (p ≤ a ∧ a ≤ p + text.length) := by
  induction text generalizing p q fuel s with
  | nil =>
    obtain ⟨fuel, rfl⟩ := Nat.exists_eq_succ_of_ne_zero (Nat.ne_zero_of_lt enough)
    have ended : s.mem q = 0 := stored.2
    refine ⟨s.put p 0, ?_, ⟨trivial, update_self ..⟩, fun a below => ?_, fun a mem => ?_⟩
    · rw [shift, if_neg (not_not.mpr ended)]
    · exact update_of_ne (Nat.ne_of_lt below) ..
    · obtain rfl | mem := mem_cons.mp mem
      · exact .inr ⟨Nat.le_refl _, Nat.le_refl _⟩
      · exact .inl mem
  | cons b text ih =>
    obtain ⟨fuel, rfl⟩ := Nat.exists_eq_succ_of_ne_zero (Nat.ne_zero_of_lt enough)
    obtain ⟨-, same, nonzero, rest⟩ := stored
    have moved : StringAt (s.put p b).mem (q + 1) text := rest.update (Nat.lt_succ_of_lt down) b
    obtain ⟨s', shifted, kept, below, written⟩ :=
      ih (Nat.succ_lt_succ down) moved (Nat.lt_of_succ_lt_succ enough)
    refine ⟨s', ?_, ⟨trivial, ?_, nonzero, kept⟩, fun a less => ?_, fun a mem => ?_⟩
    · rw [shift, same, if_pos nonzero, shifted]
    · rw [below p (Nat.lt_succ_self p)]
      exact update_self ..
    · rw [below a (Nat.lt_succ_of_lt less)]
      exact update_of_ne (Nat.ne_of_lt less) ..
    · rw [length_cons]
      obtain before | ⟨low, high⟩ := written a mem
      · obtain rfl | mem := mem_cons.mp before
        · exact .inr ⟨Nat.le_refl _, by omega⟩
        · exact .inl mem
      · exact .inr ⟨by omega, by omega⟩

theorem terminate_stored (str len : ℕ) {core post : List UInt8}
    (stored : StringAt s.mem f (core ++ post)) (front : str ≤ f) (last : e + 1 = f + core.length)
    (whole : str + len = f + core.length + post.length) :
    StringAt (terminate str len f e s).mem f core ∧
      ∀ a ∈ (terminate str len f e s).written, a ∈ s.written ∨ (str ≤ a ∧ a ≤ str + len) := by
  cases post with
  | nil =>
    rw [append_nil] at stored
    rw [length_nil] at whole
    rw [terminate, if_neg (by omega)]
    split
    case isTrue moved =>
      refine ⟨stored.update (by omega) 0, fun a mem => ?_⟩
      obtain rfl | mem := mem_cons.mp mem
      · exact .inr ⟨Nat.le_refl _, by omega⟩
      · exact .inl mem
    case isFalse => exact ⟨stored, fun a mem => .inl mem⟩
  | cons b post =>
    rw [length_cons] at whole
    rw [terminate, if_pos (by omega)]
    refine ⟨?_, fun a mem => ?_⟩
    · rw [Writes.put, last]
      exact stored.cut
    · obtain rfl | mem := mem_cons.mp mem
      · exact .inr ⟨by omega, by omega⟩
      · exact .inl mem

theorem dropWhile_begins (text : List UInt8) :
    isspace ((text.dropWhile isspace).headD 0) = false := by
  induction text with
  | nil => rfl
  | cons b text ih =>
    cases blank : isspace b with
    | true => rw [dropWhile_cons_of_pos blank, ih]
    | false => rw [dropWhile_cons_of_neg (by simp [blank]), headD_cons, blank]

theorem trimmed_parts {c : UInt8} (mem : c ∈ text) (visible : isspace c = false) :
    ∃ pre body last post, text = pre ++ ((body ++ [last]) ++ post) ∧
      trimmed text = body ++ [last] ∧ (∀ b ∈ pre, isspace b = true) ∧
      isspace ((body ++ [last] ++ post).headD 0) = false ∧ isspace last = false ∧
      ∀ b ∈ post, isspace b = true := by
  have parts : text.takeWhile isspace ++ text.dropWhile isspace = text := takeWhile_append_dropWhile
  have ends : trimmed text ++ (text.dropWhile isspace).rtakeWhile isspace =
      text.dropWhile isspace := rdropWhile_append_rtakeWhile ..
  have blank : ∀ b ∈ text.takeWhile isspace, isspace b = true := all_eq_true.mp all_takeWhile
  have some : trimmed text ≠ [] := fun none => by
    have left : c ∈ text.dropWhile isspace := by
      rw [← parts, mem_append] at mem
      exact mem.resolve_left fun before => by simpa [visible] using blank c before
    simpa [visible] using rdropWhile_eq_nil_iff.mp none c left
  have last := rdropWhile_last_not isspace (text.dropWhile isspace) some
  refine ⟨text.takeWhile isspace, (trimmed text).dropLast, (trimmed text).getLast some,
    (text.dropWhile isspace).rtakeWhile isspace, ?_, ?_, blank, ?_,
    Bool.eq_false_iff.mpr last, fun b mem => mem_rtakeWhile_imp mem⟩
  · rw [dropLast_concat_getLast, ends, parts]
  · rw [dropLast_concat_getLast]
  · rw [dropLast_concat_getLast, ends, dropWhile_begins]

variable {str : ℕ}

theorem stored_nonempty (stored : StringAt m str text) (some : text ≠ []) : m str ≠ 0 := by
  intro zero
  have ended := (stored.byte (Nat.zero_le _)).2.mp zero
  exact some (length_eq_zero_iff.mp ended.symm)

theorem trim_steps {len frontp endp : ℕ} (begun : m str ≠ 0)
    (length : strlen m fuel str = some len)
    (front : advance (fun c => some (!isspace c)) m fuel str = some frontp)
    (back : (if str + len ≠ frontp then retreat m frontp fuel (str + len) else some (str + len)) =
      some endp) :
    trim fuel (some str) ⟨m, []⟩ =
      (if frontp ≠ str then shift fuel frontp str (terminate str len frontp endp ⟨m, []⟩)
        else some (terminate str len frontp endp ⟨m, []⟩)).map fun s => (some str, s) := by
  rw [trim, if_neg begun, length]
  simp only [Option.bind_eq_bind, Option.bind_some, front, back, Option.map_eq_bind]
  rfl

theorem trim_visible (stored : StringAt m str text) (enough : text.length < fuel) {c : UInt8}
    (mem : c ∈ text) (visible : isspace c = false) : TrimsInPlace fuel m str text := by
  obtain ⟨pre, body, last, post, parts, is, blank, begins, seen, behind⟩ :=
    trimmed_parts mem visible
  have begun := stored_nonempty stored (ne_nil_of_mem mem)
  have length := strlen_stored stored enough
  have total : text.length = pre.length + (body.length + 1) + post.length := by
    simp only [parts, length_append, length_singleton]
    omega
  have size : (body ++ [last]).length = body.length + 1 := length_append
  rw [parts] at stored
  have core := stored.behind
  have front : advance (fun c => some (!isspace c)) m fuel str = some (str + pre.length) := by
    refine advance_stored stored (fun b mem => ?_) ?_ (by omega)
    · rw [blank b mem]
      rfl
    · rw [begins]
      rfl
  have back : retreat m (str + pre.length) fuel (str + text.length) =
      some (str + pre.length + body.length) := by
    have there : isspace (m (str + pre.length + body.length)) = false := by
      rw [append_assoc] at core
      rwa [core.behind.first]
    have blanks (i : ℕ) (less : i < post.length) :
        isspace (m (str + pre.length + body.length + 1 + i)) = true := by
      have byte := core.behind.byte_mem less
      rw [size, ← Nat.add_assoc] at byte
      exact behind _ byte
    rw [show str + text.length = str + pre.length + body.length + 1 + post.length by omega]
    exact retreat_blanks (by omega) there blanks (by omega)
  obtain ⟨ended, written⟩ := terminate_stored (s := ⟨m, []⟩)
    (e := str + pre.length + body.length) str text.length core (by omega) (by rw [size]; omega)
    (by rw [size]; omega)
  have inside := fun a mem => (written a mem).resolve_left not_mem_nil
  have steps := trim_steps begun length front ((if_pos (by omega)).trans back)
  rw [TrimsInPlace, is, steps]
  generalize terminate str text.length (str + pre.length) (str + pre.length + body.length) ⟨m, []⟩ =
    cut at ended inside
  by_cases moved : str + pre.length = str
  · rw [moved] at ended
    exact ⟨cut, by rw [if_neg (not_not.mpr moved), Option.map_some], ended, inside⟩
  · have less : (body ++ [last]).length < fuel := by
      rw [size]
      omega
    obtain ⟨s, shifted, kept, -, places⟩ := shift_stored (p := str) (by omega) ended less
    refine ⟨s, by rw [if_pos moved, shifted, Option.map_some], kept, fun a mem => ?_⟩
    obtain before | ⟨low, high⟩ := places a mem
    · exact inside a before
    · rw [size] at high
      exact ⟨low, by omega⟩

theorem trim_blank (stored : StringAt m str text) (enough : text.length < fuel)
    (nonempty : text ≠ []) (blank : ∀ c ∈ text, isspace c = true) :
    ∃ s, trim fuel (some str) ⟨m, []⟩ = some (some str, s) ∧ str + text.length + 1 ∈ s.written := by
  have begun := stored_nonempty stored nonempty
  have length := strlen_stored stored enough
  have total : 0 < text.length := length_pos_iff.mpr nonempty
  have whole : StringAt m str (text ++ []) := by rwa [append_nil]
  have front : advance (fun c => some (!isspace c)) m fuel str = some (str + text.length) := by
    refine advance_stored whole (fun b mem => ?_) rfl enough
    rw [blank b mem]
    rfl
  have steps := trim_steps begun length front (if_neg (not_not.mpr rfl))
  have cut : terminate str text.length (str + text.length) (str + text.length) ⟨m, []⟩ =
      Writes.put ⟨m, []⟩ (str + text.length + 1) 0 := if_pos (by omega)
  have ended : (Writes.put ⟨m, []⟩ (str + text.length + 1) 0).mem (str + text.length) = 0 :=
    (update_of_ne (by omega) ..).trans whole.behind.first
  obtain ⟨fuel, rfl⟩ := Nat.exists_eq_succ_of_ne_zero (Nat.ne_zero_of_lt enough)
  refine ⟨(Writes.put ⟨m, []⟩ (str + text.length + 1) 0).put str 0, ?_,
    mem_cons_of_mem str mem_cons_self⟩
  rw [steps, cut, if_pos (by omega), shift, if_neg (not_not.mpr ended)]
  rfl

/-- A string is trimmed in place unless it is blank and not empty. -/
theorem trimsInPlace_iff (stored : StringAt m str text) (enough : text.length < fuel) :
    TrimsInPlace fuel m str text ↔ text = [] ∨ ∃ c ∈ text, isspace c = false := by
  refine ⟨fun trims => ?_, fun cond => ?_⟩
  · by_contra none
    rw [not_or, not_exists] at none
    obtain ⟨s, done, overrun⟩ := trim_blank stored enough none.1 fun c mem => by
      simpa [mem] using none.2 c
    obtain ⟨s', done', -, inside⟩ := trims
    have same : s = s' := by simpa using done.symm.trans done'
    have high := (inside _ (same ▸ overrun)).2
    omega
  · obtain rfl | ⟨c, mem, visible⟩ := cond
    · have ended : m str = 0 := stored.first
      refine ⟨⟨m, []⟩, ?_, stored, fun a mem => absurd mem not_mem_nil⟩
      simp [trim, ended]
    · exact trim_visible stored enough mem visible

theorem trimsInPlace_iff_ab :
    TrimsInPlace 5 (padded [32, 97, 98, 32]) 0 [32, 97, 98, 32] := by
  have stored : StringAt (padded [32, 97, 98, 32]) 0 [32, 97, 98, 32] := by simp [TextAt, padded]
  exact (trimsInPlace_iff stored (by decide)).mpr (.inr ⟨97, by decide, by decide⟩)

theorem space_not_trimmed : ¬ TrimsInPlace 2 (padded [32]) 0 [32] := by
  intro trims
  obtain ⟨s, done, -, inside⟩ := trims
  have written : s.written = [0, 2] := by
    have same : some (some 0, ⟨_, [0, 2]⟩) = some (some 0, s) := done
    cases same
    rfl
  have outside := inside 2 (by simp [written])
  exact absurd outside.2 (by decide)

end Elaborato.Mentos.Trim
