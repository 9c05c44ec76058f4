import Mathlib.Data.List.Basic

/-!
Finite runs of a labelled transition relation, and rules from single steps to whole runs.
-/
namespace Foundation
open List

variable {S A : Type*}

inductive Exec (step : S → A → S → Prop) (start : S) : List (S × A) → S → Prop
  | refl : Exec step start [] start
  | next {trace : List (S × A)} {s t : S} {a : A} :
      Exec step start trace s → step s a t → Exec step start (trace ++ [(s, a)]) t

def Always (P : S → Prop) (trace : List (S × A)) (last : S) : Prop :=
  (∀ e ∈ trace, P e.1) ∧ P last

def Sometimes (P : S → Prop) (trace : List (S × A)) (last : S) : Prop :=
  (∃ e ∈ trace, P e.1) ∨ P last

variable {step : S → A → S → Prop} {start s t : S} {trace trace' : List (S × A)}

theorem exec_trans (first : Exec step start trace s) (second : Exec step s trace' t) :
    Exec step start (trace ++ trace') t := by
  induction second with
  | refl => simpa using first
  | next second hstep ih =>
    rw [← append_assoc]
    exact ih.next hstep

variable {a : A}

theorem exec_split {before after : List (S × A)}
    (run : Exec step start (before ++ (s, a) :: after) t) :
    ∃ u, Exec step start before s ∧ step s a u ∧ Exec step u after t := by
  generalize whole : before ++ (s, a) :: after = trace at run
  induction run generalizing after with
  | refl => exact absurd (whole ▸ mem_append_right before mem_cons_self) not_mem_nil
  | @next trace r t b run hstep ih =>
    rcases eq_nil_or_concat' after with rfl | ⟨after, last, rfl⟩
    · obtain ⟨rfl, same⟩ := append_inj' whole rfl
      cases same
      exact ⟨t, run, hstep, .refl⟩
    · rw [← cons_append, ← append_assoc] at whole
      obtain ⟨shorter, same⟩ := append_inj' whole rfl
      cases same
      obtain ⟨u, first, middle, second⟩ := ih shorter
      exact ⟨u, first, middle, second.next hstep⟩

variable {P : S → Prop}

theorem always_before (always : Always P (trace ++ [(s, a)]) t) : Always P trace s :=
  ⟨fun e he => always.1 e (mem_append_left _ he), always.1 (s, a) (by simp)⟩

theorem always_start (run : Exec step start trace s) (always : Always P trace s) : P start := by
  induction run with
  | refl => exact always.2
  | next run hstep ih => exact ih (always_before always)

theorem always_backward {ok : A → Prop} (back : ∀ s a t, step s a t → ok a → P t → P s)
    (run : Exec step start trace s) (allowed : ∀ e ∈ trace, ok e.2) (last : P s) :
    Always P trace s := by
  induction run with
  | refl => exact ⟨fun e he => absurd he not_mem_nil, last⟩
  | @next trace s t a run hstep ih =>
    have before := back s a t hstep (allowed (s, a) (by simp)) last
    obtain ⟨always, -⟩ := ih (fun e he => allowed e (mem_append_left _ he)) before
    refine ⟨fun e he => ?_, last⟩
    rcases mem_append.mp he with he | he
    · exact always e he
    · rw [mem_singleton.mp he]
      exact before

theorem exec_sometimes_start (run : Exec step start trace s) (init : P start) :
    Sometimes P trace s := by
  induction run with
  | refl => exact .inr init
  | @next _ t _ a run hstep ih =>
    rcases ih with ⟨e, he, holds⟩ | holds
    · exact .inl ⟨e, mem_append_left _ he, holds⟩
    · exact .inl ⟨(t, a), by simp, holds⟩

theorem sometimes_append_left (second : Exec step s trace' t) (holds : Sometimes P trace s) :
    Sometimes P (trace ++ trace') t := by
  rcases holds with ⟨e, he, holds⟩ | holds
  · exact .inl ⟨e, mem_append_left _ he, holds⟩
  · rcases exec_sometimes_start second holds with ⟨e, he, holds⟩ | holds
    · exact .inl ⟨e, mem_append_right _ he, holds⟩
    · exact .inr holds

theorem sometimes_append_right (holds : Sometimes P trace' t) :
    Sometimes P (trace ++ trace') t := by
  rcases holds with ⟨e, he, holds⟩ | holds
  · exact .inl ⟨e, mem_append_right _ he, holds⟩
  · exact .inr holds

variable {Inv : S → Prop} {ok : S → A → Prop}

theorem exec_invariant (init : Inv start) (preserved : ∀ s a t, Inv s → step s a t → ok s a → Inv t)
    (run : Exec step start trace s) (allowed : ∀ e ∈ trace, ok e.1 e.2) : Always Inv trace s := by
  induction run with
  | refl => exact ⟨fun e he => absurd he not_mem_nil, init⟩
  | @next _ t _ a run hstep ih =>
    obtain ⟨before, last⟩ := ih (fun e he => allowed e (mem_append_left _ he))
    refine ⟨?_, preserved _ _ _ last hstep (allowed (t, a) (by simp))⟩
    intro e he
    rcases mem_append.mp he with he | he
    · exact before e he
    · rw [mem_singleton.mp he]
      exact last

theorem exec_keeps (init : Inv start) (preserved : ∀ s a t, Inv s → step s a t → Inv t)
    (run : Exec step start trace s) : Always Inv trace s := by
  have kept : ∀ s a t, Inv s → step s a t → (fun _ _ => True : S → A → Prop) s a → Inv t :=
    fun s a t inv hstep _ => preserved s a t inv hstep
  exact exec_invariant init kept run fun _ _ => trivial

theorem exec_since (Q : S → Prop) {made : S → A → Prop}
    (established : ∀ s a t, step s a t → made s a → Q t)
    (preserved : ∀ s a t, Q s → step s a t → Q t)
    (run : Exec step start trace s) (once : ∃ e ∈ trace, made e.1 e.2) : Q s := by
  induction run with
  | refl =>
    obtain ⟨e, he, -⟩ := once
    exact absurd he not_mem_nil
  | next run hstep ih =>
    obtain ⟨e, he, hmade⟩ := once
    rcases mem_append.mp he with he | he
    · exact preserved _ _ _ (ih ⟨e, he, hmade⟩) hstep
    · rw [mem_singleton.mp he] at hmade
      exact established _ _ _ hstep hmade

theorem exec_simulation {T : Type*} {step' : T → A → T → Prop} (view : S → T) (init : Inv start)
    (simulated : ∀ s a t, Inv s → step s a t → step' (view s) a (view t) ∧ Inv t)
    (run : Exec step start trace s) :
    Exec step' (view start) (trace.map fun e => (view e.1, e.2)) (view s) ∧ Inv s := by
  induction run with
  | refl => exact ⟨.refl, init⟩
  | next run hstep ih =>
    obtain ⟨done, inv⟩ := ih
    obtain ⟨next, inv'⟩ := simulated _ _ _ inv hstep
    refine ⟨?_, inv'⟩
    rw [map_append]
    exact done.next next

theorem exec_of_foldlM {f : S → A → Option S} {acts : List A}
    (accepted : acts.foldlM f start = some s) :
    ∃ trace, Exec (fun s a t => f s a = some t) start trace s := by
  induction acts generalizing start with
  | nil =>
    rw [foldlM_nil] at accepted
    cases accepted
    exact ⟨[], .refl⟩
  | cons a acts ih =>
    rw [foldlM_cons, Option.bind_eq_bind, Option.bind_eq_some_iff] at accepted
    obtain ⟨t, first, later⟩ := accepted
    obtain ⟨trace, run⟩ := ih later
    exact ⟨[(start, a)] ++ trace, exec_trans (Exec.refl.next first) run⟩

theorem exec_always_and_iff {Q : S → A → Prop} (init : Inv start) (implies : ∀ s, Inv s → P s)
    (preserved : ∀ s a t, Inv s → step s a t → ok s a → Inv t ∧ Q s a)
    (broken : ∀ s a t, Inv s → step s a t → ¬ ok s a → P t → ¬ Q s a)
    (run : Exec step start trace s) :
    (Always P trace s ∧ ∀ e ∈ trace, Q e.1 e.2) ↔ ∀ e ∈ trace, ok e.1 e.2 := by
  have kept : ∀ s a t, Inv s → step s a t → ok s a → Inv t := fun s a t inv hstep allowed =>
    (preserved s a t inv hstep allowed).1
  constructor
  · rintro ⟨always, each⟩
    induction run with
    | refl => exact fun e he => absurd he not_mem_nil
    | @next _ t _ a run hstep ih =>
      have earlier := ih (always_before always) fun e he => each e (mem_append_left _ he)
      have last := (exec_invariant init kept run earlier).2
      intro e he
      rcases mem_append.mp he with he | he
      · exact earlier e he
      · rw [mem_singleton.mp he]
        exact Classical.byContradiction fun no =>
          broken _ _ _ last hstep no always.2 (each (t, a) (by simp))
  · intro allowed
    obtain ⟨before, last⟩ := exec_invariant init kept run allowed
    refine ⟨⟨fun e he => implies _ (before e he), implies _ last⟩, fun e he => ?_⟩
    obtain ⟨first, rest, split⟩ := append_of_mem he
    rw [split] at run
    obtain ⟨u, -, hstep, -⟩ := exec_split run
    exact (preserved _ _ _ (before e he) hstep (allowed e he)).2

theorem exec_always_iff (init : Inv start) (implies : ∀ s, Inv s → P s)
    (preserved : ∀ s a t, Inv s → step s a t → ok s a → Inv t)
    (broken : ∀ s a t, Inv s → step s a t → ¬ ok s a → ¬ P t) (run : Exec step start trace s) :
    Always P trace s ↔ ∀ e ∈ trace, ok e.1 e.2 := by
  have both := exec_always_and_iff (Q := fun _ _ => True) init implies
    (fun s a t inv hstep allowed => ⟨preserved s a t inv hstep allowed, trivial⟩)
    (fun s a t inv hstep no holds _ => broken s a t inv hstep no holds) run
  rw [← both]
  exact ⟨fun always => ⟨always, fun _ _ => trivial⟩, And.left⟩

def CanReach (step : S → A → S → Prop) (ok : A → Prop) (s t : S) : Prop :=
  ∃ trace, Exec step s trace t ∧ ∀ e ∈ trace, ok e.2

section CanReach
variable {ok : A → Prop}

theorem canReach_refl (s : S) : CanReach step ok s s := ⟨[], .refl, nofun⟩

theorem canReach_step {a : A} (hstep : step s a t) (allowed : ok a) : CanReach step ok s t := by
  refine ⟨[(s, a)], Exec.refl.next hstep, ?_⟩
  intro e he
  rw [mem_singleton.mp he]
  exact allowed

theorem CanReach.trans {u : S} (first : CanReach step ok s t) (second : CanReach step ok t u) :
    CanReach step ok s u := by
  obtain ⟨trace, run, allowed⟩ := first
  obtain ⟨trace', run', allowed'⟩ := second
  refine ⟨trace ++ trace', exec_trans run run', ?_⟩
  intro e he
  rcases mem_append.mp he with he | he
  · exact allowed e he
  · exact allowed' e he

theorem CanReach.invariant (reach : CanReach step ok s t) (init : Inv s)
    (preserved : ∀ s a t, Inv s → step s a t → ok a → Inv t) : Inv t := by
  obtain ⟨trace, run, allowed⟩ := reach
  have preserved' : ∀ s a t, Inv s → step s a t → (fun _ a => ok a) s a → Inv t := preserved
  exact (exec_invariant init preserved' run allowed).2

theorem canReach_of_advance {Goal : S → Prop} {measure : S → ℕ} {bound : ℕ}
    (bounded : ∀ s, Inv s → measure s ≤ bound)
    (advance : ∀ s, Inv s → (∃ t, CanReach step ok s t ∧ Goal t) ∨
      ∃ t, CanReach step ok s t ∧ Inv t ∧ measure s < measure t) (inv : Inv s) :
    ∃ t, CanReach step ok s t ∧ Goal t := by
  induction left : bound - measure s using Nat.strongRecOn generalizing s with
  | _ left' ih =>
    rcases advance s inv with reached | ⟨t, reach, inv', more⟩
    · exact reached
    · have most := bounded t inv'
      obtain ⟨u, reach', goal⟩ := ih (bound - measure t) (by omega) inv' rfl
      exact ⟨u, reach.trans reach', goal⟩

end CanReach

variable {ε α β : Type}

@[simp] theorem bind_ok (a : α) (f : α → Except ε β) : (Except.ok a >>= f) = f a := rfl

@[simp] theorem bind_error (e : ε) (f : α → Except ε β) :
    ((Except.error e : Except ε α) >>= f) = .error e := rfl

end Foundation
