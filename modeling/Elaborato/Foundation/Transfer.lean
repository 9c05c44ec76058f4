import Elaborato.Foundation.Execution
import Mathlib.Logic.Function.Basic

/-!
Items that are sent once and arrive once, in any order, before the next transfer.
-/
namespace Foundation
open Function

variable {ι α A : Type*}

structure Transfer (ι α : Type*) where
  sent : ι → Option α
  arrived : ι → Option α

def Transfer.idle : Transfer ι α := ⟨fun _ => none, fun _ => none⟩

inductive Transfer.Step [DecidableEq ι] (u : Transfer ι α) : Transfer ι α → Prop
  | skip : Step u u
  | send {i a} : u.sent i = none → Step u { u with sent := update u.sent i (some a) }
  | arrive {i a} : u.sent i = some a → u.arrived i = none →
      Step u { u with arrived := update u.arrived i (some a) }
  | restart : u.arrived = u.sent → Step u .idle

def Transfer.Sound (u : Transfer ι α) : Prop := ∀ i a, u.arrived i = some a → u.sent i = some a

variable [DecidableEq ι] {u v : Transfer ι α}

theorem Transfer.Step.sound (step : Transfer.Step u v) (sound : u.Sound) : v.Sound := by
  intro i a arrived
  cases step with
  | skip => exact sound i a arrived
  | @send j b unsent =>
    have before := sound i a arrived
    have apart : i ≠ j := by
      intro same
      rw [same, unsent] at before
      cases before
    simpa [apart] using before
  | @arrive j b sent _ =>
    by_cases same : i = j
    · subst same
      rw [← arrived]
      simpa using sent
    · exact sound i a (by simpa [same] using arrived)
  | restart _ => cases arrived

theorem transfer_sound {trace : List (Transfer ι α × A)}
    (run : Exec (fun u _ v => Transfer.Step u v) .idle trace u) : u.Sound := by
  have stays : ∀ (u : Transfer ι α) (_ : A) (v : Transfer ι α), u.Sound → Transfer.Step u v →
      v.Sound := fun _ _ _ sound step => step.sound sound
  exact (exec_keeps nofun stays run).2

end Foundation
