import Mathlib.Logic.Relation
import Mathlib.Order.Nat
import Mathlib.Tactic.Common

/-!
# Loops

A loop, given by what one turn does to its variables.  That it ends is a
finite run of turns, so a function that counts its turns computes the loop
if the turns use up something it has enough of.
-/

namespace Loops

/-- A turn goes on with other values of the variables, or stops. -/
inductive Turn (σ ρ : Type) where
  | goOn (s : σ)
  | stop (r : ρ)

variable {σ ρ : Type} {turn : σ → Turn σ ρ}

/-- The loop stops with this result. -/
inductive Ends (turn : σ → Turn σ ρ) : σ → ρ → Prop
  | stop {s : σ} {r : ρ} (h : turn s = .stop r) : Ends turn s r
  | goOn {s s' : σ} {r : ρ} (h : turn s = .goOn s')
      (hrest : Ends turn s' r) : Ends turn s r

/-- The values the variables come to have. -/
def Reaches (turn : σ → Turn σ ρ) : σ → σ → Prop :=
  Relation.ReflTransGen fun s s' => turn s = .goOn s'

/-- What holds of all values the variables come to have holds of the first
ones and behind the first turn. -/
theorem forall_reaches {P : σ → Prop} {s : σ} :
    (∀ s', Reaches turn s s' → P s') ↔
      P s ∧ ∀ s₁, turn s = .goOn s₁ → ∀ s', Reaches turn s₁ s' → P s' := by
  constructor
  · exact fun h => ⟨h s .refl, fun s₁ hturn s' hreaches =>
      h s' (.head hturn hreaches)⟩
  · rintro ⟨hfirst, hrest⟩ s' hreaches
    rcases hreaches.cases_head with rfl | ⟨s₁, hturn, hreaches⟩
    · exact hfirst
    · exact hrest s₁ hturn s' hreaches

/-- What every turn leaves as it is does not change. -/
theorem Reaches.conserved {α : Type} (f : σ → α) {s s' : σ}
    (hreaches : Reaches turn s s')
    (hturn : ∀ s s', turn s = .goOn s' → f s' = f s) : f s' = f s := by
  induction hreaches with
  | refl => rfl
  | tail _ hstep ih => exact (hturn _ _ hstep).trans ih

/-- A function that counts down its turns computes the loop, if every turn
makes something smaller that is less than their number at first. -/
theorem ends_of_turns (run : ℕ → σ → ρ) (size : σ → ℕ)
    (hrun : ∀ n s, run (n + 1) s =
      match turn s with
      | .stop r => r
      | .goOn s' => run n s')
    (hsize : ∀ s s', turn s = .goOn s' → size s' < size s)
    {n : ℕ} {s : σ} (h : size s < n) : Ends turn s (run n s) := by
  induction n generalizing s with
  | zero => exact absurd h (Nat.not_lt_zero _)
  | succ n ih =>
      rw [hrun]
      cases hturn : turn s with
      | stop r => exact .stop hturn
      | goOn s' =>
          have hless := hsize s s' hturn
          exact .goOn hturn (ih (by omega))

end Loops
