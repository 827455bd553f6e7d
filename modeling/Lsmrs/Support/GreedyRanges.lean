import Mathlib.Logic.Relation
import Mathlib.Order.Nat
import Mathlib.Tactic.Common

/-!
# Greedy ranges

Cutting the positions below a bound into ranges from the left, each as long
as it fits.  What a range has to fit is a predicate on its two ends.
-/

namespace GreedyRanges

variable {fits : ℕ → ℕ → Prop} {n start stop : ℕ}

/-- The longest range from `start`: all ranges from there up to `stop` fit,
and no further position does.  A single position always counts. -/
structure Longest (fits : ℕ → ℕ → Prop) (n start stop : ℕ) : Prop where
  lt : start < stop
  le : stop ≤ n
  inside : ∀ j, start + 1 < j → j ≤ stop → fits start j
  maximal : stop = n ∨ ¬ fits start (stop + 1)

/-- A position that one of the ranges starts or the last one ends at. -/
def GroupStart (fits : ℕ → ℕ → Prop) (n : ℕ) : ℕ → Prop :=
  Relation.ReflTransGen (Longest fits n) 0

theorem Longest.stop_le {stop' : ℕ} (h : Longest fits n start stop)
    (h' : Longest fits n start stop') : stop' ≤ stop := by
  by_contra hlt
  rw [not_le] at hlt
  have hle := h'.le
  have hstart := h.lt
  rcases h.maximal with heq | hnot
  · omega
  · exact hnot (h'.inside (stop + 1) (by omega) hlt)

theorem Longest.unique {stop' : ℕ} (h : Longest fits n start stop)
    (h' : Longest fits n start stop') : stop = stop' :=
  le_antisymm (h'.stop_le h) (h.stop_le h')

theorem le_of_reflTransGen {a b : ℕ}
    (h : Relation.ReflTransGen (Longest fits n) a b) : a ≤ b := by
  induction h with
  | refl => exact le_rfl
  | tail _ hstep ih => exact ih.trans hstep.lt.le

/-- No range starts inside another one. -/
theorem GroupStart.stop_le {later : ℕ} (hstart : GroupStart fits n start)
    (h : Longest fits n start stop) (hlater : GroupStart fits n later)
    (hlt : start < later) : stop ≤ later := by
  have hunique : Relator.RightUnique (Longest fits n) :=
    fun _ _ _ hab hac => hab.unique hac
  rcases Relation.ReflTransGen.total_of_right_unique hunique hstart hlater
    with hpath | hpath
  · rcases Relation.ReflTransGen.cases_head hpath with
      heq | ⟨next, hnext, hrest⟩
    · omega
    · rw [h.unique hnext]
      exact le_of_reflTransGen hrest
  · exact absurd (le_of_reflTransGen hpath) (not_le.mpr hlt)

theorem GroupStart.next (hstart : GroupStart fits n start)
    (h : Longest fits n start stop) : GroupStart fits n stop :=
  Relation.ReflTransGen.tail hstart h

end GreedyRanges
