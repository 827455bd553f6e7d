import Mathlib.Data.List.Basic
import Mathlib.Logic.Function.Iterate

/-!
# Running checksums

A checksum that is computed symbol by symbol, each step of which can be
undone, differs on messages that differ in one place.
-/

namespace Checksum

variable {σ α : Type} {f : σ → α → σ}

/-- A step can be undone from its symbol, and its symbol told from the state
it started in. -/
structure Reversible (f : σ → α → σ) : Prop where
  state : ∀ a, Function.Injective fun s => f s a
  symbol : ∀ s, Function.Injective (f s)

theorem Reversible.foldl_injective (h : Reversible f) (xs : List α) :
    Function.Injective fun s => xs.foldl f s := by
  induction xs with
  | nil => exact fun s t hst => hst
  | cons x xs ih => exact ih.comp (h.state x)

/-- Messages that differ in one symbol have different checksums. -/
theorem Reversible.foldl_append_cons_ne (h : Reversible f) {a b : α}
    (hab : a ≠ b) (xs ys : List α) (s : σ) :
    (xs ++ a :: ys).foldl f s ≠ (xs ++ b :: ys).foldl f s := by
  intro heq
  rw [List.foldl_append, List.foldl_append, List.foldl_cons,
    List.foldl_cons] at heq
  exact hab (h.symbol _ (h.foldl_injective ys heq))

/-- Changing one symbol changes the checksum. -/
theorem Reversible.foldl_set_ne (h : Reversible f) {xs : List α} {i : ℕ}
    {a : α} (hi : i < xs.length) (ha : xs[i] ≠ a) (s : σ) :
    (xs.set i a).foldl f s ≠ xs.foldl f s := by
  have hset : xs.set i a = xs.take i ++ a :: xs.drop (i + 1) := by
    rw [List.set_eq_take_append_cons_drop, if_pos hi]
  have hsame : xs.take i ++ xs[i] :: xs.drop (i + 1) = xs := by
    rw [← List.drop_eq_getElem_cons hi, List.take_append_drop]
  have hne := h.foldl_append_cons_ne ha.symm (xs.take i) (xs.drop (i + 1)) s
  rwa [← hset, hsame] at hne

end Checksum
