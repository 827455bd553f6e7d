import Mathlib.Tactic.Common

/-!
# Computations that ask for buffers

A computation that asks for buffers on its way and results in a value or an
error.  Where the allocator has no buffer longer than a limit it gets as far
as the first longer one, and has no result.
-/

/-- The lengths of the buffers it asks for, in this order, and what it
results in if it is given all of them. -/
structure Metered (ε α : Type) where
  asks : List ℕ
  result : Except ε α

namespace Metered

variable {ε α β : Type} {limit : ℕ}

/-- Ask for one buffer. -/
def ask (len : ℕ) : Metered ε Unit := ⟨[len], .ok ()⟩

/-- What needs no buffer. -/
def lift (r : Except ε α) : Metered ε α := ⟨[], r⟩

instance : Monad (Metered ε) where
  pure a := lift (.ok a)
  bind x f :=
    ⟨x.asks ++ match x.result with
      | .ok a => (f a).asks
      | .error _ => [],
      x.result >>= fun a => (f a).result⟩

/-- No buffer it asks for is longer than the limit. -/
def Within (limit : ℕ) (x : Metered ε α) : Prop :=
  ∀ len ∈ x.asks, len ≤ limit

instance (limit : ℕ) (x : Metered ε α) : Decidable (x.Within limit) :=
  inferInstanceAs (Decidable (∀ len ∈ x.asks, len ≤ limit))

/-- The outcome where longer buffers are refused: `none` if one is. -/
def run (limit : ℕ) (x : Metered ε α) : Option (Except ε α) :=
  if x.Within limit then some x.result else none

/-! ## Results -/

@[simp] theorem result_ask (len : ℕ) :
    (ask len : Metered ε Unit).result = .ok () := rfl

@[simp] theorem result_lift (r : Except ε α) : (lift r).result = r := rfl

@[simp] theorem result_pure (a : α) :
    (pure a : Metered ε α).result = .ok a := rfl

@[simp] theorem result_bind (x : Metered ε α) (f : α → Metered ε β) :
    (x >>= f).result = x.result >>= fun a => (f a).result := rfl

@[simp] theorem result_ite (c : Prop) [Decidable c] (x y : Metered ε α) :
    (if c then x else y).result = if c then x.result else y.result := by
  split_ifs
  · rfl
  · rfl

/-! ## Refusals -/

@[simp] theorem within_ask {len : ℕ} :
    (ask len : Metered ε Unit).Within limit ↔ len ≤ limit := by
  simp [Within, ask]

@[simp] theorem within_lift (r : Except ε α) : (lift r).Within limit := by
  simp [Within, lift]

@[simp] theorem within_pure (a : α) : (pure a : Metered ε α).Within limit :=
  within_lift (.ok a)

theorem within_bind {x : Metered ε α} {f : α → Metered ε β} :
    (x >>= f).Within limit ↔
      x.Within limit ∧ ∀ a, x.result = .ok a → (f a).Within limit := by
  change (∀ len ∈ x.asks ++ _, len ≤ limit) ↔ _
  rw [List.forall_mem_append]
  refine and_congr Iff.rfl ?_
  cases x.result with
  | error e => simp
  | ok a => simp [Within]

theorem run_eq_some_iff {x : Metered ε α} {r : Except ε α} :
    x.run limit = some r ↔ x.Within limit ∧ x.result = r := by
  rw [run]
  split_ifs with hall
  · simp [hall]
  · simp [hall]

end Metered
