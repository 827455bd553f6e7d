import Mathlib.Data.List.Infix
import Mathlib.Tactic

/-!
# Layered maps

A map kept as a stack of layers, oldest first.  A layer says of a key that it
has a value, that it was deleted, or nothing; the newest layer that says
something decides.  The results here are about rewriting part of a stack:
what a run of layers may be replaced by, and when a record of a deletion may
be forgotten.
-/

namespace Layers

variable {K V : Type}

/-- What one layer says of each key: `none` is nothing, `some none` is a
deletion. -/
abbrev Layer (K V : Type) := K → Option (Option V)

/-- The newest layer that says something of a key. -/
def stack : List (Layer K V) → Layer K V
  | [] => fun _ => none
  | l :: ls => fun k => (stack ls k).or (l k)

/-- The value a reader sees: deleted and never written look the same. -/
def visible (l : Layer K V) (k : K) : Option V :=
  (l k).join

@[simp] theorem stack_nil (k : K) :
    stack ([] : List (Layer K V)) k = none := rfl

theorem stack_cons (l : Layer K V) (ls : List (Layer K V)) (k : K) :
    stack (l :: ls) k = (stack ls k).or (l k) := rfl

theorem stack_append (old new : List (Layer K V)) (k : K) :
    stack (old ++ new) k = (stack new k).or (stack old k) := by
  induction old with
  | nil => simp
  | cons l old ih =>
      rw [List.cons_append, stack_cons, ih, stack_cons, Option.or_assoc]

theorem stack_singleton (l : Layer K V) (k : K) : stack [l] k = l k := by
  simp [stack_cons]

/-- Reading newest first and stopping at the first answer reads the
stack. -/
theorem findSome?_reverse (ls : List (Layer K V)) (k : K) :
    ls.reverse.findSome? (fun l => l k) = stack ls k := by
  induction ls with
  | nil => rfl
  | cons l ls ih =>
      rw [List.reverse_cons, List.findSome?_append, ih, stack_cons]
      simp

theorem stack_eq_none_iff {ls : List (Layer K V)} {k : K} :
    stack ls k = none ↔ ∀ l ∈ ls, l k = none := by
  induction ls with
  | nil => simp
  | cons l ls ih =>
      rw [stack_cons, Option.or_eq_none_iff, ih, List.forall_mem_cons,
        and_comm]

/-- The stack says what the newest layer says that says something. -/
theorem stack_eq_some_iff {ls : List (Layer K V)} {k : K} {e : Option V} :
    stack ls k = some e ↔ ∃ older l newer, ls = older ++ l :: newer ∧
      l k = some e ∧ ∀ later ∈ newer, later k = none := by
  constructor
  · intro h
    induction ls with
    | nil => cases h
    | cons l ls ih =>
        rw [stack_cons, Option.or_eq_some_iff] at h
        rcases h with h | ⟨hnone, h⟩
        · obtain ⟨older, l', newer, rfl, hrest⟩ := ih h
          exact ⟨l :: older, l', newer, rfl, hrest⟩
        · exact ⟨[], l, ls, rfl, h, stack_eq_none_iff.mp hnone⟩
  · rintro ⟨older, l, newer, rfl, h, hnone⟩
    rw [stack_append, stack_cons, stack_eq_none_iff.mpr hnone, h]
    rfl

/-! ## Visible values -/

theorem join_or (a b : Option (Option V)) :
    (a.or b).join = if a.isSome then a.join else b.join := by
  cases a <;> rfl

/-- Entries that say nothing visible may lie under anything. -/
theorem join_or_of_join_eq_none {b : Option (Option V)}
    (hb : b.join = none) (a : Option (Option V)) :
    (a.or b).join = a.join := by
  cases a with
  | none => simpa using hb
  | some e => rfl

theorem visible_stack_append_congr {old old' : List (Layer K V)} {k : K}
    (h : visible (stack old) k = visible (stack old') k)
    (new : List (Layer K V)) :
    visible (stack (old ++ new)) k = visible (stack (old' ++ new)) k := by
  unfold visible at h ⊢
  rw [stack_append, stack_append, join_or, join_or, h]

/-- What is kept of an answer when records of deletions may be dropped. -/
def kept (dropDeletions : Bool) : Option (Option V) → Option (Option V)
  | some none => if dropDeletions then none else some none
  | answer => answer

@[simp] theorem kept_false (answer : Option (Option V)) :
    kept false answer = answer := by
  rcases answer with _ | _ | v <;> rfl

theorem kept_eq_some_iff {dropDeletions : Bool}
    {answer : Option (Option V)} {e : Option V} :
    kept dropDeletions answer = some e ↔
      answer = some e ∧ ¬ (e = none ∧ dropDeletions = true) := by
  rcases answer with _ | _ | v
  · simp [kept]
  · cases dropDeletions
    · simp only [kept_false, Bool.false_eq_true, and_false, not_false_eq_true,
        and_true]
    · simp only [kept, if_true, reduceCtorEq, Option.some.injEq, and_true,
        false_iff, not_and, not_not]
      exact Eq.symm
  · simp only [kept, Option.some.injEq, iff_self_and]
    rintro rfl ⟨h, -⟩
    cases h

@[simp] theorem join_kept (dropDeletions : Bool)
    (answer : Option (Option V)) :
    (kept dropDeletions answer).join = answer.join := by
  rcases answer with _ | _ | v
  · rfl
  · cases dropDeletions <;> rfl
  · rfl

/-- A layer decides if every newer one agrees with it or says nothing. -/
theorem stack_eq_of_agree {old new : List (Layer K V)} {l : Layer K V}
    {k : K} {e : Option V} (hl : l k = some e)
    (hnew : ∀ l' ∈ new, l' k = none ∨ l' k = some e) :
    stack (old ++ l :: new) k = some e := by
  have htop : stack new k = none ∨ stack new k = some e := by
    induction new with
    | nil => exact Or.inl rfl
    | cons l' new ih =>
        obtain ⟨hl', hrest⟩ := List.forall_mem_cons.mp hnew
        rw [stack_cons]
        rcases ih hrest with h | h
        · rw [h, Option.none_or]
          exact hl'
        · rw [h]
          exact Or.inr rfl
  rw [stack_append, stack_cons, hl]
  rcases htop with h | h
  · rw [h]
    rfl
  · rw [h]
    rfl

/-- A stack shows no value just if every value in it is under a newer
answer. -/
theorem visible_stack_eq_none_iff {ls : List (Layer K V)} {k : K} :
    visible (stack ls) k = none ↔
      ∀ old l new, ls = old ++ l :: new → (l k).join ≠ none →
        ∃ l' ∈ new, l' k ≠ none := by
  constructor
  · rintro hnone old l new rfl hvalue
    by_contra hno
    push Not at hno
    have hstack : stack (old ++ l :: new) k = l k := by
      rw [stack_append, stack_cons, stack_eq_none_iff.mpr hno,
        Option.none_or]
      cases hl : l k with
      | none =>
          rw [hl] at hvalue
          exact absurd rfl hvalue
      | some e => rfl
    rw [visible, hstack] at hnone
    exact hvalue hnone
  · intro h
    induction ls with
    | nil => rfl
    | cons l ls ih =>
        rw [visible, stack_cons, join_or]
        by_cases hsome : (stack ls k).isSome
        · rw [if_pos hsome]
          refine ih fun old l' new heq => h (l :: old) l' new ?_
          rw [heq, List.cons_append]
        · rw [if_neg hsome]
          by_contra hvalue
          obtain ⟨l', hl', hne⟩ := h [] l ls rfl hvalue
          exact hne (stack_eq_none_iff.mp
            (Option.not_isSome_iff_eq_none.mp hsome) l' hl')

/-! ## Replacing a run of layers -/

/-- `out` can stand for `run` above the layers `under`: it says the same of
every key, or at least shows the same when nothing is below. -/
def Replaces (under run out : List (Layer K V)) : Prop :=
  (∀ k, stack out k = stack run k) ∨
    (under = [] ∧ ∀ k, visible (stack out) k = visible (stack run) k)

theorem Replaces.visible_eq {under run out : List (Layer K V)}
    (h : Replaces under run out) (new : List (Layer K V)) (k : K) :
    visible (stack (under ++ (out ++ new))) k =
      visible (stack (under ++ (run ++ new))) k := by
  rcases h with h | ⟨rfl, h⟩
  · unfold visible
    simp only [stack_append, h]
  · exact visible_stack_append_congr (h k) new

/-- A stack that shows nothing keeps showing nothing when its oldest layers
are gone. -/
theorem visible_suffix_eq_none {ls rest : List (Layer K V)} {k : K}
    (h : visible (stack ls) k = none) (hrest : rest <:+ ls) :
    visible (stack rest) k = none := by
  obtain ⟨gone, rfl⟩ := hrest
  unfold visible at h ⊢
  rw [stack_append, join_or] at h
  by_cases hrest : (stack rest k).isSome
  · rwa [if_pos hrest] at h
  · rw [Option.not_isSome_iff_eq_none.mp hrest]
    rfl

/-- Layers that show nothing can be put below a stack. -/
theorem visible_append_of_none {old : List (Layer K V)} {k : K}
    (h : visible (stack old) k = none) (new : List (Layer K V)) :
    visible (stack (old ++ new)) k = visible (stack new) k := by
  unfold visible at h ⊢
  rw [stack_append, join_or_of_join_eq_none h]

end Layers
