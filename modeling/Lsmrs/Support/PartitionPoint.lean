import Mathlib.Data.List.TakeWhile
import Mathlib.Tactic

/-!
# Partition points

The binary search for the end of the initial part of a list on which a
predicate holds.  On a list the predicate splits into two parts it returns
the length of the first one; on any list it stays in bounds.
-/

namespace PartitionPoint

variable {α : Type}

/-- The predicate at an index; false out of bounds. -/
def holdsAt (p : α → Bool) (xs : List α) (i : ℕ) : Bool :=
  (xs[i]?).any p

/-- Halve the window of `size` elements from `base` on until one is left. -/
def narrow (p : α → Bool) (xs : List α) : ℕ → ℕ → ℕ → ℕ
  | 0, base, _ => base
  | turns + 1, base, size =>
    if size ≤ 1 then base
    else
      let half := size / 2
      let mid := base + half
      narrow p xs turns (if holdsAt p xs mid then mid else base) (size - half)

/-- `partition_point`. -/
def partitionPoint (p : α → Bool) (xs : List α) : ℕ :=
  if xs = [] then 0
  else
    let base := narrow p xs xs.length 0 xs.length
    if holdsAt p xs base then base + 1 else base

/-- The predicate holds on the first `n` elements and on no other. -/
def SplitsAt (p : α → Bool) (xs : List α) (n : ℕ) : Prop :=
  n ≤ xs.length ∧ ∀ i < xs.length, holdsAt p xs i = true ↔ i < n

variable {p : α → Bool} {xs : List α}

/-- The split stays in the window, and the element before the window, if
there is one, is in the first part. -/
theorem narrow_spec {n : ℕ} (hsplit : SplitsAt p xs n)
    {turns base size : ℕ} (hturns : size ≤ turns + 1) (hsize : 0 < size)
    (hbound : base + size ≤ xs.length)
    (hlow : base = 0 ∨ base < n) (hhigh : n ≤ base + size) :
    let b := narrow p xs turns base size
    b < xs.length ∧ (b = 0 ∨ b < n) ∧ n ≤ b + 1 := by
  induction turns generalizing base size with
  | zero =>
      rw [narrow]
      exact ⟨by omega, hlow, by omega⟩
  | succ turns ih =>
      rw [narrow]
      by_cases hone : size ≤ 1
      · rw [if_pos hone]
        exact ⟨by omega, hlow, by omega⟩
      · rw [if_neg hone]
        dsimp only
        have hmid : base + size / 2 < xs.length := by omega
        by_cases hp : holdsAt p xs (base + size / 2) = true
        · rw [if_pos hp]
          have hlt := (hsplit.2 _ hmid).mp hp
          exact ih (by omega) (by omega) (by omega) (Or.inr hlt) (by omega)
        · rw [if_neg hp]
          have hge := mt (hsplit.2 _ hmid).mpr hp
          exact ih (by omega) (by omega) (by omega) hlow (by omega)

theorem partitionPoint_eq {n : ℕ} (hsplit : SplitsAt p xs n) :
    partitionPoint p xs = n := by
  by_cases hnil : xs = []
  · subst hnil
    have hn := hsplit.1
    rw [partitionPoint, if_pos rfl]
    exact (Nat.le_zero.mp hn).symm
  · have hpos : 0 < xs.length := List.length_pos_iff.mpr hnil
    obtain ⟨hlt, hlow, hhigh⟩ := narrow_spec hsplit (Nat.le_succ _) hpos
      (Nat.zero_add _).le (Or.inl rfl) (by rw [Nat.zero_add]; exact hsplit.1)
    rw [partitionPoint, if_neg hnil]
    dsimp only
    split_ifs with hp
    · have := (hsplit.2 _ hlt).mp hp
      omega
    · have := mt (hsplit.2 _ hlt).mpr hp
      omega

theorem narrow_lt {turns base size : ℕ} (hbase : base < xs.length)
    (hbound : base + size ≤ xs.length) :
    narrow p xs turns base size < xs.length := by
  induction turns generalizing base size with
  | zero => exact hbase
  | succ turns ih =>
      rw [narrow]
      by_cases hone : size ≤ 1
      · rwa [if_pos hone]
      · rw [if_neg hone]
        dsimp only
        split_ifs
        · exact ih (by omega) (by omega)
        · exact ih hbase (by omega)

/-- Whatever the predicate holds on, the search stays in the list. -/
theorem partitionPoint_le (p : α → Bool) (xs : List α) :
    partitionPoint p xs ≤ xs.length := by
  rw [partitionPoint]
  by_cases hnil : xs = []
  · rw [if_pos hnil]
    exact Nat.zero_le _
  · have hpos : 0 < xs.length := List.length_pos_iff.mpr hnil
    have hlt : narrow p xs xs.length 0 xs.length < xs.length :=
      narrow_lt hpos (Nat.zero_add _).le
    rw [if_neg hnil]
    dsimp only
    split_ifs
    · exact hlt
    · exact hlt.le

/-- A predicate that holds of everything before what it holds of splits the
list where it stops holding. -/
theorem splitsAt_takeWhile
    (h : xs.Pairwise fun a b => p b = true → p a = true) :
    SplitsAt p xs (xs.takeWhile p).length := by
  induction xs with
  | nil => exact ⟨le_rfl, fun i hi => absurd hi (Nat.not_lt_zero i)⟩
  | cons x xs ih =>
      obtain ⟨hx, hxs⟩ := List.pairwise_cons.mp h
      by_cases hp : p x = true
      · rw [List.takeWhile_cons_of_pos hp, List.length_cons]
        obtain ⟨hle, hiff⟩ := ih hxs
        refine ⟨Nat.succ_le_succ hle, ?_⟩
        intro i hi
        cases i with
        | zero => simpa [holdsAt] using hp
        | succ i =>
            have hi' := Nat.lt_of_succ_lt_succ hi
            rw [Nat.succ_lt_succ_iff, ← hiff i hi']
            simp [holdsAt]
      · rw [List.takeWhile_cons_of_neg hp]
        refine ⟨Nat.zero_le _, ?_⟩
        intro i hi
        refine iff_of_false ?_ (Nat.not_lt_zero i)
        cases i with
        | zero => simpa [holdsAt] using hp
        | succ i =>
            have hi' := Nat.lt_of_succ_lt_succ hi
            intro hat
            simp only [holdsAt, List.getElem?_cons_succ,
              List.getElem?_eq_getElem hi', Option.any_some] at hat
            exact hp (hx _ (List.getElem_mem hi') hat)

end PartitionPoint
