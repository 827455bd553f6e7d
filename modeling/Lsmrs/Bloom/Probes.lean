import Lsmrs.Bloom

/-!
# Probing any filter

A filter read from a file may have any number of bits, and words that do not
belong to it.  A query looks at one probe after the other until one finds its
bit unset; it panics exactly if one of these leaves the words.
-/

namespace Lsmrs

namespace BloomFilter

variable {f : BloomFilter} {hash : UInt64}

/-- A probe can be wrapped and finds its word. -/
def Lands (f : BloomFilter) (hash : UInt64) (i : ℕ) : Prop :=
  0 < f.numBits ∧ position hash i % f.numBits / 64 < f.bits.length

/-- A query gets as far as this probe: the ones before it found their bits
set. -/
def Queries (f : BloomFilter) (hash : UInt64) (i : ℕ) : Prop :=
  ∀ j < i, f.Lands hash j ∧ f.Has (position hash j % f.numBits)

theorem Queries.succ {i : ℕ} (h : f.Queries hash i)
    (hlands : f.Lands hash i)
    (hhas : f.Has (position hash i % f.numBits)) :
    f.Queries hash (i + 1) := by
  intro j hj
  rcases Nat.lt_succ_iff_lt_or_eq.mp hj with hj | rfl
  · exact h j hj
  · exact ⟨hlands, hhas⟩

/-- Looking at one probe. -/
theorem probe_hasBit_cases (f : BloomFilter) (hash : UInt64) (i : ℕ) :
    (¬ f.Lands hash i ∧
      (f.probe hash i >>= f.hasBit) = .error .panic) ∨
    (f.Lands hash i ∧ ¬ f.Has (position hash i % f.numBits) ∧
      (f.probe hash i >>= f.hasBit) = .ok false) ∨
    (f.Lands hash i ∧ f.Has (position hash i % f.numBits) ∧
      (f.probe hash i >>= f.hasBit) = .ok true) := by
  rw [probe]
  by_cases hzero : f.numBits = 0
  · rw [if_pos hzero]
    refine Or.inl ⟨fun hlands => ?_, rfl⟩
    exact absurd hlands.1 (by omega)
  · rw [if_neg hzero, ok_bind, hasBit]
    cases hword : f.bits[position hash i % f.numBits / 64]? with
    | none =>
        refine Or.inl ⟨fun hlands => ?_, rfl⟩
        exact absurd hlands.2 (not_lt.mpr (List.getElem?_eq_none_iff.mp hword))
    | some word =>
        obtain ⟨hlt, -⟩ := List.getElem?_eq_some_iff.mp hword
        have hlands : f.Lands hash i := ⟨by omega, hlt⟩
        have hiff : f.Has (position hash i % f.numBits) ↔
            wordHas word (position hash i % f.numBits % 64) = true := by
          simp [Has, hword]
        dsimp only
        rw [hiff]
        cases wordHas word (position hash i % f.numBits % 64) with
        | false => exact Or.inr (Or.inl ⟨hlands, Bool.false_ne_true, rfl⟩)
        | true => exact Or.inr (Or.inr ⟨hlands, rfl, rfl⟩)

theorem containsProbes_append (f : BloomFilter) (hash : UInt64)
    (probes later : List ℕ) :
    f.containsProbes hash (probes ++ later) =
      f.containsProbes hash probes >>= fun b =>
        if b then f.containsProbes hash later else .ok false := by
  induction probes with
  | nil => rfl
  | cons i probes ih =>
      rw [List.cons_append, containsProbes, containsProbes, bind_assoc]
      congr 1
      funext bit
      rw [bind_assoc]
      congr 1
      funext b
      cases b with
      | false => rfl
      | true => exact ih

/-- How a query ends. -/
theorem containsProbes_range_cases (f : BloomFilter) (hash : UInt64)
    (n : ℕ) :
    ((∃ i < n, f.Queries hash i ∧ ¬ f.Lands hash i) ∧
      f.containsProbes hash (List.range n) = .error .panic) ∨
    ((∃ i < n, f.Queries hash i ∧ f.Lands hash i ∧
        ¬ f.Has (position hash i % f.numBits)) ∧
      f.containsProbes hash (List.range n) = .ok false) ∨
    (f.Queries hash n ∧
      f.containsProbes hash (List.range n) = .ok true) := by
  induction n with
  | zero => exact Or.inr (Or.inr ⟨fun j hj => absurd hj (by omega), rfl⟩)
  | succ n ih =>
      have hone : f.containsProbes hash [n] =
          (f.probe hash n >>= f.hasBit) := by
        rw [containsProbes]
        congr 1
        funext bit
        cases f.hasBit bit with
        | error e => rfl
        | ok b =>
            cases b with
            | false => rfl
            | true => rfl
      rw [List.range_succ, containsProbes_append, hone]
      rcases ih with ⟨⟨i, hi, hfirst⟩, heq⟩ | ⟨⟨i, hi, hfirst⟩, heq⟩ |
        ⟨hqueries, heq⟩
      · exact Or.inl ⟨⟨i, by omega, hfirst⟩, by rw [heq]; rfl⟩
      · exact Or.inr (Or.inl ⟨⟨i, by omega, hfirst⟩, by rw [heq]; rfl⟩)
      · rw [heq, ok_bind, if_pos rfl]
        rcases probe_hasBit_cases f hash n with ⟨hnot, hprobe⟩ |
          ⟨hlands, hnot, hprobe⟩ | ⟨hlands, hhas, hprobe⟩
        · exact Or.inl ⟨⟨n, by omega, hqueries, hnot⟩, hprobe⟩
        · exact Or.inr (Or.inl ⟨⟨n, by omega, hqueries, hlands, hnot⟩, hprobe⟩)
        · exact Or.inr (Or.inr ⟨hqueries.succ hlands hhas, hprobe⟩)

/-- A query panics exactly if it gets to a probe that does not land. -/
theorem contains_eq_panic_iff :
    f.contains hash = .error .panic ↔
      ∃ i < f.numProbes, f.Queries hash i ∧ ¬ f.Lands hash i := by
  rw [contains]
  rcases containsProbes_range_cases f hash f.numProbes with
    ⟨hfirst, heq⟩ | ⟨⟨i, hi, hqueries, hlands, hnot⟩, heq⟩ |
      ⟨hqueries, heq⟩
  · exact iff_of_true heq hfirst
  · rw [heq]
    refine iff_of_false (fun h => by cases h) ?_
    rintro ⟨j, -, hqueries', hnot'⟩
    rcases lt_trichotomy i j with hlt | rfl | hlt
    · exact hnot (hqueries' i hlt).2
    · exact hnot' hlands
    · exact hnot' (hqueries j hlt).1
  · rw [heq]
    refine iff_of_false (fun h => by cases h) ?_
    rintro ⟨j, hj, -, hnot'⟩
    exact hnot' (hqueries j hj).1

theorem contains_eq_true_iff :
    f.contains hash = .ok true ↔ f.Queries hash f.numProbes := by
  rw [contains]
  rcases containsProbes_range_cases f hash f.numProbes with
    ⟨⟨i, hi, -, hnot⟩, heq⟩ | ⟨⟨i, hi, -, -, hnot⟩, heq⟩ |
      ⟨hqueries, heq⟩
  · rw [heq]
    exact iff_of_false (fun h => by cases h) fun h => hnot (h i hi).1
  · rw [heq]
    exact iff_of_false (fun h => by cases h) fun h => hnot (h i hi).2
  · exact iff_of_true heq hqueries

end BloomFilter

end Lsmrs
