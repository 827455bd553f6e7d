import Lsmrs.Sstable.WrittenTable
import Lsmrs.Sstable.Merge

/-!
# Merging any tables

What `merge` does on the records of arbitrary tables: it ends, it fails when
a record of an input cannot be decoded, and otherwise it returns for each key
the entry of the newest table that has the key.
-/

namespace Lsmrs

open ByteString OrderedMap

/-! ## One turn of the loop -/

section Turn

variable {iters : List RecordStream} {iter : RecordStream} {key : Bytes}
  {dropTombstones : Bool}

theorem mem_of_firstError {f : Failure} (h : firstError iters = some f) :
    ∃ iter ∈ iters, .error f ∈ iter := by
  induction iters with
  | nil => cases h
  | cons iter iters ih =>
      match iter with
      | .error e :: rest =>
          obtain rfl : e = f := Option.some.inj h
          exact ⟨_, List.mem_cons_self, List.mem_cons_self⟩
      | [] =>
          obtain ⟨iter, hiter, hmem⟩ := ih h
          exact ⟨iter, List.mem_cons_of_mem _ hiter, hmem⟩
      | .ok e :: rest =>
          obtain ⟨iter, hiter, hmem⟩ := ih h
          exact ⟨iter, List.mem_cons_of_mem _ hiter, hmem⟩

/-- Without an error in front, an iterator that offers nothing is at its
end. -/
theorem eq_nil_of_peekKey (h : firstError iters = none)
    (hiter : iter ∈ iters) (hpeek : peekKey iter = none) : iter = [] := by
  induction iters with
  | nil => cases hiter
  | cons first iters ih =>
      match first with
      | .error e :: rest => cases h
      | [] =>
          rcases List.mem_cons.mp hiter with rfl | hiter
          · rfl
          · exact ih h hiter
      | .ok e :: rest =>
          rcases List.mem_cons.mp hiter with rfl | hiter
          · cases hpeek
          · exact ih h hiter

theorem smaller_isSome {smallest : Option Bytes}
    (h : smallest.isSome ∨ (peekKey iter).isSome) :
    (smaller smallest iter).isSome := by
  unfold smaller
  cases hpeek : peekKey iter with
  | none =>
      rw [hpeek] at h
      exact h.resolve_right (by simp)
  | some k =>
      cases smallest with
      | none => rfl
      | some s =>
          dsimp only
          split_ifs <;> rfl

theorem smaller_from {smallest : Option Bytes} {k : Bytes}
    (h : smaller smallest iter = some k) :
    smallest = some k ∨ peekKey iter = some k := by
  unfold smaller at h
  cases hpeek : peekKey iter with
  | none =>
      rw [hpeek] at h
      exact Or.inl h
  | some k' =>
      rw [hpeek] at h
      cases smallest with
      | none => exact Or.inr h
      | some s =>
          dsimp only at h
          split_ifs at h
          · exact Or.inr h
          · exact Or.inl h

/-- The smallest key is one that is offered. -/
theorem offered_of_smallestKey (h : smallestKey iters = some key) :
    ∃ iter ∈ iters, peekKey iter = some key := by
  suffices hgen : ∀ smallest, iters.foldl smaller smallest = some key →
      smallest = some key ∨ ∃ iter ∈ iters, peekKey iter = some key by
    exact (hgen none h).resolve_left (by simp)
  clear h
  induction iters with
  | nil => exact fun smallest h => Or.inl h
  | cons first iters ih =>
      intro smallest h
      rcases ih _ h with h | ⟨iter, hiter, hpeek⟩
      · rcases smaller_from h with h | h
        · exact Or.inl h
        · exact Or.inr ⟨first, List.mem_cons_self, h⟩
      · exact Or.inr ⟨iter, List.mem_cons_of_mem _ hiter, hpeek⟩

/-- Without a smallest key nothing is offered. -/
theorem peekKey_of_smallestKey (h : smallestKey iters = none)
    (hiter : iter ∈ iters) : peekKey iter = none := by
  suffices hgen : ∀ smallest, (smallest.isSome ∨
      ∃ iter ∈ iters, (peekKey iter).isSome) →
        (iters.foldl smaller smallest).isSome by
    by_contra hpeek
    have hsome := hgen none
      (Or.inr ⟨iter, hiter, Option.isSome_iff_ne_none.mpr hpeek⟩)
    rw [smallestKey] at h
    rw [h] at hsome
    cases hsome
  clear h hiter
  induction iters with
  | nil =>
      intro smallest h
      exact h.resolve_right (by simp)
  | cons first iters ih =>
      intro smallest h
      apply ih
      rcases h with h | ⟨iter, hiter, hpeek⟩
      · exact Or.inl (smaller_isSome (Or.inl h))
      · rcases List.mem_cons.mp hiter with rfl | hiter
        · exact Or.inl (smaller_isSome (Or.inr hpeek))
        · exact Or.inr ⟨iter, hiter, hpeek⟩

theorem peekValue_isSome_iff :
    (peekValue key iter).isSome ↔ peekKey iter = some key := by
  match iter with
  | [] => simp [peekValue, peekKey]
  | .error e :: rest => simp [peekValue, peekKey]
  | .ok (k, value) :: rest =>
      rw [peekValue, peekKey, Option.some.injEq]
      split_ifs with heq
      · exact iff_of_true rfl heq
      · exact iff_of_false (by simp) heq

/-- A key that is offered has a newest value. -/
theorem newestValue_of_offered (hiter : iter ∈ iters)
    (hpeek : peekKey iter = some key) :
    ∃ value, newestValue key iters = some value := by
  rw [← Option.isSome_iff_exists]
  suffices hgen : ∀ newest : Option (Option Bytes), (newest.isSome ∨
      ∃ iter ∈ iters, peekKey iter = some key) →
        (iters.foldl (fun newest iter =>
          (peekValue key iter).or newest) newest).isSome by
    exact hgen none (Or.inr ⟨iter, hiter, hpeek⟩)
  clear hiter hpeek
  induction iters with
  | nil =>
      intro newest h
      exact h.resolve_right (by simp)
  | cons first iters ih =>
      intro newest h
      apply ih
      rw [Option.isSome_or, Bool.or_eq_true, peekValue_isSome_iff]
      rcases h with h | ⟨iter, hiter, hpeek⟩
      · exact Or.inl (Or.inr h)
      · rcases List.mem_cons.mp hiter with rfl | hiter
        · exact Or.inl (Or.inl hpeek)
        · exact Or.inr ⟨iter, hiter, hpeek⟩

/-- What a turn puts in front of the rest. -/
def pushed (dropTombstones : Bool) (key : Bytes) (value : Option Bytes)
    (out : List Entry) : List Entry :=
  if value = none ∧ dropTombstones = true then out else (key, value) :: out

/-- The turns of the loop: an input fails, all inputs are at their end, or a
key that is offered is taken off them. -/
theorem mergeLoop_turn (dropTombstones : Bool) (iters : List RecordStream) :
    (∃ f, (∃ iter ∈ iters, .error f ∈ iter) ∧ ∀ turns,
      mergeLoop dropTombstones (turns + 1) iters = .error f) ∨
    ((∀ iter ∈ iters, iter = []) ∧ ∀ turns,
      mergeLoop dropTombstones (turns + 1) iters = .ok []) ∨
    ∃ key value, (∃ iter ∈ iters, peekKey iter = some key) ∧ ∀ turns,
      mergeLoop dropTombstones (turns + 1) iters =
        (mergeLoop dropTombstones turns (iters.map (advance key))).map
          (pushed dropTombstones key value) := by
  cases herror : firstError iters with
  | some f =>
      refine Or.inl ⟨f, mem_of_firstError herror, fun turns => ?_⟩
      rw [mergeLoop, herror]
  | none =>
      refine Or.inr ?_
      cases hkey : smallestKey iters with
      | none =>
          refine Or.inl ⟨?_, fun turns => ?_⟩
          · intro iter hiter
            exact eq_nil_of_peekKey herror hiter
              (peekKey_of_smallestKey hkey hiter)
          · rw [mergeLoop, herror]
            dsimp only
            rw [hkey]
      | some key =>
          obtain ⟨iter, hiter, hpeek⟩ := offered_of_smallestKey hkey
          obtain ⟨value, hvalue⟩ := newestValue_of_offered hiter hpeek
          refine Or.inr ⟨key, value, ⟨iter, hiter, hpeek⟩, fun turns => ?_⟩
          have hid : ∀ out : Result (List Entry), out.map id = out := by
            intro out
            cases out <;> rfl
          rw [mergeLoop, herror]
          dsimp only
          rw [hkey]
          dsimp only
          rw [hvalue]
          cases value with
          | some v => rfl
          | none =>
              cases dropTombstones with
              | true => exact (hid _).symm
              | false => rfl

theorem length_advance_le : (advance key iter).length ≤ iter.length := by
  rw [advance]
  split_ifs
  · rw [List.length_tail]
    exact Nat.sub_le _ _
  · exact le_rfl

theorem length_advance_lt (h : peekKey iter = some key) :
    (advance key iter).length < iter.length := by
  rw [advance, if_pos (peekValue_isSome_iff.mpr h)]
  cases iter with
  | nil => cases h
  | cons first rest => exact Nat.lt_succ_self _

/-- Only decoded records are taken off. -/
theorem error_mem_advance {f : Failure} :
    .error f ∈ advance key iter ↔ .error f ∈ iter := by
  rw [advance]
  split_ifs with htaken
  · rw [peekValue_isSome_iff] at htaken
    cases iter with
    | nil => cases htaken
    | cons first rest =>
        cases first with
        | error e => cases htaken
        | ok e => simp
  · rfl

theorem exists_error_advance {f : Failure} :
    (∃ iter ∈ iters.map (advance key), .error f ∈ iter) ↔
      ∃ iter ∈ iters, .error f ∈ iter := by
  simp only [List.mem_map, exists_exists_and_eq_and, error_mem_advance]

/-- The records that are still to come. -/
def remaining (iters : List RecordStream) : ℕ :=
  (iters.map List.length).sum

theorem remaining_advance_lt
    (h : ∃ iter ∈ iters, peekKey iter = some key) :
    remaining (iters.map (advance key)) < remaining iters := by
  obtain ⟨iter, hiter, hpeek⟩ := h
  rw [remaining, remaining, List.map_map]
  apply List.sum_lt_sum
  · exact fun _ _ => length_advance_le
  · exact ⟨iter, hiter, length_advance_lt hpeek⟩

end Turn

/-! ## The loop ends -/

/-- The merge fails with the error of some input, or none of them has one. -/
theorem merge_cases (dropTombstones : Bool) (iters : List RecordStream) :
    (∃ f, (∃ iter ∈ iters, .error f ∈ iter) ∧
      merge iters dropTombstones = .error f) ∨
    ((∀ f, ¬ ∃ iter ∈ iters, .error f ∈ iter) ∧
      ∃ out, merge iters dropTombstones = .ok out) := by
  suffices hgen : ∀ turns iters, remaining iters < turns →
      (∃ f, (∃ iter ∈ iters, .error f ∈ iter) ∧
        mergeLoop dropTombstones turns iters = .error f) ∨
      ((∀ f, ¬ ∃ iter ∈ iters, .error f ∈ iter) ∧
        ∃ out, mergeLoop dropTombstones turns iters = .ok out) by
    exact hgen _ iters (Nat.lt_succ_self _)
  clear iters
  intro turns
  induction turns with
  | zero => exact fun iters h => absurd h (Nat.not_lt_zero _)
  | succ turns ih =>
      intro iters hturns
      rcases mergeLoop_turn dropTombstones iters with
        ⟨f, hf, hloop⟩ | ⟨hempty, hloop⟩ | ⟨key, value, hoffered, hloop⟩
      · exact Or.inl ⟨f, hf, hloop turns⟩
      · refine Or.inr ⟨?_, [], hloop turns⟩
        rintro f ⟨iter, hiter, hmem⟩
        rw [hempty iter hiter] at hmem
        cases hmem
      · have hlt := remaining_advance_lt hoffered
        rw [hloop]
        rcases ih (iters.map (advance key)) (by omega) with
          ⟨f, hf, hrest⟩ | ⟨hnone, out, hrest⟩
        · exact Or.inl ⟨f, exists_error_advance.mp hf, by rw [hrest]; rfl⟩
        · exact Or.inr ⟨fun f hf => hnone f (exists_error_advance.mpr hf),
            _, by rw [hrest]; rfl⟩

/-- A merge fails only with the error of some input. -/
theorem error_mem_of_merge {iters : List RecordStream}
    {dropTombstones : Bool} {f : Failure}
    (h : merge iters dropTombstones = .error f) :
    ∃ iter ∈ iters, .error f ∈ iter := by
  rcases merge_cases dropTombstones iters with
    ⟨f', hf', hmerge⟩ | ⟨-, out, hmerge⟩
  · rw [h] at hmerge
    obtain rfl := Except.error.inj hmerge
    exact hf'
  · rw [h] at hmerge
    cases hmerge

/-- An error in an input fails the merge, with the error of some input. -/
theorem merge_error {iters : List RecordStream} (dropTombstones : Bool)
    (h : ∃ iter ∈ iters, ∃ f, .error f ∈ iter) :
    ∃ f, merge iters dropTombstones = .error f ∧
      ∃ iter ∈ iters, .error f ∈ iter := by
  rcases merge_cases dropTombstones iters with
    ⟨f, hf, hmerge⟩ | ⟨hnone, -⟩
  · exact ⟨f, hmerge, hf⟩
  · obtain ⟨iter, hiter, f, hf⟩ := h
    exact absurd ⟨iter, hiter, hf⟩ (hnone f)

/-! ## The newest entry wins -/

/-- The entry is in a list, and no later list has its key. -/
def Newest (lists : List (List Entry)) (e : Entry) : Prop :=
  ∃ older entries newer, lists = older ++ entries :: newer ∧ e ∈ entries ∧
    ∀ later ∈ newer, ∀ e' ∈ later, e'.1 ≠ e.1

theorem merged_eq_some_iff {lists : List (List Entry)}
    (hsorted : ∀ entries ∈ lists, Ascending entries) {e : Entry} :
    merged lists e.1 = some e.2 ↔ Newest lists e := by
  rw [merged, Layers.stack_eq_some_iff]
  constructor
  · rintro ⟨older, l, newer, hsplit, hfound, hnone⟩
    obtain ⟨older', rest, rfl, -, hrest⟩ := List.map_eq_append_iff.mp hsplit
    obtain ⟨entries, newer', rfl, rfl, rfl⟩ := List.map_eq_cons_iff.mp hrest
    refine ⟨older', entries, newer', rfl, mem_of_find hfound, ?_⟩
    intro later hlater
    exact find_eq_none_iff.mp (hnone _ (List.mem_map_of_mem hlater))
  · rintro ⟨older, entries, newer, rfl, hmem, hnone⟩
    refine ⟨older.map find, find entries, newer.map find, ?_, ?_, ?_⟩
    · rw [List.map_append, List.map_cons]
    · exact (hsorted entries (by simp)).find_eq_some_iff.mpr hmem
    · intro l hl
      obtain ⟨later, hlater, rfl⟩ := List.mem_map.mp hl
      exact find_eq_none_iff.mpr (hnone later hlater)

/-- A merged list has just the newest entries that are not dropped. -/
theorem MergeOf.mem_iff {dropTombstones : Bool} {lists : List (List Entry)}
    {out : List Entry} (h : MergeOf dropTombstones lists out)
    (hsorted : ∀ entries ∈ lists, Ascending entries) {e : Entry} :
    e ∈ out ↔
      Newest lists e ∧ ¬ (e.2 = none ∧ dropTombstones = true) := by
  have hmem : find out e.1 = some e.2 ↔ e ∈ out :=
    h.ascending.find_eq_some_iff
  rw [← hmem, h.find_eq, Layers.kept_eq_some_iff,
    merged_eq_some_iff hsorted]

/-- The tables read as the given sorted lists of entries. -/
def ReadAs (tables : List SSTable) (lists : List (List Entry)) : Prop :=
  List.Forall₂ (fun t entries => t.records = streamOf entries ∧
    Ascending entries) tables lists

theorem ReadAs.records {tables : List SSTable} {lists : List (List Entry)}
    (h : ReadAs tables lists) :
    tables.map SSTable.records = lists.map streamOf := by
  induction h with
  | nil => rfl
  | cons ht _ ih => rw [List.map_cons, List.map_cons, ht.1, ih]

theorem ReadAs.ascending {tables : List SSTable}
    {lists : List (List Entry)} (h : ReadAs tables lists) :
    ∀ entries ∈ lists, Ascending entries := by
  induction h with
  | nil => simp
  | cons ht _ ih => exact List.forall_mem_cons.mpr ⟨ht.2, ih⟩

end Lsmrs
