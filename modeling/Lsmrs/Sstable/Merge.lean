import Lsmrs.Sstable.Table
import Lsmrs.Support.Layers
import Lsmrs.Support.OrderedMap

/-!
# Merging tables

The k-way merge of `sstable.rs` over the record iterators of its tables, and
what it computes: the stack of the tables as one ascending list.
-/

namespace Lsmrs

open ByteString OrderedMap Layers

/-! ## The loop -/

/-- An iterator over records, with its next item peeked at the head. -/
abbrev RecordStream := List (Result Entry)

/-- The first iterator whose next item is an error fails the merge. -/
def firstError : List RecordStream → Option Failure
  | [] => none
  | (.error e :: _) :: _ => some e
  | _ :: iters => firstError iters

/-- The key an iterator offers next. -/
def peekKey : RecordStream → Option Bytes
  | .ok (key, _) :: _ => some key
  | _ => none

def smaller (smallest : Option Bytes) (iter : RecordStream) :
    Option Bytes :=
  match peekKey iter, smallest with
  | some key, some s => if key < s then some key else some s
  | some key, none => some key
  | none, smallest => smallest

/-- The smallest key any iterator offers. -/
def smallestKey (iters : List RecordStream) : Option Bytes :=
  iters.foldl smaller none

/-- The value an iterator offers for a key. -/
def peekValue (key : Bytes) : RecordStream → Option (Option Bytes)
  | .ok (k, value) :: _ => if k = key then some value else none
  | _ => none

/-- The last iterator that offers the key decides its value. -/
def newestValue (key : Bytes) (iters : List RecordStream) :
    Option (Option Bytes) :=
  iters.foldl (fun newest iter => (peekValue key iter).or newest) none

/-- Take the key off an iterator that offers it. -/
def advance (key : Bytes) (iter : RecordStream) : RecordStream :=
  if (peekValue key iter).isSome then iter.tail else iter

/-- The loop of `merge`. -/
def mergeLoop (dropTombstones : Bool) :
    ℕ → List RecordStream → Result (List Entry)
  | 0, _ => .ok []
  | turns + 1, iters =>
    match firstError iters with
    | some e => .error e
    | none =>
      match smallestKey iters with
      | none => .ok []
      | some key =>
        let later := mergeLoop dropTombstones turns (iters.map (advance key))
        match newestValue key iters with
        | none => .error .panic
        | some none =>
          if dropTombstones then later else later.map ((key, none) :: ·)
        | some value => later.map ((key, value) :: ·)

/-- `merge` on the record iterators of the tables, oldest first.  Every turn
takes at least one record, so there are turns enough. -/
def merge (iters : List RecordStream) (dropTombstones : Bool) :
    Result (List Entry) :=
  mergeLoop dropTombstones ((iters.map List.length).sum + 1) iters

/-! ## Iterators without errors -/

/-- An iterator over the given entries. -/
def streamOf (entries : List Entry) : RecordStream :=
  entries.map .ok

@[simp] theorem firstError_streamOf (lists : List (List Entry)) :
    firstError (lists.map streamOf) = none := by
  induction lists with
  | nil => rfl
  | cons entries lists ih =>
      cases entries <;> simpa [streamOf, firstError] using ih

/-- The smallest key is offered, and no iterator holds a smaller one. -/
structure Smallest (lists : List (List Entry)) (key : Bytes) : Prop where
  offered : ∃ entries ∈ lists, ∃ e ∈ entries, e.1 = key
  le : ∀ entries ∈ lists, ∀ e ∈ entries, key ≤ e.1

theorem smaller_cons (smallest : Option Bytes) (first : Entry)
    (rest : List Entry) :
    ∃ s, smaller smallest (streamOf (first :: rest)) = some s ∧
      (smallest = some s ∨ s = first.1) ∧
      (∀ s' ∈ smallest, s ≤ s') ∧ s ≤ first.1 := by
  cases smallest with
  | none => exact ⟨first.1, rfl, Or.inr rfl, by simp, le_rfl⟩
  | some s₀ =>
      by_cases hlt : first.1 < s₀
      · refine ⟨first.1, ?_, Or.inr rfl, ?_, le_rfl⟩
        · simp [smaller, streamOf, peekKey, hlt]
        · simpa using le_of_lt hlt
      · refine ⟨s₀, ?_, Or.inl rfl, by simp, not_lt.mp hlt⟩
        simp [smaller, streamOf, peekKey, hlt]

theorem foldl_smaller_spec {lists : List (List Entry)}
    (hsorted : ∀ entries ∈ lists, Ascending entries)
    (smallest : Option Bytes) :
    match (lists.map streamOf).foldl smaller smallest with
    | none => smallest = none ∧ ∀ entries ∈ lists, entries = []
    | some key =>
      (smallest = some key ∨ ∃ entries ∈ lists, ∃ e ∈ entries, e.1 = key) ∧
        (∀ s ∈ smallest, key ≤ s) ∧
        ∀ entries ∈ lists, ∀ e ∈ entries, key ≤ e.1 := by
  induction lists generalizing smallest with
  | nil => cases smallest <;> simp
  | cons entries lists ih =>
      obtain ⟨hentries, hlists⟩ := List.forall_mem_cons.mp hsorted
      rw [List.map_cons, List.foldl_cons]
      have hrest := ih hlists (smaller smallest (streamOf entries))
      cases entries with
      | nil =>
          have hsame : smaller smallest (streamOf []) = smallest := by
            cases smallest <;> rfl
          rw [hsame] at hrest ⊢
          cases hres : (lists.map streamOf).foldl smaller smallest with
          | none =>
              rw [hres] at hrest
              exact ⟨hrest.1, List.forall_mem_cons.mpr ⟨rfl, hrest.2⟩⟩
          | some key =>
              rw [hres] at hrest
              obtain ⟨hfrom, hsmallest, hle⟩ := hrest
              refine ⟨?_, hsmallest, List.forall_mem_cons.mpr ⟨by simp, hle⟩⟩
              rcases hfrom with h | ⟨es, hes, h⟩
              · exact Or.inl h
              · exact Or.inr ⟨es, List.mem_cons_of_mem _ hes, h⟩
      | cons first rest =>
          have hhead : ∀ e ∈ first :: rest, first.1 ≤ e.1 := by
            intro e he
            rcases List.mem_cons.mp he with rfl | he
            · exact le_rfl
            · exact le_of_lt (hentries.head_lt he)
          -- The fold goes on with the smaller of the two keys.
          obtain ⟨s, hs, hs_from, hs_le, hs_first⟩ :=
            smaller_cons smallest first rest
          rw [hs] at hrest ⊢
          cases hres : (lists.map streamOf).foldl smaller (some s) with
          | none =>
              rw [hres] at hrest
              cases hrest.1
          | some key =>
              rw [hres] at hrest
              obtain ⟨hfrom, hsmallest, hle⟩ := hrest
              have hkey_le : key ≤ s := hsmallest s rfl
              refine ⟨?_, fun s' hs' => hkey_le.trans (hs_le s' hs'), ?_⟩
              · rcases hfrom with h | ⟨es, hes, h⟩
                · obtain rfl := Option.some.inj h
                  rcases hs_from with h | h
                  · exact Or.inl h
                  · exact Or.inr ⟨_, List.mem_cons_self, first,
                      List.mem_cons_self, h.symm⟩
                · exact Or.inr ⟨es, List.mem_cons_of_mem _ hes, h⟩
              · refine List.forall_mem_cons.mpr ⟨?_, hle⟩
                intro e he
                exact (hkey_le.trans hs_first).trans (hhead e he)

theorem smallestKey_eq_none {lists : List (List Entry)}
    (hsorted : ∀ entries ∈ lists, Ascending entries)
    (h : smallestKey (lists.map streamOf) = none) :
    ∀ entries ∈ lists, entries = [] := by
  have hspec := foldl_smaller_spec hsorted none
  rw [smallestKey] at h
  rw [h] at hspec
  exact hspec.2

theorem smallestKey_eq_some {lists : List (List Entry)} {key : Bytes}
    (hsorted : ∀ entries ∈ lists, Ascending entries)
    (h : smallestKey (lists.map streamOf) = some key) :
    Smallest lists key := by
  have hspec := foldl_smaller_spec hsorted none
  rw [smallestKey] at h
  rw [h] at hspec
  obtain ⟨hfrom, -, hle⟩ := hspec
  exact ⟨hfrom.resolve_left (by simp), hle⟩

/-! ## One turn -/

section Turn

variable {entries : List Entry} {key : Bytes}

/-- An iterator that holds no smaller key offers exactly what it holds. -/
theorem peekValue_streamOf (hsorted : Ascending entries)
    (hle : ∀ e ∈ entries, key ≤ e.1) :
    peekValue key (streamOf entries) = find entries key := by
  cases entries with
  | nil => rfl
  | cons first rest =>
      rw [find_cons]
      change (if first.1 = key then some first.2 else none) = _
      by_cases heq : first.1 = key
      · rw [if_pos heq, if_pos heq]
      · have hnone : find rest key = none := by
          rw [find_eq_none_iff]
          rintro e he rfl
          have hlt := hsorted.head_lt he
          exact absurd (hle first List.mem_cons_self) (not_le.mpr hlt)
        rw [if_neg heq, if_neg heq, hnone]

/-- The entries left once a key is taken. -/
def without (key : Bytes) (entries : List Entry) : List Entry :=
  if (find entries key).isSome then entries.tail else entries

theorem advance_streamOf (hsorted : Ascending entries)
    (hle : ∀ e ∈ entries, key ≤ e.1) :
    advance key (streamOf entries) = streamOf (without key entries) := by
  rw [advance, peekValue_streamOf hsorted hle, without]
  split_ifs
  · rw [streamOf, ← List.map_tail]
    rfl
  · rfl

theorem without_cases (hsorted : Ascending entries)
    (hle : ∀ e ∈ entries, key ≤ e.1) :
    (∃ value, entries = (key, value) :: without key entries) ∨
      (without key entries = entries ∧ find entries key = none) := by
  rw [without]
  split_ifs with hfound
  · left
    obtain ⟨value, hvalue⟩ := Option.isSome_iff_exists.mp hfound
    have hmem := mem_of_find hvalue
    cases entries with
    | nil => cases hmem
    | cons first rest =>
        rcases List.mem_cons.mp hmem with heq | hmem
        · exact ⟨value, by rw [← heq]; rfl⟩
        · have hlt : first.1 < key := hsorted.head_lt hmem
          exact absurd (hle first List.mem_cons_self) (not_le.mpr hlt)
  · exact Or.inr ⟨rfl, Option.not_isSome_iff_eq_none.mp hfound⟩

theorem without_ascending (hsorted : Ascending entries) :
    Ascending (without key entries) := by
  rw [without]
  split_ifs
  · exact List.Pairwise.tail hsorted
  · exact hsorted

theorem lt_of_mem_without (hsorted : Ascending entries)
    (hle : ∀ e ∈ entries, key ≤ e.1) {e : Entry}
    (he : e ∈ without key entries) : key < e.1 := by
  rcases without_cases hsorted hle with ⟨value, heq⟩ | ⟨heq, hnone⟩
  · rw [heq] at hsorted
    exact hsorted.head_lt he
  · rw [heq] at he
    refine lt_of_le_of_ne (hle e he) ?_
    exact fun h => find_eq_none_iff.mp hnone e he h.symm

theorem find_without (hsorted : Ascending entries)
    (hle : ∀ e ∈ entries, key ≤ e.1) (k : Bytes) :
    find (without key entries) k =
      if key = k then none else find entries k := by
  by_cases hk : key = k
  · subst hk
    rw [if_pos rfl, find_eq_none_iff]
    exact fun e he => ne_of_gt (lt_of_mem_without hsorted hle he)
  · rw [if_neg hk]
    rcases without_cases hsorted hle with ⟨value, heq⟩ | ⟨heq, -⟩
    · conv_rhs => rw [heq, find_cons, if_neg hk]
    · rw [heq]

theorem length_without_le : (without key entries).length ≤ entries.length := by
  rw [without]
  split_ifs
  · rw [List.length_tail]
    exact Nat.sub_le _ _
  · exact le_rfl

end Turn

/-- The tables of a merge as one layered map. -/
def merged (lists : List (List Entry)) : Layer Bytes Bytes :=
  stack (lists.map find)

theorem newestValue_streamOf {lists : List (List Entry)} {key : Bytes}
    (hsorted : ∀ entries ∈ lists, Ascending entries)
    (hle : ∀ entries ∈ lists, ∀ e ∈ entries, key ≤ e.1) :
    newestValue key (lists.map streamOf) = merged lists key := by
  suffices hgen : ∀ newest, (lists.map streamOf).foldl
      (fun newest iter => (peekValue key iter).or newest) newest =
        (merged lists key).or newest by
    rw [newestValue, hgen, Option.or_none]
  induction lists with
  | nil => intro newest; rfl
  | cons entries lists ih =>
      intro newest
      obtain ⟨hentries, hlists⟩ := List.forall_mem_cons.mp hsorted
      obtain ⟨hfirst, hrest⟩ := List.forall_mem_cons.mp hle
      rw [List.map_cons, List.foldl_cons, ih hlists hrest,
        peekValue_streamOf hentries hfirst, merged, merged, List.map_cons,
        stack_cons, Option.or_assoc]

theorem merged_without {lists : List (List Entry)} {key : Bytes}
    (hsorted : ∀ entries ∈ lists, Ascending entries)
    (hle : ∀ entries ∈ lists, ∀ e ∈ entries, key ≤ e.1) (k : Bytes) :
    merged (lists.map (without key)) k =
      if key = k then none else merged lists k := by
  induction lists with
  | nil => simp [merged]
  | cons entries lists ih =>
      obtain ⟨hentries, hlists⟩ := List.forall_mem_cons.mp hsorted
      obtain ⟨hfirst, hrest⟩ := List.forall_mem_cons.mp hle
      have htail := ih hlists hrest
      simp only [merged, List.map_cons, stack_cons] at htail ⊢
      rw [htail, find_without hentries hfirst]
      split_ifs <;> rfl

theorem merged_eq_none_iff {lists : List (List Entry)} {k : Bytes} :
    merged lists k = none ↔
      ∀ entries ∈ lists, ∀ e ∈ entries, e.1 ≠ k := by
  rw [merged, stack_eq_none_iff, List.forall_mem_map]
  exact forall₂_congr fun entries _ => find_eq_none_iff

theorem merged_eq_some_mem {lists : List (List Entry)} {k : Bytes}
    {value : Option Bytes} (h : merged lists k = some value) :
    ∃ entries ∈ lists, ∃ e ∈ entries, e.1 = k := by
  by_contra hnone
  push Not at hnone
  rw [merged_eq_none_iff.mpr hnone] at h
  cases h

theorem Smallest.merged_eq_some {lists : List (List Entry)} {key : Bytes}
    (h : Smallest lists key) : ∃ value, merged lists key = some value := by
  obtain ⟨entries, hentries, e, he, heq⟩ := h.offered
  refine Option.ne_none_iff_exists'.mp ?_
  exact fun hnone => merged_eq_none_iff.mp hnone entries hentries e he heq

/-! ## One turn of the loop -/

theorem map_advance_streamOf {lists : List (List Entry)} {key : Bytes}
    (hsorted : ∀ entries ∈ lists, Ascending entries)
    (hle : ∀ entries ∈ lists, ∀ e ∈ entries, key ≤ e.1) :
    (lists.map streamOf).map (advance key) =
      (lists.map (without key)).map streamOf := by
  rw [List.map_map, List.map_map]
  apply List.map_congr_left
  intro entries hentries
  exact advance_streamOf (hsorted entries hentries) (hle entries hentries)

theorem map_without_ascending {lists : List (List Entry)} (key : Bytes)
    (hsorted : ∀ entries ∈ lists, Ascending entries) :
    ∀ entries ∈ lists.map (without key), Ascending entries := by
  rw [List.forall_mem_map]
  exact fun entries hentries => without_ascending (hsorted entries hentries)

theorem sum_length_without_lt {lists : List (List Entry)} {key : Bytes}
    (hsorted : ∀ entries ∈ lists, Ascending entries)
    (h : Smallest lists key) :
    ((lists.map (without key)).map List.length).sum <
      (lists.map List.length).sum := by
  obtain ⟨entries, hentries, e, he, rfl⟩ := h.offered
  rw [List.map_map]
  apply List.sum_lt_sum
  · intro entries _
    exact length_without_le
  · refine ⟨entries, hentries, ?_⟩
    rcases without_cases (hsorted entries hentries)
        (h.le entries hentries) with ⟨value, heq⟩ | ⟨-, hnone⟩
    · conv_rhs => rw [heq]
      exact Nat.lt_succ_self _
    · exact absurd rfl (find_eq_none_iff.mp hnone e he)

/-! ## The whole merge -/

/-- What a merge returns: an ascending list that says of each key what the
stack of the inputs says, but for dropped tombstones. -/
structure MergeOf (dropTombstones : Bool) (lists : List (List Entry))
    (out : List Entry) : Prop where
  ascending : Ascending out
  find_eq : ∀ k, find out k = kept dropTombstones (merged lists k)

theorem MergeOf.nil {dropTombstones : Bool} {lists : List (List Entry)}
    (hempty : ∀ entries ∈ lists, entries = []) :
    MergeOf dropTombstones lists [] where
  ascending := List.Pairwise.nil
  find_eq := by
    intro k
    have hnone : merged lists k = none := by
      rw [merged_eq_none_iff]
      intro entries hentries e he
      rw [hempty entries hentries] at he
      cases he
    rw [hnone]
    rfl

theorem MergeOf.cons {dropTombstones : Bool} {lists : List (List Entry)}
    {out : List Entry} {key : Bytes} {value : Option Bytes}
    (hsorted : ∀ entries ∈ lists, Ascending entries)
    (hle : ∀ entries ∈ lists, ∀ e ∈ entries, key ≤ e.1)
    (hvalue : merged lists key = some value)
    (h : MergeOf dropTombstones (lists.map (without key)) out) :
    MergeOf dropTombstones lists
      (if value = none ∧ dropTombstones = true then out
        else (key, value) :: out) := by
  have hfind : ∀ k, find out k =
      if key = k then none else kept dropTombstones (merged lists k) := by
    intro k
    rw [h.find_eq, merged_without hsorted hle]
    split_ifs <;> rfl
  have hgt : ∀ e ∈ out, key < e.1 := by
    intro e he
    have hmem : find out e.1 = some e.2 := h.ascending.find_eq_some_iff.mpr he
    have hkept := h.find_eq e.1
    rw [hmem] at hkept
    obtain ⟨v, hv⟩ : ∃ v, merged (lists.map (without key)) e.1 = some v := by
      cases hm : merged (lists.map (without key)) e.1 with
      | none => rw [hm] at hkept; cases hkept
      | some v => exact ⟨v, rfl⟩
    obtain ⟨entries, hentries, e', he', heq⟩ := merged_eq_some_mem hv
    obtain ⟨original, horiginal, rfl⟩ := List.mem_map.mp hentries
    rw [← heq]
    exact lt_of_mem_without (hsorted original horiginal)
      (hle original horiginal) he'
  split_ifs with hdrop
  · obtain ⟨rfl, rfl⟩ := hdrop
    refine ⟨h.ascending, ?_⟩
    intro k
    rw [hfind]
    split_ifs with hk
    · rw [← hk, hvalue]
      rfl
    · rfl
  · refine ⟨List.pairwise_cons.mpr ⟨hgt, h.ascending⟩, ?_⟩
    intro k
    rw [find_cons, hfind]
    split_ifs with hk
    · rw [← hk, hvalue]
      cases value with
      | some v => rfl
      | none =>
          have hfalse : dropTombstones = false := by simpa using hdrop
          rw [hfalse]
          rfl
    · rfl

theorem mergeLoop_streamOf (dropTombstones : Bool) {turns : ℕ}
    {lists : List (List Entry)}
    (hsorted : ∀ entries ∈ lists, Ascending entries)
    (hturns : (lists.map List.length).sum < turns) :
    ∃ out, mergeLoop dropTombstones turns (lists.map streamOf) = .ok out ∧
      MergeOf dropTombstones lists out := by
  induction turns generalizing lists with
  | zero => omega
  | succ turns ih =>
      rw [mergeLoop, firstError_streamOf]
      dsimp only
      cases hkey : smallestKey (lists.map streamOf) with
      | none => exact ⟨[], rfl, .nil (smallestKey_eq_none hsorted hkey)⟩
      | some key =>
          have hsmallest := smallestKey_eq_some hsorted hkey
          have hshrinks := sum_length_without_lt hsorted hsmallest
          obtain ⟨out, hout, hmerge⟩ :=
            ih (map_without_ascending key hsorted) (by omega)
          obtain ⟨value, hvalue⟩ := hsmallest.merged_eq_some
          dsimp only
          rw [newestValue_streamOf hsorted hsmallest.le, hvalue,
            map_advance_streamOf hsorted hsmallest.le, hout]
          refine ⟨_, ?_, hmerge.cons hsorted hsmallest.le hvalue⟩
          cases value with
          | some v => rfl
          | none => cases dropTombstones <;> rfl

/-- The newest-wins union of the inputs, without the tombstones that may be
dropped. -/
theorem merge_streamOf (dropTombstones : Bool) {lists : List (List Entry)}
    (hsorted : ∀ entries ∈ lists, Ascending entries) :
    ∃ out, merge (lists.map streamOf) dropTombstones = .ok out ∧
      MergeOf dropTombstones lists out := by
  apply mergeLoop_streamOf dropTombstones hsorted
  have hlen : List.length ∘ streamOf = List.length := by
    funext entries
    exact List.length_map _
  rw [List.map_map, hlen]
  exact Nat.lt_succ_self _

end Lsmrs
