import Lsmrs.Sstable.Covered

/-!
# What a failed opening leaves

One loop of `SSTableSet::open` both removes the superseded files and opens
the others, in the order of their spans.  When it stops at a file that does
not open, the superseded ones in front of it are gone.
-/

namespace Lsmrs

open ByteString OrderedMap

variable {F : TableFormat} {dir dir' : Dir F} {listing : List Bytes}
  {dirPath : Bytes} {bitsPerKey : ℕ}

/-- Every `.sst` file is there as it was. -/
def TablesUnchanged (dir dir' : Dir F) : Prop :=
  ∀ name, IsSst name → dir'.get? name = dir.get? name

/-- A name is not accepted, or in front of every superseded file there is one
that should be opened and cannot be. -/
def FailsBeforeRemovals (dirPath : Bytes) (dir : Dir F) : Prop :=
  ¬ AllAccepted dir ∨
    ∀ p, InDir dir p → Superseded dir p →
      ∃ q e, InDir dir q ∧ ¬ Superseded dir q ∧ spanKey q < spanKey p ∧
        openFile dirPath dir q.2 = .error e

/-- An addition that overflows is no error. -/
theorem nextSeqOf_eq_error {spans : List (Span × Bytes)} {f : Failure}
    (h : nextSeqOf spans = .error f) : f = .panic := by
  rw [nextSeqOf] at h
  split_ifs at h
  exact (Except.error.inj h).symm

theorem zipIdx_spansOf_sorted (hperm : listing.Perm dir.keys) :
    (spansOf listing).zipIdx.Pairwise fun a b =>
      spanKey a.1 < spanKey b.1 := by
  have hlt : (spansOf listing).Pairwise fun a b => spanKey a < spanKey b := by
    refine ((spansOf_sorted listing).and (spansOf_nodup hperm)).imp ?_
    rintro a b ⟨hle, hne⟩
    exact lt_of_le_of_ne hle fun heq => hne (spanKey_injective heq)
  rwa [← List.zipIdx_map_fst 0 (spansOf listing), List.pairwise_map] at hlt

/-- In the order of their spans, everything in front of the file that does not
open is opened or removed. -/
structure StoppedAt (dirPath : Bytes) (dir dir' : Dir F)
    (q : Span × Bytes) : Prop where
  inDir : InDir dir q
  kept : ¬ Superseded dir q
  fails : ∃ e, openFile dirPath dir q.2 = .error e
  opened : ∀ p, InDir dir p → ¬ Superseded dir p →
    spanKey p < spanKey q → ∃ table, openFile dirPath dir p.2 = .ok table
  removed : ∀ p, InDir dir p → Superseded dir p →
    spanKey p < spanKey q → dir'.get? p.2 = none
  others : ∀ name, IsSst name →
    (∀ p, InDir dir p → Superseded dir p → spanKey p < spanKey q →
      p.2 ≠ name) → dir'.get? name = dir.get? name

section Split

variable {before after : List ((Span × Bytes) × ℕ)}
  {q : (Span × Bytes) × ℕ}

/-- What stands in front of a span is what sorts in front of it. -/
theorem mem_before_iff (hperm : listing.Perm dir.keys)
    (hsplit : (spansOf listing).zipIdx = before ++ q :: after)
    {p : Span × Bytes} :
    (∃ i, (p, i) ∈ before) ↔ InDir dir p ∧ spanKey p < spanKey q.1 := by
  have hsorted := zipIdx_spansOf_sorted hperm
  rw [hsplit] at hsorted
  obtain ⟨-, hafter, hbefore⟩ := List.pairwise_append.mp hsorted
  rw [← mem_spansOf_iff_inDir hperm]
  constructor
  · rintro ⟨i, hi⟩
    have hmem : (p, i) ∈ (spansOf listing).zipIdx := by
      rw [hsplit]
      exact List.mem_append_left _ hi
    exact ⟨List.mem_of_getElem? (List.mem_zipIdx_iff_getElem?.mp hmem),
      hbefore (p, i) hi q List.mem_cons_self⟩
  · rintro ⟨hp, hlt⟩
    obtain ⟨i, hi⟩ := List.getElem?_of_mem hp
    have hmem : (p, i) ∈ (spansOf listing).zipIdx :=
      List.mem_zipIdx_iff_getElem?.mpr hi
    rw [hsplit] at hmem
    rcases List.mem_append.mp hmem with hmem | hmem
    · exact ⟨i, hmem⟩
    · rcases List.mem_cons.mp hmem with heq | hmem
      · rw [← heq] at hlt
        exact absurd hlt (lt_irrefl _)
      · have hgt := (List.pairwise_cons.mp hafter).1 (p, i) hmem
        exact absurd hlt (lt_asymm hgt)

theorem superseded_of_mem_before (hperm : listing.Perm dir.keys)
    (hsplit : (spansOf listing).zipIdx = before ++ q :: after)
    {p : (Span × Bytes) × ℕ} (hp : p ∈ before) :
    superseded (spansOf listing) p.2 p.1.1 = true ↔
      Superseded dir p.1 := by
  apply superseded_iff_inDir hperm
  rw [hsplit]
  exact List.mem_append_left _ hp

theorem mem_supersededPaths_before (hperm : listing.Perm dir.keys)
    (hsplit : (spansOf listing).zipIdx = before ++ q :: after)
    {name : Bytes} :
    name ∈ supersededPaths (spansOf listing) before ↔
      ∃ p, InDir dir p ∧ Superseded dir p ∧ spanKey p < spanKey q.1 ∧
        p.2 = name := by
  rw [supersededPaths, List.mem_map]
  constructor
  · rintro ⟨⟨p, i⟩, hp, rfl⟩
    obtain ⟨hp, hsup⟩ := List.mem_filter.mp hp
    obtain ⟨hin, hlt⟩ := (mem_before_iff hperm hsplit).mp ⟨i, hp⟩
    exact ⟨p, hin, (superseded_of_mem_before hperm hsplit hp).mp hsup, hlt,
      rfl⟩
  · rintro ⟨p, hin, hsup, hlt, rfl⟩
    obtain ⟨i, hi⟩ := (mem_before_iff hperm hsplit).mpr ⟨hin, hlt⟩
    exact ⟨(p, i), List.mem_filter.mpr
      ⟨hi, (superseded_of_mem_before hperm hsplit hi).mpr hsup⟩, rfl⟩

end Split

/-- An opening that fails behind the scan stopped at a file. -/
theorem exists_stoppedAt (hperm : listing.Perm dir.keys)
    (hall : AllAccepted dir) {e : IoError}
    (h : SSTableSet.open dirPath bitsPerKey listing dir =
      (.error (.io e), dir')) :
    ∃ q, StoppedAt dirPath dir dir' q := by
  rw [SSTableSet.open_of_accepted hperm hall] at h
  cases hnext : nextSeqOf (spansOf listing) with
  | error f =>
      rw [hnext, nextSeqOf_eq_error hnext] at h
      cases h
  | ok next =>
      rw [hnext] at h
      dsimp only at h
      -- Without the temporary files the tables open as before.
      have hsame : ∀ p, InDir dir p →
          openFile dirPath (removeAll dir (tmpsOf listing)) p.2 =
            openFile dirPath dir p.2 := by
        intro p hp
        rw [openFile, openFile, get?_removeTmps listing dir hp.isSst]
      rcases @openSpans_cases F dirPath (spansOf listing) _
        (removeAll dir (tmpsOf listing)) (spansOf_paths_nodup hperm) with
        ⟨tables, heq, -⟩ | ⟨before, ⟨q, i⟩, after, f, hsplit, hq, hfails,
          hopens, heq⟩
      · rw [heq] at h
        cases h
      · rw [heq] at h
        cases h
        have hmem : (q, i) ∈ (spansOf listing).zipIdx := by
          rw [hsplit]
          simp
        have hin := (mem_spansOf_iff_inDir hperm).mp (List.mem_of_getElem?
          (List.mem_zipIdx_iff_getElem?.mp hmem))
        have hpaths := @mem_supersededPaths_before F dir listing before after
          (q, i) hperm hsplit
        refine ⟨q, hin, ?_, ⟨_, (hsame q hin).symm.trans hfails⟩, ?_, ?_, ?_⟩
        · rw [← superseded_iff_inDir hperm hmem, hq]
          exact Bool.false_ne_true
        · intro p hp hkept hlt
          obtain ⟨j, hj⟩ := (mem_before_iff hperm hsplit).mpr ⟨hp, hlt⟩
          rw [← superseded_of_mem_before hperm hsplit hj,
            Bool.not_eq_true] at hkept
          rw [← hsame p hp]
          exact hopens (p, j) hj hkept
        · intro p hp hsup hlt
          rw [get?_removeAll, if_pos (hpaths.mpr ⟨p, hp, hsup, hlt, rfl⟩)]
        · intro name hsst hnone
          rw [get?_removeAll, if_neg, get?_removeTmps listing dir hsst]
          intro hname
          obtain ⟨p, hp, hsup, hlt, hpath⟩ := hpaths.mp hname
          exact hnone p hp hsup hlt hpath

theorem StoppedAt.leavesAll_iff {q : Span × Bytes}
    (h : StoppedAt dirPath dir dir' q) :
    TablesUnchanged dir dir' ↔
      ∀ p, InDir dir p → Superseded dir p → ¬ spanKey p < spanKey q := by
  constructor
  · intro hsame p hp hsup hlt
    have hexists := hp.exists_
    rw [← hsame p.2 hp.isSst, h.removed p hp hsup hlt] at hexists
    cases hexists
  · intro hlate name hsst
    exact h.others name hsst fun p hp hsup hlt =>
      absurd hlt (hlate p hp hsup)

/-- A failed opening leaves every table exactly if it fails before it comes to
a superseded one. -/
theorem tablesUnchanged_iff (hperm : listing.Perm dir.keys) {e : IoError}
    (h : SSTableSet.open dirPath bitsPerKey listing dir =
      (.error (.io e), dir')) :
    TablesUnchanged dir dir' ↔ FailsBeforeRemovals dirPath dir := by
  by_cases hall : AllAccepted dir
  · obtain ⟨q, hq⟩ := exists_stoppedAt hperm hall h
    rw [hq.leavesAll_iff, FailsBeforeRemovals,
      or_iff_right (not_not.mpr hall)]
    constructor
    · intro hlate p hp hsup
      obtain ⟨f, hfails⟩ := hq.fails
      have hne : spanKey q ≠ spanKey p := by
        intro heq
        obtain rfl := spanKey_injective heq
        exact hq.kept hsup
      exact ⟨q, f, hq.inDir, hq.kept,
        lt_of_le_of_ne (not_lt.mp (hlate p hp hsup)) hne, hfails⟩
    · intro hfirst p hp hsup hlt
      obtain ⟨r, f, hr, hkept, hrp, hfails⟩ := hfirst p hp hsup
      obtain ⟨table, hopens⟩ := hq.opened r hr hkept (hrp.trans hlt)
      rw [hfails] at hopens
      cases hopens
  · obtain ⟨f, before, heq⟩ :=
      SSTableSet.open_of_not_accepted hperm hall dirPath bitsPerKey
    rw [heq] at h
    obtain rfl := congrArg Prod.snd h
    exact iff_of_true (fun name hsst => get?_removeTmps before dir hsst)
      (Or.inl hall)

/-- A merge of the tables at the given sequence numbers, whose output is not a
table at all. -/
def damagedOutput (inputs : List ℕ) : Dir byteTables :=
  (fooDirectory (inputs.map fun n => tableName ⟨n, n⟩)).insert
    (tableName ⟨0, 1⟩) (List.replicate 40 0)

/-- The error of a call that failed with one. -/
def errorOf {α : Type} : Result α → Option IoError
  | .error (.io e) => some e
  | _ => none

theorem errorOf_eq_some {α : Type} {x : Result α} {e : IoError} :
    errorOf x = some e ↔ x = .error (.io e) := by
  rcases x with (e' | _) | a
  · simp [errorOf]
  · simp [errorOf]
  · simp [errorOf]

theorem damagedOutput_fails (inputs : List ℕ)
    (h : (errorOf (SSTableSet.open [] 10 (damagedOutput inputs).keys
      (damagedOutput inputs)).1).isSome) :
    ∃ e, SSTableSet.open [] 10 (damagedOutput inputs).keys
      (damagedOutput inputs) = (.error (.io e),
        (SSTableSet.open [] 10 (damagedOutput inputs).keys
          (damagedOutput inputs)).2) := by
  obtain ⟨e, he⟩ := Option.isSome_iff_exists.mp h
  exact ⟨e, Prod.fst_eq_iff.mp (errorOf_eq_some.mp he)⟩

/-- The output sorts in front of the second input. -/
theorem tablesUnchanged_damagedOutput :
    ∃ e dir', SSTableSet.open [] 10 (damagedOutput [1]).keys
        (damagedOutput [1]) = (.error (.io e), dir') ∧
      (TablesUnchanged (damagedOutput [1]) dir' ↔
        FailsBeforeRemovals [] (damagedOutput [1])) := by
  obtain ⟨e, hopen⟩ := damagedOutput_fails [1] (by decide +kernel)
  exact ⟨e, _, hopen, tablesUnchanged_iff (List.Perm.refl _) hopen⟩

/-- It sorts behind the first one. -/
theorem damagedOutput_loses_input :
    ¬ ∀ (dir dir' : Dir byteTables) (listing : List Bytes) (e : IoError),
      listing.Perm dir.keys →
      SSTableSet.open [] 10 listing dir = (.error (.io e), dir') →
      TablesUnchanged dir dir' := by
  intro hclaim
  obtain ⟨e, hopen⟩ := damagedOutput_fails [0, 1] (by decide +kernel)
  have hsame := hclaim _ _ _ e (List.Perm.refl _) hopen (tableName ⟨0, 0⟩)
    (by decide +kernel)
  have hlost : (SSTableSet.open [] 10 (damagedOutput [0, 1]).keys
      (damagedOutput [0, 1])).2.get? (tableName ⟨0, 0⟩) = none := by
    decide +kernel
  have hthere : (damagedOutput [0, 1]).get? (tableName ⟨0, 0⟩) =
      some fooFile := by
    decide +kernel
  rw [hlost, hthere] at hsame
  cases hsame

end Lsmrs
