import Lsmrs.Sstable.AnyDirectory

/-!
# What recovery deletes

`SSTableSet::open` removes the files whose span another one contains.  A
chain of containments ends in a file that is kept, unless it ends in two files
of one span: each of them supersedes the other.
-/

namespace Lsmrs

open ByteString OrderedMap

variable {F : TableFormat}

section Open

variable {dir dir' : Dir F} {listing : List Bytes} {dirPath : Bytes}
  {bitsPerKey : ℕ} {set : SSTableSet F}

/-- Opening a directory deletes only what a kept span covers, keeps the
maximal spans in order, and has nothing more to do when it is repeated. -/
structure RecoveryExact (dirPath : Bytes) (bitsPerKey : ℕ) (dir dir' : Dir F)
    (set : SSTableSet F) : Prop where
  covered : ∀ p, InDir dir p → ¬ InDir dir' p →
    ∃ t ∈ set.sstables, p.1.Within t.span ∧ InDir dir' (t.span, t.path)
  maximal : ∀ s, s ∈ set.sstables.map Listed.span ↔ MaximalIn dir s
  ascending : set.sstables.Pairwise fun t u =>
    t.span.first < u.span.first ∧ t.span.last < u.span.last
  again : ∀ listing' : List Bytes, listing'.Perm dir'.keys →
    ∃ set', SSTableSet.open dirPath bitsPerKey listing' dir' =
      (.ok set', dir') ∧ set'.sstables = set.sstables

/-- What is still there is what was there. -/
theorem get?_opened (hperm : listing.Perm dir.keys)
    (h : SSTableSet.open dirPath bitsPerKey listing dir = (.ok set, dir'))
    {name : Bytes} (hsome : (dir'.get? name).isSome) :
    dir'.get? name = dir.get? name ∧ name ∉ tmpsOf listing := by
  obtain ⟨-, -, -, rfl⟩ := SSTableSet.open_eq_ok hperm h
  rw [get?_removeAll] at hsome ⊢
  split_ifs at hsome ⊢ with hpath
  · cases hsome
  · rw [get?_removeAll] at hsome ⊢
    split_ifs at hsome ⊢ with htmp
    · cases hsome
    · exact ⟨rfl, htmp⟩

/-- A second opening finds nothing to remove. -/
theorem tmpsOf_opened (hperm : listing.Perm dir.keys)
    (h : SSTableSet.open dirPath bitsPerKey listing dir = (.ok set, dir'))
    {listing' : List Bytes} (hperm' : listing'.Perm dir'.keys) :
    tmpsOf listing' = [] := by
  rw [List.eq_nil_iff_forall_not_mem]
  intro name hmem
  obtain ⟨hname, htmp⟩ := List.mem_filter.mp hmem
  have hsome := mem_keys_iff.mp (hperm'.mem_iff.mp hname)
  obtain ⟨hget, hnot⟩ := get?_opened hperm h hsome
  rw [hget] at hsome
  exact hnot (List.mem_filter.mpr
    ⟨hperm.mem_iff.mpr (mem_keys_iff.mpr hsome), htmp⟩)

theorem not_superseded_opened (hperm : listing.Perm dir.keys)
    (h : SSTableSet.open dirPath bitsPerKey listing dir = (.ok set, dir'))
    {p : Span × Bytes} (hp : InDir dir' p) : ¬ Superseded dir' p := by
  rintro ⟨q, hq, hne, hwithin⟩
  exact ((inDir_opened hperm h).mp hp).2
    ⟨q, ((inDir_opened hperm h).mp hq).1, hne, hwithin⟩

/-- It opens what the first one kept. -/
theorem keptSpans_opened (hperm : listing.Perm dir.keys)
    (h : SSTableSet.open dirPath bitsPerKey listing dir = (.ok set, dir'))
    {listing' : List Bytes} (hperm' : listing'.Perm dir'.keys) :
    keptSpans listing' = keptSpans listing := by
  have hmem : ∀ p, p ∈ keptSpans listing' ↔ p ∈ keptSpans listing := by
    intro p
    rw [mem_keptSpans hperm', mem_keptSpans hperm, ← inDir_opened hperm h,
      and_iff_left_iff_imp]
    exact not_superseded_opened hperm h
  have hsub := keptSpans_sublist listing
  have hsub' := keptSpans_sublist listing'
  have hsame := (List.perm_ext_iff_of_nodup
    ((spansOf_nodup hperm').sublist hsub')
    ((spansOf_nodup hperm).sublist hsub)).mpr hmem
  refine hsame.eq_of_pairwise ?_ ((spansOf_sorted listing').sublist hsub')
    ((spansOf_sorted listing).sublist hsub)
  intro a b _ _ hab hba
  exact spanKey_injective (le_antisymm hab hba)

theorem nextSeqOf_eq_ok_iff {spans : List (Span × Bytes)} :
    (∃ n, nextSeqOf spans = .ok n) ↔ ∀ p ∈ spans, p.1.last ≠ u64Max := by
  rw [nextSeqOf]
  cases hany : spans.any fun p => p.1.last = u64Max with
  | true =>
      obtain ⟨p, hp, hlast⟩ := List.any_eq_true.mp hany
      rw [if_pos rfl]
      constructor
      · rintro ⟨n, hn⟩
        cases hn
      · exact fun hall => absurd (of_decide_eq_true hlast) (hall p hp)
  | false =>
      rw [if_neg Bool.false_ne_true]
      refine ⟨fun _ p hp hlast => ?_, fun _ => ⟨_, rfl⟩⟩
      exact List.any_eq_false.mp hany p hp (decide_eq_true hlast)

theorem SSTableSet.open_again (hperm : listing.Perm dir.keys)
    (h : SSTableSet.open dirPath bitsPerKey listing dir = (.ok set, dir'))
    {listing' : List Bytes} (hperm' : listing'.Perm dir'.keys) :
    ∃ set', SSTableSet.open dirPath bitsPerKey listing' dir' =
      (.ok set', dir') ∧ set'.sstables = set.sstables := by
  obtain ⟨hall, hnext, hopened, -⟩ := SSTableSet.open_eq_ok hperm h
  have hall' : AllAccepted dir' := by
    intro name hsst hsome
    refine hall name hsst ?_
    rwa [← (get?_opened hperm h hsome).1]
  have htmps := tmpsOf_opened hperm h hperm'
  obtain ⟨next', hnext'⟩ : ∃ n, nextSeqOf (spansOf listing') = .ok n := by
    rw [nextSeqOf_eq_ok_iff]
    intro p hp
    have hin := (mem_spansOf_iff_inDir hperm').mp hp
    exact nextSeqOf_eq_ok_iff.mp ⟨_, hnext⟩ p
      ((mem_spansOf_iff_inDir hperm).mpr ((inDir_opened hperm h).mp hin).1)
  have hpaths : supersededPaths (spansOf listing')
      (spansOf listing').zipIdx = [] := by
    rw [List.eq_nil_iff_forall_not_mem]
    intro name hmem
    obtain ⟨span, hin, hsup⟩ := (mem_supersededPaths hperm').mp hmem
    exact not_superseded_opened hperm h hin hsup
  have hsame : ∀ p, InDir dir' p →
      openFile dirPath dir' p.2 = openFile dirPath dir p.2 := by
    intro p hp
    rw [openFile, openFile, (get?_opened hperm h hp.exists_).1]
  have htables : List.Forall₂ (OpenedAt dirPath dir') (keptSpans listing')
      set.sstables := by
    rw [keptSpans_opened hperm h hperm']
    have hkept : ∀ p ∈ keptSpans listing, InDir dir' p := fun p hp =>
      (inDir_opened hperm h).mpr ((mem_keptSpans hperm).mp hp)
    refine ((List.forall₂_and_left _ _).mpr ⟨hkept, hopened⟩).imp ?_
    rintro p t ⟨hp, ht⟩
    exact ⟨ht.path, ht.span, (hsame p hp).trans ht.opened⟩
  rw [SSTableSet.open_of_accepted hperm' hall', hnext', htmps]
  dsimp only
  rcases @openSpans_cases F dirPath (spansOf listing') _ dir'
    (spansOf_paths_nodup hperm') with
    ⟨tables, heq, hagain⟩ | ⟨before, q, after, f, hsplit, hkept, hfails, -⟩
  · rw [hpaths] at heq
    refine ⟨⟨tables, dirPath, bitsPerKey, next'⟩, ?_,
      openedAt_unique hagain htables⟩
    have hremoved : removeAll dir' [] = dir' := rfl
    rw [hremoved, heq]
    rfl
  · -- The first opening would have failed there.
    have hq : q ∈ (spansOf listing').zipIdx := by
      rw [hsplit]
      simp
    have hmem : q.1 ∈ keptSpans listing' :=
      List.mem_map.mpr ⟨q, List.mem_filter.mpr ⟨hq, by simp [hkept]⟩, rfl⟩
    obtain ⟨t, ht⟩ := exists_openedAt htables hmem
    have hopened := ht.opened
    rw [hfails] at hopened
    cases hopened

/-- A removed file's span lies in a kept one, if there are no twins. -/
theorem covered_of_noTwins (htwins : NoTwins dir)
    (hperm : listing.Perm dir.keys)
    (h : SSTableSet.open dirPath bitsPerKey listing dir = (.ok set, dir'))
    {p : Span × Bytes} (hp : InDir dir p) :
    ∃ t ∈ set.sstables, p.1.Within t.span ∧ InDir dir' (t.span, t.path) := by
  obtain ⟨q, hq, hwithin, hmax⟩ := exists_maximalIn hperm hp
  have hkept := not_superseded_of_maximalIn htwins hq hmax
  obtain ⟨t, ht, rfl⟩ := (mem_sstables_iff hperm h).mpr ⟨hq, hkept⟩
  exact ⟨t, ht, hwithin, (inDir_opened hperm h).mpr ⟨hq, hkept⟩⟩

theorem mem_spans_iff_maximalIn (htwins : NoTwins dir)
    (hperm : listing.Perm dir.keys)
    (h : SSTableSet.open dirPath bitsPerKey listing dir = (.ok set, dir'))
    (s : Span) : s ∈ set.sstables.map Listed.span ↔ MaximalIn dir s := by
  rw [List.mem_map]
  constructor
  · rintro ⟨t, ht, rfl⟩
    obtain ⟨hin, hsup⟩ := (mem_sstables_iff hperm h).mp ⟨t, ht, rfl⟩
    exact maximalIn_of_not_superseded hin hsup
  · rintro hmax
    obtain ⟨⟨q, hq, rfl⟩, -⟩ := id hmax
    have hkept := not_superseded_of_maximalIn htwins hq hmax
    obtain ⟨t, ht, heq⟩ := (mem_sstables_iff hperm h).mpr ⟨hq, hkept⟩
    exact ⟨t, ht, congrArg Prod.fst heq⟩

theorem spans_ascending (hperm : listing.Perm dir.keys)
    (h : SSTableSet.open dirPath bitsPerKey listing dir = (.ok set, dir')) :
    set.sstables.Pairwise fun t u =>
      t.span.first < u.span.first ∧ t.span.last < u.span.last := by
  obtain ⟨-, -, hopened, -⟩ := SSTableSet.open_eq_ok hperm h
  have hascending := keptSpans_ascending hperm
  rwa [← map_openedAt hopened, List.pairwise_map] at hascending

/-- Of two files of one maximal span none is kept. -/
theorem noTwins_of_maximal (hperm : listing.Perm dir.keys)
    (h : SSTableSet.open dirPath bitsPerKey listing dir = (.ok set, dir'))
    (hmaximal : ∀ s, s ∈ set.sstables.map Listed.span ↔ MaximalIn dir s) :
    NoTwins dir := by
  intro p q hp hq hspan hne hmax
  obtain ⟨t, ht, hts⟩ := List.mem_map.mp ((hmaximal p.1).mpr hmax)
  obtain ⟨-, hsup⟩ := (mem_sstables_iff hperm h).mp ⟨t, ht, rfl⟩
  have hwithin : ∀ r : Span × Bytes, r.1 = p.1 → t.span.Within r.1 := by
    intro r hr
    rw [hr, hts]
    exact ⟨le_rfl, le_rfl⟩
  -- The kept file is not one of the two, or it is the first.
  by_cases heq : p = (t.span, t.path)
  · exact hsup ⟨q, hq, fun hqt => hne (heq.trans hqt.symm),
      hwithin q hspan.symm⟩
  · exact hsup ⟨p, hp, heq, hwithin p rfl⟩

/-- Opening a directory keeps what it should exactly if no two files share a
maximal span. -/
theorem recoveryExact_iff (hperm : listing.Perm dir.keys)
    (h : SSTableSet.open dirPath bitsPerKey listing dir =
      (.ok set, dir')) :
    RecoveryExact dirPath bitsPerKey dir dir' set ↔ NoTwins dir := by
  constructor
  · exact fun hexact => noTwins_of_maximal hperm h hexact.maximal
  · intro htwins
    exact {
      covered := fun p hp _ => covered_of_noTwins htwins hperm h hp
      maximal := mem_spans_iff_maximalIn htwins hperm h
      ascending := spans_ascending hperm h
      again := fun listing' => SSTableSet.open_again hperm h }

end Open

/-! ## Two directories -/

/-- The bytes of a table with one entry. -/
def fooFile : Bytes :=
  ((writeTable 10 1 [(ascii "foo", some (ascii "bar"))]).map
    Prod.fst).toOption.getD []

/-- A directory with that table under several names. -/
def fooDirectory (names : List Bytes) : Dir byteTables :=
  names.foldl (fun dir name => dir.insert name fooFile) OrderedMap.empty

/-- A merge of two tables that has not removed them yet. -/
def leftoverDirectory : Dir byteTables :=
  fooDirectory [tableName ⟨0, 0⟩, tableName ⟨1, 1⟩, tableName ⟨0, 1⟩]

theorem recoveryExact_leftoverDirectory :
    ∃ set dir', SSTableSet.open [] 10 leftoverDirectory.keys
        leftoverDirectory = (.ok set, dir') ∧
      set.sstables.map Listed.span = [⟨0, 1⟩] ∧
      (RecoveryExact [] 10 leftoverDirectory dir' set ↔
        NoTwins leftoverDirectory) := by
  have hspans : (SSTableSet.open [] 10 leftoverDirectory.keys
      leftoverDirectory).1.map (fun set => set.sstables.map Listed.span) =
        .ok [⟨0, 1⟩] := by
    decide +kernel
  obtain ⟨set, hset, hspans⟩ := map_eq_ok.mp hspans
  have hopen := Prod.fst_eq_iff.mp hset
  exact ⟨set, _, hopen, hspans,
    recoveryExact_iff (List.Perm.refl _) hopen⟩

/-- One table under two names. -/
def twinDirectory : Dir byteTables :=
  fooDirectory [tableName ⟨0, 0⟩, ascii "sstable-0-0.sst"]

theorem twinDirectory_not_recovered :
    ¬ ∀ (dir dir' : Dir byteTables) (listing : List Bytes)
        (set : SSTableSet byteTables), listing.Perm dir.keys →
      AllAccepted dir →
      (∀ p, InDir dir p → ∃ table, openFile [] dir p.2 = .ok table) →
      SSTableSet.open [] 10 listing dir = (.ok set, dir') →
      RecoveryExact [] 10 dir dir' set := by
  intro hclaim
  have hspans : (SSTableSet.open [] 10 twinDirectory.keys
      twinDirectory).1.map (fun set => set.sstables.map Listed.span) =
        .ok [] := by
    decide +kernel
  obtain ⟨set, hset, hspans⟩ := map_eq_ok.mp hspans
  have hopen := Prod.fst_eq_iff.mp hset
  have hperm := List.Perm.refl twinDirectory.keys
  have hfound : spansOf twinDirectory.keys =
      [(⟨0, 0⟩, ascii "sstable-0-0.sst"), (⟨0, 0⟩, tableName ⟨0, 0⟩)] := by
    decide +kernel
  have hmem : ∀ p, InDir twinDirectory p ↔
      p = (⟨0, 0⟩, ascii "sstable-0-0.sst") ∨
        p = (⟨0, 0⟩, tableName ⟨0, 0⟩) := by
    intro p
    rw [← mem_spansOf_iff_inDir hperm, hfound]
    simp
  have haccepted : AllAccepted twinDirectory :=
    (allAccepted_iff hperm).mp (by decide +kernel)
  have hopens : ∀ p, InDir twinDirectory p →
      ∃ table, openFile [] twinDirectory p.2 = .ok table := by
    intro p hp
    have hok : (openFile [] twinDirectory p.2).map (fun _ => ()) =
        .ok () := by
      rcases (hmem p).mp hp with rfl | rfl
      · decide +kernel
      · decide +kernel
    obtain ⟨table, htable, -⟩ := map_eq_ok.mp hok
    exact ⟨table, htable⟩
  have hexact := hclaim _ _ _ set hperm haccepted hopens hopen
  -- The one span there is maximal, and nothing is listed.
  have hmax : MaximalIn twinDirectory ⟨0, 0⟩ := by
    refine ⟨⟨_, (hmem _).mpr (Or.inl rfl), rfl⟩, ?_⟩
    intro q hq _
    rcases (hmem q).mp hq with rfl | rfl
    · rfl
    · rfl
  have hlisted := (hexact.maximal ⟨0, 0⟩).mpr hmax
  rw [hspans] at hlisted
  cases hlisted

end Lsmrs
