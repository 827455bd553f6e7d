import Lsmrs.Sstable.Reopening
import Mathlib.Order.Preorder.Finite

/-!
# Opening any directory

What `SSTableSet::open` keeps and removes, whatever `.sst` files there are.
A span that another one contains is superseded, and two files of one span
supersede each other.
-/

namespace Lsmrs

open ByteString OrderedMap

variable {F : TableFormat}

/-! ## What a directory holds -/

/-- A file of the directory, with the span in its name. -/
structure InDir (dir : Dir F) (p : Span × Bytes) : Prop where
  isSst : IsSst p.2
  exists_ : (dir.get? p.2).isSome
  span : parseSpan p.2 = some p.1

/-- Another file's span contains this one's. -/
def Superseded (dir : Dir F) (p : Span × Bytes) : Prop :=
  ∃ q, InDir dir q ∧ q ≠ p ∧ p.1.Within q.1

/-- Every `.sst` name is accepted. -/
def AllAccepted (dir : Dir F) : Prop :=
  ∀ name, IsSst name → (dir.get? name).isSome → (parseSpan name).isSome

/-- Spans are ordered by containment. -/
instance : PartialOrder Span where
  le := Span.Within
  le_refl s := ⟨le_rfl, le_rfl⟩
  le_trans _ _ _ h h' := ⟨h'.1.trans h.1, h.2.trans h'.2⟩
  le_antisymm := by
    rintro ⟨a, b⟩ ⟨a', b'⟩ ⟨h₁, h₂⟩ ⟨h₃, h₄⟩
    obtain rfl := le_antisymm h₃ h₁
    obtain rfl := le_antisymm h₂ h₄
    rfl

/-- A span that none of the directory's properly contains. -/
def MaximalIn (dir : Dir F) (s : Span) : Prop :=
  (∃ p, InDir dir p ∧ p.1 = s) ∧
    ∀ q, InDir dir q → s.Within q.1 → q.1 = s

/-- No two names share a span, unless it lies properly in another file's. -/
def NoTwins (dir : Dir F) : Prop :=
  ∀ p q, InDir dir p → InDir dir q → p.1 = q.1 → p ≠ q →
    ¬ MaximalIn dir p.1

/-- The spans that are opened, in order. -/
def keptSpans (listing : List Bytes) : List (Span × Bytes) :=
  ((spansOf listing).zipIdx.filter fun p =>
    !superseded (spansOf listing) p.2 p.1.1).map Prod.fst

section Listing

variable {dir : Dir F} {listing : List Bytes}

theorem mem_spansOf_iff_inDir (hperm : listing.Perm dir.keys)
    {p : Span × Bytes} : p ∈ spansOf listing ↔ InDir dir p := by
  rw [mem_spansOf, hperm.mem_iff, mem_keys_iff]
  exact ⟨fun ⟨h₁, h₂, h₃⟩ => ⟨h₂, h₁, h₃⟩, fun ⟨h₁, h₂, h₃⟩ => ⟨h₂, h₁, h₃⟩⟩

theorem superseded_iff_inDir (hperm : listing.Perm dir.keys)
    {p : Span × Bytes} {i : ℕ} (hp : (p, i) ∈ (spansOf listing).zipIdx) :
    superseded (spansOf listing) i p.1 = true ↔ Superseded dir p := by
  rw [superseded_eq_true_iff (spansOf_nodup hperm) hp]
  simp only [mem_spansOf_iff_inDir hperm, Superseded]

theorem mem_keptSpans (hperm : listing.Perm dir.keys) {p : Span × Bytes} :
    p ∈ keptSpans listing ↔ InDir dir p ∧ ¬ Superseded dir p := by
  rw [keptSpans, List.mem_map]
  constructor
  · rintro ⟨⟨q, i⟩, hq, rfl⟩
    obtain ⟨hq, hsup⟩ := List.mem_filter.mp hq
    have hmem := List.mem_of_getElem? (List.mem_zipIdx_iff_getElem?.mp hq)
    refine ⟨(mem_spansOf_iff_inDir hperm).mp hmem, ?_⟩
    rw [← superseded_iff_inDir hperm hq]
    simpa using hsup
  · rintro ⟨hin, hsup⟩
    obtain ⟨i, hi⟩ :=
      List.getElem?_of_mem ((mem_spansOf_iff_inDir hperm).mpr hin)
    have hzip : (p, i) ∈ (spansOf listing).zipIdx :=
      List.mem_zipIdx_iff_getElem?.mpr hi
    rw [← superseded_iff_inDir hperm hzip] at hsup
    exact ⟨(p, i), List.mem_filter.mpr ⟨hzip, by simpa using hsup⟩, rfl⟩

theorem mem_supersededPaths (hperm : listing.Perm dir.keys) {name : Bytes} :
    name ∈ supersededPaths (spansOf listing) (spansOf listing).zipIdx ↔
      ∃ span, InDir dir (span, name) ∧ Superseded dir (span, name) := by
  rw [supersededPaths, List.mem_map]
  constructor
  · rintro ⟨⟨⟨span, path⟩, i⟩, hq, rfl⟩
    obtain ⟨hq, hsup⟩ := List.mem_filter.mp hq
    have hmem := List.mem_of_getElem? (List.mem_zipIdx_iff_getElem?.mp hq)
    exact ⟨span, (mem_spansOf_iff_inDir hperm).mp hmem,
      (superseded_iff_inDir hperm hq).mp hsup⟩
  · rintro ⟨span, hin, hsup⟩
    obtain ⟨i, hi⟩ :=
      List.getElem?_of_mem ((mem_spansOf_iff_inDir hperm).mpr hin)
    have hzip : ((span, name), i) ∈ (spansOf listing).zipIdx :=
      List.mem_zipIdx_iff_getElem?.mpr hi
    rw [← superseded_iff_inDir hperm hzip] at hsup
    exact ⟨((span, name), i), List.mem_filter.mpr ⟨hzip, hsup⟩, rfl⟩

theorem keptSpans_sublist (listing : List Bytes) :
    (keptSpans listing).Sublist (spansOf listing) := by
  have hsub := (List.filter_sublist (l := (spansOf listing).zipIdx)
    (p := fun p => !superseded (spansOf listing) p.2 p.1.1)).map Prod.fst
  rwa [List.zipIdx_map_fst] at hsub

theorem first_le_of_spanKey_le {a b : Span × Bytes}
    (h : spanKey a ≤ spanKey b) : a.1.first ≤ b.1.first := by
  rcases Prod.Lex.toLex_le_toLex.mp h with hlt | ⟨heq, -⟩
  · exact le_of_lt hlt
  · exact le_of_eq heq

/-- The spans that are opened rise at both ends. -/
theorem keptSpans_ascending (hperm : listing.Perm dir.keys) :
    (keptSpans listing).Pairwise fun a b =>
      a.1.first < b.1.first ∧ a.1.last < b.1.last := by
  have hsub := keptSpans_sublist listing
  have hsorted := (spansOf_sorted listing).sublist hsub
  have hnodup := (spansOf_nodup hperm).sublist hsub
  refine (hsorted.and hnodup).imp_of_mem ?_
  rintro a b ha hb ⟨hle, hne⟩
  obtain ⟨hina, hsupa⟩ := (mem_keptSpans hperm).mp ha
  obtain ⟨hinb, hsupb⟩ := (mem_keptSpans hperm).mp hb
  have hfirst := first_le_of_spanKey_le hle
  -- Neither span contains the other.
  have hba : ¬ b.1.Within a.1 := fun h => hsupb ⟨a, hina, hne, h⟩
  have hab : ¬ a.1.Within b.1 := fun h => hsupa ⟨b, hinb, hne.symm, h⟩
  simp only [Span.Within] at hab hba
  omega

/-! ## Scanning -/

/-- The scan stops at the first `.sst` name it does not accept, and has
removed none but temporary files by then. -/
theorem scanDir_error (dirPath : Bytes) {listing : List Bytes} (dir : Dir F)
    (h : ∃ name ∈ listing, IsSst name ∧ parseSpan name = none) :
    ∃ e before, scanDir dirPath listing dir =
      (.error (.io e), removeAll dir (tmpsOf before)) := by
  induction listing generalizing dir with
  | nil =>
      obtain ⟨name, hmem, -⟩ := h
      cases hmem
  | cons name listing ih =>
      have hlater (hgood : ¬ (IsSst name ∧ parseSpan name = none)) :
          ∃ name' ∈ listing, IsSst name' ∧ parseSpan name' = none := by
        obtain ⟨name', hmem, hbad⟩ := h
        rcases List.mem_cons.mp hmem with rfl | hmem
        · exact absurd hbad hgood
        · exact ⟨name', hmem, hbad⟩
      by_cases hsst : IsSst name
      · cases hspan : parseSpan name with
        | none =>
            have hscan : scanDir dirPath (name :: listing) dir =
                (.error (.io ⟨.invalidData, joinPath dirPath name ++
                  ascii " does not follow the SSTable naming scheme"⟩),
                  dir) := by
              rw [scanDir, if_pos hsst, hspan]
              rfl
            exact ⟨_, [], hscan⟩
        | some span =>
            obtain ⟨e, before, heq⟩ := ih dir (hlater (by simp [hspan]))
            refine ⟨e, before, ?_⟩
            rw [scanDir, if_pos hsst, hspan]
            dsimp only
            rw [heq]
            rfl
      · have hrest := hlater fun hbad => hsst hbad.1
        by_cases htmp : IsTmp name
        · obtain ⟨e, before, heq⟩ := ih (dir.erase name) hrest
          refine ⟨e, name :: before, ?_⟩
          rw [scanDir, if_neg hsst, if_pos htmp, heq]
          simp [tmpsOf, hsst, htmp, removeAll]
        · obtain ⟨e, before, heq⟩ := ih dir hrest
          refine ⟨e, before, ?_⟩
          rw [scanDir, if_neg hsst, if_neg htmp, heq]

/-- The scan finds a span in every name, or stops at one it does not
accept. -/
theorem scanDir_cases (dirPath : Bytes) (listing : List Bytes)
    (dir : Dir F) :
    ((∀ name ∈ listing, IsSst name → (parseSpan name).isSome) ∧
      scanDir dirPath listing dir =
        (.ok (listing.filterMap sstSpan), removeAll dir (tmpsOf listing))) ∨
    ∃ name ∈ listing, IsSst name ∧ parseSpan name = none ∧
      ∃ e before, scanDir dirPath listing dir =
        (.error (.io e), removeAll dir (tmpsOf before)) := by
  by_cases hbad : ∃ name ∈ listing, IsSst name ∧ parseSpan name = none
  · obtain ⟨name, hmem, hsst, hnone⟩ := id hbad
    exact Or.inr ⟨name, hmem, hsst, hnone, scanDir_error dirPath dir hbad⟩
  · have hparse : ∀ name ∈ listing, IsSst name →
        (parseSpan name).isSome := by
      intro name hmem hsst
      rw [Option.isSome_iff_ne_none]
      exact fun hnone => hbad ⟨name, hmem, hsst, hnone⟩
    exact Or.inl ⟨hparse, scanDir_eq dirPath hparse dir⟩

theorem allAccepted_iff (hperm : listing.Perm dir.keys) :
    (∀ name ∈ listing, IsSst name → (parseSpan name).isSome) ↔
      AllAccepted dir := by
  simp only [AllAccepted, hperm.mem_iff, mem_keys_iff]
  exact ⟨fun h name hsst hsome => h name hsome hsst,
    fun h name hsome hsst => h name hsst hsome⟩

/-- Temporary files gone, the `.sst` files are what they were. -/
theorem get?_removeTmps (before : List Bytes) (dir : Dir F) {name : Bytes}
    (hsst : IsSst name) :
    (removeAll dir (tmpsOf before)).get? name = dir.get? name := by
  rw [get?_removeAll, if_neg]
  intro hmem
  exact (of_decide_eq_true (List.mem_filter.mp hmem).2).1 hsst

end Listing

/-! ## The whole call -/

section Open

variable {dir dir' : Dir F} {listing : List Bytes} {dirPath : Bytes}
  {bitsPerKey : ℕ} {set : SSTableSet F}

theorem OpenedAt.of_removeAll {names : List Bytes} {p : Span × Bytes}
    {t : Listed F} (h : OpenedAt dirPath (removeAll dir names) p t) :
    OpenedAt dirPath dir p t := by
  induction names generalizing dir with
  | nil => exact h
  | cons name names ih => exact (@ih (dir.erase name) h).of_erase

theorem map_openedAt {kept : List (Span × Bytes)}
    {tables : List (Listed F)}
    (h : List.Forall₂ (OpenedAt dirPath dir) kept tables) :
    tables.map (fun t => (t.span, t.path)) = kept := by
  induction h with
  | nil => rfl
  | cons ht _ ih => rw [List.map_cons, ih, ht.span, ht.path]

theorem exists_openedAt {kept : List (Span × Bytes)}
    {tables : List (Listed F)}
    (h : List.Forall₂ (OpenedAt dirPath dir) kept tables)
    {p : Span × Bytes} (hp : p ∈ kept) :
    ∃ t, OpenedAt dirPath dir p t := by
  induction h with
  | nil => cases hp
  | cons ht _ ih =>
      rcases List.mem_cons.mp hp with rfl | hp
      · exact ⟨_, ht⟩
      · exact ih hp

theorem OpenedAt.unique {p : Span × Bytes} {t t' : Listed F}
    (h : OpenedAt dirPath dir p t) (h' : OpenedAt dirPath dir p t') :
    t = t' := by
  obtain ⟨path, span, table⟩ := t
  obtain ⟨path', span', table'⟩ := t'
  obtain rfl : path = path' := h.path.trans h'.path.symm
  obtain rfl : span = span' := h.span.trans h'.span.symm
  obtain rfl : table = table' :=
    Except.ok.inj (h.opened.symm.trans h'.opened)
  rfl

/-- The same files give the same tables. -/
theorem openedAt_unique {kept : List (Span × Bytes)}
    {tables tables' : List (Listed F)}
    (h : List.Forall₂ (OpenedAt dirPath dir) kept tables)
    (h' : List.Forall₂ (OpenedAt dirPath dir) kept tables') :
    tables = tables' := by
  induction h generalizing tables' with
  | nil =>
      cases h'
      rfl
  | cons ht _ ih =>
      cases h' with
      | cons ht' hrest => rw [ht.unique ht', ih hrest]

/-- Opening goes on behind a scan that accepted every name. -/
theorem SSTableSet.open_of_accepted (hperm : listing.Perm dir.keys)
    (hall : AllAccepted dir) (dirPath : Bytes) (bitsPerKey : ℕ) :
    SSTableSet.open dirPath bitsPerKey listing dir =
      match nextSeqOf (spansOf listing) with
      | .error e => (.error e, removeAll dir (tmpsOf listing))
      | .ok nextSeq =>
        match openSpans dirPath (spansOf listing) (spansOf listing).zipIdx
          (removeAll dir (tmpsOf listing)) with
        | (.error e, dir) => (.error e, dir)
        | (.ok sstables, dir) =>
          (.ok { sstables, dirPath, bitsPerKey, nextSeq }, dir) := by
  rw [SSTableSet.open, scanDir_eq dirPath ((allAccepted_iff hperm).mpr hall)]
  rfl

theorem SSTableSet.open_of_not_accepted (hperm : listing.Perm dir.keys)
    (hall : ¬ AllAccepted dir) (dirPath : Bytes) (bitsPerKey : ℕ) :
    ∃ e before, SSTableSet.open dirPath bitsPerKey listing dir =
      (.error (.io e), removeAll dir (tmpsOf before)) := by
  rcases scanDir_cases dirPath listing dir with
    ⟨hparse, -⟩ | ⟨-, -, -, -, e, before, heq⟩
  · exact absurd ((allAccepted_iff hperm).mp hparse) hall
  · refine ⟨e, before, ?_⟩
    rw [SSTableSet.open, heq]

/-- What an opening that succeeds has done. -/
theorem SSTableSet.open_eq_ok (hperm : listing.Perm dir.keys)
    (h : SSTableSet.open dirPath bitsPerKey listing dir = (.ok set, dir')) :
    AllAccepted dir ∧ nextSeqOf (spansOf listing) = .ok set.nextSeq ∧
      List.Forall₂ (OpenedAt dirPath dir) (keptSpans listing) set.sstables ∧
      dir' = removeAll (removeAll dir (tmpsOf listing))
        (supersededPaths (spansOf listing) (spansOf listing).zipIdx) := by
  by_cases hall : AllAccepted dir
  · rw [SSTableSet.open_of_accepted hperm hall] at h
    cases hnext : nextSeqOf (spansOf listing) with
    | error e =>
        rw [hnext] at h
        cases h
    | ok next =>
        rw [hnext] at h
        dsimp only at h
        rcases @openSpans_cases F dirPath (spansOf listing) _
          (removeAll dir (tmpsOf listing)) (spansOf_paths_nodup hperm) with
          ⟨tables, heq, hopened⟩ | ⟨before, q, after, f, -, -, -, -, heq⟩
        · rw [heq] at h
          cases h
          exact ⟨hall, rfl, hopened.imp fun _ _ => OpenedAt.of_removeAll, rfl⟩
        · rw [heq] at h
          cases h
  · obtain ⟨e, before, heq⟩ :=
      SSTableSet.open_of_not_accepted hperm hall dirPath bitsPerKey
    rw [heq] at h
    cases h

/-- The `.sst` files left are those that are not superseded. -/
theorem inDir_opened (hperm : listing.Perm dir.keys)
    (h : SSTableSet.open dirPath bitsPerKey listing dir = (.ok set, dir'))
    {p : Span × Bytes} :
    InDir dir' p ↔ InDir dir p ∧ ¬ Superseded dir p := by
  obtain ⟨-, -, -, rfl⟩ := SSTableSet.open_eq_ok hperm h
  obtain ⟨span, name⟩ := p
  by_cases hsst : IsSst name
  · have hget : ((removeAll (removeAll dir (tmpsOf listing))
        (supersededPaths (spansOf listing)
          (spansOf listing).zipIdx)).get? name).isSome ↔
            (dir.get? name).isSome ∧
              ¬ ∃ span, InDir dir (span, name) ∧
                Superseded dir (span, name) := by
      rw [get?_removeAll, get?_removeTmps listing dir hsst,
        ← mem_supersededPaths hperm]
      split_ifs with hmem
      · simp [hmem]
      · simp [hmem]
    constructor
    · rintro ⟨-, hsome, hspan⟩
      obtain ⟨hsome, hnot⟩ := hget.mp hsome
      have hin : InDir dir (span, name) := ⟨hsst, hsome, hspan⟩
      exact ⟨hin, fun hsup => hnot ⟨span, hin, hsup⟩⟩
    · rintro ⟨hin, hsup⟩
      refine ⟨hsst, hget.mpr ⟨hin.exists_, ?_⟩, hin.span⟩
      rintro ⟨span', hin', hsup'⟩
      have hspan := hin'.span
      rw [hin.span] at hspan
      obtain rfl := Option.some.inj hspan
      exact hsup hsup'
  · exact ⟨fun hin => absurd hin.isSst hsst,
      fun hin => absurd hin.1.isSst hsst⟩

/-- Every span lies in a maximal one. -/
theorem exists_maximalIn (hperm : listing.Perm dir.keys)
    {p : Span × Bytes} (hp : InDir dir p) :
    ∃ q, InDir dir q ∧ p.1.Within q.1 ∧ MaximalIn dir q.1 := by
  have hmem : ∀ s, s ∈ ((spansOf listing).map Prod.fst).toFinset ↔
      ∃ q, InDir dir q ∧ q.1 = s := by
    simp [← mem_spansOf_iff_inDir hperm]
  obtain ⟨m, hle, hin, hmax⟩ :=
    Finset.exists_le_maximal _ ((hmem p.1).mpr ⟨p, hp, rfl⟩)
  obtain ⟨q, hq, rfl⟩ := (hmem m).mp hin
  refine ⟨q, hq, hle, ⟨q, hq, rfl⟩, ?_⟩
  intro r hr hwithin
  exact le_antisymm (hmax ((hmem r.1).mpr ⟨r, hr, rfl⟩) hwithin) hwithin

/-- Without twins, what is not superseded is what is maximal. -/
theorem not_superseded_of_maximalIn (htwins : NoTwins dir)
    {p : Span × Bytes} (hp : InDir dir p) (hmax : MaximalIn dir p.1) :
    ¬ Superseded dir p := by
  rintro ⟨q, hq, hne, hwithin⟩
  have hspan := hmax.2 q hq hwithin
  exact htwins p q hp hq hspan.symm hne.symm hmax

theorem maximalIn_of_not_superseded {p : Span × Bytes} (hp : InDir dir p)
    (hsup : ¬ Superseded dir p) : MaximalIn dir p.1 := by
  refine ⟨⟨p, hp, rfl⟩, ?_⟩
  intro q hq hwithin
  by_contra hne
  exact hsup ⟨q, hq, fun heq => hne (congrArg Prod.fst heq), hwithin⟩

/-- The list of a set is what was kept, in order. -/
theorem mem_sstables_iff (hperm : listing.Perm dir.keys)
    (h : SSTableSet.open dirPath bitsPerKey listing dir = (.ok set, dir'))
    {p : Span × Bytes} :
    (∃ t ∈ set.sstables, (t.span, t.path) = p) ↔
      InDir dir p ∧ ¬ Superseded dir p := by
  obtain ⟨-, -, hopened, -⟩ := SSTableSet.open_eq_ok hperm h
  rw [← mem_keptSpans hperm, ← map_openedAt hopened, List.mem_map]

end Open

end Lsmrs
