import Lsmrs.Sstable.Segments

/-!
# Reopening a directory

`SSTableSet::open` on a directory whose segments are known rebuilds the list
of those that no other one contains, and removes the files of the rest.
-/

namespace Lsmrs

open ByteString OrderedMap

variable {F : TableFormat} {EntryOk : Entry → Prop}

/-! ## The spans found -/

/-- What the scan finds of a segment. -/
def Segment.found (d : Segment EntryOk) : Span × Bytes :=
  (d.span, d.name)

theorem Segment.found_injective {d d' : Segment EntryOk}
    (h : d.span = d'.span) : d.found = d'.found := by
  rw [Segment.found, Segment.found, Segment.name, Segment.name, h]

/-- The spans of the listing, sorted. -/
def spansOf (listing : List Bytes) : List (Span × Bytes) :=
  sortSpans (listing.filterMap sstSpan)

theorem keys_nodup (dir : Dir F) : dir.keys.Nodup :=
  List.pairwise_map.mpr (dir.ascending.imp ne_of_lt)

section Listing

variable {dir : Dir F} {all kept : List (Segment EntryOk)}
  {listing : List Bytes}

theorem parseSpan_isSome (h : Files dir all)
    (hperm : listing.Perm dir.keys) :
    ∀ name ∈ listing, IsSst name → (parseSpan name).isSome := by
  intro name hname hsst
  have hkey := mem_keys_iff.mp (hperm.mem_iff.mp hname)
  obtain ⟨d, -, rfl⟩ := h.only name hsst hkey
  rw [d.parseSpan_name]
  rfl

theorem mem_spansOf_iff (h : Files dir all) (hperm : listing.Perm dir.keys)
    {p : Span × Bytes} :
    p ∈ spansOf listing ↔ ∃ d ∈ all, p = d.found := by
  rw [spansOf, mem_sortSpans, List.mem_filterMap]
  constructor
  · rintro ⟨name, hname, hp⟩
    rw [sstSpan] at hp
    split_ifs at hp with hsst
    have hkey := mem_keys_iff.mp (hperm.mem_iff.mp hname)
    obtain ⟨d, hd, rfl⟩ := h.only name hsst hkey
    rw [d.parseSpan_name] at hp
    exact ⟨d, hd, (Option.some.inj hp).symm⟩
  · rintro ⟨d, hd, rfl⟩
    obtain ⟨file, hfile, -⟩ := h.stored d hd
    refine ⟨d.name, hperm.mem_iff.mpr (mem_keys_iff.mpr (by simp [hfile])),
      ?_⟩
    rw [sstSpan, if_pos d.isSst_name, d.parseSpan_name]
    rfl

theorem spansOf_nodup (hperm : listing.Perm dir.keys) :
    (spansOf listing).Nodup := by
  have hlisting : listing.Nodup := hperm.nodup_iff.mpr (keys_nodup dir)
  refine (List.perm_insertionSort _ _).nodup_iff.mpr ?_
  refine hlisting.filterMap ?_
  intro name name' p hp hp'
  have hsnd : ∀ {name : Bytes}, p ∈ sstSpan name → p.2 = name := by
    intro name hp
    rw [sstSpan] at hp
    split_ifs at hp
    · obtain ⟨span, -, rfl⟩ := Option.map_eq_some_iff.mp hp
      rfl
    · cases hp
  rw [← hsnd hp, ← hsnd hp']

theorem spansOf_sorted (listing : List Bytes) :
    (spansOf listing).Pairwise fun a b => spanKey a ≤ spanKey b :=
  List.pairwise_insertionSort _ _

theorem mem_spansOf {p : Span × Bytes} :
    p ∈ spansOf listing ↔
      p.2 ∈ listing ∧ IsSst p.2 ∧ parseSpan p.2 = some p.1 := by
  rw [spansOf, mem_sortSpans, List.mem_filterMap]
  constructor
  · rintro ⟨name, hname, hp⟩
    rw [sstSpan] at hp
    split_ifs at hp with hsst
    obtain ⟨span, hspan, rfl⟩ := Option.map_eq_some_iff.mp hp
    exact ⟨hname, hsst, hspan⟩
  · rintro ⟨hname, hsst, hspan⟩
    refine ⟨p.2, hname, ?_⟩
    rw [sstSpan, if_pos hsst, hspan]
    rfl

/-- A name is found with one span. -/
theorem spansOf_eq_of_path {p q : Span × Bytes} (hp : p ∈ spansOf listing)
    (hq : q ∈ spansOf listing) (h : p.2 = q.2) : p = q := by
  obtain ⟨-, -, hspan⟩ := mem_spansOf.mp hp
  obtain ⟨-, -, hspan'⟩ := mem_spansOf.mp hq
  rw [h, hspan'] at hspan
  exact Prod.ext (Option.some.inj hspan).symm h

theorem spansOf_paths_nodup (hperm : listing.Perm dir.keys) :
    ((spansOf listing).zipIdx.map fun p => p.1.2).Nodup := by
  have hsplit : ((spansOf listing).zipIdx.map fun p => p.1.2) =
      ((spansOf listing).zipIdx.map Prod.fst).map Prod.snd := by
    rw [List.map_map]
    rfl
  rw [hsplit, List.zipIdx_map_fst]
  refine (spansOf_nodup hperm).map_on ?_
  intro p hp q hq heq
  exact spansOf_eq_of_path hp hq heq

/-- Being superseded is a matter of the other spans found, not of places in
the list. -/
theorem superseded_eq_true_iff {spans : List (Span × Bytes)}
    (hnodup : spans.Nodup) {p : Span × Bytes} {i : ℕ}
    (hp : (p, i) ∈ spans.zipIdx) :
    superseded spans i p.1 = true ↔
      ∃ q ∈ spans, q ≠ p ∧ p.1.Within q.1 := by
  have hget := List.mem_zipIdx_iff_getElem?.mp hp
  rw [superseded, List.any_eq_true]
  constructor
  · rintro ⟨⟨q, j⟩, hq, hwithin⟩
    obtain ⟨hne, hwithin⟩ := of_decide_eq_true hwithin
    have hget' := List.mem_zipIdx_iff_getElem?.mp hq
    refine ⟨q, List.mem_of_getElem? hget', ?_, hwithin⟩
    rintro rfl
    obtain ⟨hi, hgeti⟩ := List.getElem?_eq_some_iff.mp hget
    obtain ⟨hj, hgetj⟩ := List.getElem?_eq_some_iff.mp hget'
    exact hne (hnodup.getElem_inj_iff.mp (hgetj.trans hgeti.symm))
  · rintro ⟨q, hq, hne, hwithin⟩
    obtain ⟨j, hj⟩ := List.getElem?_of_mem hq
    refine ⟨(q, j), List.mem_zipIdx_iff_getElem?.mpr hj,
      decide_eq_true ⟨?_, hwithin⟩⟩
    rintro rfl
    rw [hj] at hget
    exact hne (Option.some.inj hget)

/-- A span found is superseded unless its segment is kept. -/
theorem superseded_iff (h : Shows dir all kept)
    (hperm : listing.Perm dir.keys) {p : Span × Bytes} {i : ℕ}
    (hp : (p, i) ∈ (spansOf listing).zipIdx) :
    superseded (spansOf listing) i p.1 = true ↔
      p ∉ kept.map Segment.found := by
  have hmem := List.mem_of_getElem? (List.mem_zipIdx_iff_getElem?.mp hp)
  rw [superseded_eq_true_iff (spansOf_nodup hperm) hp]
  obtain ⟨d, hd, rfl⟩ := (mem_spansOf_iff h.files hperm).mp hmem
  constructor
  · rintro ⟨q, hq, hne, hwithin⟩ hkept
    obtain ⟨d', hd', rfl⟩ := (mem_spansOf_iff h.files hperm).mp hq
    obtain ⟨d'', hd'', heq⟩ := List.mem_map.mp hkept
    have hspan : d''.span = d.span := congrArg Prod.fst heq
    have hsame : d'.span = d''.span := by
      apply h.eq_of_within hd'' hd'
      rw [hspan]
      exact hwithin
    exact hne (Segment.found_injective (hsame.trans hspan))
  · intro hkept
    obtain ⟨d', hd', hwithin⟩ := h.covered d hd
    refine ⟨d'.found, (mem_spansOf_iff h.files hperm).mpr
      ⟨d', h.subset d' hd', rfl⟩, ?_, hwithin⟩
    rintro heq
    exact hkept (List.mem_map.mpr ⟨d', hd', heq⟩)

theorem found_pairwise (hstairs : Staircase kept) :
    (kept.map Segment.found).Pairwise fun a b => spanKey a < spanKey b := by
  rw [List.pairwise_map]
  refine hstairs.imp ?_
  intro a b hab
  exact Prod.Lex.toLex_lt_toLex.mpr (Or.inl hab.1)

/-- The spans that are not superseded are those of the kept segments, in
order. -/
theorem filter_superseded (h : Shows dir all kept)
    (hperm : listing.Perm dir.keys) :
    ((spansOf listing).zipIdx.filter fun p =>
        !superseded (spansOf listing) p.2 p.1.1).map Prod.fst =
      kept.map Segment.found := by
  have hcongr : ((spansOf listing).zipIdx.filter fun p =>
      !superseded (spansOf listing) p.2 p.1.1) =
        (spansOf listing).zipIdx.filter
          ((fun p => decide (p ∈ kept.map Segment.found)) ∘ Prod.fst) := by
    apply List.filter_congr
    rintro ⟨p, i⟩ hp
    have hiff := superseded_iff h hperm hp
    rw [Function.comp_apply, Bool.eq_iff_iff, Bool.not_eq_true',
      decide_eq_true_iff, ← Bool.not_eq_true, hiff, not_not]
  have hnodup := spansOf_nodup hperm
  have hfst : (spansOf listing).zipIdx.map Prod.fst = spansOf listing :=
    List.zipIdx_map_fst 0 _
  rw [hcongr, ← List.filter_map, hfst]
  have hkept_nodup : (kept.map Segment.found).Nodup :=
    (found_pairwise h.staircase).imp fun hlt heq => by
      rw [heq] at hlt
      exact lt_irrefl _ hlt
  have hmem : ∀ p, p ∈ (spansOf listing).filter
      (fun p => decide (p ∈ kept.map Segment.found)) ↔
        p ∈ kept.map Segment.found := by
    intro p
    rw [List.mem_filter, decide_eq_true_iff, and_iff_right_iff_imp]
    intro hp
    obtain ⟨d, hd, rfl⟩ := List.mem_map.mp hp
    exact (mem_spansOf_iff h.files hperm).mpr ⟨d, h.subset d hd, rfl⟩
  have hperm' := (List.perm_ext_iff_of_nodup (hnodup.filter _)
    hkept_nodup).mpr hmem
  refine hperm'.eq_of_pairwise ?_ ((spansOf_sorted listing).filter _)
    ((found_pairwise h.staircase).imp le_of_lt)
  intro a b _ _ hab hba
  exact spanKey_injective (le_antisymm hab hba)

end Listing

/-! ## Opening the tables -/

/-- The paths of the superseded spans of a list. -/
def supersededPaths (spans : List (Span × Bytes))
    (rest : List ((Span × Bytes) × ℕ)) : List Bytes :=
  (rest.filter fun p => superseded spans p.2 p.1.1).map fun p => p.1.2

/-- What opening the file of a span found returns. -/
def openFile (dirPath : Bytes) (dir : Dir F) (path : Bytes) :
    Result F.Table :=
  match dir.get? path with
  | none => .error (ioError .other
      (ascii "No such file or directory (os error 2)"))
  | some file => F.openTable (joinPath dirPath path) file

/-- A table was opened from the file of a span found. -/
structure OpenedAt (dirPath : Bytes) (dir : Dir F) (p : Span × Bytes)
    (t : Listed F) : Prop where
  path : t.path = p.2
  span : t.span = p.1
  opened : openFile dirPath dir p.2 = .ok t.table

theorem openSpans_cons (dirPath : Bytes) (spans : List (Span × Bytes))
    (p : Span × Bytes) (i : ℕ) (rest : List ((Span × Bytes) × ℕ))
    (dir : Dir F) :
    openSpans dirPath spans ((p, i) :: rest) dir =
      if superseded spans i p.1 = true then
        openSpans dirPath spans rest (dir.erase p.2)
      else match openFile dirPath dir p.2 with
        | .error e => (.error e, dir)
        | .ok table =>
          let (tables, dir) := openSpans dirPath spans rest dir
          (tables.map (⟨p.2, p.1, table⟩ :: ·), dir) := by
  obtain ⟨span, path⟩ := p
  rw [openSpans, openFile]
  cases dir.get? path with
  | none => rfl
  | some file => rfl

theorem openFile_erase (dirPath : Bytes) (dir : Dir F) {path removed : Bytes}
    (hne : removed ≠ path) :
    openFile dirPath (dir.erase removed) path = openFile dirPath dir path := by
  rw [openFile, openFile, get?_erase, if_neg hne]

theorem OpenedAt.of_erase {dirPath : Bytes} {dir : Dir F} {removed : Bytes}
    {p : Span × Bytes} {t : Listed F}
    (h : OpenedAt dirPath (dir.erase removed) p t) :
    OpenedAt dirPath dir p t := by
  refine ⟨h.path, h.span, ?_⟩
  have hopened := h.opened
  by_cases heq : removed = p.2
  · rw [openFile, get?_erase, if_pos heq] at hopened
    cases hopened
  · rwa [openFile_erase dirPath dir heq] at hopened

/-- The loop opens every table that is not superseded and removes the files
of the others; or it stops at a table that does not open, with the superseded
ones before it removed. -/
theorem openSpans_cases (dirPath : Bytes) (spans : List (Span × Bytes))
    {rest : List ((Span × Bytes) × ℕ)} {dir : Dir F}
    (hpaths : (rest.map fun p => p.1.2).Nodup) :
    (∃ tables, openSpans dirPath spans rest dir =
        (.ok tables, removeAll dir (supersededPaths spans rest)) ∧
      List.Forall₂ (OpenedAt dirPath dir)
        ((rest.filter fun p => !superseded spans p.2 p.1.1).map Prod.fst)
        tables) ∨
    ∃ before q after f, rest = before ++ q :: after ∧
      superseded spans q.2 q.1.1 = false ∧
      openFile dirPath dir q.1.2 = .error f ∧
      (∀ p ∈ before, superseded spans p.2 p.1.1 = false →
        ∃ table, openFile dirPath dir p.1.2 = .ok table) ∧
      openSpans dirPath spans rest dir =
        (.error f, removeAll dir (supersededPaths spans before)) := by
  induction rest generalizing dir with
  | nil => exact Or.inl ⟨[], rfl, .nil⟩
  | cons q rest ih =>
      obtain ⟨q, i⟩ := q
      obtain ⟨hpath, hpaths⟩ := List.nodup_cons.mp hpaths
      rw [openSpans_cons]
      cases hsup : superseded spans i q.1 with
      | true =>
          rw [if_pos rfl]
          rcases @ih (dir.erase q.2) hpaths with ⟨tables, heq, hall⟩ |
            ⟨before, q', after, f, rfl, hq', hfails, hbefore, heq⟩
          · refine Or.inl ⟨tables, ?_, ?_⟩
            · rw [heq]
              simp [supersededPaths, hsup, removeAll]
            · rw [List.filter_cons, if_neg (by simp [hsup])]
              exact hall.imp fun _ _ => OpenedAt.of_erase
          · -- The removed file is none of those that come later.
            have hother : ∀ p ∈ before ++ q' :: after,
                openFile dirPath (dir.erase q.2) p.1.2 =
                  openFile dirPath dir p.1.2 := by
              intro p hp
              apply openFile_erase
              intro hsame
              exact hpath (List.mem_map.mpr ⟨p, hp, hsame.symm⟩)
            refine Or.inr ⟨(q, i) :: before, q', after, f, rfl, hq', ?_, ?_, ?_⟩
            · rw [← hother q' (by simp)]
              exact hfails
            · intro p hp hkept
              rcases List.mem_cons.mp hp with rfl | hp
              · rw [hsup] at hkept
                cases hkept
              · rw [← hother p (List.mem_append_left _ hp)]
                exact hbefore p hp hkept
            · rw [heq]
              simp [supersededPaths, hsup, removeAll]
      | false =>
          rw [if_neg Bool.false_ne_true]
          cases hopen : openFile dirPath dir q.2 with
          | error f =>
              exact Or.inr ⟨[], (q, i), rest, f, rfl, hsup, hopen, by simp,
                rfl⟩
          | ok table =>
              dsimp only
              rcases @ih dir hpaths with ⟨tables, heq, hall⟩ |
                ⟨before, q', after, f, rfl, hq', hfails, hbefore, heq⟩
              · refine Or.inl ⟨⟨q.2, q.1, table⟩ :: tables, ?_, ?_⟩
                · rw [heq]
                  simp [supersededPaths, hsup, Except.map]
                · rw [List.filter_cons, if_pos (by simp [hsup]),
                    List.map_cons]
                  exact .cons ⟨rfl, rfl, hopen⟩ hall
              · refine Or.inr ⟨(q, i) :: before, q', after, f, rfl, hq',
                  hfails, ?_, ?_⟩
                · exact List.forall_mem_cons.mpr
                    ⟨fun _ => ⟨table, hopen⟩, hbefore⟩
                · rw [heq]
                  simp [supersededPaths, hsup, Except.map]

/-- When every table that is to be opened does open. -/
theorem openSpans_eq (dirPath : Bytes) (spans : List (Span × Bytes))
    {rest : List ((Span × Bytes) × ℕ)} {dir : Dir F}
    (hpaths : (rest.map fun p => p.1.2).Nodup)
    (hopen : ∀ p ∈ rest, superseded spans p.2 p.1.1 = false →
      ∃ table, openFile dirPath dir p.1.2 = .ok table) :
    ∃ tables, openSpans dirPath spans rest dir =
        (.ok tables, removeAll dir (supersededPaths spans rest)) ∧
      List.Forall₂ (OpenedAt dirPath dir)
        ((rest.filter fun p => !superseded spans p.2 p.1.1).map Prod.fst)
        tables := by
  rcases openSpans_cases dirPath spans hpaths with hall |
    ⟨before, q, after, f, rfl, hq, hfails, -, -⟩
  · exact hall
  · obtain ⟨table, hok⟩ := hopen q (by simp) hq
    rw [hfails] at hok
    cases hok

/-! ## The whole call -/

section Open

variable {dir : Dir F} {all kept : List (Segment EntryOk)}
  {listing : List Bytes}

/-- `open` removes the temporary files and the superseded ones. -/
theorem mem_openRemovals (h : Shows dir all kept)
    (hperm : listing.Perm dir.keys) {name : Bytes}
    (hname : name ∈ openRemovals listing) :
    ¬ IsSst name ∨
      ∃ d ∈ all, name = d.name ∧ d.found ∉ kept.map Segment.found := by
  rw [openRemovals_eq] at hname
  rcases List.mem_append.mp hname with hname | hname
  · left
    exact (of_decide_eq_true (List.mem_filter.mp hname).2).1
  · right
    cases hnext : nextSeqOf (sortSpans (listing.filterMap sstSpan)) with
    | error e => simp [hnext] at hname
    | ok n =>
        rw [hnext] at hname
        obtain ⟨⟨p, i⟩, hp, rfl⟩ := List.mem_map.mp hname
        obtain ⟨hp, hsup⟩ := List.mem_filter.mp hp
        have hmem := List.mem_of_getElem? (List.mem_zipIdx_iff_getElem?.mp hp)
        obtain ⟨d, hd, rfl⟩ := (mem_spansOf_iff h.files hperm).mp hmem
        exact ⟨d, hd, rfl, (superseded_iff h hperm hp).mp hsup⟩

/-- None of the removals, however many are done, touches a kept segment. -/
theorem name_not_mem_openRemovals (h : Shows dir all kept)
    (hperm : listing.Perm dir.keys) (removed : ℕ) :
    ∀ d ∈ kept, d.name ∉ (openRemovals listing).take removed := by
  intro d hd hmem
  rcases mem_openRemovals h hperm (List.mem_of_mem_take hmem) with
    hsst | ⟨d', hd', hname, hkept⟩
  · exact hsst d.isSst_name
  · have hspan := Segment.name_injective hname
    rw [← Segment.found_injective hspan] at hkept
    exact hkept (List.mem_map_of_mem hd)

theorem openRemovals_of_next {next : ℕ}
    (hnext : nextSeqOf (spansOf listing) = .ok next) :
    openRemovals listing = tmpsOf listing ++
      supersededPaths (spansOf listing) (spansOf listing).zipIdx := by
  rw [spansOf] at hnext
  rw [openRemovals_eq, hnext]
  rfl

/-- A segment that is not kept loses its file. -/
theorem name_mem_openRemovals (h : Shows dir all kept)
    (hperm : listing.Perm dir.keys) {next : ℕ}
    (hnext : nextSeqOf (spansOf listing) = .ok next)
    {d : Segment EntryOk} (hd : d ∈ all)
    (hkept : d.found ∉ kept.map Segment.found) :
    d.name ∈ openRemovals listing := by
  have hmem : d.found ∈ spansOf listing :=
    (mem_spansOf_iff h.files hperm).mpr ⟨d, hd, rfl⟩
  obtain ⟨i, hi⟩ := List.getElem?_of_mem hmem
  have hzip : (d.found, i) ∈ (spansOf listing).zipIdx :=
    List.mem_zipIdx_iff_getElem?.mpr hi
  rw [openRemovals_of_next hnext]
  refine List.mem_append.mpr (Or.inr (List.mem_map.mpr
    ⟨(d.found, i), List.mem_filter.mpr ⟨hzip, ?_⟩, rfl⟩))
  exact (superseded_iff h hperm hzip).mpr hkept

/-- After all removals only the kept segments are left. -/
theorem Shows.opened (h : Shows dir all kept)
    (hperm : listing.Perm dir.keys) {next : ℕ}
    (hnext : nextSeqOf (spansOf listing) = .ok next) :
    Shows (Lsmrs.removeAll dir (openRemovals listing)) kept kept := by
  have hnames := name_not_mem_openRemovals h hperm
    (openRemovals listing).length
  rw [List.take_length] at hnames
  have hremoved := h.removeAll hnames
  refine ⟨⟨?_, ?_⟩, fun _ hd => hd, h.staircase,
    fun d hd => ⟨d, hd, le_rfl, le_rfl⟩⟩
  · intro d hd
    exact hremoved.files.stored d (hremoved.subset d hd)
  · intro name hsst hsome
    obtain ⟨d, hd, rfl⟩ := hremoved.files.only name hsst hsome
    obtain ⟨hd, hnot⟩ := List.mem_filter.mp hd
    by_cases hkept : d.found ∈ kept.map Segment.found
    · obtain ⟨d', hd', heq⟩ := List.mem_map.mp hkept
      exact ⟨d', hd', (congrArg Prod.snd heq).symm⟩
    · exact absurd (name_mem_openRemovals h hperm hnext hd hkept)
        (of_decide_eq_true hnot)

theorem Stored.openFile {d : Segment EntryOk} (hd : Stored dir d)
    (dirPath : Bytes) :
    ∃ table, openFile dirPath dir d.name = .ok table ∧
      F.Holds table d.content := by
  obtain ⟨file, hfile, table, hopen, hholds⟩ := hd
  refine ⟨table, ?_, hholds⟩
  rw [Lsmrs.openFile, hfile]
  exact hopen _

/-- A stored segment's file opens as a table described by it. -/
theorem OpenedAt.described {d : Segment EntryOk} (hd : Stored dir d)
    {dirPath : Bytes} {t : Listed F} (ht : OpenedAt dirPath dir d.found t) :
    Described t d := by
  obtain ⟨table, hopen, hholds⟩ := hd.openFile dirPath
  have hopened : openFile dirPath dir d.name = .ok t.table := ht.opened
  rw [hopen] at hopened
  obtain rfl := Except.ok.inj hopened
  exact ⟨ht.span, ht.path, hholds⟩

/-- Opening a directory gives a set that reads as the kept segments, and
leaves their files and no other table. -/
theorem SSTableSet.open_eq (h : Shows dir all kept)
    (hperm : listing.Perm dir.keys)
    (hseq : ∀ d ∈ all, d.span.last < u64Max)
    (dirPath : Bytes) (bitsPerKey : ℕ) :
    ∃ set, SSTableSet.open dirPath bitsPerKey listing dir =
        (.ok set, Lsmrs.removeAll dir (openRemovals listing)) ∧
      List.Forall₂ Described set.sstables kept ∧
      set.nextSeq ≤ u64Max ∧ (∀ d ∈ kept, d.span.last < set.nextSeq) ∧
      Shows (Lsmrs.removeAll dir (openRemovals listing)) kept kept := by
  have hscan := scanDir_eq dirPath (parseSpan_isSome h.files hperm) dir
  have hlast : ∀ p ∈ spansOf listing, p.1.last < u64Max := by
    intro p hp
    obtain ⟨d, hd, rfl⟩ := (mem_spansOf_iff h.files hperm).mp hp
    exact hseq d hd
  obtain ⟨next, hnext, hmax, hbelow⟩ := nextSeqOf_eq_ok hlast
  -- The directory once the temporary files are gone.
  let dir₁ := Lsmrs.removeAll dir (tmpsOf listing)
  have hstored : ∀ d ∈ kept, Stored dir₁ d := by
    intro d hd
    obtain ⟨file, hfile, hstores⟩ := h.files.stored d (h.subset d hd)
    refine ⟨file, ?_, hstores⟩
    rw [get?_removeAll, if_neg, hfile]
    intro hmem
    exact (of_decide_eq_true (List.mem_filter.mp hmem).2).1 d.isSst_name
  have hopen : ∀ p ∈ (spansOf listing).zipIdx,
      superseded (spansOf listing) p.2 p.1.1 = false →
        ∃ table, openFile dirPath dir₁ p.1.2 = .ok table := by
    rintro ⟨p, i⟩ hp hsup
    have hkept : p ∈ kept.map Segment.found := by
      by_contra hnot
      have htrue := (superseded_iff h hperm hp).mpr hnot
      rw [hsup] at htrue
      cases htrue
    obtain ⟨d, hd, rfl⟩ := List.mem_map.mp hkept
    obtain ⟨table, htable, -⟩ := (hstored d hd).openFile dirPath
    exact ⟨table, htable⟩
  obtain ⟨tables, htables, hall⟩ := openSpans_eq dirPath (spansOf listing)
    (spansOf_paths_nodup hperm) hopen
  rw [filter_superseded h hperm, List.forall₂_map_left_iff] at hall
  have hdescribed : List.Forall₂ Described tables kept := by
    have hand := (List.forall₂_and_left kept tables).mpr ⟨hstored, hall⟩
    apply List.Forall₂.flip
    exact hand.imp fun d t hd => OpenedAt.described hd.1 hd.2
  have hdir : Lsmrs.removeAll dir₁
      (supersededPaths (spansOf listing) (spansOf listing).zipIdx) =
        Lsmrs.removeAll dir (openRemovals listing) := by
    rw [openRemovals_of_next hnext, Lsmrs.removeAll, Lsmrs.removeAll,
      List.foldl_append]
    rfl
  refine ⟨⟨tables, dirPath, bitsPerKey, next⟩, ?_, hdescribed, hmax, ?_,
    h.opened hperm hnext⟩
  · have hspans : sortSpans (listing.filterMap sstSpan) =
        spansOf listing := rfl
    have hdir₁ : Lsmrs.removeAll dir (tmpsOf listing) = dir₁ := rfl
    rw [SSTableSet.open, hscan]
    dsimp only
    rw [hspans, hnext]
    dsimp only
    rw [hdir₁, htables, ← hdir]
  · intro d hd
    exact hbelow d.found
      ((mem_spansOf_iff h.files hperm).mpr ⟨d, h.subset d hd, rfl⟩)

/-- A span that ends at the largest sequence number stops the opening once
the temporary files are gone. -/
theorem SSTableSet.open_exhausted (h : Files dir all)
    (hperm : listing.Perm dir.keys) {d : Segment EntryOk} (hd : d ∈ all)
    (hlast : d.span.last = u64Max) (dirPath : Bytes) (bitsPerKey : ℕ) :
    SSTableSet.open dirPath bitsPerKey listing dir =
      (.error .panic, Lsmrs.removeAll dir (openRemovals listing)) := by
  have hscan := scanDir_eq dirPath (parseSpan_isSome h hperm) dir
  have hany : ((spansOf listing).any fun p => p.1.last = u64Max) = true := by
    rw [List.any_eq_true]
    exact ⟨d.found, (mem_spansOf_iff h hperm).mpr ⟨d, hd, rfl⟩,
      decide_eq_true hlast⟩
  have hnext : nextSeqOf (spansOf listing) = .error .panic := by
    rw [nextSeqOf, if_pos hany]
  have hremovals : openRemovals listing = tmpsOf listing := by
    rw [spansOf] at hnext
    rw [openRemovals_eq, hnext, List.append_nil]
  rw [SSTableSet.open, hscan]
  dsimp only
  rw [spansOf] at hnext
  rw [hnext, hremovals]

end Open

end Lsmrs
