import Lsmrs.Sstable.Lawful

/-!
# What a directory of tables says

A segment is the abstract table: a span of sequence numbers and what it says
of its keys.  `Described` ties an open table to its segment and `Files` a
directory to the segments of its files.
-/

namespace Lsmrs

open ByteString OrderedMap Layers

variable {F : TableFormat} {EntryOk : Entry → Prop}

/-- A table's span and entries. -/
structure Segment (EntryOk : Entry → Prop) where
  span : Span
  content : List Entry
  ordered : span.first ≤ span.last
  bounded : span.last ≤ u64Max
  nonempty : content ≠ []
  ascending : Ascending content
  fits : ∀ e ∈ content, EntryOk e

/-- What a segment says of each key. -/
def Segment.layer (d : Segment EntryOk) : Layer Bytes Bytes :=
  find d.content

/-- The name of a segment's file. -/
def Segment.name (d : Segment EntryOk) : Bytes :=
  tableName d.span

/-- What segments say together, oldest first. -/
def tells (segs : List (Segment EntryOk)) : Layer Bytes Bytes :=
  stack (segs.map Segment.layer)

/-- The values a reader of the segments sees. -/
def shown (segs : List (Segment EntryOk)) : Bytes → Option Bytes :=
  visible (tells segs)

/-! ## Segments in order -/

/-- An order for the spans of a list.  The span over a run can take the place
of the run in it, and the span of a new table comes behind those below it. -/
structure SpanOrder where
  Before : Span → Span → Prop
  rises : ∀ {a b : Span}, a.first ≤ a.last → b.first ≤ b.last →
    Before a b → a.first < b.first ∧ a.last < b.last
  before_joined : ∀ {a b c : Span}, Before a b → Before a c →
    Before a ⟨b.first, c.last⟩
  joined_before : ∀ {a b c : Span}, Before b a → Before c a →
    Before ⟨b.first, c.last⟩ a
  before_next : ∀ {a : Span} {next : ℕ}, a.first ≤ a.last →
    a.last < next → Before a ⟨next, next⟩

/-- One span ends before the next one starts. -/
def SpanOrder.disjoint : SpanOrder where
  Before a b := a.last < b.first
  rises := by
    intro a b ha hb hab
    omega
  before_joined := fun hab _ => hab
  joined_before := fun _ hca => hca
  before_next := fun _ hlt => hlt

/-- Both ends ascend, so that no span is inside another one. -/
def SpanOrder.stairs : SpanOrder where
  Before a b := a.first < b.first ∧ a.last < b.last
  rises := fun _ _ hab => hab
  before_joined := fun hab hac => ⟨hab.1, hac.2⟩
  joined_before := fun hba hca => ⟨hba.1, hca.2⟩
  before_next := by
    intro a next ha hlt
    dsimp only
    omega

def SpansInOrder (o : SpanOrder) (segs : List (Segment EntryOk)) : Prop :=
  segs.Pairwise fun a b => o.Before a.span b.span

/-- Spans in ascending order without overlap. -/
abbrev Chain (segs : List (Segment EntryOk)) : Prop :=
  SpansInOrder .disjoint segs

/-- Spans in ascending order, none inside another. -/
def Staircase (segs : List (Segment EntryOk)) : Prop :=
  segs.Pairwise fun a b =>
    a.span.first < b.span.first ∧ a.span.last < b.span.last

theorem SpansInOrder.staircase {o : SpanOrder} {segs : List (Segment EntryOk)}
    (h : SpansInOrder o segs) : Staircase segs :=
  List.Pairwise.imp (fun {a b} hab => o.rises a.ordered b.ordered hab) h

theorem Segment.name_injective {d d' : Segment EntryOk}
    (h : d.name = d'.name) : d.span = d'.span :=
  tableName_injective h

theorem Segment.isSst_name (d : Segment EntryOk) : IsSst d.name :=
  extension_tableName d.span

theorem Segment.parseSpan_name (d : Segment EntryOk) :
    parseSpan d.name = some d.span :=
  parseSpan_tableName (d.ordered.trans d.bounded) d.bounded

theorem tells_append (old new : List (Segment EntryOk)) (k : Bytes) :
    tells (old ++ new) k = (tells new k).or (tells old k) := by
  rw [tells, List.map_append, stack_append]
  rfl

theorem shown_append_of_none {segs : List (Segment EntryOk)} {k : Bytes}
    {new : List (Segment EntryOk)} (h : tells new k = none) :
    shown (segs ++ new) k = shown segs k := by
  unfold shown visible
  rw [tells_append, h, Option.none_or]

/-! ## Open tables -/

/-- A table in a list reads as a segment. -/
structure Described (t : Listed F) (d : Segment EntryOk) : Prop where
  span : t.span = d.span
  path : t.path = d.name
  holds : F.Holds t.table d.content

theorem exists_segment {tables : List (Listed F)}
    {segs : List (Segment EntryOk)}
    (h : List.Forall₂ Described tables segs) {t : Listed F}
    (ht : t ∈ tables) : ∃ d ∈ segs, Described t d := by
  induction h with
  | nil => cases ht
  | cons hd _ ih =>
      rcases List.mem_cons.mp ht with rfl | ht
      · exact ⟨_, List.mem_cons_self, hd⟩
      · obtain ⟨d, hmem, hdescribed⟩ := ih ht
        exact ⟨d, List.mem_cons_of_mem _ hmem, hdescribed⟩

theorem exists_table {tables : List (Listed F)}
    {segs : List (Segment EntryOk)}
    (h : List.Forall₂ Described tables segs) {d : Segment EntryOk}
    (hd : d ∈ segs) : ∃ t ∈ tables, Described t d := by
  induction h with
  | nil => cases hd
  | cons ht _ ih =>
      rcases List.mem_cons.mp hd with rfl | hd
      · exact ⟨_, List.mem_cons_self, ht⟩
      · obtain ⟨t, hmem, hdescribed⟩ := ih hd
        exact ⟨t, List.mem_cons_of_mem _ hmem, hdescribed⟩

theorem getFrom_eq {tables : List (Listed F)}
    {segs : List (Segment EntryOk)}
    (h : List.Forall₂ Described tables segs) (key : Bytes) :
    getFrom key tables =
      .ok ((segs.map Segment.layer).findSome? fun l => l key).join := by
  induction h with
  | nil => rfl
  | @cons t d tables segs hd _ ih =>
      rw [getFrom, hd.holds.get, ok_bind, List.map_cons,
        List.findSome?_cons, Segment.layer]
      cases hfind : find d.content key with
      | none => exact ih
      | some value => cases value <;> rfl

/-- `get` answers with what the segments show. -/
theorem SSTableSet.get_eq {set : SSTableSet F}
    {segs : List (Segment EntryOk)}
    (h : List.Forall₂ Described set.sstables segs) (key : Bytes) :
    set.get key = .ok (shown segs key) := by
  rw [SSTableSet.get, getFrom_eq (List.rel_reverse h), List.map_reverse,
    findSome?_reverse]
  rfl

/-! ## Files -/

/-- The segment's file is there, and opens as the segment. -/
def Stored (dir : Dir F) (d : Segment EntryOk) : Prop :=
  ∃ file, dir.get? d.name = some file ∧ F.Stores file d.content

/-- The `.sst` files of a directory are those of the given segments. -/
structure Files (dir : Dir F) (all : List (Segment EntryOk)) : Prop where
  stored : ∀ d ∈ all, Stored dir d
  only : ∀ name, IsSst name → (dir.get? name).isSome →
    ∃ d ∈ all, name = d.name

/-- Of the segments on disk the `kept` ones contain all others. -/
structure Shows (dir : Dir F) (all kept : List (Segment EntryOk)) :
    Prop where
  files : Files dir all
  subset : ∀ d ∈ kept, d ∈ all
  staircase : Staircase kept
  covered : ∀ d ∈ all, ∃ d' ∈ kept, d.span.Within d'.span

theorem Staircase.eq_of_within {segs : List (Segment EntryOk)}
    (h : Staircase segs) {d d' : Segment EntryOk} (hd : d ∈ segs)
    (hd' : d' ∈ segs) (hwithin : d.span.Within d'.span) : d = d' := by
  obtain ⟨hlow, hhigh⟩ := hwithin
  have hpair := List.pairwise_iff_getElem.mp h
  obtain ⟨i, hi, rfl⟩ := List.getElem_of_mem hd
  obtain ⟨j, hj, rfl⟩ := List.getElem_of_mem hd'
  rcases Nat.lt_trichotomy i j with hlt | rfl | hlt
  · have := hpair i j hi hj hlt
    omega
  · rfl
  · have := hpair j i hj hi hlt
    omega

/-- A kept segment lies in no other one. -/
theorem Shows.eq_of_within {dir : Dir F} {all kept : List (Segment EntryOk)}
    (h : Shows dir all kept) {d d' : Segment EntryOk} (hd : d ∈ kept)
    (hd' : d' ∈ all) (hwithin : d.span.Within d'.span) :
    d'.span = d.span := by
  obtain ⟨d'', hd'', hcover⟩ := h.covered d' hd'
  have hordered := d.ordered
  obtain ⟨h₁, h₂⟩ := hwithin
  obtain ⟨h₃, h₄⟩ := hcover
  obtain rfl := h.staircase.eq_of_within hd hd''
    ⟨h₃.trans h₁, h₂.trans h₄⟩
  cases hs : d.span
  cases hs' : d'.span
  simp only [hs, hs'] at h₁ h₂ h₃ h₄
  congr 1 <;> omega

/-! ## Changes of a directory -/

theorem get?_removeAll (names : List Bytes) (dir : Dir F) (name : Bytes) :
    (removeAll dir names).get? name =
      if name ∈ names then none else dir.get? name := by
  induction names generalizing dir with
  | nil => simp [removeAll]
  | cons removed names ih =>
      change (removeAll (dir.erase removed) names).get? name = _
      rw [ih, get?_erase]
      by_cases hmem : name ∈ names
      · rw [if_pos hmem, if_pos (List.mem_cons_of_mem _ hmem)]
      · rw [if_neg hmem]
        by_cases heq : removed = name
        · subst heq
          rw [if_pos rfl, if_pos List.mem_cons_self]
        · rw [if_neg heq, if_neg]
          intro h
          rcases List.mem_cons.mp h with h | h
          · exact heq h.symm
          · exact hmem h

theorem Files.removeAll {dir : Dir F} {all : List (Segment EntryOk)}
    (h : Files dir all) (names : List Bytes) :
    Files (removeAll dir names) (all.filter fun d => d.name ∉ names) where
  stored := by
    intro d hd
    obtain ⟨hd, hnot⟩ := List.mem_filter.mp hd
    obtain ⟨file, hfile, hstores⟩ := h.stored d hd
    refine ⟨file, ?_, hstores⟩
    rw [get?_removeAll, if_neg (of_decide_eq_true hnot), hfile]
  only := by
    intro name hsst hsome
    rw [get?_removeAll] at hsome
    by_cases hmem : name ∈ names
    · simp [hmem] at hsome
    · rw [if_neg hmem] at hsome
      obtain ⟨d, hd, rfl⟩ := h.only name hsst hsome
      exact ⟨d, List.mem_filter.mpr ⟨hd, decide_eq_true hmem⟩, rfl⟩

/-- Removing files that no kept segment needs. -/
theorem Shows.removeAll {dir : Dir F} {all kept : List (Segment EntryOk)}
    (h : Shows dir all kept) {names : List Bytes}
    (hnames : ∀ d ∈ kept, d.name ∉ names) :
    Shows (removeAll dir names) (all.filter fun d => d.name ∉ names)
      kept where
  files := h.files.removeAll names
  subset := fun d hd =>
    List.mem_filter.mpr ⟨h.subset d hd, decide_eq_true (hnames d hd)⟩
  staircase := h.staircase
  covered := fun d hd => h.covered d (List.mem_filter.mp hd).1

/-- Files that are no `.sst` files do not matter. -/
theorem Files.congr {dir dir' : Dir F} {all : List (Segment EntryOk)}
    (h : Files dir all)
    (hsame : ∀ name, IsSst name → dir'.get? name = dir.get? name) :
    Files dir' all where
  stored := by
    intro d hd
    obtain ⟨file, hfile, hstores⟩ := h.stored d hd
    exact ⟨file, by rw [hsame _ d.isSst_name, hfile], hstores⟩
  only := by
    intro name hsst hsome
    rw [hsame name hsst] at hsome
    exact h.only name hsst hsome

/-! ## Reading a directory -/

/-- The span of a file with a span in its name. -/
def sstSpan (name : Bytes) : Option (Span × Bytes) :=
  if IsSst name then (parseSpan name).map fun span => (span, name)
  else none

def tmpsOf (listing : List Bytes) : List Bytes :=
  listing.filter fun name => ¬ IsSst name ∧ IsTmp name

theorem scanDir_eq (dirPath : Bytes) {listing : List Bytes}
    (hparse : ∀ name ∈ listing, IsSst name → (parseSpan name).isSome)
    (dir : Dir F) :
    scanDir dirPath listing dir =
      (.ok (listing.filterMap sstSpan), removeAll dir (tmpsOf listing)) := by
  induction listing generalizing dir with
  | nil => rfl
  | cons name listing ih =>
      obtain ⟨hname, hlisting⟩ := List.forall_mem_cons.mp hparse
      rw [scanDir]
      by_cases hsst : IsSst name
      · obtain ⟨span, hspan⟩ := Option.isSome_iff_exists.mp (hname hsst)
        rw [if_pos hsst, hspan]
        dsimp only
        rw [ih hlisting]
        simp [sstSpan, hsst, hspan, tmpsOf, Except.map]
      · rw [if_neg hsst]
        by_cases htmp : IsTmp name
        · rw [if_pos htmp, ih hlisting]
          simp [sstSpan, hsst, htmp, tmpsOf, removeAll]
        · rw [if_neg htmp, ih hlisting]
          simp [sstSpan, hsst, htmp, tmpsOf]

theorem openRemovals_eq (listing : List Bytes) :
    openRemovals listing =
      tmpsOf listing ++
        match nextSeqOf (sortSpans (listing.filterMap sstSpan)) with
        | .ok _ =>
          (((sortSpans (listing.filterMap sstSpan)).zipIdx.filter fun p =>
            superseded (sortSpans (listing.filterMap sstSpan)) p.2
              p.1.1).map fun p => p.1.2)
        | .error _ => [] := by
  rw [openRemovals]
  change (match nextSeqOf (sortSpans (listing.filterMap sstSpan)) with
    | .ok _ => _
    | .error _ => _) = _
  cases nextSeqOf (sortSpans (listing.filterMap sstSpan)) with
  | ok n => rfl
  | error e => exact (List.append_nil _).symm

/-- The order of `spans.sort()` is total. -/
instance : Std.Total fun (a b : Span × Bytes) => spanKey a ≤ spanKey b :=
  ⟨fun a b => le_total (spanKey a) (spanKey b)⟩

instance : IsTrans (Span × Bytes) fun a b => spanKey a ≤ spanKey b :=
  ⟨fun _ _ _ => le_trans⟩

theorem mem_sortSpans {p : Span × Bytes} {spans : List (Span × Bytes)} :
    p ∈ sortSpans spans ↔ p ∈ spans :=
  (List.perm_insertionSort _ spans).mem_iff

theorem spanKey_injective {p q : Span × Bytes}
    (h : spanKey p = spanKey q) : p = q := by
  obtain ⟨⟨a, b⟩, c⟩ := p
  obtain ⟨⟨a', b'⟩, c'⟩ := q
  simp only [spanKey, EmbeddingLike.apply_eq_iff_eq, Prod.mk.injEq] at h
  obtain ⟨rfl, rfl, rfl⟩ := h
  rfl

theorem nextSeqOf_eq_ok {spans : List (Span × Bytes)}
    (h : ∀ p ∈ spans, p.1.last < u64Max) :
    ∃ n, nextSeqOf spans = .ok n ∧ n ≤ u64Max ∧
      ∀ p ∈ spans, p.1.last < n := by
  have hany : (spans.any fun p => p.1.last = u64Max) = false := by
    rw [List.any_eq_false]
    intro p hp heq
    have hlt := h p hp
    rw [of_decide_eq_true heq] at hlt
    exact lt_irrefl _ hlt
  refine ⟨_, by rw [nextSeqOf, hany]; rfl, ?_⟩
  suffices hgen : ∀ init ≤ u64Max, init ≤ spans.foldl
      (fun n p => max n (p.1.last + 1)) init ∧
        spans.foldl (fun n p => max n (p.1.last + 1)) init ≤ u64Max ∧
          ∀ p ∈ spans, p.1.last <
            spans.foldl (fun n p => max n (p.1.last + 1)) init by
    exact (hgen 0 (Nat.zero_le _)).2
  clear hany
  induction spans with
  | nil => exact fun init hinit => ⟨le_rfl, hinit, by simp⟩
  | cons p spans ih =>
      intro init hinit
      obtain ⟨hp, hspans⟩ := List.forall_mem_cons.mp h
      obtain ⟨hle, hmax, hlt⟩ := ih hspans (max init (p.1.last + 1))
        (Nat.max_le.mpr ⟨hinit, hp⟩)
      rw [List.foldl_cons]
      refine ⟨by omega, hmax, ?_⟩
      intro q hq
      rcases List.mem_cons.mp hq with rfl | hq
      · omega
      · exact hlt q hq

end Lsmrs
