import Lsmrs.Sstable.Segments

/-!
# Replacing a run of tables

What `compact` does to the segments of a list: a run of them gives way to
one segment over the whole span of the run, or to none.
-/

namespace Lsmrs

open ByteString OrderedMap Layers

variable {F : TableFormat} {EntryOk : Entry → Prop}

/-- The segments of a run. -/
def segmentRun (segs : List (Segment EntryOk)) (start count : ℕ) :
    List (Segment EntryOk) :=
  (segs.drop start).take count

/-- The segments once a run is replaced. -/
def segmentSplice (segs : List (Segment EntryOk)) (start count : ℕ)
    (replacement : Option (Segment EntryOk)) : List (Segment EntryOk) :=
  segs.take start ++ (replacement.toList ++ segs.drop (start + count))

/-- The span from the first segment of a run to the last one. -/
def segmentSpan (run : List (Segment EntryOk)) : Span :=
  ⟨(run.head?.map fun d => d.span.first).getD 0,
    (run.getLast?.map fun d => d.span.last).getD 0⟩

/-- The entries are the merge of a run that is in the list. -/
structure MergedFrom (segs : List (Segment EntryOk)) (start count : ℕ)
    (entries : List Entry) : Prop where
  count_ge : 2 ≤ count
  in_range : start + count ≤ segs.length
  merge : MergeOf (start == 0)
    ((segmentRun segs start count).map Segment.content) entries

/-- A segment that can take the place of a run. -/
structure OutputOf (segs : List (Segment EntryOk)) (start count : ℕ)
    (out : Segment EntryOk) : Prop where
  merged : MergedFrom segs start count out.content
  span : out.span = segmentSpan (segmentRun segs start count)

section Run

variable {o : SpanOrder} {segs : List (Segment EntryOk)} {start count : ℕ}

theorem segments_split (segs : List (Segment EntryOk)) (start count : ℕ) :
    segs.take start ++ (segmentRun segs start count ++
      segs.drop (start + count)) = segs := by
  have hdrop : segs.drop (start + count) = (segs.drop start).drop count := by
    rw [List.drop_drop]
  rw [segmentRun, hdrop, List.take_append_drop, List.take_append_drop]

/-- Replacing a run moves segments, and brings in the replacement. -/
theorem mem_splice_or_run {replacement : Option (Segment EntryOk)}
    {d : Segment EntryOk} :
    d ∈ segmentSplice segs start count replacement ∨
        d ∈ segmentRun segs start count ↔
      d ∈ segs ∨ d ∈ replacement.toList := by
  have hsplit : d ∈ segs ↔ d ∈ segs.take start ∨
      d ∈ segmentRun segs start count ∨ d ∈ segs.drop (start + count) := by
    conv_lhs => rw [← segments_split segs start count]
    simp only [List.mem_append]
  rw [hsplit, segmentSplice]
  simp only [List.mem_append]
  tauto

theorem mem_of_mem_run {d : Segment EntryOk}
    (hd : d ∈ segmentRun segs start count) : d ∈ segs :=
  List.mem_of_mem_drop (List.mem_of_mem_take hd)

theorem segmentRun_length (hrange : start + count ≤ segs.length) :
    (segmentRun segs start count).length = count := by
  rw [segmentRun, List.length_take, List.length_drop]
  omega

/-- A run stays what it is when segments are pushed behind it. -/
theorem segmentRun_append (hrange : start + count ≤ segs.length)
    (new : List (Segment EntryOk)) :
    segmentRun (segs ++ new) start count = segmentRun segs start count := by
  rw [segmentRun, segmentRun, List.drop_append_of_le_length (by omega),
    List.take_append_of_le_length (by rw [List.length_drop]; omega)]

theorem MergedFrom.append {entries : List Entry}
    (h : MergedFrom segs start count entries)
    (new : List (Segment EntryOk)) :
    MergedFrom (segs ++ new) start count entries where
  count_ge := h.count_ge
  in_range := by
    rw [List.length_append]
    exact h.in_range.trans (Nat.le_add_right _ _)
  merge := by
    rw [segmentRun_append h.in_range]
    exact h.merge

theorem OutputOf.append {out : Segment EntryOk}
    (h : OutputOf segs start count out) (new : List (Segment EntryOk)) :
    OutputOf (segs ++ new) start count out where
  merged := h.merged.append new
  span := by
    rw [segmentRun_append h.merged.in_range]
    exact h.span

/-! ## The merge of a run -/

theorem records_described {tables : List (Listed F)}
    {run : List (Segment EntryOk)}
    (h : List.Forall₂ Described tables run) :
    tables.map (fun t => F.records t.table) =
      (run.map Segment.content).map streamOf := by
  induction h with
  | nil => rfl
  | cons hd _ ih => simp [hd.holds.records, ih]

theorem mergeRun_eq {tables : List (Listed F)}
    {run : List (Segment EntryOk)}
    (h : List.Forall₂ Described tables run) (start : ℕ) :
    ∃ entries, mergeRun tables start = .ok entries ∧
      MergeOf (start == 0) (run.map Segment.content) entries := by
  rw [mergeRun, records_described h]
  apply merge_streamOf
  intro entries hentries
  obtain ⟨d, -, rfl⟩ := List.mem_map.mp hentries
  exact d.ascending

theorem runSpan_described {tables : List (Listed F)}
    {run : List (Segment EntryOk)}
    (h : List.Forall₂ Described tables run) :
    runSpan tables = segmentSpan run := by
  have hmap : tables.map Listed.span = run.map Segment.span := by
    induction h with
    | nil => rfl
    | cons hd _ ih => simp [hd.span, ih]
  have hhead := congrArg List.head? hmap
  have hlast := congrArg List.getLast? hmap
  simp only [List.head?_map, List.getLast?_map] at hhead hlast
  have hfirst := congrArg (Option.map Span.first) hhead
  have hlast' := congrArg (Option.map Span.last) hlast
  simp only [Option.map_map] at hfirst hlast'
  rw [runSpan, segmentSpan]
  congr 1
  · exact congrArg (fun o => Option.getD o 0) hfirst
  · exact congrArg (fun o => Option.getD o 0) hlast'

/-- Every merged entry comes from one of the inputs. -/
theorem mem_of_mergeOf {dropTombstones : Bool} {lists : List (List Entry)}
    {out : List Entry} (h : MergeOf dropTombstones lists out) {e : Entry}
    (he : e ∈ out) : ∃ entries ∈ lists, e ∈ entries := by
  have hfind : find out e.1 = some e.2 := h.ascending.find_eq_some_iff.mpr he
  rw [h.find_eq] at hfind
  have hmerged : merged lists e.1 = some e.2 := by
    cases hm : merged lists e.1 with
    | none => rw [hm] at hfind; cases hfind
    | some value =>
        rw [hm] at hfind
        cases value with
        | some v => exact hfind
        | none =>
            cases dropTombstones with
            | false => exact hfind
            | true => cases hfind
  clear hfind h he
  induction lists with
  | nil => cases hmerged
  | cons entries lists ih =>
      rw [merged, List.map_cons, stack_cons, Option.or_eq_some_iff] at hmerged
      rcases hmerged with hmerged | ⟨-, hfind⟩
      · obtain ⟨entries', hentries', he⟩ := ih hmerged
        exact ⟨entries', List.mem_cons_of_mem _ hentries', he⟩
      · exact ⟨entries, List.mem_cons_self, mem_of_find hfind⟩

theorem tells_eq_merged (run : List (Segment EntryOk)) :
    tells run = merged (run.map Segment.content) := by
  rw [tells, merged, List.map_map]
  rfl

/-! ## Spans -/

/-- The ends of a run of at least one segment. -/
theorem segmentRun_ends (hcount : 2 ≤ count)
    (hrange : start + count ≤ segs.length) :
    ∃ first mid last,
      segmentRun segs start count = first :: (mid ++ [last]) := by
  have hlen := segmentRun_length hrange
  match hrun : segmentRun segs start count with
  | [] => simp [hrun] at hlen; omega
  | first :: rest =>
      have hne : rest ≠ [] := by
        rintro rfl
        simp [hrun] at hlen
        omega
      exact ⟨first, rest.dropLast, rest.getLast hne,
        by rw [List.dropLast_append_getLast]⟩

theorem segmentSpan_ends {first last : Segment EntryOk}
    {mid : List (Segment EntryOk)} :
    segmentSpan (first :: (mid ++ [last])) =
      ⟨first.span.first, last.span.last⟩ := by
  rw [segmentSpan, ← List.cons_append, List.getLast?_concat]
  rfl

/-- The span of a run ends with one of its segments. -/
theorem segmentSpan_last_lt {next : ℕ}
    (hbelow : ∀ d ∈ segs, d.span.last < next) (hcount : 2 ≤ count)
    (hrange : start + count ≤ segs.length) :
    (segmentSpan (segmentRun segs start count)).last < next := by
  obtain ⟨first, mid, last, hrun⟩ := segmentRun_ends hcount hrange
  have hlast : last ∈ segmentRun segs start count := by simp [hrun]
  rw [hrun, segmentSpan_ends]
  exact hbelow last (mem_of_mem_run hlast)

theorem spansInOrder_run (horder : SpansInOrder o segs) (start count : ℕ) :
    SpansInOrder o (segmentRun segs start count) :=
  (List.Pairwise.drop horder).take

/-- The span of a run contains every segment of it, and is none of them. -/
theorem within_segmentSpan (horder : SpansInOrder o segs) (hcount : 2 ≤ count)
    (hrange : start + count ≤ segs.length) :
    ∀ d ∈ segmentRun segs start count,
      d.span.Within (segmentSpan (segmentRun segs start count)) ∧
        d.span ≠ segmentSpan (segmentRun segs start count) := by
  have hrun : Staircase (segmentRun segs start count) :=
    (spansInOrder_run horder start count).staircase
  obtain ⟨first, mid, last, heq⟩ := segmentRun_ends hcount hrange
  rw [heq] at hrun ⊢
  rw [segmentSpan_ends]
  obtain ⟨hfirst, hrest⟩ := List.pairwise_cons.mp hrun
  have hends := hfirst last (by simp)
  intro d hd
  rcases List.mem_cons.mp hd with rfl | hd
  · refine ⟨⟨le_rfl, hends.2.le⟩, ?_⟩
    intro h
    have hlast := congrArg Span.last h
    exact hends.2.ne hlast
  · have hafter := hfirst d hd
    have hle : d.span.last ≤ last.span.last := by
      rcases List.mem_append.mp hd with hd | hd
      · exact ((List.pairwise_append.mp hrest).2.2 d hd last
          List.mem_cons_self).2.le
      · rw [List.mem_singleton.mp hd]
    refine ⟨⟨hafter.1.le, hle⟩, ?_⟩
    intro h
    have hstart := congrArg Span.first h
    exact hafter.1.ne' hstart

/-- A merge that is not empty makes a segment. -/
theorem MergedFrom.exists_output {entries : List Entry}
    (h : MergedFrom segs start count entries) (horder : SpansInOrder o segs)
    (hne : entries ≠ []) :
    ∃ out, out.content = entries ∧ OutputOf segs start count out := by
  obtain ⟨first, mid, last, heq⟩ := segmentRun_ends h.count_ge h.in_range
  have hrun : Staircase (segmentRun segs start count) :=
    (spansInOrder_run horder start count).staircase
  rw [heq] at hrun
  have hends := (List.pairwise_cons.mp hrun).1 last (by simp)
  have hordered := first.ordered
  have hspan : segmentSpan (segmentRun segs start count) =
      ⟨first.span.first, last.span.last⟩ := by
    rw [heq, segmentSpan_ends]
  refine ⟨{
    span := ⟨first.span.first, last.span.last⟩
    content := entries
    ordered := hordered.trans hends.2.le
    bounded := last.bounded
    nonempty := hne
    ascending := h.merge.ascending
    fits := ?_ }, rfl, h, hspan.symm⟩
  intro e he
  obtain ⟨content, hcontent, he⟩ := mem_of_mergeOf h.merge he
  obtain ⟨d, -, rfl⟩ := List.mem_map.mp hcontent
  exact d.fits e he

/-! ## The list afterwards -/

/-- The replacement says what the merge of the run says. -/
def ReplacementOf (segs : List (Segment EntryOk)) (start count : ℕ)
    (replacement : Option (Segment EntryOk)) : Prop :=
  match replacement with
  | some out => OutputOf segs start count out
  | none => MergedFrom segs start count []

theorem ReplacementOf.mergedFrom {replacement : Option (Segment EntryOk)}
    (h : ReplacementOf segs start count replacement) :
    ∃ entries, MergedFrom segs start count entries ∧
      tells replacement.toList = find entries := by
  cases replacement with
  | none => exact ⟨[], h, rfl⟩
  | some out =>
      refine ⟨out.content, h.merged, ?_⟩
      funext k
      exact stack_singleton _ k

theorem ReplacementOf.append {replacement : Option (Segment EntryOk)}
    (h : ReplacementOf segs start count replacement)
    (new : List (Segment EntryOk)) :
    ReplacementOf (segs ++ new) start count replacement := by
  cases replacement with
  | none => exact MergedFrom.append h new
  | some out => exact OutputOf.append h new

/-- Replacing a run does not change what a reader sees. -/
theorem shown_splice {replacement : Option (Segment EntryOk)}
    (h : ReplacementOf segs start count replacement)
    (new : List (Segment EntryOk)) (k : Bytes) :
    shown (segmentSplice segs start count replacement ++ new) k =
      shown (segs ++ new) k := by
  obtain ⟨entries, hmerged, htells⟩ := h.mergedFrom
  have hlayer : ∀ k, tells replacement.toList k =
      kept (start == 0) (tells (segmentRun segs start count) k) := by
    intro k
    rw [htells, hmerged.merge.find_eq, tells_eq_merged]
  have hreplaces : Replaces ((segs.take start).map Segment.layer)
      ((segmentRun segs start count).map Segment.layer)
      (replacement.toList.map Segment.layer) := by
    by_cases hstart : start = 0
    · right
      refine ⟨by rw [hstart]; rfl, ?_⟩
      intro k
      have hk := hlayer k
      rw [tells] at hk
      rw [visible, hk, join_kept]
      rfl
    · left
      intro k
      have hk := hlayer k
      rw [beq_eq_false_iff_ne.mpr hstart, kept_false] at hk
      exact hk
  have heq := hreplaces.visible_eq
    ((segs.drop (start + count) ++ new).map Segment.layer) k
  have hleft : segmentSplice segs start count replacement ++ new =
      segs.take start ++ (replacement.toList ++
        (segs.drop (start + count) ++ new)) := by
    simp [segmentSplice]
  have hright : segs ++ new = segs.take start ++
      (segmentRun segs start count ++
        (segs.drop (start + count) ++ new)) := by
    conv_lhs => rw [← segments_split segs start count]
    simp
  rw [hleft, hright, shown, tells, shown, tells]
  simpa only [List.map_append] using heq

theorem spansInOrder_splice {replacement : Option (Segment EntryOk)}
    (h : ReplacementOf segs start count replacement)
    (horder : SpansInOrder o segs) :
    SpansInOrder o (segmentSplice segs start count replacement) := by
  have hsplit := segments_split segs start count
  have hwhole : SpansInOrder o (segs.take start ++
      (segmentRun segs start count ++ segs.drop (start + count))) := by
    rwa [hsplit]
  obtain ⟨hpre, hrest, hcross⟩ := List.pairwise_append.mp hwhole
  obtain ⟨-, hpost, hcross'⟩ := List.pairwise_append.mp hrest
  cases replacement with
  | none =>
      refine List.pairwise_append.mpr ⟨hpre, hpost, ?_⟩
      intro a ha b hb
      exact hcross a ha b (List.mem_append_right _ hb)
  | some out =>
      obtain ⟨first, mid, last, heq⟩ :=
        segmentRun_ends h.merged.count_ge h.merged.in_range
      have hspan := h.span
      rw [heq, segmentSpan_ends] at hspan
      have hfirst : first ∈ segmentRun segs start count := by simp [heq]
      have hlast : last ∈ segmentRun segs start count := by simp [heq]
      refine List.pairwise_append.mpr ⟨hpre,
        List.pairwise_cons.mpr ⟨?_, hpost⟩, ?_⟩
      · intro b hb
        rw [hspan]
        exact o.joined_before (hcross' first hfirst b hb)
          (hcross' last hlast b hb)
      · intro a ha b hb
        rcases List.mem_cons.mp hb with rfl | hb
        · rw [hspan]
          exact o.before_joined
            (hcross a ha first (List.mem_append_left _ hfirst))
            (hcross a ha last (List.mem_append_left _ hlast))
        · exact hcross a ha b (List.mem_append_right _ hb)

/-- A run that merged to nothing shows nothing. -/
theorem shown_run_of_empty (h : MergedFrom segs start count []) (k : Bytes) :
    shown (segmentRun segs start count) k = none := by
  have hk := h.merge.find_eq k
  rw [← tells_eq_merged] at hk
  have hjoin := congrArg Option.join hk
  rw [join_kept] at hjoin
  exact hjoin.symm

/-- The tables of the list follow its segments through a splice. -/
theorem described_splice {tables : List (Listed F)}
    (h : List.Forall₂ Described tables segs)
    {replacement : Option (Listed F)}
    (segment : Option (Segment EntryOk))
    (hreplacement : List.Forall₂ Described replacement.toList
      segment.toList) :
    List.Forall₂ Described (spliced tables start count replacement)
      (segmentSplice segs start count segment) :=
  List.rel_append (List.forall₂_take start h)
    (List.rel_append hreplacement (List.forall₂_drop (start + count) h))

theorem described_run {tables : List (Listed F)}
    (h : List.Forall₂ Described tables segs) :
    List.Forall₂ Described (runOf tables start count)
      (segmentRun segs start count) :=
  List.forall₂_take count (List.forall₂_drop start h)

/-- No segment of the list has the span of an output over several of
them. -/
theorem OutputOf.span_ne {out d : Segment EntryOk}
    (horder : SpansInOrder o segs) (hout : OutputOf segs start count out)
    (hd : d ∈ segs) : d.span ≠ out.span := by
  intro heq
  obtain ⟨first, mid, last, hrun⟩ :=
    segmentRun_ends hout.merged.count_ge hout.merged.in_range
  have hmem : first ∈ segmentRun segs start count := by simp [hrun]
  have hwithin := within_segmentSpan horder hout.merged.count_ge
    hout.merged.in_range first hmem
  rw [← hout.span, ← heq] at hwithin
  obtain rfl :=
    horder.staircase.eq_of_within (mem_of_mem_run hmem) hd hwithin.1
  exact hwithin.2 rfl

/-- A merge to nothing took in the oldest table. -/
theorem start_eq_zero_of_empty (h : MergedFrom segs start count []) :
    start = 0 := by
  by_contra hstart
  obtain ⟨first, mid, last, hrun⟩ := segmentRun_ends h.count_ge h.in_range
  obtain ⟨e, rest, he⟩ := List.exists_cons_of_ne_nil first.nonempty
  have hfind := h.merge.find_eq e.1
  rw [beq_eq_false_iff_ne.mpr hstart, Layers.kept_false] at hfind
  have hnone := (Layers.stack_eq_none_iff.mp hfind.symm) (find first.content)
    (by simp [hrun])
  exact find_eq_none_iff.mp hnone e (by simp [he]) rfl

end Run

end Lsmrs
