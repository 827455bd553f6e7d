import Lsmrs.Db.Lawful
import Lsmrs.Sstable.Compaction
import Lsmrs.Sstable.Files
import Lsmrs.Sstable.Reopening

/-!
# Tables while the compactor runs

The invariant that ties the list of tables, the files on disk and the
position of the compactor together, and that every step of `compact` keeps
it without changing what a reader sees.
-/

namespace Lsmrs

open ByteString OrderedMap

variable {F : Format} {EntryOk : Entry → Prop} {o : SpanOrder}

/-! ## The invariant -/

/-- What holds of the list's segments and of the files of `extra` segments
beside them while the compactor is at some point. -/
def Phase (o : SpanOrder) (dir : Dir F.toTableFormat)
    (segs extra : List (Segment EntryOk)) : Compactor F → Prop
  | .idle => extra = []
  | .begun run start count =>
    extra = [] ∧ 2 ≤ count ∧ start + count ≤ segs.length ∧
      List.Forall₂ Described run (segmentRun segs start count)
  | .merged start count span entries =>
    extra = [] ∧ entries ≠ [] ∧ MergedFrom segs start count entries ∧
      span = segmentSpan (segmentRun segs start count)
  | .created start count span table =>
    extra = [] ∧ ∃ out : Segment EntryOk, OutputOf segs start count out ∧
      span = out.span ∧ F.Holds table out.content ∧ Waiting dir out
  | .ready start count replacement =>
    ∃ segment : Option (Segment EntryOk), extra = segment.toList ∧
      ReplacementOf segs start count segment ∧
      List.Forall₂ Described replacement.toList segment.toList
  | .unlinking obsolete =>
    List.Forall₂ Described obsolete extra ∧ SpansInOrder o extra ∧
      ((∃ out ∈ segs, ∀ d ∈ extra,
          d.span.Within out.span ∧ d.span ≠ out.span) ∨
        (SpansInOrder o (extra ++ segs) ∧ ∀ k, shown extra k = none))

/-- The list of tables, the files and the compactor fit together.  An
`orphan` is a table a flush has published but not registered. -/
structure TablesInv (o : SpanOrder) (dir : Dir F.toTableFormat)
    (set : SSTableSet F.toTableFormat) (compactor : Compactor F)
    (segs extra : List (Segment EntryOk))
    (orphan : Option (Segment EntryOk)) : Prop where
  described : List.Forall₂ Described set.sstables segs
  order : SpansInOrder o segs
  below : ∀ d ∈ segs ++ extra, d.span.last < set.nextSeq
  orphan_span : ∀ o ∈ orphan, o.span = ⟨set.nextSeq, set.nextSeq⟩
  files : Files dir (segs ++ (extra ++ orphan.toList))
  phase : Phase o dir segs extra compactor

namespace TablesInv

variable {dir : Dir F.toTableFormat} {set : SSTableSet F.toTableFormat}
  {compactor : Compactor F} {segs extra : List (Segment EntryOk)}
  {orphan : Option (Segment EntryOk)}

theorem order_orphan (h : TablesInv o dir set compactor segs extra orphan)
    {old : List (Segment EntryOk)} (horder : SpansInOrder o old)
    (hold : ∀ d ∈ old, d.span.last < set.nextSeq) :
    SpansInOrder o (old ++ orphan.toList) := by
  refine List.pairwise_append.mpr ⟨horder, ?_, ?_⟩
  · cases orphan <;> simp
  · intro d hd new hnew
    rw [h.orphan_span new (Option.mem_toList.mp hnew)]
    exact o.before_next d.ordered (hold d hd)

theorem orphan_name_ne (h : TablesInv o dir set compactor segs extra orphan)
    {d new : Segment EntryOk} (hd : d.span.last < set.nextSeq)
    (hnew : new ∈ orphan) : new.name ≠ d.name := by
  intro heq
  have hspan := Segment.name_injective heq
  rw [h.orphan_span new hnew] at hspan
  have hlast := congrArg Span.last hspan
  dsimp only at hlast
  omega

/-- No file beside the list has a name in it. -/
theorem span_ne_extra (h : TablesInv o dir set compactor segs extra orphan)
    {d d' : Segment EntryOk} (hd : d ∈ extra) (hd' : d' ∈ segs) :
    d'.span ≠ d.span := by
  have hphase := h.phase
  have hnone : extra = [] → d'.span ≠ d.span := by
    rintro rfl
    cases hd
  cases compactor with
  | idle => exact hnone hphase
  | begun run start count => exact hnone hphase.1
  | merged start count span entries => exact hnone hphase.1
  | created start count span table => exact hnone hphase.1
  | ready start count replacement =>
      obtain ⟨segment, rfl, hreplacement, -⟩ := hphase
      cases segment with
      | none => cases hd
      | some out =>
          rw [List.mem_singleton.mp hd]
          exact OutputOf.span_ne h.order hreplacement hd'
  | unlinking obsolete =>
      intro heq
      obtain ⟨-, -, ⟨out, hout, hwithin⟩ | ⟨hall, -⟩⟩ := hphase
      · obtain ⟨hin, hne⟩ := hwithin d hd
        rw [← heq] at hin hne
        obtain rfl := h.order.staircase.eq_of_within hd' hout hin
        exact hne rfl
      · have hlt := (List.pairwise_append.mp hall.staircase).2.2 d hd d' hd'
        rw [heq] at hlt
        exact lt_irrefl _ hlt.1

theorem name_ne_extra (h : TablesInv o dir set compactor segs extra orphan)
    {d d' : Segment EntryOk} (hd : d ∈ extra)
    (hd' : d' ∈ segs ++ orphan.toList) : d'.name ≠ d.name := by
  rcases List.mem_append.mp hd' with hd' | hd'
  · exact fun hname =>
      h.span_ne_extra hd hd' (Segment.name_injective hname)
  · exact h.orphan_name_ne (h.below d (List.mem_append_right _ hd))
      (Option.mem_toList.mp hd')

theorem mem_within {kept : List (Segment EntryOk)} {d : Segment EntryOk}
    (hd : d ∈ kept) : ∃ d' ∈ kept, d.span.Within d'.span :=
  ⟨d, hd, le_rfl, le_rfl⟩

theorem order_list (h : TablesInv o dir set compactor segs extra orphan) :
    SpansInOrder o (segs ++ orphan.toList) :=
  h.order_orphan h.order fun d hd => h.below d (List.mem_append_left _ hd)

/-- What a directory must show to look like the list of tables, with the
orphan on top. -/
def ShowsList (o : SpanOrder) (dir : Dir F.toTableFormat)
    (segs extra : List (Segment EntryOk))
    (orphan : Option (Segment EntryOk)) : Prop :=
  ∃ kept, Shows dir (segs ++ (extra ++ orphan.toList)) kept ∧
    SpansInOrder o kept ∧
    ∀ k, shown kept k = shown (segs ++ orphan.toList) k

/-- Only the list and the orphan are on disk. -/
theorem shows_listed (h : TablesInv o dir set compactor segs extra orphan)
    (hextra : extra = []) : ShowsList o dir segs extra orphan := by
  subst hextra
  exact ⟨segs ++ orphan.toList, ⟨h.files, fun d hd => hd,
    h.order_list.staircase, fun d hd => mem_within hd⟩, h.order_list,
    fun _ => rfl⟩

/-- The output of a merge hides the run it was merged from. -/
theorem shows_replaced {start count : ℕ} {out : Segment EntryOk}
    (h : TablesInv o dir set compactor segs [out] orphan)
    (hreplacement : ReplacementOf segs start count (some out)) :
    ShowsList o dir segs [out] orphan := by
  have hmem : ∀ d ∈ segmentSplice segs start count (some out),
      d ∈ segs ++ [out] := by
    intro d hd
    exact List.mem_append.mpr (mem_splice_or_run.mp (Or.inl hd))
  have horder := h.order_orphan (spansInOrder_splice hreplacement h.order)
    fun d hd => h.below d (hmem d hd)
  refine ⟨segmentSplice segs start count (some out) ++ orphan.toList,
    ⟨h.files, ?_, horder.staircase, ?_⟩, horder, ?_⟩
  · intro d hd
    rw [← List.append_assoc]
    rcases List.mem_append.mp hd with hd | hd
    · exact List.mem_append_left _ (hmem d hd)
    · exact List.mem_append_right _ hd
  · intro d hd
    have hout : out ∈ segmentSplice segs start count (some out) ++
        orphan.toList := by
      simp [segmentSplice]
    rw [← List.append_assoc] at hd
    rcases List.mem_append.mp hd with hd | hd
    · have hcases : d ∈ segmentSplice segs start count (some out) ∨
          d ∈ segmentRun segs start count :=
        mem_splice_or_run.mpr (List.mem_append.mp hd)
      rcases hcases with hd | hd
      · exact mem_within (List.mem_append_left _ hd)
      · refine ⟨out, hout, ?_⟩
        rw [hreplacement.span]
        exact (within_segmentSpan h.order hreplacement.merged.count_ge
          hreplacement.merged.in_range d hd).1
    · exact mem_within (List.mem_append_right _ hd)
  · intro k
    exact shown_splice hreplacement orphan.toList k

/-- The replaced tables lie within their output, which is in the list. -/
theorem shows_covered (h : TablesInv o dir set compactor segs extra orphan)
    {out : Segment EntryOk} (hout : out ∈ segs)
    (hwithin : ∀ d ∈ extra, d.span.Within out.span) :
    ShowsList o dir segs extra orphan := by
  refine ⟨segs ++ orphan.toList,
    ⟨h.files, ?_, h.order_list.staircase, ?_⟩, h.order_list, fun _ => rfl⟩
  · intro d hd
    simp only [List.mem_append] at hd ⊢
    tauto
  · intro d hd
    simp only [List.mem_append] at hd
    rcases hd with hd | hd | hd
    · exact mem_within (List.mem_append_left _ hd)
    · exact ⟨out, List.mem_append_left _ hout, hwithin d hd⟩
    · exact mem_within (List.mem_append_right _ hd)

/-- The inputs of a merge to nothing are still there, below the rest. -/
theorem shows_beneath (h : TablesInv o dir set compactor segs extra orphan)
    (horder : SpansInOrder o (extra ++ segs)) (hnone : ∀ k, shown extra k = none) :
    ShowsList o dir segs extra orphan := by
  have hall : SpansInOrder o (extra ++ segs ++ orphan.toList) := by
    apply h.order_orphan horder
    intro d hd
    apply h.below d
    simp only [List.mem_append] at hd ⊢
    tauto
  refine ⟨extra ++ segs ++ orphan.toList,
    ⟨h.files, ?_, hall.staircase, ?_⟩, hall, ?_⟩
  · intro d hd
    simp only [List.mem_append] at hd ⊢
    tauto
  · intro d hd
    apply mem_within
    simp only [List.mem_append] at hd ⊢
    tauto
  · intro k
    have hk := hnone k
    rw [shown, tells] at hk
    rw [List.append_assoc, shown, tells, List.map_append,
      Layers.visible_append_of_none hk]
    rfl

/-- The directory shows segments that look like the list of tables, with the
orphan on top. -/
theorem shows (h : TablesInv o dir set compactor segs extra orphan) :
    ∃ kept, Shows dir (segs ++ (extra ++ orphan.toList)) kept ∧
      SpansInOrder o kept ∧
        ∀ k, shown kept k = shown (segs ++ orphan.toList) k := by
  have hphase := h.phase
  cases compactor with
  | idle => exact h.shows_listed hphase
  | begun run start count => exact h.shows_listed hphase.1
  | merged start count span entries => exact h.shows_listed hphase.1
  | created start count span table => exact h.shows_listed hphase.1
  | ready start count replacement =>
      obtain ⟨segment, rfl, hreplacement, -⟩ := hphase
      cases segment with
      | none => exact h.shows_listed rfl
      | some out => exact h.shows_replaced hreplacement
  | unlinking obsolete =>
      obtain ⟨-, -, ⟨out, hout, hwithin⟩ | ⟨horder, hnone⟩⟩ := hphase
      · exact h.shows_covered hout fun d hd => (hwithin d hd).1
      · exact h.shows_beneath horder hnone

end TablesInv

end Lsmrs
