import Lsmrs.Sstable.Segments

/-!
# Files that come and go

What the directory changes of `write` and `compact` do to the segments on
disk: a temporary file is written, renamed over the file of a segment, and
files are removed.
-/

namespace Lsmrs

open ByteString OrderedMap

variable {F : TableFormat} {EntryOk : Entry → Prop}
  {dir : Dir F} {all : List (Segment EntryOk)}

theorem Files.of_mem_iff (h : Files dir all)
    {all' : List (Segment EntryOk)} (hiff : ∀ d, d ∈ all' ↔ d ∈ all) :
    Files dir all' where
  stored := fun d hd => h.stored d ((hiff d).mp hd)
  only := by
    intro name hsst hsome
    obtain ⟨d, hd, hname⟩ := h.only name hsst hsome
    exact ⟨d, (hiff d).mpr hd, hname⟩

/-- A synced temporary file is waiting for its rename. -/
def Waiting (dir : Dir F) (d : Segment EntryOk) : Prop :=
  ∃ file, dir.get? (tmpName d.span) = some file ∧ F.Stores file d.content

theorem not_isSst_tmpName (span : Span) : ¬ IsSst (tmpName span) := by
  rw [IsSst, extension_tmpName]
  decide

theorem get?_createTmp_of_isSst (dir : Dir F) (span : Span)
    (file : F.File) {name : Bytes} (hsst : IsSst name) :
    (createTmp dir span file).get? name = dir.get? name := by
  rw [createTmp, get?_insert, if_neg]
  rintro rfl
  exact not_isSst_tmpName span hsst

theorem Files.createTmp (h : Files dir all) (span : Span) (file : F.File) :
    Files (createTmp dir span file) all :=
  h.congr fun _ hsst => get?_createTmp_of_isSst dir span file hsst

theorem publish_eq {span : Span} {file : F.File}
    (h : dir.get? (tmpName span) = some file) :
    publish dir span =
      (dir.erase (tmpName span)).insert (tableName span) file := by
  rw [publish, h]

theorem get?_publish_other {span : Span} {name : Bytes}
    (htable : tableName span ≠ name) (htmp : tmpName span ≠ name) :
    (publish dir span).get? name = dir.get? name := by
  rw [publish]
  cases dir.get? (tmpName span) with
  | none => rfl
  | some file =>
      dsimp only
      rw [get?_insert, if_neg htable, get?_erase, if_neg htmp]

/-- The rename puts the segment in place of one of the same name. -/
theorem Files.publish (h : Files dir all) {d : Segment EntryOk}
    (hwaiting : Waiting dir d) :
    Files (publish dir d.span)
      (d :: all.filter fun d' => d'.name ≠ d.name) := by
  obtain ⟨file, hfile, hstores⟩ := hwaiting
  have hother : ∀ name, IsSst name → name ≠ d.name →
      (Lsmrs.publish dir d.span).get? name = dir.get? name := by
    intro name hsst hne
    apply get?_publish_other (Ne.symm hne)
    rintro rfl
    exact not_isSst_tmpName d.span hsst
  refine ⟨?_, ?_⟩
  · intro d' hd'
    rcases List.mem_cons.mp hd' with rfl | hd'
    · have hname : tableName d'.span = d'.name := rfl
      refine ⟨file, ?_, hstores⟩
      rw [publish_eq hfile, get?_insert, if_pos hname]
    · obtain ⟨hd', hne⟩ := List.mem_filter.mp hd'
      obtain ⟨file', hfile', hstores'⟩ := h.stored d' hd'
      exact ⟨file', by rw [hother _ d'.isSst_name (of_decide_eq_true hne),
        hfile'], hstores'⟩
  · intro name hsst hsome
    by_cases heq : name = d.name
    · exact ⟨d, List.mem_cons_self, heq⟩
    · rw [hother name hsst heq] at hsome
      obtain ⟨d', hd', rfl⟩ := h.only name hsst hsome
      exact ⟨d', List.mem_cons_of_mem _
        (List.mem_filter.mpr ⟨hd', decide_eq_true heq⟩), rfl⟩

theorem Files.erase {d : Segment EntryOk} (h : Files dir (d :: all))
    (hne : ∀ d' ∈ all, d'.name ≠ d.name) :
    Files (dir.erase d.name) all := by
  refine ⟨?_, ?_⟩
  · intro d' hd'
    obtain ⟨file, hfile, hstores⟩ :=
      h.stored d' (List.mem_cons_of_mem _ hd')
    refine ⟨file, ?_, hstores⟩
    rw [get?_erase, if_neg (Ne.symm (hne d' hd')), hfile]
  · intro name hsst hsome
    rw [get?_erase] at hsome
    split_ifs at hsome with heq
    · cases hsome
    · obtain ⟨d', hd', rfl⟩ := h.only name hsst hsome
      rcases List.mem_cons.mp hd' with rfl | hd'
      · exact absurd rfl heq
      · exact ⟨d', hd', rfl⟩

end Lsmrs
