import Lsmrs.Sstable.FailedCompaction

/-!
# Values that a compaction uncovers

A compaction of the oldest tables drops deletions.  It may then uncover a
value in a file outside the list, or one in an input that it fails to
remove.
-/

namespace Lsmrs

open ByteString OrderedMap Layers

variable {F : TableFormat} {EntryOk : Entry → Prop}
  {hist : List (Layer Bytes Bytes)} {oldest : ℕ} {s : Store F}
  {segs all all' : List (Segment EntryOk)} {start count : ℕ} {k : Bytes}
  {out d : Segment EntryOk}

/-! ## Files in the span of a run -/

section Agree

variable {w : Span} {g : Segment EntryOk}

/-- The same files, but for those in the span. -/
def AgreeOutside (w : Span) (all all' : List (Segment EntryOk)) : Prop :=
  ∀ d, ¬ d.span.Within w → (d ∈ all ↔ d ∈ all')

theorem AgreeOutside.symm (h : AgreeOutside w all all') :
    AgreeOutside w all' all :=
  fun d hout => (h d hout).symm

theorem AgreeOutside.trans {all'' : List (Segment EntryOk)}
    (h : AgreeOutside w all all') (h' : AgreeOutside w all' all'') :
    AgreeOutside w all all'' :=
  fun d hout => (h d hout).trans (h' d hout)

theorem Mentions.of_agree (hd : Mentions (· ∈ all) k d)
    (h : AgreeOutside w all all') (hout : ¬ d.span.Within w) :
    Mentions (· ∈ all') k d := by
  refine ⟨(h d hout).mp hd.mem, ?_, hd.found⟩
  intro d' hd' hwithin
  refine hd.maximal d' ((h d' fun hin => hout ?_).mpr hd') hwithin
  exact ⟨hin.1.trans hwithin.1, hwithin.2.trans hin.2⟩

theorem AgreeOutside.hidden (h : AgreeOutside w all all')
    (hout : ∀ d, Mentions (· ∈ all) k d ∨ Mentions (· ∈ all') k d →
      ¬ d.span.Within w) :
    Hidden (· ∈ all) k ↔ Hidden (· ∈ all') k :=
  Hidden.congr fun d =>
    ⟨fun hd => hd.of_agree h (hout d (Or.inl hd)),
      fun hd => hd.of_agree h.symm (hout d (Or.inr hd))⟩

/-- What lies in the span of a file is not kept. -/
theorem Mentions.not_within (hd : Mentions (· ∈ all) k d) (hg : g ∈ all)
    (hw : w.Within g.span) (hproper : ¬ g.span.Within w) :
    ¬ d.span.Within w := by
  intro hin
  have hspan := hd.maximal g hg
    ⟨hw.1.trans hin.1, hin.2.trans hw.2⟩
  rw [← hspan] at hin
  exact hproper hin

/-- If the last write to a deleted key is behind the span, or is that of a
file that drops nothing, changes in the span do not uncover the key. -/
theorem Recorded.hidden_of_top (h : Recorded hist oldest all')
    (hagree : AgreeOutside w all all') (hhidden : Hidden (· ∈ all) k)
    (hdead : written hist 0 hist.length k = some none) (hd : d ∈ all')
    (htop : Top hist k d) (holdest : oldest ≤ w.first)
    (hlast : w.last ≤ d.span.last)
    (hproper : oldest < w.first ∨ w.last < d.span.last) :
    Hidden (· ∈ all') k := by
  obtain ⟨g, hg, hwithin, hmax⟩ := exists_maximal hd
  have htop' := htop.of_within hwithin (h.below g hg)
  by_cases hfound : g.layer k = none
  · -- It dropped the deletion, so it contains the whole span.
    have hfirst : g.span.first ≤ oldest := by
      by_contra hlt
      exact htop'.1 (by rw [← h.full g hg (not_le.mp hlt) k, hfound])
    have hw : w.Within g.span :=
      ⟨hfirst.trans holdest, hlast.trans hwithin.2⟩
    have hout : ¬ g.span.Within w := by
      intro hin
      have hin₁ := hin.1
      have hin₂ := hin.2
      have hwithin₂ := hwithin.2
      omega
    refine (hagree.hidden fun d' hd' => ?_).mp hhidden
    rcases hd' with hd' | hd'
    · exact hd'.not_within ((hagree g hout).mpr hg) hw hout
    · exact hd'.not_within hg hw hout
  · intro f hf hvalue
    exact ⟨g, ⟨hg, hmax, hfound⟩, htop'.last_lt hdead (h.below f hf.mem)
      (h.recounts f hf.mem) hvalue⟩

end Agree

theorem Hidden.congr_of_silent {P Q : Segment EntryOk → Prop}
    (hsub : ∀ d, Q d → P d)
    (hrest : ∀ d, P d → ¬ Q d → ¬ Mentions P k d ∧
      ∀ d', Q d' → d'.span.Within d.span → d'.layer k = none) :
    Hidden P k ↔ Hidden Q k := by
  refine Hidden.congr fun d => ?_
  constructor
  · intro hd
    refine ⟨?_, fun d' hd' => hd.maximal d' (hsub d' hd'), hd.found⟩
    by_contra hnot
    exact (hrest d hd.mem hnot).1 hd
  · intro hd
    refine ⟨hsub d hd.mem, ?_, hd.found⟩
    intro d' hd' hwithin
    by_cases hQ : Q d'
    · exact hd.maximal d' hQ hwithin
    · exact absurd ((hrest d' hd' hQ).2 d hd.mem hwithin) hd.found

/-! ## What a compaction leaves behind -/

/-- Some key of the segments is not deleted. -/
def HasValue (run : List (Segment EntryOk)) : Prop :=
  ∃ k value, tells run k = some (some value)

theorem MergedFrom.hasValue_iff {entries : List Entry}
    (h : MergedFrom segs 0 count entries) :
    HasValue (segmentRun segs 0 count) ↔ entries ≠ [] := by
  have hfind : ∀ k, find entries k =
      kept true (tells (segmentRun segs 0 count) k) := h.find_eq
  constructor
  · rintro ⟨k, value, htells⟩ rfl
    have hk := hfind k
    rw [htells] at hk
    cases hk
  · intro hne
    obtain ⟨e, rest, rfl⟩ := List.exists_cons_of_ne_nil hne
    have he := h.merge.ascending.find_eq_some_iff.mpr
      (List.mem_cons_self : e ∈ e :: rest)
    rw [hfind] at he
    rcases htells : tells (segmentRun segs 0 count) e.1 with _ | _ | value
    · rw [htells] at he
      cases he
    · rw [htells] at he
      cases he
    · exact ⟨e.1, value, htells⟩

/-- The files outside the list once the oldest `count` tables are merged:
those that were outside before, and inputs that were not removed.  What lies
in an output is superseded by it. -/
def LeftBehind (segs all : List (Segment EntryOk)) (count : ℕ)
    (removed : List Bytes) (d : Segment EntryOk) : Prop :=
  d ∈ all ∧ (d ∈ segs → d ∈ segmentRun segs 0 count ∧ d.name ∉ removed) ∧
    (HasValue (segmentRun segs 0 count) →
      ¬ d.span.Within (segmentSpan (segmentRun segs 0 count)))

/-- No value of a key that only the run had deleted is left behind. -/
def UncoversNothing (hist : List (Layer Bytes Bytes))
    (segs all : List (Segment EntryOk)) (count : ℕ)
    (removed : List Bytes) : Prop :=
  ∀ k, written hist 0 hist.length k = some none →
    tells (segs.drop count) k = none →
      Hidden (LeftBehind segs all count removed) k

theorem mem_above (hd : d ∈ segs) (hrun : d ∉ segmentRun segs 0 count) :
    d ∈ segs.drop count := by
  rw [← segments_split segs 0 count] at hd
  rw [List.take_zero, List.nil_append, Nat.zero_add] at hd
  exact (List.mem_append.mp hd).resolve_left hrun

namespace Sound

/-- The tables above a run say what was written after it. -/
theorem above (h : Sound hist oldest s segs all) (hcount : 2 ≤ count)
    (hrange : start + count ≤ segs.length) (k : Bytes) :
    tells (segs.drop (start + count)) k =
      written hist
        ((segmentSpan (segmentRun segs start count)).last + 1)
        hist.length k := by
  obtain ⟨b, c, htake, hrun, hdrop, -, rfl⟩ := h.run_bounds hcount hrange
  refine hdrop.tells_eq fun d hd => ?_
  have hlt := hrun.lt (segmentRun_ne_nil hcount hrange)
  have hbounds := hdrop.bounds hd
  have hle := htake.le
  exact h.full d (h.listed d (List.mem_of_mem_drop hd)) (by omega)

/-- The last write to a key that was written after a run is above it. -/
theorem exists_top_above (h : Sound hist oldest s segs all)
    (hcount : 2 ≤ count) (hrange : start + count ≤ segs.length)
    (hsome : tells (segs.drop (start + count)) k ≠ none) :
    ∃ d ∈ segs.drop (start + count), Top hist k d ∧
      (segmentSpan (segmentRun segs start count)).last < d.span.last := by
  rw [h.above hcount hrange] at hsome
  obtain ⟨b, c, -, -, hdrop, -, rfl⟩ := h.run_bounds hcount hrange
  obtain ⟨e, he⟩ := Option.ne_none_iff_exists'.mp hsome
  obtain ⟨d, hd, hlater, hwrote⟩ := hdrop.exists_top he
  have hbounds := hdrop.bounds hd
  have hordered := d.ordered
  exact ⟨d, hd, ⟨by rw [hwrote]; simp, hlater⟩, by omega⟩

/-- If the tables above a run are silent, so is what lies in them. -/
theorem silent_above (h : Sound hist oldest s segs all) (hcount : 2 ≤ count)
    (hrange : start + count ≤ segs.length)
    (hnone : tells (segs.drop (start + count)) k = none)
    {d d' : Segment EntryOk} (hd : d ∈ segs.drop (start + count))
    (hd' : Recounts hist d') (hwithin : d'.span.Within d.span) :
    d'.layer k = none := by
  rw [h.above hcount hrange] at hnone
  obtain ⟨b, c, -, -, hdrop, -, rfl⟩ := h.run_bounds hcount hrange
  have hbounds := hdrop.bounds hd
  exact hd'.layer_eq_none hnone (hbounds.1.trans hwithin.1)
    (lt_of_le_of_lt hwithin.2 hbounds.2)

theorem within_run (h : Sound hist oldest s segs all) (hcount : 2 ≤ count)
    (hrange : start + count ≤ segs.length)
    (hd : d ∈ segmentRun segs start count) :
    d.span.Within (segmentSpan (segmentRun segs start count)) :=
  (within_segmentSpan h.contiguous.chain hcount hrange d hd).1

/-- Only the oldest run begins with the oldest table. -/
theorem oldest_lt (h : Sound hist oldest s segs all)
    (hout : OutputOf segs start count out) (hstart : start ≠ 0) :
    oldest < out.span.first := by
  obtain ⟨b, c, htake, -, -, hfirst, -⟩ :=
    h.run_bounds hout.merged.count_ge hout.merged.in_range
  rw [hout.span, hfirst]
  refine htake.lt fun hnil => ?_
  have hlength := congrArg List.length hnil
  have hrange := hout.merged.in_range
  have hcount := hout.merged.count_ge
  rw [List.length_take, List.length_nil] at hlength
  omega

/-- If the tables above the oldest run are silent, the run shows what was
written. -/
theorem join_tells_run (h : Sound hist oldest s segs all)
    (hnone : tells (segs.drop count) k = none) :
    (tells (segmentRun segs 0 count) k).join =
      (written hist 0 hist.length k).join := by
  have hsplit : segmentRun segs 0 count ++ segs.drop count = segs := by
    have hsplit := segments_split segs 0 count
    rwa [List.take_zero, List.nil_append, Nat.zero_add] at hsplit
  have hshown : shown (segmentRun segs 0 count ++ segs.drop count) k =
      shown (segmentRun segs 0 count) k := shown_append_of_none hnone
  rw [hsplit, h.shown_eq] at hshown
  exact hshown.symm

/-- An output is silent about a key that only its run had deleted. -/
theorem output_silent (h : Sound hist oldest s segs all)
    (hout : OutputOf segs 0 count out)
    (hdead : written hist 0 hist.length k = some none)
    (hnone : tells (segs.drop count) k = none) : out.layer k = none := by
  have hrun := h.join_tells_run hnone
  rw [hdead] at hrun
  have hlayer : out.layer k =
      kept true (tells (segmentRun segs 0 count) k) :=
    hout.merged.find_eq k
  rw [hlayer]
  rcases htells : tells (segmentRun segs 0 count) k with _ | _ | value
  · rfl
  · rfl
  · rw [htells] at hrun
    cases hrun

end Sound

section Steps

variable {removed : List Bytes}

/-- A deletion that is not only the oldest run's still holds once an output
is published. -/
theorem Sound.hidden_output (h : Sound hist oldest s segs all)
    (hout : OutputOf segs start count out)
    (hrecorded : Recorded hist oldest all')
    (hagree : AgreeOutside out.span all all') (hmem : out ∈ all')
    (hhidden : Hidden (· ∈ all) k)
    (hdead : written hist 0 hist.length k = some none)
    (hcases : start ≠ 0 ∨ tells (segs.drop (start + count)) k ≠ none) :
    Hidden (· ∈ all') k := by
  have hcount := hout.merged.count_ge
  have hrange := hout.merged.in_range
  obtain ⟨-, hfull, holdest, -⟩ := h.output hout
  by_cases hnone : tells (segs.drop (start + count)) k = none
  · have hlt := h.oldest_lt hout
      (hcases.resolve_right fun hne => hne hnone)
    rw [h.above hcount hrange, ← hout.span] at hnone
    by_cases hwrote : out.wrote hist k = none
    · -- Nothing in the output's span is about the key.
      refine (hagree.hidden fun d hd hin => ?_).mp hhidden
      rcases hd with hd | hd
      · exact hd.found ((h.recounts d hd.mem).layer_eq_none hwrote hin.1
          (Nat.lt_succ_of_le hin.2))
      · exact hd.found ((hrecorded.recounts d hd.mem).layer_eq_none hwrote
          hin.1 (Nat.lt_succ_of_le hin.2))
    · exact hrecorded.hidden_of_top hagree hhidden hdead hmem
        ⟨hwrote, hnone⟩ holdest le_rfl (Or.inl hlt)
  · obtain ⟨d, hd, htop, hlast⟩ := h.exists_top_above hcount hrange hnone
    rw [← hout.span] at hlast
    have hd' : d ∈ all' := by
      refine (hagree d fun hin => ?_).mp
        (h.listed d (List.mem_of_mem_drop hd))
      exact absurd hin.2 (not_le.mpr hlast)
    exact hrecorded.hidden_of_top hagree hhidden hdead hd' htop holdest
      hlast.le (Or.inr hlast)

/-- A deletion that only the oldest run had holds just if no value is left
behind. -/
theorem Sound.hidden_output_iff (h : Sound hist oldest s segs all)
    (hout : OutputOf segs 0 count out)
    (hdistinct : (all'.map Segment.span).Nodup)
    (hagree : AgreeOutside out.span all all') (hmem : out ∈ all')
    (hdead : written hist 0 hist.length k = some none)
    (hnone : tells (segs.drop count) k = none) :
    Hidden (· ∈ all') k ↔
      Hidden (LeftBehind segs all count removed) k := by
  have hcount := hout.merged.count_ge
  have hrange := hout.merged.in_range
  have hspan := hout.span
  have hvalue := hout.merged.hasValue_iff.mpr out.nonempty
  refine Hidden.congr_of_silent ?_ ?_
  · rintro d ⟨hd, -, hout'⟩
    refine (hagree d ?_).mp hd
    rw [hspan]
    exact hout' hvalue
  · intro d hd hnot
    by_cases hin : d.span.Within out.span
    · refine ⟨fun hmentions => ?_, ?_⟩
      · have hsame := hmentions.maximal out hmem hin
        obtain rfl := List.inj_on_of_nodup_map hdistinct hmem hd hsame
        exact hmentions.found (h.output_silent hout hdead hnone)
      · rintro d' ⟨-, -, hout'⟩ hwithin
        refine absurd ?_ (hout' hvalue)
        rw [← hspan]
        exact ⟨hin.1.trans hwithin.1, hwithin.2.trans hin.2⟩
    · -- Outside the run's span, only tables above the run are not left.
      have hd' := (hagree d hin).mpr hd
      have hmem' : d ∈ segs.drop (0 + count) := by
        rw [Nat.zero_add]
        by_contra hbelow
        refine hnot ⟨hd', fun hlisted => ?_, fun _ => hspan ▸ hin⟩
        by_contra hrun
        refine hbelow (mem_above hlisted fun hd'' => hin ?_)
        rw [hspan]
        exact h.within_run hcount hrange hd''
      rw [← Nat.zero_add count] at hnone
      exact ⟨fun hmentions => hmentions.found (h.silent_above hcount hrange
          hnone hmem' (h.recounts d hd') ⟨le_rfl, le_rfl⟩),
        fun d' hleft hwithin => h.silent_above hcount hrange hnone hmem'
          (h.recounts d' hleft.1) hwithin⟩

/-- Once an output is published, the deletions hold just if it uncovers
nothing. -/
theorem Sound.deletionsHold_output (h : Sound hist oldest s segs all)
    (hdeletions : DeletionsHold hist all)
    (hout : OutputOf segs start count out)
    (hrecorded : Recorded hist oldest all')
    (hdistinct : (all'.map Segment.span).Nodup)
    (hagree : AgreeOutside out.span all all') (hmem : out ∈ all') :
    DeletionsHold hist all' ↔
      (start = 0 →
        UncoversNothing hist segs all count removed) := by
  constructor
  · rintro hholds rfl k hdead hnone
    exact (h.hidden_output_iff hout hdistinct hagree hmem hdead hnone).mp
      (hholds k hdead)
  · intro huncovers k hdead
    have hhidden := hdeletions k hdead
    by_cases hcases :
        start ≠ 0 ∨ tells (segs.drop (start + count)) k ≠ none
    · exact h.hidden_output hout hrecorded hagree hmem hhidden hdead hcases
    · rw [not_or, not_not, not_not] at hcases
      obtain ⟨rfl, hnone⟩ := hcases
      rw [Nat.zero_add] at hnone
      exact (h.hidden_output_iff hout hdistinct hagree hmem hdead hnone).mpr
        (huncovers rfl k hdead hnone)

/-- Once a run merged to nothing and inputs are removed, the deletions hold
just if that uncovers nothing. -/
theorem Sound.deletionsHold_mergedAway (h : Sound hist oldest s segs all)
    (hdeletions : DeletionsHold hist all)
    (hmerged : MergedFrom segs 0 count [])
    (hremoved : ∀ name ∈ removed,
      ∃ d ∈ segmentRun segs 0 count, d.name = name) :
    DeletionsHold hist (all.filter fun d => d.name ∉ removed) ↔
      UncoversNothing hist segs all count removed := by
  have hcount := hmerged.count_ge
  have hrange := hmerged.in_range
  obtain ⟨b, c, htake, -, -, hfirst, -⟩ := h.run_bounds hcount hrange
  obtain rfl : oldest = b := htake
  have hmem : ∀ d, d ∈ (all.filter fun d => d.name ∉ removed) ↔
      d ∈ all ∧ d.name ∉ removed := by
    intro d
    rw [List.mem_filter, decide_eq_true_iff]
  have hgone : ∀ d ∈ all, d.name ∈ removed →
      d ∈ segmentRun segs 0 count := by
    intro d hd hname
    obtain ⟨d', hd', hname'⟩ := hremoved _ hname
    obtain rfl := List.inj_on_of_nodup_map h.distinct
      (h.listed d' (mem_of_mem_run hd')) hd (Segment.name_injective hname')
    exact hd'
  have hagree : AgreeOutside (segmentSpan (segmentRun segs 0 count)) all
      (all.filter fun d => d.name ∉ removed) := by
    intro d hout
    rw [hmem]
    refine (and_iff_left_of_imp fun hd hname => hout ?_).symm
    exact h.within_run hcount hrange (hgone d hd hname)
  refine forall₂_congr fun k hdead => ?_
  by_cases hnone : tells (segs.drop count) k = none
  · rw [imp_iff_right hnone]
    refine Hidden.congr_of_silent ?_ ?_
    · rintro d ⟨hd, hlisted, -⟩
      refine (hmem d).mpr ⟨hd, fun hname => ?_⟩
      exact (hlisted (mem_of_mem_run (hgone d hd hname))).2 hname
    · intro d hd hnot
      obtain ⟨hd, hname⟩ := (hmem d).mp hd
      have hmem' : d ∈ segs.drop (0 + count) := by
        rw [Nat.zero_add]
        by_contra hbelow
        refine hnot ⟨hd, fun hlisted => ⟨?_, hname⟩,
          fun hvalue => absurd rfl (hmerged.hasValue_iff.mp hvalue)⟩
        by_contra hrun
        exact hbelow (mem_above hlisted hrun)
      rw [← Nat.zero_add count] at hnone
      exact ⟨fun hmentions => hmentions.found (h.silent_above hcount hrange
          hnone hmem' (h.recounts d hd) ⟨le_rfl, le_rfl⟩),
        fun d' hleft hwithin => h.silent_above hcount hrange hnone hmem'
          (h.recounts d' hleft.1) hwithin⟩
  · refine iff_of_true ?_ fun hnone' => absurd hnone' hnone
    rw [← Nat.zero_add count] at hnone
    obtain ⟨d, hd, htop, hlast⟩ := h.exists_top_above hcount hrange hnone
    have hout : ¬ d.span.Within (segmentSpan (segmentRun segs 0 count)) :=
      fun hin => absurd hin.2 (not_le.mpr hlast)
    refine (h.mono fun d' hd' => ((hmem d').mp hd').1).hidden_of_top hagree
      (hdeletions k hdead) hdead
      ((hagree d hout).mp (h.listed d (List.mem_of_mem_drop hd))) htop
      (le_of_eq hfirst.symm) hlast.le (Or.inr hlast)

end Steps

/-! ## One call of `compact` -/

section Call

variable {removed : List Bytes} {fault : Option (CompactFault F)}

/-- The inputs that a call of `compact` removes. -/
def Store.removedBy (s : Store F) (start count : ℕ)
    (fault : Option (CompactFault F)) : List Bytes :=
  removalsBefore fault ((runOf s.set.sstables start count).map Listed.path)

theorem mem_of_mem_removalsBefore {paths : List Bytes} {name : Bytes}
    (h : name ∈ removalsBefore fault paths) : name ∈ paths := by
  rcases fault with _ | _ | _ | _ | index
  · exact h
  · exact h
  · exact h
  · exact h
  · exact List.mem_of_mem_take h

theorem paths_described {tables : List (Listed F)}
    {run : List (Segment EntryOk)}
    (h : List.Forall₂ Described tables run) :
    tables.map Listed.path = run.map Segment.name := by
  induction h with
  | nil => rfl
  | cons hd _ ih => simp [hd.path, ih]

namespace Sound

theorem exists_of_mem_removedBy (h : Sound hist oldest s segs all)
    {name : Bytes} (hname : name ∈ s.removedBy start count fault) :
    ∃ d ∈ segmentRun segs start count, d.name = name := by
  have hpath := mem_of_mem_removalsBefore hname
  rw [paths_described (described_run h.described)] at hpath
  exact List.mem_map.mp hpath

/-- The files of a run are not those of the tables beside it. -/
theorem name_ne_of_beside (h : Sound hist oldest s segs all)
    (hcount : 2 ≤ count) (hrange : start + count ≤ segs.length)
    {d' : Segment EntryOk} (hd : d ∈ segmentRun segs start count)
    (hd' : d' ∈ segs.take start ∨ d' ∈ segs.drop (start + count)) :
    d.name ≠ d'.name := by
  intro hname
  have hspan := Segment.name_injective hname
  obtain ⟨b, c, htake, hrun, hdrop, -, -⟩ := h.run_bounds hcount hrange
  have hbounds := hrun.bounds hd
  have hordered := d.ordered
  rw [hspan] at hbounds hordered
  rcases hd' with hd' | hd'
  · have hbounds' := htake.bounds hd'
    omega
  · have hbounds' := hdrop.bounds hd'
    omega

/-- An output is written, synced and renamed. -/
theorem publish_output (hF : F.Lawful EntryOk)
    (h : Sound hist oldest s segs all) (hout : OutputOf segs start count out)
    {bitsPerKey : ℕ} {file : F.File} {table : F.Table}
    (hwrite : F.writeTable bitsPerKey out.content = .ok (file, table)) :
    F.Holds table out.content ∧
      Sound hist oldest
        { s with
          dir := Lsmrs.publish (Lsmrs.createTmp s.dir out.span file)
            out.span }
        segs (Lsmrs.published all out) := by
  obtain ⟨hopen, hholds⟩ :=
    hF.write hwrite out.nonempty out.ascending out.fits
  obtain ⟨hrecounts, hfull, -, hbelow⟩ := h.output hout
  refine ⟨hholds, (h.createTmp out.span file).publish ?_ ?_ ?_⟩
  · refine ⟨file, ?_, table, hopen, hholds⟩
    rw [Lsmrs.createTmp, get?_insert, if_pos rfl]
  · exact fun d hd => OutputOf.span_ne h.contiguous.chain hout hd
  · exact h.toRecorded.published hbelow hrecounts hfull

theorem agree_published (hout : OutputOf segs start count out) :
    AgreeOutside out.span all (Lsmrs.published all out) := by
  intro d hd
  rw [mem_published]
  constructor
  · intro hmem
    refine Or.inr ⟨hmem, fun hname => hd ?_⟩
    rw [Segment.name_injective hname]
    exact ⟨le_rfl, le_rfl⟩
  · rintro (rfl | ⟨hmem, -⟩)
    · exact absurd ⟨le_rfl, le_rfl⟩ hd
    · exact hmem

theorem agree_removed (h : Sound hist oldest s segs all)
    (hout : OutputOf segs start count out)
    (hdistinct : (all'.map Segment.span).Nodup)
    (hsub : ∀ d ∈ segs, d ∈ all') :
    AgreeOutside out.span all'
      (all'.filter fun d => d.name ∉ s.removedBy start count fault) := by
  intro d hd
  rw [List.mem_filter, decide_eq_true_iff]
  refine (and_iff_left_of_imp fun hmem hname => hd ?_).symm
  obtain ⟨d', hd', heq⟩ := h.exists_of_mem_removedBy hname
  obtain rfl := List.inj_on_of_nodup_map hdistinct
    (hsub d' (mem_of_mem_run hd')) hmem (Segment.name_injective heq)
  rw [hout.span]
  exact h.within_run hout.merged.count_ge hout.merged.in_range hd'

/-- The swap and the removals behind a published output. -/
theorem replace_some (h : Sound hist oldest s segs all)
    (hout : OutputOf segs start count out) (hmem : out ∈ all)
    {table : F.Table} (hholds : F.Holds table out.content)
    (fault : Option (CompactFault F)) :
    Sound hist oldest
      (s.replace start count (some (listedAt out.span table)) fault)
      (segmentSplice segs start count (some out))
      (all.filter fun d => d.name ∉ s.removedBy start count fault) := by
  have hcount := hout.merged.count_ge
  have hrange := hout.merged.in_range
  refine (h.splice_some hout hmem hholds).removeAll fun d hd hname => ?_
  obtain ⟨d', hd', heq⟩ := h.exists_of_mem_removedBy hname
  rcases List.mem_append.mp hd with hd | hd
  · exact h.name_ne_of_beside hcount hrange hd' (Or.inl hd) heq
  · rcases List.mem_cons.mp hd with rfl | hd
    · exact OutputOf.span_ne h.contiguous.chain hout (mem_of_mem_run hd')
        (Segment.name_injective heq)
    · exact h.name_ne_of_beside hcount hrange hd' (Or.inr hd) heq

/-- The swap and the removals when nothing is left of a run. -/
theorem replace_none (h : Sound hist oldest s segs all)
    (hmerged : MergedFrom segs 0 count [])
    (fault : Option (CompactFault F)) :
    Sound hist ((segmentSpan (segmentRun segs 0 count)).last + 1)
      (s.replace 0 count none fault) (segmentSplice segs 0 count none)
      (all.filter fun d => d.name ∉ s.removedBy 0 count fault) := by
  refine (h.splice_none hmerged).removeAll fun d hd hname => ?_
  obtain ⟨d', hd', heq⟩ := h.exists_of_mem_removedBy hname
  exact h.name_ne_of_beside hmerged.count_ge hmerged.in_range hd'
    (Or.inr hd) heq

/-- Whatever a call of `compact` meets, the list follows the writes, and the
deletions hold afterwards just if the call uncovers nothing. -/
theorem compact (hF : F.Lawful EntryOk) (h : Sound hist oldest s segs all)
    {s' : Store F} (hcall : s.compact start count fault = some s') :
    2 ≤ count ∧ start + count ≤ segs.length ∧
      ∃ (oldest' : ℕ) (segs' all' : List (Segment EntryOk)),
        Sound hist oldest' s' segs' all' ∧
        (DeletionsHold hist all → (DeletionsHold hist all' ↔
          (start = 0 → stopsEarly fault = false →
            UncoversNothing hist segs all count
              (s.removedBy 0 count fault)))) := by
  obtain ⟨hcount, hrange, hturn⟩ := compact_turn hcall
  rw [h.described.length_eq] at hrange
  refine ⟨hcount, hrange, ?_⟩
  obtain ⟨entries, hentries, hmergeOf⟩ :=
    mergeRun_eq (described_run h.described) start
  have hmerged : MergedFrom segs start count entries :=
    ⟨hcount, hrange, hmergeOf⟩
  have hspan : runSpan (runOf s.set.sstables start count) =
      segmentSpan (segmentRun segs start count) :=
    runSpan_described (described_run h.described)
  -- An output that is published, with what is removed behind it.
  have houtput : ∀ {file : F.File} {table : F.Table}, entries ≠ [] →
      F.writeTable s.set.bitsPerKey entries = .ok (file, table) →
        ∃ out, OutputOf segs start count out ∧
          runSpan (runOf s.set.sstables start count) = out.span ∧
            F.Holds table out.content ∧
              Sound hist oldest
                { s with
                  dir := Lsmrs.publish
                    (Lsmrs.createTmp s.dir out.span file) out.span }
                segs (Lsmrs.published all out) := by
    intro file table hne hwrite
    obtain ⟨out, rfl, hout⟩ :=
      hmerged.exists_output h.contiguous.chain hne
    exact ⟨out, hout, by rw [hspan, hout.span],
      h.publish_output hF hout hwrite⟩
  cases hturn with
  | unread hearly =>
      refine ⟨oldest, segs, all, h, fun hdeletions =>
        iff_of_true hdeletions fun _ hlate => ?_⟩
      rw [hearly] at hlate
      cases hlate
  | unmerged hmerge =>
      rw [hmerge] at hentries
      cases hentries
  | halfWritten =>
      exact ⟨oldest, segs, all, h.createTmp _ _, fun hdeletions =>
        iff_of_true hdeletions nofun⟩
  | published hmerge hne hwrite =>
      obtain rfl := Except.ok.inj (hmerge.symm.trans hentries)
      obtain ⟨out, hout, heq, -, hpublished⟩ := houtput hne hwrite
      rw [heq]
      refine ⟨oldest, segs, _, hpublished, fun hdeletions => ?_⟩
      rw [h.deletionsHold_output hdeletions hout hpublished.toRecorded
        hpublished.distinct (agree_published hout)
        (mem_published.mpr (Or.inl rfl))]
      exact ⟨fun huncovers hstart _ => huncovers hstart,
        fun huncovers hstart => huncovers hstart rfl⟩
  | replaced hlate hmerge hne hwrite =>
      obtain rfl := Except.ok.inj (hmerge.symm.trans hentries)
      obtain ⟨out, hout, heq, hholds, hpublished⟩ := houtput hne hwrite
      rw [heq]
      have hmem : out ∈ Lsmrs.published all out :=
        mem_published.mpr (Or.inl rfl)
      have hreplaced := hpublished.replace_some hout hmem hholds fault
      refine ⟨oldest, _, _, hreplaced, fun hdeletions => ?_⟩
      rw [h.deletionsHold_output hdeletions hout hreplaced.toRecorded
        hreplaced.distinct ((agree_published hout).trans
          (h.agree_removed hout hpublished.distinct hpublished.listed))
        (hreplaced.listed out (List.mem_append_right _ List.mem_cons_self))]
      exact ⟨fun huncovers hstart _ => huncovers hstart,
        fun huncovers hstart => huncovers hstart hlate⟩
  | mergedAway hlate hmerge =>
      obtain rfl := Except.ok.inj (hmerge.symm.trans hentries)
      obtain rfl := start_eq_zero_of_empty hmerged
      refine ⟨_, _, _, h.replace_none hmerged fault, fun hdeletions => ?_⟩
      rw [h.deletionsHold_mergedAway hdeletions hmerged
        fun name hname => h.exists_of_mem_removedBy hname]
      exact ⟨fun huncovers _ _ => huncovers,
        fun huncovers => huncovers rfl hlate⟩

end Sound

end Call

end Lsmrs
