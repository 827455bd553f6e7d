import Lsmrs.Sstable.Files
import Lsmrs.Sstable.Leftovers

/-!
# Compactions that fail

The calls of `write` and `compact` on one set, with compactions that fail at
any step.  What the live set reads never depends on them.  What a reopening
reads does: a merge that drops deletions must not uncover a value in a file
that an earlier failure left behind.
-/

namespace Lsmrs

open ByteString OrderedMap Layers

variable {F : TableFormat} {EntryOk : Entry → Prop}
  {hist : List (Layer Bytes Bytes)} {oldest : ℕ} {s s' : Store F}
  {segs all : List (Segment EntryOk)} {start count : ℕ} {k : Bytes}

/-! ## Changes that keep a store sound -/

/-- The segments on disk once one is published. -/
def published (all : List (Segment EntryOk)) (d : Segment EntryOk) :
    List (Segment EntryOk) :=
  d :: all.filter fun d' => d'.name ≠ d.name

theorem mem_published {d d' : Segment EntryOk} :
    d' ∈ published all d ↔ d' = d ∨ (d' ∈ all ∧ d'.name ≠ d.name) := by
  rw [published, List.mem_cons, List.mem_filter, decide_eq_true_iff]

theorem published_distinct (hdistinct : (all.map Segment.span).Nodup)
    (d : Segment EntryOk) :
    ((published all d).map Segment.span).Nodup := by
  rw [published, List.map_cons, List.nodup_cons]
  refine ⟨?_, hdistinct.sublist (List.filter_sublist.map _)⟩
  intro hmem
  obtain ⟨d', hd', heq⟩ := List.mem_map.mp hmem
  have hne := of_decide_eq_true (List.mem_filter.mp hd').2
  exact hne (by rw [Segment.name, Segment.name, heq])

theorem Recorded.published {d : Segment EntryOk}
    (h : Recorded hist oldest all) (hbelow : d.span.last < hist.length)
    (hrecounts : Recounts hist d)
    (hfull : oldest < d.span.first → Full hist d) :
    Recorded hist oldest (published all d) where
  below := by
    intro d' hd'
    rcases mem_published.mp hd' with rfl | ⟨hd', -⟩
    · exact hbelow
    · exact h.below d' hd'
  recounts := by
    intro d' hd'
    rcases mem_published.mp hd' with rfl | ⟨hd', -⟩
    · exact hrecounts
    · exact h.recounts d' hd'
  full := by
    intro d' hd'
    rcases mem_published.mp hd' with rfl | ⟨hd', -⟩
    · exact hfull
    · exact h.full d' hd'

namespace Sound

/-- Only the `.sst` files and the set matter. -/
theorem congr_dir (h : Sound hist oldest s segs all) {dir : Dir F}
    {all' : List (Segment EntryOk)} (hfiles : Files dir all')
    (hdistinct : (all'.map Segment.span).Nodup)
    (hlisted : ∀ d ∈ segs, d ∈ all') (hrecorded : Recorded hist oldest all') :
    Sound hist oldest { s with dir } segs all' :=
  ⟨hrecorded, h.described, h.next, h.next_le, h.contiguous, hfiles,
    hdistinct, hlisted, h.gone⟩

theorem createTmp (h : Sound hist oldest s segs all) (span : Span)
    (file : F.File) :
    Sound hist oldest { s with dir := createTmp s.dir span file } segs all :=
  h.congr_dir (h.files.createTmp span file) h.distinct h.listed
    h.toRecorded

/-- Files that are not listed can go. -/
theorem removeAll (h : Sound hist oldest s segs all) {names : List Bytes}
    (hnames : ∀ d ∈ segs, d.name ∉ names) :
    Sound hist oldest { s with dir := removeAll s.dir names } segs
      (all.filter fun d => d.name ∉ names) :=
  h.congr_dir (h.files.removeAll names)
    (h.distinct.sublist (List.filter_sublist.map _))
    (fun d hd => List.mem_filter.mpr
      ⟨h.listed d hd, decide_eq_true (hnames d hd)⟩)
    (h.mono fun _ hd => (List.mem_filter.mp hd).1)

/-- A synced temporary file is renamed to a new name. -/
theorem publish (h : Sound hist oldest s segs all) {d : Segment EntryOk}
    (hwaiting : Waiting s.dir d) (hnew : ∀ d' ∈ segs, d'.span ≠ d.span)
    (hrecorded : Recorded hist oldest (published all d)) :
    Sound hist oldest { s with dir := publish s.dir d.span } segs
      (published all d) := by
  refine h.congr_dir (h.files.publish hwaiting)
    (published_distinct h.distinct d) ?_ hrecorded
  intro d' hd'
  exact mem_published.mpr (Or.inr ⟨h.listed d' hd',
    fun hname => hnew d' hd' (Segment.name_injective hname)⟩)

end Sound

/-! ## Writing -/

section Write

variable {t : Layer Bytes Bytes} {new : Segment EntryOk}

theorem Recorded.append (h : Recorded hist oldest all) :
    Recorded (hist ++ [t]) oldest all where
  below := by
    intro d hd
    rw [List.length_append]
    exact Nat.lt_add_right _ (h.below d hd)
  recounts := by
    intro d hd k
    rw [d.wrote_append (h.below d hd)]
    exact h.recounts d hd k
  full := by
    intro d hd hlt k
    rw [d.wrote_append (h.below d hd)]
    exact h.full d hd hlt k

/-- The segment of the write says what was written. -/
theorem full_new (hspan : new.span = ⟨hist.length, hist.length⟩)
    (hlayer : new.layer = t) : Full (hist ++ [t]) new := by
  intro k
  rw [Segment.wrote, hspan, written_last, hlayer]

/-- The steps of `write` that change something. -/
theorem Sound.register (h : Sound hist oldest s segs all)
    (hspan : new.span = ⟨hist.length, hist.length⟩) (hlayer : new.layer = t)
    {file : F.File} {table : F.Table}
    (hopen : ∀ path, F.openTable path file = .ok table)
    (hholds : F.Holds table new.content) (hseq : s.set.nextSeq < u64Max) :
    Sound (hist ++ [t]) oldest
      ⟨Lsmrs.publish (Lsmrs.createTmp s.dir ⟨s.set.nextSeq, s.set.nextSeq⟩ file)
        ⟨s.set.nextSeq, s.set.nextSeq⟩,
        s.set.register s.set.nextSeq table⟩
      (segs ++ [new]) (published all new) := by
  have hnext := h.next
  have hspan' : new.span = ⟨s.set.nextSeq, s.set.nextSeq⟩ := by
    rw [hspan, hnext]
  have hlength : (hist ++ [t]).length = hist.length + 1 := by simp
  have hfull := full_new hspan hlayer
  have hold : ∀ d ∈ all, d.name ≠ new.name := by
    intro d hd hname
    have hbelow := h.below d hd
    rw [Segment.name_injective hname, hspan] at hbelow
    exact lt_irrefl _ hbelow
  have hwaiting : Waiting
      (Lsmrs.createTmp s.dir ⟨s.set.nextSeq, s.set.nextSeq⟩ file) new := by
    refine ⟨file, ?_, table, hopen, hholds⟩
    rw [Lsmrs.createTmp, get?_insert, if_pos (by rw [hspan'])]
  constructor
  case toRecorded =>
    refine h.toRecorded.append.published ?_ hfull.recounts fun _ => hfull
    rw [hspan, hlength]
    exact Nat.lt_succ_self _
  case described =>
    exact List.rel_append h.described
      (.cons ⟨hspan'.symm, by rw [Segment.name, hspan']; rfl, hholds⟩ .nil)
  case next =>
    rw [hlength, ← hnext]
    rfl
  case next_le => exact hseq
  case contiguous =>
    refine contiguous_append.mpr ⟨hist.length, h.contiguous, ?_, ?_⟩
    · rw [hspan]
    · rw [hspan, hlength]
      rfl
  case files =>
    have hfiles := (h.files.createTmp
      ⟨s.set.nextSeq, s.set.nextSeq⟩ file).publish hwaiting
    rw [hspan'] at hfiles
    exact hfiles
  case distinct => exact published_distinct h.distinct new
  case listed =>
    intro d hd
    rcases List.mem_append.mp hd with hd | hd
    · exact mem_published.mpr
        (Or.inr ⟨h.listed d hd, hold d (h.listed d hd)⟩)
    · exact mem_published.mpr (Or.inl (List.mem_singleton.mp hd))
  case gone =>
    intro k
    rw [written_append_of_le h.contiguous.le]
    exact h.gone k

section Newer

variable {d : Segment EntryOk}

theorem mem_published_newer
    (hnewer : ∀ d ∈ all, d.span.last < new.span.first) :
    d ∈ published all new ↔ d = new ∨ d ∈ all := by
  rw [mem_published]
  refine or_congr_right (and_iff_left_of_imp fun hd hname => ?_)
  have hlt := hnewer d hd
  rw [Segment.name_injective hname] at hlt
  exact absurd new.ordered (not_le.mpr hlt)

/-- A newer file lies in no older one, and no older one in it. -/
theorem apart_of_newer (hlt : d.span.last < new.span.first) :
    ¬ d.span.Within new.span ∧ ¬ new.span.Within d.span :=
  ⟨fun hin => absurd (hin.1.trans d.ordered) (not_le.mpr hlt),
    fun hin => absurd (new.ordered.trans hin.2) (not_le.mpr hlt)⟩

theorem mentions_older_iff
    (hnewer : ∀ d ∈ all, d.span.last < new.span.first) (hd : d ∈ all) :
    Mentions (· ∈ published all new) k d ↔ Mentions (· ∈ all) k d := by
  constructor
  · intro hmentions
    exact ⟨hd, fun d' hd' => hmentions.maximal d'
      ((mem_published_newer hnewer).mpr (Or.inr hd')), hmentions.found⟩
  · intro hmentions
    refine ⟨(mem_published_newer hnewer).mpr (Or.inr hd), ?_,
      hmentions.found⟩
    intro d' hd' hwithin
    rcases (mem_published_newer hnewer).mp hd' with rfl | hd'
    · exact absurd hwithin (apart_of_newer (hnewer d hd)).1
    · exact hmentions.maximal d' hd' hwithin

theorem mentions_newer
    (hnewer : ∀ d ∈ all, d.span.last < new.span.first)
    (hfound : new.layer k ≠ none) :
    Mentions (· ∈ published all new) k new := by
  refine ⟨(mem_published_newer hnewer).mpr (Or.inl rfl), ?_, hfound⟩
  intro d' hd' hwithin
  rcases (mem_published_newer hnewer).mp hd' with rfl | hd'
  · rfl
  · exact absurd hwithin (apart_of_newer (hnewer d' hd')).2

end Newer

/-- A write hides what it deletes itself. -/
theorem DeletionsHold.write (h : DeletionsHold hist all)
    (hbelow : ∀ d ∈ all, d.span.last < hist.length)
    (hspan : new.span = ⟨hist.length, hist.length⟩)
    (hlayer : new.layer = t) :
    DeletionsHold (hist ++ [t]) (published all new) := by
  have hlength : (hist ++ [t]).length = hist.length + 1 := by simp
  have hnewer : ∀ d ∈ all, d.span.last < new.span.first := by
    rw [hspan]
    exact hbelow
  intro k hdead f hf hvalue
  rw [hlength, written_concat (Nat.zero_le _), Option.or_eq_some_iff]
    at hdead
  have hne : f ≠ new := by
    rintro rfl
    rw [hlayer] at hvalue
    rcases hdead with ht | ⟨ht, -⟩
    · exact hvalue (by rw [ht]; rfl)
    · exact hvalue (by rw [ht]; rfl)
  have hf' := ((mem_published_newer hnewer).mp hf.mem).resolve_left hne
  rcases hdead with ht | ⟨-, hdead⟩
  · refine ⟨new, mentions_newer hnewer (by rw [hlayer, ht]; simp), ?_⟩
    rw [hspan]
    exact hbelow f hf'
  · have hold := (mentions_older_iff hnewer hf').mp hf
    obtain ⟨g, hg, hlater⟩ := h k hdead f hold hvalue
    exact ⟨g, (mentions_older_iff hnewer hg.mem).mpr hg, hlater⟩

end Write

/-! ## Compacting -/

section Compact

variable {out d : Segment EntryOk}

theorem segmentRun_ne_nil (hcount : 2 ≤ count)
    (hrange : start + count ≤ segs.length) :
    segmentRun segs start count ≠ [] := by
  intro hnil
  have hlength := segmentRun_length hrange
  rw [hnil, List.length_nil] at hlength
  omega

namespace Sound

/-- The numbers at which a run begins and ends. -/
theorem run_bounds (h : Sound hist oldest s segs all) (hcount : 2 ≤ count)
    (hrange : start + count ≤ segs.length) :
    ∃ b c, Contiguous (segs.take start) oldest b ∧
      Contiguous (segmentRun segs start count) b c ∧
      Contiguous (segs.drop (start + count)) c hist.length ∧
      (segmentSpan (segmentRun segs start count)).first = b ∧
      (segmentSpan (segmentRun segs start count)).last + 1 = c := by
  have hwhole := h.contiguous
  rw [← segments_split segs start count] at hwhole
  obtain ⟨b, htake, hrest⟩ := contiguous_append.mp hwhole
  obtain ⟨c, hrun, hdrop⟩ := contiguous_append.mp hrest
  obtain ⟨hfirst, hlast⟩ :=
    hrun.span_eq (segmentRun_ne_nil hcount hrange)
  exact ⟨b, c, htake, hrun, hdrop, hfirst, hlast⟩

theorem recounts_run (h : Sound hist oldest s segs all)
    (hd : d ∈ segmentRun segs start count) : Recounts hist d :=
  h.recounts d (h.listed d (mem_of_mem_run hd))

theorem full_run (h : Sound hist oldest s segs all)
    (hd : d ∈ segmentRun segs start count)
    (hlt : oldest < d.span.first) : Full hist d :=
  h.full d (h.listed d (mem_of_mem_run hd)) hlt

end Sound

theorem MergedFrom.find_eq {entries : List Entry}
    (h : MergedFrom segs start count entries) (k : Bytes) :
    find entries k =
      kept (start == 0) (tells (segmentRun segs start count) k) := by
  rw [h.merge.find_eq, tells_eq_merged]

/-- The output of a merge says what was written in its span, but for
deletions that it drops if the run has the oldest table. -/
theorem Sound.output (h : Sound hist oldest s segs all)
    (hout : OutputOf segs start count out) :
    Recounts hist out ∧ (oldest < out.span.first → Full hist out) ∧
      oldest ≤ out.span.first ∧ out.span.last < hist.length := by
  obtain ⟨b, c, htake, hrun, hdrop, hfirst, hlast⟩ :=
    h.run_bounds hout.merged.count_ge hout.merged.in_range
  rw [← hout.span] at hfirst hlast
  have hle := htake.le
  have hle' := hdrop.le
  have hwrote : out.wrote hist = written hist b c := by
    rw [Segment.wrote, hfirst, hlast]
  refine ⟨?_, ?_, by omega, by omega⟩
  · intro k
    have hlayer : out.layer k =
        kept (start == 0) (tells (segmentRun segs start count) k) :=
      hout.merged.find_eq k
    rw [hlayer, hwrote]
    rcases hrun.tells_cases (fun d hd => h.recounts_run hd)
      (fun d hd hlt => h.full_run hd (by omega)) k with
        heq | ⟨hnone, hdead, -⟩
    · rw [heq]
      cases hstart : start == 0 with
      | false => exact Or.inl (kept_false _)
      | true =>
          rcases hwritten : written hist b c k with _ | _ | v
          · exact Or.inl rfl
          · exact Or.inr ⟨rfl, rfl⟩
          · exact Or.inl rfl
    · rw [hnone]
      exact Or.inr ⟨rfl, hdead⟩
  · intro hlt k
    have hstart : (start == 0) = false := by
      rw [beq_eq_false_iff_ne]
      rintro rfl
      have hzero : oldest = b := htake
      omega
    have hlayer : out.layer k =
        kept (start == 0) (tells (segmentRun segs start count) k) :=
      hout.merged.find_eq k
    rw [hlayer, hstart, kept_false, hwrote]
    refine hrun.tells_eq fun d hd => h.full_run hd ?_
    have hbounds := hrun.bounds hd
    omega

namespace Sound

/-- The swap puts a published output in the place of its run. -/
theorem splice_some (h : Sound hist oldest s segs all)
    (hout : OutputOf segs start count out) (hmem : out ∈ all)
    {table : F.Table} (hholds : F.Holds table out.content) :
    Sound hist oldest
      { s with
        set := { s.set with
          sstables := spliced s.set.sstables start count
            (some (listedAt out.span table)) } }
      (segmentSplice segs start count (some out)) all := by
  obtain ⟨b, c, htake, hrun, hdrop, hfirst, hlast⟩ :=
    h.run_bounds hout.merged.count_ge hout.merged.in_range
  rw [← hout.span] at hfirst hlast
  refine ⟨h.toRecorded, ?_, h.next, h.next_le, ?_, h.files, h.distinct,
    ?_, h.gone⟩
  · exact described_splice h.described (some out)
      (.cons ⟨rfl, rfl, hholds⟩ .nil)
  · exact contiguous_append.mpr ⟨b, htake, hfirst, by
      rw [hlast]
      exact hdrop⟩
  · intro d hd
    rcases List.mem_append.mp hd with hd | hd
    · exact h.listed d (List.mem_of_mem_take hd)
    · rcases List.mem_cons.mp hd with rfl | hd
      · exact hmem
      · exact h.listed d (List.mem_of_mem_drop hd)

/-- The swap takes a run away that merged to nothing. -/
theorem splice_none (h : Sound hist oldest s segs all)
    (hmerged : MergedFrom segs 0 count []) :
    Sound hist ((segmentSpan (segmentRun segs 0 count)).last + 1)
      { s with
        set := { s.set with
          sstables := spliced s.set.sstables 0 count none } }
      (segmentSplice segs 0 count none) all := by
  obtain ⟨b, c, htake, hrun, hdrop, hfirst, hlast⟩ :=
    h.run_bounds hmerged.count_ge hmerged.in_range
  obtain rfl : oldest = b := htake
  have hle := hrun.le
  rw [hlast]
  refine ⟨⟨h.below, h.recounts, ?_⟩, ?_, h.next, h.next_le, ?_, h.files,
    h.distinct, ?_, ?_⟩
  · exact fun d hd hlt => h.full d hd (by omega)
  · exact described_splice h.described none .nil
  · exact hdrop
  · exact fun d hd => h.listed d (List.mem_of_mem_drop hd)
  · intro k
    have hnothing : (tells (segmentRun segs 0 count) k).join = none :=
      shown_run_of_empty hmerged k
    have hjoin : (written hist oldest c k).join = none := by
      rcases hrun.tells_cases (fun d hd => h.recounts_run hd)
        (fun d hd hlt => h.full_run hd hlt) k with heq | ⟨-, hdead, -⟩
      · rw [← heq]
        exact hnothing
      · rw [hdead]
        rfl
    rw [written_split (Nat.zero_le oldest) hle,
      join_or_of_join_eq_none (h.gone k), hjoin]

end Sound

end Compact

end Lsmrs
