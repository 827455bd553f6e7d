import Lsmrs.Db.Tables

/-!
# The compactor keeps what a reader sees

Each step of `compact` keeps `TablesInv`, shows the same values and leaves
everything the writer works on alone.
-/

namespace Lsmrs

open ByteString OrderedMap

variable {F : Format} {Ok : Mutation → Prop} {o : SpanOrder}

/-- The entries a mutation that is `Ok` can have written. -/
abbrev Writable (Ok : Mutation → Prop) (e : Entry) : Prop :=
  Ok (Mutation.ofEntry e)

/-! ## What a step can be -/

/-- The steps of the compactor with what each needs and does. -/
inductive CompactMove (disk : Disk F) (p : Process F) :
    CompactStep → Disk F → Process F → Prop where
  | begun {start count : ℕ} (hidle : p.compactor = .idle)
      (hcount : 2 ≤ count)
      (hrange : start + count ≤ p.db.sstableSet.sstables.length) :
    CompactMove disk p (.begin start count) disk
      { p with compactor :=
          .begun (runOf p.db.sstableSet.sstables start count) start count }
  | merged {run : List (Listed F.toTableFormat)} {start count : ℕ}
      {entries : List Entry} (hbegun : p.compactor = .begun run start count)
      (hmerge : mergeRun run start = .ok entries) :
    CompactMove disk p .merge disk
      { p with compactor :=
          if entries = [] then .ready start count none
          else .merged start count (runSpan run) entries }
  | unmerged {run : List (Listed F.toTableFormat)} {start count : ℕ}
      {e : Failure} (hbegun : p.compactor = .begun run start count)
      (hmerge : mergeRun run start = .error e) :
    CompactMove disk p .merge disk { p with compactor := .idle }
  | created {start count : ℕ} {span : Span} {entries : List Entry}
      {file : F.File} {table : F.Table}
      (hmerged : p.compactor = .merged start count span entries)
      (hwrite : F.writeTable p.db.sstableSet.bitsPerKey entries =
        .ok (file, table)) :
    CompactMove disk p .create
      { disk with dir := createTmp disk.dir span file }
      { p with compactor := .created start count span table }
  | renamed {start count : ℕ} {span : Span} {table : F.Table}
      (hcreated : p.compactor = .created start count span table) :
    CompactMove disk p .rename { disk with dir := publish disk.dir span }
      { p with compactor :=
          .ready start count (some (listedAt span table)) }
  | swapped {start count : ℕ}
      {replacement : Option (Listed F.toTableFormat)}
      (hready : p.compactor = .ready start count replacement)
      (hrange : start + count ≤ p.db.sstableSet.sstables.length) :
    CompactMove disk p .swap disk
      { p with
        db := { p.db with
          sstableSet := { p.db.sstableSet with
            sstables :=
              spliced p.db.sstableSet.sstables start count replacement } }
        compactor :=
          .unlinking (runOf p.db.sstableSet.sstables start count) }
  | unlinked {table : Listed F.toTableFormat}
      {obsolete : List (Listed F.toTableFormat)}
      (hunlinking : p.compactor = .unlinking (table :: obsolete)) :
    CompactMove disk p .unlink
      { disk with dir := disk.dir.erase table.path }
      { p with compactor := .unlinking obsolete }
  | finished (hunlinking : p.compactor = .unlinking []) :
    CompactMove disk p .unlink disk { p with compactor := .idle }

theorem compactStep_iff_move {disk disk' : Disk F} {p p' : Process F}
    {l : CompactStep} :
    p.compactStep disk l = some (disk', p') ↔
      CompactMove disk p l disk' p' := by
  constructor
  · intro h
    cases l with
    | begin start count =>
        simp only [Process.compactStep] at h
        split at h
        next hidle =>
          split_ifs at h with hguard
          cases h
          exact .begun hidle hguard.1 hguard.2
        next => cases h
    | merge =>
        simp only [Process.compactStep] at h
        split at h
        next hbegun =>
          split at h
          next hmerge => cases h; exact .merged hbegun hmerge
          next hmerge => cases h; exact .unmerged hbegun hmerge
        next => cases h
    | create =>
        simp only [Process.compactStep] at h
        split at h
        next hmerged =>
          split at h
          next hwrite => cases h; exact .created hmerged hwrite
          next => cases h
        next => cases h
    | rename =>
        simp only [Process.compactStep] at h
        split at h
        next hcreated => cases h; exact .renamed hcreated
        next => cases h
    | swap =>
        simp only [Process.compactStep] at h
        split at h
        next hready =>
          split_ifs at h with hrange
          cases h
          exact .swapped hready hrange
        next => cases h
    | unlink =>
        simp only [Process.compactStep] at h
        split at h
        next hunlinking => cases h; exact .unlinked hunlinking
        next hunlinking => cases h; exact .finished hunlinking
        next => cases h
  · intro h
    cases h with
    | begun hidle hcount hrange =>
        simp [Process.compactStep, hidle, hcount, hrange]
    | merged hbegun hmerge => simp [Process.compactStep, hbegun, hmerge]
    | unmerged hbegun hmerge => simp [Process.compactStep, hbegun, hmerge]
    | created hmerged hwrite => simp [Process.compactStep, hmerged, hwrite]
    | renamed hcreated => simp [Process.compactStep, hcreated]
    | swapped hready hrange => simp [Process.compactStep, hready, hrange]
    | unlinked hunlinking => simp [Process.compactStep, hunlinking]
    | finished hunlinking => simp [Process.compactStep, hunlinking]

/-- Where `compact` fails, and what it leaves in the directory. -/
inductive FailMove (disk : Disk F) (p : Process F) :
    Option F.File → Disk F → Prop where
  | read {run : List (Listed F.toTableFormat)} {start count : ℕ}
      {left : Option F.File} (hbegun : p.compactor = .begun run start count) :
    FailMove disk p left disk
  | create {start count : ℕ} {span : Span} {entries : List Entry}
      {file : F.File}
      (hmerged : p.compactor = .merged start count span entries) :
    FailMove disk p (some file)
      { disk with dir := createTmp disk.dir span file }
  | createNone {start count : ℕ} {span : Span} {entries : List Entry}
      (hmerged : p.compactor = .merged start count span entries) :
    FailMove disk p none disk
  | rename {start count : ℕ} {span : Span} {table : F.Table}
      {left : Option F.File}
      (hcreated : p.compactor = .created start count span table) :
    FailMove disk p left disk
  | afterRename {start count : ℕ} {replacement : Listed F.toTableFormat}
      {left : Option F.File}
      (hready : p.compactor = .ready start count (some replacement)) :
    FailMove disk p left disk
  | remove {table : Listed F.toTableFormat}
      {obsolete : List (Listed F.toTableFormat)} {left : Option F.File}
      (hunlinking : p.compactor = .unlinking (table :: obsolete)) :
    FailMove disk p left disk

theorem failed_iff_move {disk disk' : Disk F} {p : Process F}
    {left : Option F.File} :
    p.failed disk left = some disk' ↔ FailMove disk p left disk' := by
  constructor
  · intro h
    unfold Process.failed at h
    split at h
    next hbegun => cases h; exact .read hbegun
    next hmerged =>
      cases left with
      | some file => cases h; exact .create hmerged
      | none => cases h; exact .createNone hmerged
    next hcreated => cases h; exact .rename hcreated
    next hready => cases h; exact .afterRename hready
    next hunlinking => cases h; exact .remove hunlinking
    next => cases h
  · intro h
    cases h with
    | read hbegun => simp only [Process.failed, hbegun]
    | create hmerged => simp only [Process.failed, hmerged]
    | createNone hmerged => simp only [Process.failed, hmerged]
    | rename hcreated => simp only [Process.failed, hcreated]
    | afterRename hready => simp only [Process.failed, hready]
    | remove hunlinking => simp only [Process.failed, hunlinking]

/-- A step of the compactor touches neither the log nor what the writer works
on, and does not look at the writer's position. -/
structure CompactLeaves (disk disk' : Disk F) (p p' : Process F)
    (l : CompactStep) : Prop where
  log : disk'.log = disk.log
  writer : p'.writer = p.writer
  map : p'.db.map = p.db.map
  size : p'.db.size = p.db.size
  config : p'.db.config = p.db.config
  setWriter : ∀ writer,
    ({ p with writer } : Process F).compactStep disk l =
      some (disk', { p' with writer })

theorem compactStep_leaves {disk disk' : Disk F} {p p' : Process F}
    {l : CompactStep} (h : p.compactStep disk l = some (disk', p')) :
    CompactLeaves disk disk' p p' l := by
  have hsetWriter : ∀ writer,
      CompactMove disk { p with writer } l disk' { p' with writer } →
        ({ p with writer } : Process F).compactStep disk l =
          some (disk', { p' with writer }) :=
    fun _ => compactStep_iff_move.mpr
  cases compactStep_iff_move.mp h with
  | begun hidle hcount hrange =>
      exact ⟨rfl, rfl, rfl, rfl, rfl, fun writer =>
        hsetWriter writer (.begun hidle hcount hrange)⟩
  | merged hbegun hmerge =>
      exact ⟨rfl, rfl, rfl, rfl, rfl, fun writer =>
        hsetWriter writer (.merged hbegun hmerge)⟩
  | unmerged hbegun hmerge =>
      exact ⟨rfl, rfl, rfl, rfl, rfl, fun writer =>
        hsetWriter writer (.unmerged hbegun hmerge)⟩
  | created hmerged hwrite =>
      exact ⟨rfl, rfl, rfl, rfl, rfl, fun writer =>
        hsetWriter writer (.created hmerged hwrite)⟩
  | renamed hcreated =>
      exact ⟨rfl, rfl, rfl, rfl, rfl, fun writer =>
        hsetWriter writer (.renamed hcreated)⟩
  | swapped hready hrange =>
      exact ⟨rfl, rfl, rfl, rfl, rfl, fun writer =>
        hsetWriter writer (.swapped hready hrange)⟩
  | unlinked hunlinking =>
      exact ⟨rfl, rfl, rfl, rfl, rfl, fun writer =>
        hsetWriter writer (.unlinked hunlinking)⟩
  | finished hunlinking =>
      exact ⟨rfl, rfl, rfl, rfl, rfl, fun writer =>
        hsetWriter writer (.finished hunlinking)⟩

/-! ## What a step keeps -/

/-- What the steps of the compactor leave to the flush. -/
structure CompactFrame (disk disk' : Disk F) (p p' : Process F) : Prop where
  nextSeq : p'.db.sstableSet.nextSeq = p.db.sstableSet.nextSeq
  tmp : ∀ span : Span, p.db.sstableSet.nextSeq ≤ span.last →
    disk'.dir.get? (tmpName span) = disk.dir.get? (tmpName span)

/-- The invariant at a process. -/
abbrev ProcessTables (o : SpanOrder) (disk : Disk F) (p : Process F)
    (segs extra : List (Segment (Writable Ok)))
    (orphan : Option (Segment (Writable Ok))) : Prop :=
  TablesInv o disk.dir p.db.sstableSet p.compactor segs extra orphan

/-- The list, the files and the compactor still fit together, and show the
same. -/
def KeepsTables (o : SpanOrder) (disk' : Disk F) (p' : Process F)
    (segs : List (Segment (Writable Ok)))
    (orphan : Option (Segment (Writable Ok))) : Prop :=
  ∃ segs' extra', ProcessTables o disk' p' segs' extra' orphan ∧
    ∀ k, shown segs' k = shown segs k

section Steps

variable {disk disk' : Disk F} {p p' : Process F}
  {segs extra : List (Segment (Writable Ok))}
  {orphan : Option (Segment (Writable Ok))} {start count : ℕ}

/-- A step that only moves the compactor keeps the invariant if the new
position fits the old list and files. -/
theorem TablesInv.setCompactor
    (h : ProcessTables o disk p segs extra orphan) {compactor : Compactor F}
    (hphase : Phase o disk.dir segs extra compactor) :
    ProcessTables o disk { p with compactor } segs extra orphan :=
  ⟨h.described, h.order, h.below, h.orphan_span, h.files, hphase⟩

theorem begin_keeps (h : ProcessTables o disk p segs extra orphan)
    (hidle : p.compactor = .idle) (hcount : 2 ≤ count)
    (hrange : start + count ≤ p.db.sstableSet.sstables.length) :
    KeepsTables o disk
      { p with compactor :=
          .begun (runOf p.db.sstableSet.sstables start count) start count }
      segs orphan := by
  have hphase := h.phase
  rw [hidle] at hphase
  rw [h.described.length_eq] at hrange
  exact ⟨segs, extra, h.setCompactor ⟨hphase, hcount, hrange,
    described_run h.described⟩, fun _ => rfl⟩

theorem merge_keeps (h : ProcessTables o disk p segs extra orphan)
    {run : List (Listed F.toTableFormat)}
    (hbegun : p.compactor = .begun run start count) :
    ∃ entries, mergeRun run start = .ok entries ∧
      KeepsTables o disk
        { p with compactor :=
            if entries = [] then .ready start count none
            else .merged start count (runSpan run) entries }
        segs orphan := by
  have hphase := h.phase
  rw [hbegun] at hphase
  obtain ⟨hextra, hcount, hrange, hrun⟩ := hphase
  obtain ⟨entries, hmerge, hof⟩ := mergeRun_eq hrun start
  have hmerged : MergedFrom segs start count entries :=
    ⟨hcount, hrange, hof⟩
  refine ⟨entries, hmerge, segs, extra, h.setCompactor ?_, fun _ => rfl⟩
  by_cases hnil : entries = []
  · subst hnil
    rw [if_pos rfl]
    exact ⟨none, hextra, hmerged, .nil⟩
  · rw [if_neg hnil]
    exact ⟨hextra, hnil, hmerged, runSpan_described hrun⟩

theorem create_keeps (hF : F.toTableFormat.Lawful (Writable Ok))
    (h : ProcessTables o disk p segs extra orphan) {span : Span}
    {entries : List Entry} {file : F.File} {table : F.Table}
    (hmerged : p.compactor = .merged start count span entries)
    (hwrite : F.writeTable p.db.sstableSet.bitsPerKey entries =
      .ok (file, table)) :
    KeepsTables o { disk with dir := createTmp disk.dir span file }
        { p with compactor := .created start count span table } segs orphan ∧
      span.last < p.db.sstableSet.nextSeq := by
  have hphase := h.phase
  rw [hmerged] at hphase
  obtain ⟨hextra, hne, hfrom, hspan⟩ := hphase
  obtain ⟨out, hcontent, hout⟩ := hfrom.exists_output h.order hne
  have houtSpan : span = out.span := hspan.trans hout.span.symm
  subst hcontent
  obtain ⟨hopen, hholds⟩ := hF.write hwrite out.nonempty
    out.ascending out.fits
  have hwaiting : Waiting (createTmp disk.dir span file) out := by
    refine ⟨file, ?_, table, hopen, hholds⟩
    rw [createTmp, get?_insert, if_pos (by rw [houtSpan])]
  constructor
  · exact ⟨segs, extra, ⟨h.described, h.order, h.below, h.orphan_span,
      h.files.createTmp span file, hextra, out, hout, houtSpan, hholds,
      hwaiting⟩, fun _ => rfl⟩
  · rw [hspan]
    exact segmentSpan_last_lt
      (fun d hd => h.below d (List.mem_append_left _ hd)) hfrom.count_ge
      hfrom.in_range

theorem rename_keeps (h : ProcessTables o disk p segs extra orphan)
    {span : Span} {table : F.Table}
    (hcreated : p.compactor = .created start count span table) :
    KeepsTables o { disk with dir := publish disk.dir span }
        { p with compactor :=
            .ready start count (some (listedAt span table)) } segs orphan ∧
      span.last < p.db.sstableSet.nextSeq := by
  have hphase := h.phase
  rw [hcreated] at hphase
  obtain ⟨rfl, out, hout, rfl, hholds, hwaiting⟩ := hphase
  have hbelow : out.span.last < p.db.sstableSet.nextSeq := by
    rw [hout.span]
    exact segmentSpan_last_lt
      (fun d hd => h.below d (List.mem_append_left _ hd))
      hout.merged.count_ge hout.merged.in_range
  refine ⟨⟨segs, [out], ⟨h.described, h.order, ?_, h.orphan_span, ?_,
    some out, rfl, hout, .cons ⟨rfl, rfl, hholds⟩ .nil⟩, fun _ => rfl⟩,
    hbelow⟩
  · intro d hd
    rcases List.mem_append.mp hd with hd | hd
    · exact h.below d (List.mem_append_left _ hd)
    · rw [List.mem_singleton.mp hd]
      exact hbelow
  · -- The output's name is new, so the rename replaces no file.
    refine (h.files.publish hwaiting).of_mem_iff ?_
    intro d
    have hnew : d ∈ segs ++ ([] ++ orphan.toList) → d.name ≠ out.name := by
      intro hd
      rcases List.mem_append.mp hd with hd | hd
      · exact fun hname =>
          hout.span_ne h.order hd (Segment.name_injective hname)
      · exact h.orphan_name_ne hbelow (Option.mem_toList.mp hd)
    rw [List.mem_cons, List.mem_filter, decide_eq_true_iff,
      and_iff_left_of_imp hnew]
    simp only [List.mem_append, List.mem_cons, List.nil_append,
      List.not_mem_nil, or_false]
    tauto

theorem swap_keeps (h : ProcessTables o disk p segs extra orphan)
    {replacement : Option (Listed F.toTableFormat)}
    (hready : p.compactor = .ready start count replacement) :
    KeepsTables o disk
      { p with
        db := { p.db with
          sstableSet := { p.db.sstableSet with
            sstables :=
              spliced p.db.sstableSet.sstables start count replacement } }
        compactor :=
          .unlinking (runOf p.db.sstableSet.sstables start count) }
      segs orphan := by
  have hphase := h.phase
  rw [hready] at hphase
  obtain ⟨segment, rfl, hreplacement, hdescribed⟩ := hphase
  have hmem : ∀ d, d ∈ segmentSplice segs start count segment ++
      (segmentRun segs start count ++ orphan.toList) ↔
        d ∈ segs ++ (segment.toList ++ orphan.toList) := by
    intro d
    rw [← List.append_assoc, ← List.append_assoc, List.mem_append,
      List.mem_append, List.mem_append, List.mem_append, mem_splice_or_run]
  refine ⟨segmentSplice segs start count segment,
    segmentRun segs start count,
    ⟨described_splice h.described _ hdescribed,
      spansInOrder_splice hreplacement h.order, ?_, h.orphan_span,
      h.files.of_mem_iff hmem, described_run h.described,
      spansInOrder_run h.order start count, ?_⟩, ?_⟩
  · intro d hd
    apply h.below
    exact List.mem_append.mpr
      (mem_splice_or_run.mp (List.mem_append.mp hd))
  · cases segment with
    | some out =>
        left
        refine ⟨out, by simp [segmentSplice], ?_⟩
        intro d hd
        rw [hreplacement.span]
        exact within_segmentSpan h.order hreplacement.merged.count_ge
          hreplacement.merged.in_range d hd
    | none =>
        right
        obtain rfl := start_eq_zero_of_empty hreplacement
        refine ⟨?_, shown_run_of_empty hreplacement⟩
        have hwhole : segmentRun segs 0 count ++
            segmentSplice segs 0 count none = segs := by
          simpa [segmentSplice] using segments_split segs 0 count
        rw [hwhole]
        exact h.order
  · intro k
    have hshown := shown_splice hreplacement [] k
    rwa [List.append_nil, List.append_nil] at hshown

theorem unlink_keeps (h : ProcessTables o disk p segs extra orphan)
    {table : Listed F.toTableFormat}
    {obsolete : List (Listed F.toTableFormat)}
    (hunlinking : p.compactor = .unlinking (table :: obsolete)) :
    KeepsTables o { disk with dir := disk.dir.erase table.path }
      { p with compactor := .unlinking obsolete } segs orphan := by
  have hphase := h.phase
  rw [hunlinking] at hphase
  obtain ⟨hdescribed, horder, hcases⟩ := hphase
  cases hdescribed with
  | @cons _ d _ rest hd hrest =>
  obtain ⟨hhead, -⟩ := List.pairwise_cons.mp horder.staircase
  have htail : SpansInOrder o rest := List.Pairwise.of_cons horder
  have hother : ∀ d' ∈ segs ++ (rest ++ orphan.toList),
      d'.name ≠ d.name := by
    intro d' hd'
    simp only [List.mem_append] at hd'
    rcases hd' with hd' | hd' | hd'
    · exact h.name_ne_extra List.mem_cons_self
        (List.mem_append_left _ hd')
    · intro hname
      have hlt := hhead d' hd'
      rw [Segment.name_injective hname] at hlt
      exact lt_irrefl _ hlt.1
    · exact h.name_ne_extra List.mem_cons_self
        (List.mem_append_right _ hd')
  have hfiles : Files (disk.dir.erase d.name)
      (segs ++ (rest ++ orphan.toList)) := by
    refine Files.erase (h.files.of_mem_iff ?_) hother
    intro d'
    simp only [List.mem_append, List.mem_cons]
    tauto
  rw [hd.path]
  refine ⟨segs, rest, ⟨h.described, h.order, ?_, h.orphan_span, hfiles,
    hrest, htail, ?_⟩, fun _ => rfl⟩
  · intro d' hd'
    apply h.below d'
    simp only [List.mem_append, List.mem_cons] at hd' ⊢
    tauto
  · rcases hcases with ⟨out, hout, hwithin⟩ | ⟨hall, hnone⟩
    · exact Or.inl ⟨out, hout, fun d' hd' =>
        hwithin d' (List.mem_cons_of_mem _ hd')⟩
    · exact Or.inr ⟨List.Pairwise.of_cons hall, fun k =>
        Layers.visible_suffix_eq_none (hnone k)
          ⟨[d.layer], rfl⟩⟩

/-- Temporary files of spans up to the next sequence number are not the
writer's. -/
theorem get?_tmpName_createTmp {dir : Dir F.toTableFormat} {span : Span}
    {next : ℕ} (hspan : span.last < next) (file : F.File) (other : Span)
    (hother : next ≤ other.last) :
    (createTmp dir span file).get? (tmpName other) =
      dir.get? (tmpName other) := by
  rw [createTmp, get?_insert, if_neg]
  intro heq
  rw [tmpName_injective heq] at hspan
  omega

theorem get?_tmpName_publish {dir : Dir F.toTableFormat} {span : Span}
    {next : ℕ} (hspan : span.last < next) (other : Span)
    (hother : next ≤ other.last) :
    (publish dir span).get? (tmpName other) = dir.get? (tmpName other) := by
  apply get?_publish_other (tableName_ne_tmpName span other)
  intro heq
  rw [tmpName_injective heq] at hspan
  omega

/-- Every step of the compactor keeps the invariant and what a reader
sees. -/
theorem compactStep_keeps (hF : F.toTableFormat.Lawful (Writable Ok))
    (h : ProcessTables o disk p segs extra orphan) {l : CompactStep}
    (hstep : p.compactStep disk l = some (disk', p')) :
    KeepsTables o disk' p' segs orphan ∧ CompactFrame disk disk' p p' := by
  cases compactStep_iff_move.mp hstep with
  | begun hidle hcount hrange =>
      exact ⟨begin_keeps h hidle hcount hrange, rfl, fun _ _ => rfl⟩
  | merged hbegun hmerge =>
      obtain ⟨entries, hmerge', hkeeps⟩ := merge_keeps h hbegun
      obtain rfl := Except.ok.inj (hmerge.symm.trans hmerge')
      exact ⟨hkeeps, rfl, fun _ _ => rfl⟩
  | unmerged hbegun hmerge =>
      obtain ⟨entries, hmerge', -⟩ := merge_keeps h hbegun
      rw [hmerge] at hmerge'
      cases hmerge'
  | created hmerged hwrite =>
      obtain ⟨hkeeps, hspan⟩ := create_keeps hF h hmerged hwrite
      exact ⟨hkeeps, rfl, get?_tmpName_createTmp hspan _⟩
  | renamed hcreated =>
      obtain ⟨hkeeps, hspan⟩ := rename_keeps h hcreated
      exact ⟨hkeeps, rfl, get?_tmpName_publish hspan⟩
  | swapped hready => exact ⟨swap_keeps h hready, rfl, fun _ _ => rfl⟩
  | unlinked hunlinking =>
      refine ⟨unlink_keeps h hunlinking, rfl, ?_⟩
      have hphase := h.phase
      rw [hunlinking] at hphase
      obtain ⟨hdescribed, -⟩ := hphase
      cases hdescribed with
      | cons hd _ =>
          intro span _
          rw [hd.path, get?_erase, if_neg]
          exact tableName_ne_tmpName _ span
  | finished hunlinking =>
      have hphase := h.phase
      rw [hunlinking] at hphase
      have hextra : extra = [] := by
        cases hphase.1
        rfl
      exact ⟨⟨segs, extra, h.setCompactor hextra, fun _ => rfl⟩, rfl,
        fun _ _ => rfl⟩

end Steps

end Lsmrs
