import Lsmrs.Db.Recovery
import Lsmrs.Sstable.FailedCompaction

/-!
# A database whatever its directory holds

A compaction that fails may leave files that are in no list, and a reopening
opens what it finds.  An open database looks at none of them: with its own
files alone in the directory it takes the same steps, and there it follows
the history.
-/

namespace Lsmrs

open ByteString OrderedMap Layers

variable {F : Format} {Ok : Mutation → Prop} {hist : List Mutation}

/-! ## Directories of whole tables -/

section Directory

variable {T : TableFormat} {EntryOk : Entry → Prop} {dir own : Dir T}
  {all : List (Segment EntryOk)}

/-- Every `.sst` file is a whole table under the name of its span. -/
structure WholeFiles (dir : Dir T) (all : List (Segment EntryOk)) :
    Prop where
  files : Files dir all
  distinct : (all.map Segment.span).Nodup

namespace WholeFiles

theorem createTmp (h : WholeFiles dir all) (span : Span) (file : T.File) :
    WholeFiles (createTmp dir span file) all :=
  ⟨h.files.createTmp span file, h.distinct⟩

theorem publish (h : WholeFiles dir all) {d : Segment EntryOk}
    (hwaiting : Waiting dir d) :
    WholeFiles (publish dir d.span) (published all d) :=
  ⟨h.files.publish hwaiting, published_distinct h.distinct d⟩

theorem removeAll (h : WholeFiles dir all) (names : List Bytes) :
    WholeFiles (removeAll dir names)
      (all.filter fun d => d.name ∉ names) :=
  ⟨h.files.removeAll names,
    h.distinct.sublist (List.filter_sublist.map _)⟩

/-- A reopening keeps some of them. -/
theorem exists_shows (h : WholeFiles dir all) :
    ∃ kept, Shows dir all kept := by
  obtain ⟨kept, hsubset, hstairs, hcovers⟩ := exists_kept h.distinct
  exact ⟨kept, h.files, hsubset, hstairs, hcovers⟩

end WholeFiles

/-- The directories have the same files but for `.sst` files. -/
def SameOthers (dir own : Dir T) : Prop :=
  ∀ name, ¬ IsSst name → own.get? name = dir.get? name

namespace SameOthers

theorem createTmp (h : SameOthers dir own) (span : Span) (file : T.File) :
    SameOthers (createTmp dir span file) (createTmp own span file) := by
  intro name hname
  rw [Lsmrs.createTmp, Lsmrs.createTmp, get?_insert, get?_insert,
    h name hname]

theorem publish (h : SameOthers dir own) (span : Span) :
    SameOthers (publish dir span) (publish own span) := by
  intro name hname
  rw [Lsmrs.publish, Lsmrs.publish, h _ (not_isSst_tmpName span)]
  cases dir.get? (tmpName span) with
  | none => exact h name hname
  | some file =>
      dsimp only
      rw [get?_insert, get?_insert, get?_erase, get?_erase, h name hname]

theorem erase (h : SameOthers dir own) (removed : Bytes) :
    SameOthers (dir.erase removed) (own.erase removed) := by
  intro name hname
  rw [get?_erase, get?_erase, h name hname]

theorem waiting (h : SameOthers dir own) {d : Segment EntryOk}
    (hwaiting : Waiting own d) : Waiting dir d := by
  obtain ⟨file, hfile, hstores⟩ := hwaiting
  rw [h _ (not_isSst_tmpName d.span)] at hfile
  exact ⟨file, hfile, hstores⟩

end SameOthers

end Directory

/-! ## Steps among other files -/

section Steps

variable {disk disk' : Disk F} {p p' : Process F}
  {own : Dir F.toTableFormat}

/-- A writer does not see the `.sst` files. -/
theorem WriteTurn.inOwn {l : WriteStep F}
    (h : WriteTurn disk p l disk' p') (hsame : SameOthers disk.dir own) :
    ∃ own', SameOthers disk'.dir own' ∧
      WriteTurn ⟨disk.log, own⟩ p l ⟨disk'.log, own'⟩ p' := by
  cases h with
  | append hidle => exact ⟨own, hsame, .append hidle⟩
  | writeAllFails hidle => exact ⟨own, hsame, .writeAllFails hidle⟩
  | syncDataFails hidle hsync =>
      exact ⟨own, hsame, .syncDataFails hidle hsync⟩
  | apply hlogged => exact ⟨own, hsame, .apply hlogged⟩
  | createNone hflushing hnil =>
      exact ⟨own, hsame, .createNone hflushing hnil⟩
  | create hflushing hne hwrite =>
      exact ⟨_, hsame.createTmp _ _, .create hflushing hne hwrite⟩
  | rename hcreated => exact ⟨_, hsame.publish _, .rename hcreated⟩
  | register hpublished hseq =>
      exact ⟨own, hsame, .register hpublished hseq⟩
  | truncate hregistered => exact ⟨own, hsame, .truncate hregistered⟩
  | nothingCreated hflushing =>
      exact ⟨own, hsame, .nothingCreated hflushing⟩
  | halfCreated hflushing =>
      exact ⟨_, hsame.createTmp _ _, .halfCreated hflushing⟩
  | renameFails hcreated => exact ⟨own, hsame, .renameFails hcreated⟩
  | registerFails hpublished =>
      exact ⟨own, hsame, .registerFails hpublished⟩
  | truncateFails hregistered =>
      exact ⟨own, hsame, .truncateFails hregistered⟩

/-- Neither does a compactor; it removes those of its run. -/
theorem CompactMove.inOwn {l : CompactStep}
    (h : CompactMove disk p l disk' p') (hsame : SameOthers disk.dir own) :
    ∃ own', SameOthers disk'.dir own' ∧
      CompactMove ⟨disk.log, own⟩ p l ⟨disk'.log, own'⟩ p' := by
  cases h with
  | begun hidle hcount hrange =>
      exact ⟨own, hsame, .begun hidle hcount hrange⟩
  | merged hbegun hmerge => exact ⟨own, hsame, .merged hbegun hmerge⟩
  | unmerged hbegun hmerge => exact ⟨own, hsame, .unmerged hbegun hmerge⟩
  | created hmerged hwrite =>
      exact ⟨_, hsame.createTmp _ _, .created hmerged hwrite⟩
  | renamed hcreated => exact ⟨_, hsame.publish _, .renamed hcreated⟩
  | swapped hready hrange => exact ⟨own, hsame, .swapped hready hrange⟩
  | unlinked hunlinking =>
      exact ⟨_, hsame.erase _, .unlinked hunlinking⟩
  | finished hunlinking => exact ⟨own, hsame, .finished hunlinking⟩

variable {all : List (Segment (Writable Ok))}

/-- What a thread renames next is a whole table. -/
structure Process.Awaits (Ok : Mutation → Prop) (p : Process F)
    (dir : Dir F.toTableFormat) : Prop where
  flush : ∀ {seq : ℕ} {table : F.Table}, p.writer = .created seq table →
    ∃ d : Segment (Writable Ok), d.span = ⟨seq, seq⟩ ∧ Waiting dir d
  merge : ∀ {start count : ℕ} {span : Span} {table : F.Table},
    p.compactor = .created start count span table →
      ∃ d : Segment (Writable Ok), d.span = span ∧ Waiting dir d

theorem WriteTurn.wholeFiles {l : WriteStep F}
    (h : WriteTurn disk p l disk' p') (hfiles : WholeFiles disk.dir all)
    (hawaits : p.Awaits Ok disk.dir) :
    ∃ all' : List (Segment (Writable Ok)), WholeFiles disk'.dir all' := by
  cases h with
  | create => exact ⟨all, hfiles.createTmp _ _⟩
  | halfCreated => exact ⟨all, hfiles.createTmp _ _⟩
  | rename hcreated =>
      obtain ⟨d, hspan, hwaiting⟩ := hawaits.flush hcreated
      rw [← hspan]
      exact ⟨_, hfiles.publish hwaiting⟩
  | append => exact ⟨all, hfiles⟩
  | writeAllFails => exact ⟨all, hfiles⟩
  | syncDataFails => exact ⟨all, hfiles⟩
  | apply => exact ⟨all, hfiles⟩
  | createNone => exact ⟨all, hfiles⟩
  | register => exact ⟨all, hfiles⟩
  | truncate => exact ⟨all, hfiles⟩
  | nothingCreated => exact ⟨all, hfiles⟩
  | renameFails => exact ⟨all, hfiles⟩
  | registerFails => exact ⟨all, hfiles⟩
  | truncateFails => exact ⟨all, hfiles⟩

theorem CompactMove.wholeFiles {l : CompactStep}
    (h : CompactMove disk p l disk' p') (hfiles : WholeFiles disk.dir all)
    (hawaits : p.Awaits Ok disk.dir) :
    ∃ all' : List (Segment (Writable Ok)), WholeFiles disk'.dir all' := by
  cases h with
  | created => exact ⟨all, hfiles.createTmp _ _⟩
  | renamed hcreated =>
      obtain ⟨d, hspan, hwaiting⟩ := hawaits.merge hcreated
      rw [← hspan]
      exact ⟨_, hfiles.publish hwaiting⟩
  | @unlinked table => exact ⟨_, hfiles.removeAll [table.path]⟩
  | begun => exact ⟨all, hfiles⟩
  | merged => exact ⟨all, hfiles⟩
  | unmerged => exact ⟨all, hfiles⟩
  | swapped => exact ⟨all, hfiles⟩
  | finished => exact ⟨all, hfiles⟩

end Steps

/-! ## A compaction that fails -/

/-- Without the files beside the list, the compactor may as well be idle. -/
theorem TablesInv.giveUp {EntryOk : Entry → Prop} {o : SpanOrder}
    {dir : Dir F.toTableFormat} {set : SSTableSet F.toTableFormat}
    {compactor : Compactor F} {segs extra : List (Segment EntryOk)}
    {orphan : Option (Segment EntryOk)}
    (h : TablesInv o dir set compactor segs extra orphan) :
    TablesInv (F := F) o (removeAll dir (extra.map Segment.name)) set .idle
      segs [] orphan where
  described := h.described
  order := h.order
  below := by
    intro d hd
    rw [List.append_nil] at hd
    exact h.below d (List.mem_append_left _ hd)
  orphan_span := h.orphan_span
  files := by
    refine (h.files.removeAll _).of_mem_iff ?_
    intro d
    rw [List.mem_filter, decide_eq_true_iff, List.nil_append]
    constructor
    · intro hd
      refine ⟨?_, ?_⟩
      · rw [List.mem_append] at hd
        simp only [List.mem_append]
        tauto
      · intro hmem
        obtain ⟨e, he, hname⟩ := List.mem_map.mp hmem
        exact h.name_ne_extra he hd hname.symm
    · rintro ⟨hd, hnot⟩
      simp only [List.mem_append] at hd ⊢
      rcases hd with hd | hd | hd
      · exact Or.inl hd
      · exact absurd (List.mem_map_of_mem hd) hnot
      · exact Or.inr hd
  phase := rfl

section Failed

variable {applied ms : List Mutation}
  {segs extra : List (Segment (Writable Ok))}
  {orphan : Option (Segment (Writable Ok))} {disk disk' : Disk F}
  {p : Process F} {own : Dir F.toTableFormat} {log : F.Log}

/-- An error inside `compact` may leave a temporary file, and removes
nothing. -/
theorem failed_cases {left : Option F.File}
    (h : p.failed disk left = some disk') :
    disk' = disk ∨ ∃ file, left = some file ∧ ∃ start count span entries,
      p.compactor = .merged start count span entries ∧
        disk' = { disk with dir := createTmp disk.dir span file } := by
  cases failed_iff_move.mp h with
  | create hmerged =>
      exact Or.inr ⟨_, rfl, _, _, _, _, hmerged, rfl⟩
  | read => exact Or.inl rfl
  | createNone => exact Or.inl rfl
  | rename => exact Or.inl rfl
  | afterRename => exact Or.inl rfl
  | remove => exact Or.inl rfl

theorem sameOthers_removeAll (h : SameOthers disk.dir own) :
    SameOthers disk.dir (removeAll own (extra.map Segment.name)) := by
  intro name hname
  rw [get?_removeAll, if_neg, h name hname]
  intro hmem
  obtain ⟨d, -, rfl⟩ := List.mem_map.mp hmem
  exact hname d.isSst_name

/-- What the directory keeps of a compaction that fails is not the
database's own. -/
theorem ProcessInv.failed {left : Option F.File}
    (h : ProcessInv Ok hist applied ms segs extra orphan ⟨log, own⟩ p)
    (hsame : SameOthers disk.dir own)
    (hfailed : p.failed disk left = some disk') :
    ∃ own', SameOthers disk'.dir own' ∧
      ProcessInv Ok hist applied ms segs [] orphan ⟨log, own'⟩
        { p with compactor := .idle } := by
  have hidle : ∀ {own' : Dir F.toTableFormat},
      TablesInv (F := F) .stairs own' p.db.sstableSet .idle segs [] orphan →
        (∀ span : Span, p.db.sstableSet.nextSeq ≤ span.last →
          own'.get? (tmpName span) = own.get? (tmpName span)) →
            ProcessInv Ok hist applied ms segs [] orphan ⟨log, own'⟩
              { p with compactor := .idle } := fun htables htmp =>
    { h with
      tables := htables
      flush := h.flush.congr rfl rfl rfl htmp }
  have hgiveUp := h.tables.giveUp
  rcases failed_cases hfailed with
    rfl | ⟨file, -, start, count, span, entries, hat, rfl⟩
  · refine ⟨_, sameOthers_removeAll hsame, hidle hgiveUp ?_⟩
    intro span _
    rw [get?_removeAll, if_neg]
    intro hmem
    obtain ⟨d, -, hname⟩ := List.mem_map.mp hmem
    exact tableName_ne_tmpName _ _ hname
  · have hphase := h.tables.phase
    rw [hat] at hphase
    obtain ⟨rfl, -, hmerged, hspan⟩ := hphase
    have hlt : span.last < p.db.sstableSet.nextSeq := by
      rw [hspan]
      exact segmentSpan_last_lt
        (fun d hd => h.tables.below d (List.mem_append_left _ hd))
        hmerged.count_ge hmerged.in_range
    exact ⟨_, hsame.createTmp span file,
      hidle { hgiveUp with files := hgiveUp.files.createTmp span file }
        (get?_tmpName_createTmp hlt file)⟩

end Failed

/-! ## Segments as a history -/

/-- The mutations that leave what the segments hold. -/
def told (segs : List (Segment (Writable Ok))) : List Mutation :=
  segs.flatMap fun d => d.content.map Mutation.ofEntry

theorem mem_told {segs : List (Segment (Writable Ok))} :
    ∀ m ∈ told segs, Ok m := by
  intro m hm
  obtain ⟨d, hd, hm⟩ := List.mem_flatMap.mp hm
  obtain ⟨e, he, rfl⟩ := List.mem_map.mp hm
  exact d.fits e he

theorem layer_ofEntry (e : Entry) (k : Bytes) :
    (Mutation.ofEntry e).layer k = if e.1 = k then some e.2 else none := by
  obtain ⟨key, value⟩ := e
  cases value with
  | none => rfl
  | some value => rfl

theorem effect_ofEntries {entries : List Entry} (h : Ascending entries)
    (k : Bytes) :
    effect (entries.map Mutation.ofEntry) k = find entries k := by
  induction entries with
  | nil => rfl
  | cons e entries ih =>
      have hcons : effect ((e :: entries).map Mutation.ofEntry) k =
          (effect (entries.map Mutation.ofEntry) k).or
            ((Mutation.ofEntry e).layer k) := rfl
      rw [hcons, ih h.tail, layer_ofEntry, find_cons]
      split_ifs with hkey
      · -- The key of the first entry is not among the others.
        have hnone : find entries k = none := by
          rw [find_eq_none_iff]
          intro p hp heq
          have hlt := h.head_lt hp
          rw [heq, hkey] at hlt
          exact lt_irrefl _ hlt
        rw [hnone, Option.none_or]
      · rw [Option.or_none]

theorem effect_told (segs : List (Segment (Writable Ok))) (k : Bytes) :
    effect (told segs) k = tells segs k := by
  induction segs with
  | nil => rfl
  | cons d segs ih =>
      have hcons : told (d :: segs) =
          d.content.map Mutation.ofEntry ++ told segs := rfl
      rw [hcons, effect_append, ih, effect_ofEntries d.ascending]
      rfl

/-- Segments on disk, and a log of good mutations above them, follow some
history. -/
theorem diskInv_of_shows {disk : Disk F}
    {all kept : List (Segment (Writable Ok))}
    (hshows : Shows disk.dir all kept) {ms : List Mutation}
    (hms : ∀ m ∈ ms, Ok m) (hlog : LogShows Ok disk.log ms) :
    DiskInv Ok (told kept ++ ms) ms all kept disk where
  hist_ok := by
    intro m hm
    rcases List.mem_append.mp hm with hm | hm
    · exact mem_told m hm
    · exact hms m hm
  log := hlog
  log_hist := List.suffix_append _ ms
  files := hshows
  shows := by
    intro k hk
    rw [effect_of_suffix_none hk, effect_told]
    rfl

/-! ## The invariant -/

/-- An open database follows the history in a directory of its own. -/
structure OpenAmid (Ok : Mutation → Prop) (hist : List Mutation)
    (all : List (Segment (Writable Ok))) (own : Dir F.toTableFormat)
    (disk : Disk F) (p : Process F) : Prop where
  same : SameOthers disk.dir own
  files : WholeFiles disk.dir all
  inv : Inv Ok hist ⟨⟨disk.log, own⟩, some p⟩

/-- A directory nobody has open can be opened. -/
structure ClosedAmid (Ok : Mutation → Prop) (hist ms : List Mutation)
    (all : List (Segment (Writable Ok))) (disk : Disk F) : Prop where
  hist_ok : ∀ m ∈ hist, Ok m
  log_ok : ∀ m ∈ ms, Ok m
  log : LogShows Ok disk.log ms
  files : WholeFiles disk.dir all

/-- Whatever files lie beside its own, an open database follows the
history. -/
def Amid (Ok : Mutation → Prop) (hist : List Mutation) (s : State F) :
    Prop :=
  match s.process with
  | some p => ∃ all own, OpenAmid Ok hist all own s.disk p
  | none => ∃ ms all, ClosedAmid Ok hist ms all s.disk

theorem amid_initial : Amid Ok [] (State.initial F) :=
  ⟨[], [], {
    hist_ok := List.forall_mem_nil _
    log_ok := List.forall_mem_nil _
    log := Or.inl rfl
    files := by
      refine ⟨⟨List.forall_mem_nil _, ?_⟩, List.nodup_nil⟩
      intro name _ hsome
      cases hsome }⟩

namespace Amid

variable {s s' : State F}

theorem opened {p : Process F} (h : Amid Ok hist s)
    (hp : s.process = some p) :
    ∃ all own, OpenAmid Ok hist all own s.disk p := by
  rwa [Amid, hp] at h

theorem closed (h : Amid Ok hist s) (hp : s.process = none) :
    ∃ ms all, ClosedAmid Ok hist ms all s.disk := by
  rwa [Amid, hp] at h

/-- What holds of an open database, in a directory of its own. -/
theorem process {p : Process F} (h : Amid Ok hist s)
    (hp : s.process = some p) : ∃ own applied ms segs extra orphan,
      ProcessInv Ok hist applied ms segs extra orphan ⟨s.disk.log, own⟩
        p := by
  obtain ⟨all, own, hopen⟩ := h.opened hp
  exact ⟨own, hopen.inv.process rfl⟩

theorem readsAs (h : Amid Ok hist s) : s.ReadsAs hist := by
  intro p hp
  obtain ⟨all, own, hopen⟩ := h.opened hp
  exact hopen.inv.readsAs p rfl

theorem hist_ok (h : Amid Ok hist s) : ∀ m ∈ hist, Ok m := by
  cases hp : s.process with
  | none =>
      obtain ⟨ms, all, hclosed⟩ := h.closed hp
      exact hclosed.hist_ok
  | some p =>
      obtain ⟨own, _, _, _, _, _, hprocess⟩ := h.process hp
      exact hprocess.hist_ok

end Amid

theorem ProcessInv.awaits {applied ms : List Mutation}
    {segs extra : List (Segment (Writable Ok))}
    {orphan : Option (Segment (Writable Ok))} {disk : Disk F}
    {own : Dir F.toTableFormat} {log : F.Log} {p : Process F}
    (h : ProcessInv Ok hist applied ms segs extra orphan ⟨log, own⟩ p)
    (hsame : SameOthers disk.dir own) : p.Awaits Ok disk.dir where
  flush := by
    intro seq table hat
    have hflush := h.flush
    rw [FlushInv, hat] at hflush
    obtain ⟨-, d, hspan, -, -, hwaiting⟩ := hflush
    exact ⟨d, hspan, hsame.waiting hwaiting⟩
  merge := by
    intro start count span table hat
    have hphase := h.tables.phase
    rw [hat] at hphase
    obtain ⟨-, out, -, hspan, -, hwaiting⟩ := hphase
    exact ⟨out, hspan.symm, hsame.waiting hwaiting⟩

/-! ## What a step keeps -/

theorem StepOk.congr_log {s s' : State F} {l : Label F}
    (h : StepOk Ok s l) (hlog : s'.disk.log = s.disk.log) :
    StepOk Ok s' l := by
  unfold StepOk at h ⊢
  rwa [hlog]

section Step

variable {all : List (Segment (Writable Ok))} {own : Dir F.toTableFormat}
  {disk disk' : Disk F} {p p' : Process F}

theorem OpenAmid.write (hF : F.Lawful Ok)
    (h : OpenAmid Ok hist all own disk p) {l : WriteStep F}
    (hok : StepOk Ok ⟨disk, some p⟩ (.write l))
    (hstep : p.writeStep disk l = some (disk', p')) :
    ∃ all' own',
      OpenAmid Ok (hist ++ (Label.write l).logged.toList) all' own' disk'
        p' := by
  have hturn := writeStep_turn hstep
  obtain ⟨own', hsame, hown⟩ := hturn.inOwn h.same
  obtain ⟨_, _, _, _, _, hprocess⟩ := h.inv.process rfl
  obtain ⟨all', hfiles⟩ :=
    hturn.wholeFiles h.files (hprocess.awaits h.same)
  exact ⟨all', own', hsame, hfiles,
    step_inv hF h.inv (hok.congr_log rfl) trivial hown.step_eq⟩

theorem OpenAmid.compact (hF : F.Lawful Ok)
    (h : OpenAmid Ok hist all own disk p) {l : CompactStep}
    (hstep : p.compactStep disk l = some (disk', p')) :
    ∃ all' own', OpenAmid Ok hist all' own' disk' p' := by
  have hmove := compactStep_iff_move.mp hstep
  obtain ⟨own', hsame, hown⟩ := hmove.inOwn h.same
  obtain ⟨_, _, _, _, _, hprocess⟩ := h.inv.process rfl
  obtain ⟨all', hfiles⟩ :=
    hmove.wholeFiles h.files (hprocess.awaits h.same)
  have hstep' : (⟨⟨disk.log, own⟩, some p⟩ : State F).step (.compact l) =
      some ⟨⟨disk'.log, own'⟩, some p'⟩ := by
    simp only [State.step, Option.bind_eq_bind, Option.bind_some,
      compactStep_iff_move.mpr hown]
    rfl
  have hok : StepOk Ok (⟨⟨disk.log, own⟩, some p⟩ : State F)
      (.compact l) := trivial
  exact ⟨all', own', hsame, hfiles,
    step_inv_of_silent hF h.inv hok trivial rfl hstep'⟩

theorem OpenAmid.compactFails (h : OpenAmid Ok hist all own disk p)
    {left : Option F.File} (hfailed : p.failed disk left = some disk') :
    ∃ all' own',
      OpenAmid Ok hist all' own' disk' { p with compactor := .idle } := by
  obtain ⟨applied, ms, segs, extra, orphan, hprocess⟩ :=
    h.inv.process rfl
  obtain ⟨own', hsame, hprocess'⟩ := hprocess.failed h.same hfailed
  have hfiles : WholeFiles disk'.dir all := by
    rcases failed_cases hfailed with rfl | ⟨_, -, _, _, _, _, -, rfl⟩
    · exact h.files
    · exact h.files.createTmp _ _
  refine ⟨all, own', hsame, hfiles, ?_⟩
  rw [failed_log hfailed]
  exact ⟨applied, ms, segs, [], orphan, hprocess'⟩

/-- What an open database leaves on disk at any moment. -/
theorem OpenAmid.crash (h : OpenAmid Ok hist all own disk p) :
    ∃ ms, ms <:+ hist ∧ p.writer.pending <:+ ms ∧
      ClosedAmid Ok hist ms all disk := by
  obtain ⟨applied, ms, segs, extra, orphan, hprocess⟩ :=
    h.inv.process rfl
  exact ⟨ms, hprocess.log_hist, hprocess.pending_log, hprocess.hist_ok,
    hprocess.log_ok, hprocess.log, h.files⟩

theorem ClosedAmid.without {ms : List Mutation}
    (h : ClosedAmid Ok hist ms all disk) (names : List Bytes) :
    ∃ all', ClosedAmid Ok hist ms all'
      { disk with dir := removeAll disk.dir names } :=
  ⟨_, { h with files := h.files.removeAll names }⟩

/-- What is opened on a directory follows what its log and the tables that
are kept say. -/
theorem ClosedAmid.recover (hF : F.Lawful Ok) {ms : List Mutation}
    (h : ClosedAmid Ok hist ms all disk) {listing : List Bytes}
    (hperm : listing.Perm disk.dir.keys) (config : Config) :
    ∃ kept, Shows disk.dir all kept ∧
      ((∃ db, Db.withConfig config listing disk =
          (.ok db, { disk with
            dir := removeAll disk.dir (openRemovals listing) }) ∧
        Inv Ok (told kept ++ ms)
          ⟨{ disk with dir := removeAll disk.dir (openRemovals listing) },
            some ⟨db, .idle, .idle⟩⟩) ∨
        (∃ d ∈ all, d.span.last = u64Max) ∧
          Db.withConfig config listing disk =
            (.error .panic, { disk with
              dir := removeAll disk.dir (openRemovals listing) })) := by
  obtain ⟨kept, hshows⟩ := h.files.exists_shows
  refine ⟨kept, hshows, ?_⟩
  have hdisk := diskInv_of_shows hshows h.log_ok h.log
  rcases hdisk.recover hF hperm config with
    ⟨db, hdb, -, -, hprocess⟩ | ⟨hlast, herror⟩
  · exact Or.inl ⟨db, hdb, _, _, _, _, _, hprocess⟩
  · exact Or.inr ⟨hlast, herror⟩

end Step

namespace Amid

variable {s s' : State F}

theorem writeStep (hF : F.Lawful Ok) (h : Amid Ok hist s) {l : WriteStep F}
    (hok : StepOk Ok s (.write l)) (hstep : s.step (.write l) = some s') :
    Amid Ok (hist ++ (Label.write l).logged.toList) s' := by
  obtain ⟨p, p', hp, hp', hwrite⟩ := State.step_write hstep
  obtain ⟨all, own, hopen⟩ := h.opened hp
  rw [Amid, hp']
  exact hopen.write hF (hok.congr_log rfl) hwrite

theorem compactStep (hF : F.Lawful Ok) (h : Amid Ok hist s)
    {l : CompactStep} (hstep : s.step (.compact l) = some s') :
    Amid Ok hist s' := by
  obtain ⟨p, p', hp, hp', hcompact⟩ := State.step_compact hstep
  obtain ⟨all, own, hopen⟩ := h.opened hp
  rw [Amid, hp']
  exact hopen.compact hF hcompact

theorem compactFails (h : Amid Ok hist s) {left : Option F.File}
    (hstep : s.step (.compactFails left) = some s') : Amid Ok hist s' := by
  obtain ⟨p, hp, hp', hfailed⟩ := State.step_compactFails hstep
  obtain ⟨all, own, hopen⟩ := h.opened hp
  rw [Amid, hp']
  exact hopen.compactFails hfailed

/-- What a step of the threads keeps. -/
theorem step (hF : F.Lawful Ok) (h : Amid Ok hist s) {l : Label F}
    (hl : l.Running) (hok : StepOk Ok s l) (hstep : s.step l = some s') :
    Amid Ok (hist ++ l.logged.toList) s' := by
  have hsilent : ∀ {hist}, Amid Ok hist s' →
      Amid Ok (hist ++ (none : Option Mutation).toList) s' := by
    intro hist h
    rwa [Option.toList_none, List.append_nil]
  cases l with
  | write l => exact h.writeStep hF hok hstep
  | compact l => exact hsilent (h.compactStep hF hstep)
  | compactFails left => exact hsilent (h.compactFails hstep)
  | crash => exact hl.elim
  | crashInOpen listing removed => exact hl.elim
  | recover config listing => exact hl.elim

/-- What a run of the threads keeps. -/
theorem exec (hF : F.Lawful Ok) {labels : List (Label F)}
    (h : Amid Ok hist s) (hl : ∀ l ∈ labels, l.Running)
    (hok : RunOk Ok s labels) (hrun : s.exec labels = some s') :
    Amid Ok (hist ++ history labels) s' :=
  RunOk.exec_traces (Amid Ok)
    (fun h hl hok hstep => h.step hF hl hok hstep) h hl hok hrun

theorem crash (h : Amid Ok hist s) (hstep : s.step .crash = some s') :
    Amid Ok hist s' := by
  simp only [State.step] at hstep
  split at hstep
  next p hp =>
    obtain rfl := Option.some.inj hstep
    obtain ⟨all, own, hopen⟩ := h.opened hp
    obtain ⟨ms, -, -, hclosed⟩ := hopen.crash
    exact ⟨ms, all, hclosed⟩
  next => cases hstep

theorem crashInOpen (h : Amid Ok hist s) {listing : List Bytes}
    {removed : ℕ} (hstep : s.step (.crashInOpen listing removed) = some s') :
    Amid Ok hist s' := by
  simp only [State.step] at hstep
  split at hstep
  next hp _ =>
    split_ifs at hstep
    obtain rfl := Option.some.inj hstep
    obtain ⟨ms, all, hclosed⟩ := h.closed hp
    exact ⟨ms, hclosed.without _⟩
  next => cases hstep

theorem recover (hF : F.Lawful Ok) (h : Amid Ok hist s) {config : Config}
    {listing : List Bytes} (hstep : s.step (.recover config listing) =
      some s') : ∃ hist', Amid Ok hist' s' := by
  obtain ⟨hp, hperm, hopened⟩ := State.step_recover hstep
  obtain ⟨ms, all, hclosed⟩ := h.closed hp
  obtain ⟨kept, -, ⟨db, hdb, hinv⟩ | ⟨-, herror⟩⟩ :=
    hclosed.recover hF hperm config
  · rcases hopened with ⟨db', hdb', hp'⟩ | ⟨e, he, -⟩
    · obtain ⟨hresult, hdisk⟩ := Prod.mk.inj (hdb.symm.trans hdb')
      obtain rfl := Except.ok.inj hresult
      refine ⟨told kept ++ ms, ?_⟩
      rw [Amid, hp', ← hdisk]
      exact ⟨_, _, fun _ _ => rfl, hclosed.files.removeAll _, hinv⟩
    · cases hdb.symm.trans he
  · rcases hopened with ⟨db', hdb', -⟩ | ⟨e, he, hp'⟩
    · cases herror.symm.trans hdb'
    · obtain ⟨-, hdisk⟩ := Prod.mk.inj (herror.symm.trans he)
      refine ⟨hist, ?_⟩
      rw [Amid, hp', ← hdisk]
      exact ⟨ms, hclosed.without _⟩

end Amid

end Lsmrs
