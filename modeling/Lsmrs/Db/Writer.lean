import Lsmrs.Db.Invariant

/-!
# The writer keeps the invariant

One lemma for each step of `put` and `delete`, failing ones included.  Only
the appends need something of the log: they start behind whole records.
-/

namespace Lsmrs

open ByteString OrderedMap Layers

variable {F : Format} {Ok : Mutation → Prop}
  {hist applied ms : List Mutation}

/-! ## What a step can be -/

/-- The steps of the writer with what each needs and does. -/
inductive WriteTurn (disk : Disk F) (p : Process F) :
    WriteStep F → Disk F → Process F → Prop where
  | append {m : Mutation} (hidle : p.writer = .idle) :
    WriteTurn disk p (.append m) { disk with log := F.append disk.log m }
      { p with writer := .logged m }
  | writeAllFails {m : Mutation} {written : ℕ} (hidle : p.writer = .idle) :
    WriteTurn disk p (.appendFails m (.writeAll written))
      { disk with log := F.torn disk.log m written } p
  | syncDataFails {m : Mutation} (hidle : p.writer = .idle)
      (hsync : p.db.config.sync = true) :
    WriteTurn disk p (.appendFails m .syncData)
      { disk with log := F.append disk.log m } p
  | apply {m : Mutation} (hlogged : p.writer = .logged m) :
    WriteTurn disk p .apply disk
      { p with
        db := p.db.apply m
        writer :=
          if (p.db.apply m).config.tableSize < (p.db.apply m).size then
            .flushing
          else .idle }
  | createNone (hflushing : p.writer = .flushing)
      (hnil : p.db.map.entries = []) :
    WriteTurn disk p .create disk { p with writer := .registered }
  | create {file : F.File} {table : F.Table}
      (hflushing : p.writer = .flushing) (hne : p.db.map.entries ≠ [])
      (hwrite : F.writeTable p.db.sstableSet.bitsPerKey p.db.map.entries =
        .ok (file, table)) :
    WriteTurn disk p .create
      { disk with
        dir := createTmp disk.dir
          ⟨p.db.sstableSet.nextSeq, p.db.sstableSet.nextSeq⟩ file }
      { p with writer := .created p.db.sstableSet.nextSeq table }
  | rename {seq : ℕ} {table : F.Table}
      (hcreated : p.writer = .created seq table) :
    WriteTurn disk p .rename
      { disk with dir := publish disk.dir ⟨seq, seq⟩ }
      { p with writer := .published seq table }
  | register {seq : ℕ} {table : F.Table}
      (hpublished : p.writer = .published seq table)
      (hseq : seq < u64Max) :
    WriteTurn disk p .register disk
      { p with
        db := { p.db with
          map := OrderedMap.empty
          sstableSet := p.db.sstableSet.register seq table }
        writer := .registered }
  | truncate (hregistered : p.writer = .registered) :
    WriteTurn disk p .truncate { disk with log := F.emptyLog }
      { p with db := { p.db with size := 0 }, writer := .idle }
  | nothingCreated (hflushing : p.writer = .flushing) :
    WriteTurn disk p (.flushFails (.create none)) disk
      { p with writer := .idle }
  | halfCreated {file : F.File} (hflushing : p.writer = .flushing) :
    WriteTurn disk p (.flushFails (.create (some file)))
      { disk with
        dir := createTmp disk.dir
          ⟨p.db.sstableSet.nextSeq, p.db.sstableSet.nextSeq⟩ file }
      { p with writer := .idle }
  | renameFails {seq : ℕ} {table : F.Table}
      (hcreated : p.writer = .created seq table) :
    WriteTurn disk p (.flushFails .rename) disk { p with writer := .idle }
  | registerFails {seq : ℕ} {table : F.Table}
      (hpublished : p.writer = .published seq table) :
    WriteTurn disk p (.flushFails .afterRename) disk
      { p with writer := .idle }
  | truncateFails {effective : Bool} (hregistered : p.writer = .registered) :
    WriteTurn disk p (.flushFails (.truncate effective))
      { disk with log := if effective then F.emptyLog else disk.log }
      { p with writer := .idle }

theorem writeStep_turn {disk disk' : Disk F} {p p' : Process F}
    {l : WriteStep F} (h : p.writeStep disk l = some (disk', p')) :
    WriteTurn disk p l disk' p' := by
  cases l with
  | append m =>
      simp only [Process.writeStep] at h
      split at h
      next hidle => cases h; exact .append hidle
      next => cases h
  | appendFails m fault =>
      cases fault with
      | writeAll written =>
          simp only [Process.writeStep] at h
          split at h
          next hidle => cases h; exact .writeAllFails hidle
          next => cases h
      | syncData =>
          simp only [Process.writeStep] at h
          split at h
          next hidle =>
            split_ifs at h with hsync
            cases h
            exact .syncDataFails hidle hsync
          next => cases h
  | apply =>
      simp only [Process.writeStep] at h
      split at h
      next m hlogged => cases h; exact .apply hlogged
      next => cases h
  | create =>
      simp only [Process.writeStep] at h
      split at h
      next hflushing =>
        split_ifs at h with hnil
        · cases h
          exact .createNone hflushing hnil
        · split at h
          next file table hwrite =>
            cases h
            exact .create hflushing hnil hwrite
          next => cases h
      next => cases h
  | rename =>
      simp only [Process.writeStep] at h
      split at h
      next seq table hcreated => cases h; exact .rename hcreated
      next => cases h
  | register =>
      simp only [Process.writeStep] at h
      split at h
      next seq table hpublished =>
        split_ifs at h with hseq
        cases h
        exact .register hpublished hseq
      next => cases h
  | truncate =>
      simp only [Process.writeStep] at h
      split at h
      next hregistered => cases h; exact .truncate hregistered
      next => cases h
  | flushFails fault =>
      cases fault with
      | create left =>
          simp only [Process.writeStep] at h
          split at h
          next hflushing =>
            cases h
            cases left with
            | none => exact .nothingCreated hflushing
            | some file => exact .halfCreated hflushing
          next => cases h
      | rename =>
          simp only [Process.writeStep] at h
          split at h
          next seq table hcreated => cases h; exact .renameFails hcreated
          next => cases h
      | afterRename =>
          simp only [Process.writeStep] at h
          split at h
          next seq table hpublished =>
            cases h
            exact .registerFails hpublished
          next => cases h
      | truncate effective =>
          simp only [Process.writeStep] at h
          split at h
          next hregistered => cases h; exact .truncateFails hregistered
          next => cases h

theorem WriteTurn.writeStep_eq {disk disk' : Disk F} {p p' : Process F}
    {l : WriteStep F} (h : WriteTurn disk p l disk' p') :
    p.writeStep disk l = some (disk', p') := by
  cases h with
  | append hidle => simp only [Process.writeStep, hidle]
  | writeAllFails hidle => simp only [Process.writeStep, hidle]
  | syncDataFails hidle hsync =>
      simp only [Process.writeStep, hidle, if_pos hsync]
  | apply hlogged => simp only [Process.writeStep, hlogged]
  | createNone hflushing hnil =>
      simp only [Process.writeStep, hflushing, if_pos hnil]
  | create hflushing hne hwrite =>
      simp only [Process.writeStep, hflushing, if_neg hne, hwrite]
  | rename hcreated => simp only [Process.writeStep, hcreated]
  | register hpublished hseq =>
      simp only [Process.writeStep, hpublished, if_pos hseq]
  | truncate hregistered => simp only [Process.writeStep, hregistered]
  | nothingCreated hflushing => simp only [Process.writeStep, hflushing]
  | halfCreated hflushing => simp only [Process.writeStep, hflushing]
  | renameFails hcreated => simp only [Process.writeStep, hcreated]
  | registerFails hpublished => simp only [Process.writeStep, hpublished]
  | truncateFails hregistered => simp only [Process.writeStep, hregistered]

theorem WriteTurn.step_eq {disk disk' : Disk F} {p p' : Process F}
    {l : WriteStep F} (h : WriteTurn disk p l disk' p') :
    (⟨disk, some p⟩ : State F).step (.write l) = some ⟨disk', some p'⟩ := by
  simp only [State.step, Option.bind_eq_bind, Option.bind_some,
    h.writeStep_eq]
  rfl

/-! ## The log -/

theorem record_injective : Function.Injective Mutation.record := by
  intro m m' h
  cases m <;> cases m' <;> cases h <;> rfl

/-- The log ends where a record ends. -/
def LogWhole (Ok : Mutation → Prop) (log : F.Log) : Prop :=
  ∃ ms, (∀ m ∈ ms, Ok m) ∧ log = F.logOf ms

theorem LogShows.replay_eq (hF : F.Lawful Ok) {log : F.Log}
    (h : LogShows Ok log ms) (hms : ∀ m ∈ ms, Ok m) :
    F.replay log = .ok (ms.map Mutation.record) := by
  rcases h with rfl | ⟨m, written, hm, rfl⟩
  · exact hF.replay hms
  · exact hF.replay_torn written hms hm

/-- A log that ends where a record ends is the log of what it shows. -/
theorem LogShows.eq_logOf (hF : F.Lawful Ok) {log : F.Log}
    (h : LogShows Ok log ms) (hms : ∀ m ∈ ms, Ok m)
    (hwhole : LogWhole Ok log) : log = F.logOf ms := by
  obtain ⟨ms', hms', rfl⟩ := hwhole
  have hsame := (hF.replay hms').symm.trans (h.replay_eq hF hms)
  have hmap : ms'.map Mutation.record = ms.map Mutation.record :=
    Except.ok.inj hsame
  rw [List.map_injective_iff.mpr record_injective hmap]

namespace ProcessInv

variable {segs extra : List (Segment (Writable Ok))}
  {orphan : Option (Segment (Writable Ok))}
  {disk : Disk F} {p : Process F} {m : Mutation}

theorem log_ok
    (h : ProcessInv Ok hist applied ms segs extra orphan disk p) :
    ∀ m ∈ ms, Ok m :=
  fun m hm => h.hist_ok m (h.log_hist.subset hm)

/-- Between calls everything logged is applied. -/
theorem applied_eq
    (h : ProcessInv Ok hist applied ms segs extra orphan disk p)
    (hpending : p.writer.pending = []) : applied = hist := by
  rw [h.hist_eq, hpending, List.append_nil]

/-! ## Appending -/

theorem append (hF : F.Lawful Ok)
    (h : ProcessInv Ok hist applied ms segs extra orphan disk p)
    (hidle : p.writer = .idle) (hm : Ok m)
    (hwhole : LogWhole Ok disk.log) :
    ProcessInv Ok (hist ++ [m]) applied (ms ++ [m]) segs extra orphan
      { disk with log := F.append disk.log m }
      { p with writer := .logged m } where
  tables := h.tables
  next_le := h.next_le
  hist_ok := by
    intro m' hm'
    rcases List.mem_append.mp hm' with hm' | hm'
    · exact h.hist_ok m' hm'
    · rw [List.mem_singleton.mp hm']
      exact hm
  hist_eq := by
    rw [h.applied_eq (by rw [hidle]; rfl)]
    rfl
  log := by
    left
    rw [h.log.eq_logOf hF h.log_ok hwhole]
    exact F.logOf_concat ms m
  log_hist := by
    obtain ⟨old, hold⟩ := h.log_hist
    exact ⟨old, by rw [← hold, List.append_assoc]⟩
  pending_log := List.suffix_append ms [m]
  map_hist := h.map_hist
  map_log := by
    intro k hk
    rw [effect_concat]
    split_ifs
    · rfl
    · exact h.map_log k hk
  orphan_map := h.orphan_map
  shows := h.shows
  flush := trivial

/-- A `write_all` that fails leaves a torn record. -/
theorem tear (hF : F.Lawful Ok)
    (h : ProcessInv Ok hist applied ms segs extra orphan disk p) (hm : Ok m)
    (hwhole : LogWhole Ok disk.log) (written : ℕ) :
    ProcessInv Ok hist applied ms segs extra orphan
      { disk with log := F.torn disk.log m written } p :=
  { h with
    log := Or.inr ⟨m, written, hm, by
      rw [h.log.eq_logOf hF h.log_ok hwhole]⟩ }

/-! ## Applying -/

theorem apply
    (h : ProcessInv Ok hist applied ms segs extra orphan disk p)
    (hlogged : p.writer = .logged m) {writer : Writer F}
    (hwriter : writer = .flushing ∨ writer = .idle) :
    ProcessInv Ok hist hist ms segs extra orphan disk
      { p with db := p.db.apply m, writer } := by
  have happlied : hist = applied ++ [m] := by rw [h.hist_eq, hlogged]; rfl
  have hpending : writer.pending = [] := by
    rcases hwriter with rfl | rfl <;> rfl
  have hmap := get?_apply p.db m
  constructor
  case tables => exact h.tables
  case next_le => exact h.next_le
  case hist_ok => exact h.hist_ok
  case hist_eq => rw [hpending, List.append_nil]
  case log => exact h.log
  case log_hist => exact h.log_hist
  case pending_log =>
    rw [hpending]
    exact List.nil_suffix
  case map_hist =>
    intro k e hk
    rw [hmap] at hk
    rw [happlied, effect_concat]
    split_ifs at hk ⊢ with hkey
    · exact hk
    · exact h.map_hist k e hk
  case map_log =>
    intro k hk
    rw [hmap] at hk
    split_ifs at hk with hkey
    · have hsuffix := h.pending_log
      rw [hlogged] at hsuffix
      have hsaid : effect [m] k = some m.value := by
        rw [← List.nil_append [m], effect_concat, if_pos hkey]
      rw [effect_suffix hsuffix hsaid]
      rfl
    · exact h.map_log k hk
  case orphan_map =>
    intro o ho k hk
    rw [hmap]
    split_ifs
    · rfl
    · exact h.orphan_map o ho k hk
  case shows =>
    intro k hk
    rw [hmap] at hk
    split_ifs at hk with hkey
    rw [happlied, effect_concat, if_neg hkey]
    exact h.shows k hk
  case flush => rcases hwriter with rfl | rfl <;> exact trivial

/-! ## Flushing -/

/-- A step that only gives up the flush. -/
theorem giveUp
    (h : ProcessInv Ok hist applied ms segs extra orphan disk p)
    (hpending : p.writer.pending = []) :
    ProcessInv Ok hist applied ms segs extra orphan disk
      { p with writer := .idle } := by
  have hhist := h.hist_eq
  rw [hpending] at hhist
  exact { h with
    hist_eq := hhist
    pending_log := List.nil_suffix
    flush := trivial }

/-- The segment that a flush writes. -/
theorem exists_flushed
    (h : ProcessInv Ok hist applied ms segs extra orphan disk p)
    (hne : p.db.map.entries ≠ []) :
    ∃ d : Segment (Writable Ok),
      d.span = ⟨p.db.sstableSet.nextSeq, p.db.sstableSet.nextSeq⟩ ∧
        d.content = p.db.map.entries :=
  ⟨{ span := _
     content := _
     ordered := le_rfl
     bounded := h.next_le
     nonempty := hne
     ascending := p.db.map.ascending
     fits := h.map_entries_ok }, rfl, rfl⟩

/-- Nothing to write counts as written. -/
theorem createNone
    (h : ProcessInv Ok hist applied ms segs extra orphan disk p)
    (hflushing : p.writer = .flushing) (hnil : p.db.map.entries = []) :
    ProcessInv Ok hist applied ms segs extra orphan disk
      { p with writer := .registered } := by
  have hhist := h.hist_eq
  rw [hflushing] at hhist
  exact { h with
    hist_eq := hhist
    pending_log := List.nil_suffix
    flush := hnil }

theorem create (hF : F.Lawful Ok)
    (h : ProcessInv Ok hist applied ms segs extra orphan disk p)
    (hflushing : p.writer = .flushing) (hne : p.db.map.entries ≠ [])
    {file : F.File} {table : F.Table}
    (hwrite : F.writeTable p.db.sstableSet.bitsPerKey p.db.map.entries =
      .ok (file, table)) :
    ProcessInv Ok hist applied ms segs extra orphan
      { disk with
        dir := createTmp disk.dir
          ⟨p.db.sstableSet.nextSeq, p.db.sstableSet.nextSeq⟩ file }
      { p with writer := .created p.db.sstableSet.nextSeq table } := by
  have hhist := h.hist_eq
  rw [hflushing] at hhist
  obtain ⟨d, hspan, hcontent⟩ := h.exists_flushed hne
  rw [← hcontent] at hwrite
  obtain ⟨hopen, hholds⟩ := hF.tables.write hwrite d.nonempty d.ascending
    d.fits
  exact { h with
    tables := h.tables.createTmp file
    hist_eq := hhist
    pending_log := List.nil_suffix
    flush := by
      refine ⟨rfl, d, hspan, hcontent, hholds, file, ?_, table, hopen,
        hholds⟩
      rw [createTmp, get?_insert, if_pos (by rw [hspan])] }

/-- The flush stops before its temporary file is whole. -/
theorem createFails
    (h : ProcessInv Ok hist applied ms segs extra orphan disk p)
    (hflushing : p.writer = .flushing) (file : F.File) :
    ProcessInv Ok hist applied ms segs extra orphan
      { disk with
        dir := createTmp disk.dir
          ⟨p.db.sstableSet.nextSeq, p.db.sstableSet.nextSeq⟩ file }
      { p with writer := .idle } := by
  have hidle := h.giveUp (by rw [hflushing]; rfl)
  exact { hidle with tables := h.tables.createTmp file }

theorem rename
    (h : ProcessInv Ok hist applied ms segs extra orphan disk p)
    {seq : ℕ} {table : F.Table} (hcreated : p.writer = .created seq table) :
    ∃ orphan', ProcessInv Ok hist applied ms segs extra orphan'
      { disk with dir := publish disk.dir ⟨seq, seq⟩ }
      { p with writer := .published seq table } := by
  have hhist := h.hist_eq
  have hflush := h.flush
  rw [FlushInv, hcreated] at hflush
  rw [hcreated] at hhist
  obtain ⟨rfl, d, hspan, hcontent, hholds, hwaiting⟩ := hflush
  exact ⟨some d, { h with
    tables := h.tables.publish hspan hwaiting
    hist_eq := hhist
    pending_log := List.nil_suffix
    orphan_map := by
      intro o ho k hk
      rw [← Option.mem_some_iff.mp ho, Segment.layer, hcontent] at hk
      exact hk
    flush := ⟨rfl, d, rfl, hcontent, hholds⟩ }⟩

theorem register
    (h : ProcessInv Ok hist applied ms segs extra orphan disk p)
    {seq : ℕ} {table : F.Table}
    (hpublished : p.writer = .published seq table) (hseq : seq < u64Max) :
    ∃ segs', ProcessInv Ok hist applied ms segs' extra none disk
      { p with
        db := { p.db with
          map := OrderedMap.empty
          sstableSet := p.db.sstableSet.register seq table }
        writer := .registered } := by
  have hhist := h.hist_eq
  have hflush := h.flush
  rw [FlushInv, hpublished] at hflush
  rw [hpublished] at hhist
  obtain ⟨rfl, d, rfl, hcontent, hholds⟩ := hflush
  have hlayer : ∀ k, d.layer k = p.db.map.get? k := by
    intro k
    rw [Segment.layer, hcontent]
    rfl
  refine ⟨segs ++ [d], { h with
    tables := TablesInv.register h.tables hholds
    next_le := hseq
    hist_eq := hhist
    pending_log := List.nil_suffix
    map_hist := by simp
    map_log := by simp
    orphan_map := by simp
    shows := ?_
    flush := rfl }⟩
  intro k _
  have htop : tells [d] k = p.db.map.get? k := by
    rw [← hlayer]
    exact stack_singleton _ k
  cases hmap : p.db.map.get? k with
  | none =>
      rw [hmap] at htop
      rw [shown_append_of_none htop]
      exact h.shows k hmap
  | some e =>
      rw [shown, visible, tells_append, htop, hmap, h.map_hist k e hmap]
      rfl

/-- The log is emptied, or not, once the memtable is in the tables. -/
theorem truncate
    (h : ProcessInv Ok hist applied ms segs extra orphan disk p)
    (hregistered : p.writer = .registered) (size : ℕ) (effective : Bool) :
    ∃ ms', ProcessInv Ok hist applied ms' segs extra orphan
      { disk with log := if effective then F.emptyLog else disk.log }
      { p with db := { p.db with size }, writer := .idle } := by
  have hflush := h.flush
  rw [FlushInv, hregistered] at hflush
  have hmap : ∀ k, p.db.map.get? k = none := by
    intro k
    rw [OrderedMap.get?, hflush]
    rfl
  have hidle := h.giveUp (by rw [hregistered]; rfl)
  cases effective with
  | false => exact ⟨ms, { hidle with tables := h.tables }⟩
  | true =>
      exact ⟨[], { hidle with
        tables := h.tables
        log := Or.inl rfl
        log_hist := List.nil_suffix
        pending_log := List.nil_suffix
        map_log := by
          intro k hk
          rw [hmap] at hk
          cases hk }⟩

end ProcessInv

end Lsmrs
