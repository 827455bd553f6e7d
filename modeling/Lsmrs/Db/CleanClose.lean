import Lsmrs.Db.Closing

/-!
# A clean close

In a run without I/O errors the log replays to the memtable and every table
on disk is listed, or about to be.  Once `drop` has joined the thread nothing
is under way, so what a later opening finds is the database that was dropped.
-/

namespace Lsmrs

open ByteString OrderedMap

variable {F : Format} {Ok : Mutation → Prop}

/-! ## The log replays to the memtable -/

/-- What the log holds is what the memtable stores, up to a mutation that is
not applied yet and to a log that is about to be emptied. -/
structure Mirrors (Ok : Mutation → Prop) (log : F.Log) (ms : List Mutation)
    (p : Process F) : Prop where
  log_ok : ∀ m ∈ ms ++ p.writer.pending, Ok m
  log : log = F.logOf (ms ++ p.writer.pending)
  map : p.writer ≠ .registered → ∀ k, p.db.map.get? k = effect ms k
  emptied : p.writer = .registered → p.db.map.entries = []

namespace Mirrors

variable {log : F.Log} {ms : List Mutation} {disk disk' : Disk F}
  {p p' : Process F}

theorem setWriter (h : Mirrors Ok log ms p) (hpending : p.writer.pending = [])
    (hat : p.writer ≠ .registered) {writer : Writer F}
    (hpending' : writer.pending = []) (hat' : writer ≠ .registered) :
    Mirrors Ok log ms { p with writer } := by
  have hok := h.log_ok
  have hlog := h.log
  rw [hpending, ← hpending'] at hok hlog
  exact ⟨hok, hlog, fun _ => h.map hat, fun heq => absurd heq hat'⟩

theorem append {m : Mutation} (h : Mirrors Ok log ms p)
    (hidle : p.writer = .idle) (hm : Ok m) :
    Mirrors Ok (F.append log m) ms { p with writer := .logged m } := by
  have hok := h.log_ok
  have hlog := h.log
  rw [show p.writer.pending = [] by rw [hidle]; rfl, List.append_nil]
    at hok hlog
  refine ⟨?_, ?_, fun _ => h.map (by rw [hidle]; nofun), nofun⟩
  · exact List.forall_mem_append.mpr ⟨hok, List.forall_mem_singleton.mpr hm⟩
  · rw [hlog]
    exact F.logOf_concat ms m

theorem apply {m : Mutation} (h : Mirrors Ok log ms p)
    (hlogged : p.writer = .logged m) {writer : Writer F}
    (hpending : writer.pending = []) (hat : writer ≠ .registered) :
    Mirrors Ok log (ms ++ [m]) { p with db := p.db.apply m, writer } := by
  have hok := h.log_ok
  have hlog := h.log
  have hmap := h.map (by rw [hlogged]; nofun)
  rw [show p.writer.pending = [m] by rw [hlogged]; rfl] at hok hlog
  refine ⟨?_, ?_, fun _ k => ?_, fun heq => absurd heq hat⟩
  · rwa [hpending, List.append_nil]
  · rwa [hpending, List.append_nil]
  · rw [get?_apply, effect_concat, hmap]

/-- Once the memtable is written the log has yet to be emptied. -/
theorem written (h : Mirrors Ok log ms p) (hpending : p.writer.pending = [])
    {db : Db F} (hnil : db.map.entries = []) :
    Mirrors Ok log ms { p with db, writer := .registered } := by
  have hok := h.log_ok
  have hlog := h.log
  rw [hpending] at hok hlog
  exact ⟨hok, hlog, fun hat => absurd rfl hat, fun _ => hnil⟩

theorem truncate (h : Mirrors Ok log ms p)
    (hregistered : p.writer = .registered) (size : ℕ) :
    Mirrors Ok F.emptyLog []
      { p with db := { p.db with size }, writer := .idle } := by
  refine ⟨by simp [Writer.pending], rfl, fun _ k => ?_, nofun⟩
  dsimp only
  rw [OrderedMap.get?, h.emptied hregistered]
  rfl

theorem writeStep (h : Mirrors Ok disk.log ms p) {l : WriteStep F}
    (hl : (Label.write l).Faultless)
    (hm : ∀ m ∈ (Label.write l).logged, Ok m)
    (hstep : p.writeStep disk l = some (disk', p')) :
    ∃ ms', Mirrors Ok disk'.log ms' p' := by
  cases writeStep_turn hstep with
  | append hidle => exact ⟨ms, h.append hidle (hm _ rfl)⟩
  | writeAllFails => exact hl.elim
  | syncDataFails => exact hl.elim
  | apply hlogged =>
      refine ⟨_, h.apply hlogged ?_ ?_⟩
      · split_ifs <;> rfl
      · split_ifs <;> nofun
  | createNone hflushing hnil =>
      exact ⟨ms, h.written (by rw [hflushing]; rfl) hnil⟩
  | create hflushing =>
      exact ⟨ms, h.setWriter (by rw [hflushing]; rfl)
        (by rw [hflushing]; nofun) rfl nofun⟩
  | rename hcreated =>
      exact ⟨ms, h.setWriter (by rw [hcreated]; rfl)
        (by rw [hcreated]; nofun) rfl nofun⟩
  | register hpublished =>
      exact ⟨ms, h.written (by rw [hpublished]; rfl) rfl⟩
  | truncate hregistered => exact ⟨[], h.truncate hregistered 0⟩
  | nothingCreated => exact hl.elim
  | halfCreated => exact hl.elim
  | renameFails => exact hl.elim
  | registerFails => exact hl.elim
  | truncateFails => exact hl.elim

theorem compactStep (h : Mirrors Ok disk.log ms p) {l : CompactStep}
    (hstep : p.compactStep disk l = some (disk', p')) :
    Mirrors Ok disk'.log ms p' := by
  have hleaves := compactStep_leaves hstep
  constructor
  case log_ok => rw [hleaves.writer]; exact h.log_ok
  case log => rw [hleaves.log, hleaves.writer]; exact h.log
  case map => rw [hleaves.writer, hleaves.map]; exact h.map
  case emptied => rw [hleaves.writer, hleaves.map]; exact h.emptied

theorem recover (hF : F.Lawful Ok) {config : Config} {listing : List Bytes}
    {db : Db F} (hwhole : LogWhole Ok disk.log)
    (hdb : Db.withConfig config listing disk = (.ok db, disk')) :
    ∃ ms, Mirrors Ok disk'.log ms ⟨db, .idle, .idle⟩ := by
  obtain ⟨ms, hms, hlog⟩ := hwhole
  obtain ⟨records, hreplay, hmap, -, hlog'⟩ := withConfig_eq_ok hdb
  have hrecords : records = ms.map Mutation.record := by
    have h := hF.replay hms
    rw [← hlog, hreplay] at h
    exact Except.ok.inj h
  refine ⟨ms, ?_, ?_, fun _ k => ?_, nofun⟩
  · simpa [Writer.pending] using hms
  · rw [hlog', hlog]
    simp [Writer.pending]
  · dsimp only
    rw [hmap, hrecords, get?_replay]

end Mirrors

/-! ## What a run without errors keeps -/

/-- A published table is listed by the next step. -/
def Writer.Publishes : Writer F → Prop
  | .published _ _ => True
  | _ => False

/-- The invariant of a run without I/O errors. -/
def Unfailing (Ok : Mutation → Prop) (s : State F) : Prop :=
  match s.process with
  | some p =>
    (∃ hist applied ms segs extra orphan,
      ProcessInv Ok hist applied ms segs extra orphan s.disk p ∧
        (p.writer.Publishes ∨ orphan = none)) ∧
      ∃ ms, Mirrors Ok s.disk.log ms p
  | none => (∃ hist, Inv Ok hist s) ∧ LogWhole Ok s.disk.log

theorem Mirrors.logWhole {log : F.Log} {ms : List Mutation}
    {p : Process F} (h : Mirrors Ok log ms p) : LogWhole Ok log :=
  ⟨_, h.log_ok, h.log⟩

section Steps

variable {hist applied ms : List Mutation}
  {segs extra : List (Segment (Writable Ok))}
  {orphan : Option (Segment (Writable Ok))} {disk disk' : Disk F}
  {p p' : Process F}

/-- Only a step that is about to list its table leaves one unlisted. -/
theorem writeStep_lists (hF : F.Lawful Ok)
    (h : ProcessInv Ok hist applied ms segs extra orphan disk p)
    (horphan : p.writer.Publishes ∨ orphan = none)
    (hwhole : LogWhole Ok disk.log) {l : WriteStep F}
    (hl : (Label.write l).Faultless)
    (hm : ∀ m ∈ (Label.write l).logged, Ok m)
    (hstep : p.writeStep disk l = some (disk', p')) :
    ∃ hist' applied' ms' segs' extra' orphan',
      ProcessInv Ok hist' applied' ms' segs' extra' orphan' disk' p' ∧
        (p'.writer.Publishes ∨ orphan' = none) := by
  have hnone : ∀ {writer : Writer F}, p.writer = writer →
      ¬ writer.Publishes → orphan = none := by
    rintro writer rfl hnot
    exact horphan.resolve_left hnot
  cases writeStep_turn hstep with
  | append hidle =>
      exact ⟨_, _, _, _, _, _, h.append hF hidle (hm _ rfl) hwhole,
        Or.inr (hnone hidle id)⟩
  | writeAllFails => exact hl.elim
  | syncDataFails => exact hl.elim
  | apply hlogged =>
      refine ⟨_, _, _, _, _, _, h.apply hlogged ?_,
        Or.inr (hnone hlogged id)⟩
      split_ifs
      · exact Or.inl rfl
      · exact Or.inr rfl
  | createNone hflushing hnil =>
      exact ⟨_, _, _, _, _, _, h.createNone hflushing hnil,
        Or.inr (hnone hflushing id)⟩
  | create hflushing hne hwrite =>
      exact ⟨_, _, _, _, _, _, h.create hF hflushing hne hwrite,
        Or.inr (hnone hflushing id)⟩
  | rename hcreated =>
      obtain ⟨orphan', h'⟩ := h.rename hcreated
      exact ⟨_, _, _, _, _, _, h', Or.inl trivial⟩
  | register hpublished hseq =>
      obtain ⟨segs', h'⟩ := h.register hpublished hseq
      exact ⟨_, _, _, _, _, _, h', Or.inr rfl⟩
  | truncate hregistered =>
      obtain ⟨ms', h'⟩ := h.truncate hregistered 0 true
      exact ⟨_, _, _, _, _, _, h', Or.inr (hnone hregistered id)⟩
  | nothingCreated => exact hl.elim
  | halfCreated => exact hl.elim
  | renameFails => exact hl.elim
  | registerFails => exact hl.elim
  | truncateFails => exact hl.elim

end Steps

theorem Unfailing.inv {s : State F} (h : Unfailing Ok s) :
    ∃ hist, Inv Ok hist s := by
  rw [Unfailing] at h
  cases hp : s.process with
  | some p =>
      rw [hp] at h
      obtain ⟨⟨hist, applied, ms, segs, extra, orphan, hinv, -⟩, -⟩ := h
      refine ⟨hist, ?_⟩
      rw [Inv, hp]
      exact ⟨applied, ms, segs, extra, orphan, hinv⟩
  | none =>
      rw [hp] at h
      exact h.1

theorem Unfailing.logWhole {s : State F} (h : Unfailing Ok s) :
    LogWhole Ok s.disk.log := by
  rw [Unfailing] at h
  cases hp : s.process with
  | some p =>
      rw [hp] at h
      obtain ⟨-, ms, hmirrors⟩ := h
      exact hmirrors.logWhole
  | none =>
      rw [hp] at h
      exact h.2

theorem Unfailing.step (hF : F.Lawful Ok) {s s' : State F} {l : Label F}
    (h : Unfailing Ok s) (hl : l.Faultless) (hm : ∀ m ∈ l.logged, Ok m)
    (hstep : s.step l = some s') : Unfailing Ok s' := by
  have hwhole := h.logWhole
  have happend := hl.onlyFlushFails.appendSucceeds
  have hwhole' := step_logWhole hwhole happend hm hstep
  obtain ⟨hist, hinv⟩ := h.inv
  have hinv' : Inv Ok (hist ++ l.logged.toList) s' :=
    step_inv hF hinv (stepOk_of_appendSucceeds hwhole happend hm)
      hl.onlyFlushFails.compacts hstep
  rw [Unfailing]
  cases hp' : s'.process with
  | none => exact ⟨⟨_, hinv'⟩, hwhole'⟩
  | some p' =>
      cases l with
      | write l =>
          obtain ⟨p, q, hp, hq, hwrite⟩ := State.step_write hstep
          obtain rfl := Option.some.inj (hq.symm.trans hp')
          rw [Unfailing, hp] at h
          obtain ⟨⟨hist, applied, ms, segs, extra, orphan, hprocess,
            horphan⟩, ms', hmirrors⟩ := h
          exact ⟨writeStep_lists hF hprocess horphan hwhole hl hm hwrite,
            hmirrors.writeStep hl hm hwrite⟩
      | compact l =>
          obtain ⟨p, q, hp, hq, hcompact⟩ := State.step_compact hstep
          obtain rfl := Option.some.inj (hq.symm.trans hp')
          rw [Unfailing, hp] at h
          obtain ⟨⟨hist, applied, ms, segs, extra, orphan, hprocess,
            horphan⟩, ms', hmirrors⟩ := h
          obtain ⟨segs', extra', hprocess'⟩ :=
            compact_inv hF hprocess hcompact
          refine ⟨⟨hist, applied, ms, segs', extra', orphan, hprocess', ?_⟩,
            ms', hmirrors.compactStep hcompact⟩
          rwa [(compactStep_leaves hcompact).writer]
      | compactFails left => exact hl.elim
      | crash =>
          simp only [State.step] at hstep
          split at hstep <;> cases hstep
          cases hp'
      | crashInOpen listing removed =>
          simp only [State.step] at hstep
          split at hstep
          next => split_ifs at hstep; cases hstep; cases hp'
          next => cases hstep
      | recover config listing =>
          obtain ⟨hp, hperm, hopened⟩ := State.step_recover hstep
          obtain ⟨ms, all, kept, hdisk⟩ := hinv.closed hp
          rcases hopened with ⟨db, hdb, hp''⟩ | ⟨e, -, hp''⟩
          · obtain rfl := Option.some.inj (hp''.symm.trans hp')
            refine ⟨?_, Mirrors.recover hF hwhole hdb⟩
            rcases hdisk.recover hF hperm config with
              ⟨db', hdb', -, -, hprocess⟩ | ⟨-, herror⟩
            · obtain ⟨hresult, hdir⟩ := Prod.mk.inj (hdb'.symm.trans hdb)
              rw [← hdir, ← Except.ok.inj hresult]
              exact ⟨hist, hist, ms, kept, [], none, hprocess, Or.inr rfl⟩
            · cases herror.symm.trans hdb
          · rw [hp''] at hp'
            cases hp'

theorem unfailing_initial (F : Format) (Ok : Mutation → Prop) :
    Unfailing Ok (State.initial F) :=
  ⟨⟨[], initial_inv F Ok⟩, logWhole_nil Ok⟩

theorem Unfailing.exec (hF : F.Lawful Ok) {s s' : State F}
    {labels : List (Label F)} (h : Unfailing Ok s)
    (hl : ∀ l ∈ labels, l.Faultless) (hm : ∀ m ∈ history labels, Ok m)
    (hrun : s.exec labels = some s') : Unfailing Ok s' :=
  State.exec_keeps (Unfailing Ok)
    (fun h hl hm hstep => h.step hF hl hm hstep) h hl hm hrun

/-! ## What is opened again -/

/-- The same memtable and tables over the same spans, with the same
values. -/
structure Db.SameContents (db db' : Db F) : Prop where
  map : db'.map = db.map
  spans : db'.sstableSet.sstables.map Listed.span =
    db.sstableSet.sstables.map Listed.span
  get : ∀ key, db'.get key = db.get key

/-- Opening the directory gives the contents of the database back and
removes no table. -/
def Db.ReopensExactly (db : Db F) (disk : Disk F) : Prop :=
  ∀ (config : Config) (listing : List Bytes), listing.Perm disk.dir.keys →
    ∃ db' disk', Db.withConfig config listing disk = (.ok db', disk') ∧
      db.SameContents db' ∧
        ∀ name, IsSst name → disk'.dir.get? name = disk.dir.get? name

/-- With nothing under way the listed segments are what the directory
shows. -/
theorem ProcessInv.shows_listed {hist applied ms : List Mutation}
    {segs extra : List (Segment (Writable Ok))} {disk : Disk F}
    {p : Process F}
    (h : ProcessInv Ok hist applied ms segs extra none disk p)
    (hidle : p.compactor = .idle) : Shows disk.dir segs segs := by
  have hphase := h.tables.phase
  rw [hidle] at hphase
  obtain rfl : extra = [] := hphase
  have hfiles := h.tables.files
  rw [Option.toList_none, List.append_nil, List.append_nil] at hfiles
  exact ⟨hfiles, fun _ hd => hd, h.tables.order.staircase,
    fun d hd => ⟨d, hd, le_rfl, le_rfl⟩⟩

theorem Unfailing.reopensExactly (hF : F.Lawful Ok) {s : State F}
    {p : Process F} (h : Unfailing Ok s) (hp : s.process = some p)
    (hwriter : p.writer = .idle) (hcompactor : p.compactor = .idle) :
    p.db.ReopensExactly s.disk := by
  rw [Unfailing, hp] at h
  obtain ⟨⟨hist, applied, ms', segs, extra, orphan, hinv, horphan⟩, ms,
    hmirrors⟩ := h
  obtain rfl : orphan = none := by
    refine horphan.resolve_left ?_
    rw [hwriter]
    exact id
  have hok := hmirrors.log_ok
  have hlog := hmirrors.log
  have hmap := hmirrors.map (by rw [hwriter]; nofun)
  rw [show p.writer.pending = [] by rw [hwriter]; rfl, List.append_nil]
    at hok hlog
  have hreplay : F.replay s.disk.log = .ok (ms.map Mutation.record) := by
    rw [hlog]
    exact hF.replay hok
  have hshows := hinv.shows_listed hcompactor
  have hbelow : ∀ d ∈ segs, d.span.last < u64Max := fun d hd =>
    (hinv.tables.below d (List.mem_append_left _ hd)).trans_le hinv.next_le
  intro config listing hperm
  obtain ⟨set, hopen, hdescribed, -, -, -⟩ := SSTableSet.open_eq hshows hperm
    hbelow config.path config.bitsPerKey
  have hmemtable : (ms.map Mutation.record).foldl replayRecord
      OrderedMap.empty = p.db.map :=
    ext_get? fun k => by rw [get?_replay, hmap]
  refine ⟨⟨p.db.map, 0, config, set⟩,
    { s.disk with dir := removeAll s.disk.dir (openRemovals listing) },
    ?_, ⟨rfl, ?_, ?_⟩, ?_⟩
  · rw [Db.withConfig, hreplay]
    dsimp only
    rw [hopen, hmemtable]
  · exact (described_spans hdescribed).trans
      (described_spans hinv.tables.described).symm
  · intro key
    rw [Db.get, Db.get, SSTableSet.get_eq hdescribed,
      SSTableSet.get_eq hinv.tables.described]
  · intro name hsst
    rw [get?_removeAll, if_neg]
    intro hmem
    rcases mem_openRemovals hshows hperm hmem with hnot | ⟨d, hd, -, hnot⟩
    · exact hnot hsst
    · exact hnot (List.mem_map_of_mem hd)

/-- No I/O error happens in the step. -/
def OwnerStep.Faultless (l : OwnerStep F) : Prop :=
  ∀ label ∈ l.label, label.Faultless

instance (l : OwnerStep F) : Decidable l.Faultless :=
  inferInstanceAs (Decidable (∀ label ∈ l.label, label.Faultless))

/-- When `drop` has joined the thread after a run without I/O errors, every
later opening gives back what was dropped: the memtable, and with it the
scan, the tables and what they read, and no table's file is removed. -/
theorem reopens_exactly (hash : Bytes → UInt32) (gauge : Gauge byteTables)
    {steps : List (OwnerStep (byteFormat hash))}
    {s : Owned (byteFormat hash)} {o : Opened (byteFormat hash)}
    (hsteps : ∀ l ∈ steps, l.Faultless)
    (hfits : ∀ m ∈ history (machineRun steps), m.record.Fits)
    (hrun : (Owned.initial (byteFormat hash)).exec gauge steps = some s)
    (ho : s.opened = some o) (hreturned : o.returned = true) :
    o.db.ReopensExactly s.disk := by
  have hF := byteFormat_lawful hash
  have hworks := Owned.exec_works initial_works hrun o ho
  obtain ⟨hat, -, hsender⟩ := hworks.returned hreturned
  have hstate := Owned.exec_state hrun
  have hfaultless : ∀ label ∈ machineRun steps, label.Faultless := by
    intro label hlabel
    obtain ⟨l, hl, heq⟩ := List.mem_filterMap.mp hlabel
    exact hsteps l hl label heq
  have hunfailing := (unfailing_initial _ _).exec hF hfaultless hfits hstate
  exact hunfailing.reopensExactly hF (by rw [Owned.state, ho]; rfl)
    (hworks.hungUp hsender) (hworks.idle (Or.inl hat))

theorem reopens_exactly_merged :
    ∃ s o, (Owned.initial (byteFormat crc32)).exec .exact
        (twoFlushed ++ .deed (.write .truncate) :: mergedInDrop) = some s ∧
      s.opened = some o ∧ o.db.ReopensExactly s.disk := by
  obtain ⟨s, o, hrun, ho, hreturned⟩ := exists_mergedInDrop
  exact ⟨s, o, hrun, ho, reopens_exactly crc32 .exact
    (by decide +kernel) (by decide +kernel) hrun ho hreturned⟩

end Lsmrs
