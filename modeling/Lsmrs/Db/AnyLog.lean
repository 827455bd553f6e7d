import Lsmrs.Db.AnyFiles

/-!
# A database whatever its log holds

Behind an append that failed, the log need not say what was acknowledged, and
a reopening reads something else, or nothing.  An open database does not look
at its log either: with another log in its place it takes the same steps, and
is one that follows some history of good mutations.
-/

namespace Lsmrs

open ByteString OrderedMap Layers

variable {F : Format} {Ok : Mutation → Prop} {hist : List Mutation}

/-! ## Another log -/

def Disk.withLog (disk : Disk F) (log : F.Log) : Disk F :=
  { disk with log }

/-- The state with another log. -/
def State.withLog (s : State F) (log : F.Log) : State F :=
  ⟨s.disk.withLog log, s.process⟩

theorem WriteTurn.withLog {disk disk' : Disk F} {p p' : Process F}
    {l : WriteStep F} (h : WriteTurn disk p l disk' p') (log : F.Log) :
    WriteTurn (disk.withLog log) p l (disk'.withLog (l.log log)) p' := by
  cases h with
  | append hidle => exact .append hidle
  | writeAllFails hidle => exact .writeAllFails hidle
  | syncDataFails hidle hsync => exact .syncDataFails hidle hsync
  | apply hlogged => exact .apply hlogged
  | createNone hflushing hnil => exact .createNone hflushing hnil
  | create hflushing hne hwrite => exact .create hflushing hne hwrite
  | rename hcreated => exact .rename hcreated
  | register hpublished hseq => exact .register hpublished hseq
  | truncate hregistered => exact .truncate hregistered
  | nothingCreated hflushing => exact .nothingCreated hflushing
  | halfCreated hflushing => exact .halfCreated hflushing
  | renameFails hcreated => exact .renameFails hcreated
  | registerFails hpublished => exact .registerFails hpublished
  | truncateFails hregistered => exact .truncateFails hregistered

theorem CompactMove.withLog {disk disk' : Disk F} {p p' : Process F}
    {l : CompactStep} (h : CompactMove disk p l disk' p') (log : F.Log) :
    CompactMove (disk.withLog log) p l (disk'.withLog log) p' := by
  cases h with
  | begun hidle hcount hrange => exact .begun hidle hcount hrange
  | merged hbegun hmerge => exact .merged hbegun hmerge
  | unmerged hbegun hmerge => exact .unmerged hbegun hmerge
  | created hmerged hwrite => exact .created hmerged hwrite
  | renamed hcreated => exact .renamed hcreated
  | swapped hready hrange => exact .swapped hready hrange
  | unlinked hunlinking => exact .unlinked hunlinking
  | finished hunlinking => exact .finished hunlinking

theorem FailMove.withLog {disk disk' : Disk F} {p : Process F}
    {left : Option F.File} (h : FailMove disk p left disk') (log : F.Log) :
    FailMove (disk.withLog log) p left (disk'.withLog log) := by
  cases h with
  | read hbegun => exact .read hbegun
  | create hmerged => exact .create hmerged
  | createNone hmerged => exact .createNone hmerged
  | rename hcreated => exact .rename hcreated
  | afterRename hready => exact .afterRename hready
  | remove hunlinking => exact .remove hunlinking

/-- The threads take the same steps over another log. -/
theorem step_withLog {s s' : State F} {l : Label F} (hl : l.Running)
    (hstep : s.step l = some s') (log : F.Log) :
    (s.withLog log).step l = some (s'.withLog (l.log log)) := by
  obtain ⟨disk, process⟩ := s
  obtain ⟨disk', process'⟩ := s'
  cases l with
  | write l =>
      obtain ⟨p, p', rfl, rfl, hwrite⟩ := State.step_write hstep
      exact ((writeStep_turn hwrite).withLog log).step_eq
  | compact l =>
      obtain ⟨p, p', rfl, rfl, hcompact⟩ := State.step_compact hstep
      have hmove := (compactStep_iff_move.mp hcompact).withLog log
      simp only [State.step, State.withLog, Option.bind_eq_bind,
        Option.bind_some, compactStep_iff_move.mpr hmove]
      rfl
  | compactFails left =>
      obtain ⟨p, rfl, rfl, hfailed⟩ := State.step_compactFails hstep
      have hwithLog := (failed_iff_move.mp hfailed).withLog log
      simp only [State.step, State.withLog, Option.bind_eq_bind,
        Option.bind_some, failed_iff_move.mpr hwithLog]
      rfl
  | crash => exact hl.elim
  | crashInOpen listing removed => exact hl.elim
  | recover config listing => exact hl.elim

/-! ## Replaying any log -/

/-- The mutation a record is replayed as. -/
def Record.mutation (r : Record) : Mutation :=
  match r.operation with
  | .insert => .insert r.key r.value
  | .delete => .delete r.key

theorem replayRecord_eq (map : Memtable) (r : Record) :
    replayRecord map r = replayRecord map r.mutation.record := by
  obtain ⟨key, value, operation⟩ := r
  cases operation with
  | insert => rfl
  | delete => rfl

theorem foldl_replayRecord (map : Memtable) (records : List Record) :
    ((records.map Record.mutation).map Mutation.record).foldl replayRecord
      map = records.foldl replayRecord map := by
  induction records generalizing map with
  | nil => rfl
  | cons r records ih =>
      rw [List.map_cons, List.map_cons, List.foldl_cons, List.foldl_cons,
        ← replayRecord_eq, ih]

/-- Whatever a log holds, only good mutations are replayed from it; and a
good key can be deleted. -/
structure Format.ReplaysOk (F : Format) (Ok : Mutation → Prop) : Prop where
  replayed : ∀ {log : F.Log} {records : List Record},
    F.replay log = .ok records → ∀ r ∈ records, Ok r.mutation
  deleted : ∀ m, Ok m → Ok (.delete m.key)

theorem listFormat_replaysOk : listFormat.ReplaysOk fun _ => True :=
  ⟨fun _ _ _ => trivial, fun _ _ => trivial⟩

/-- A record that is read fits the length its frame gave. -/
theorem readFrame_fits {hash : Bytes → UInt32} {s rest : Bytes} {r : Record}
    (h : readFrame hash s = .record r rest) : r.Fits := by
  obtain ⟨lengthBytes, checksumBytes, p, -, hl, -, hlen, -, hr⟩ :=
    readFrame_eq_record.mp h
  have hlt := fromLeBytes_lt lengthBytes
  rw [hl, hlen] at hlt
  have hfields := (parseRecord_eq_ok hr).2
  rw [Record.Fits, payload_length]
  omega

theorem readLoop_fits {hash : Bytes → UInt32} {turns : ℕ} {s : Bytes}
    {records : List Record} (h : readLoop hash turns s = .ok records) :
    ∀ r ∈ records, r.Fits := by
  induction turns generalizing s records with
  | zero =>
      cases h
      exact List.forall_mem_nil _
  | succ turns ih =>
      rw [readLoop] at h
      cases hframe : readFrame hash s with
      | stop =>
          rw [hframe] at h
          cases h
          exact List.forall_mem_nil _
      | fail e =>
          rw [hframe] at h
          cases h
      | record r rest =>
          rw [hframe] at h
          obtain ⟨later, hlater, rfl⟩ := map_eq_ok.mp h
          exact List.forall_mem_cons.mpr ⟨readFrame_fits hframe, ih hlater⟩

theorem fits_delete {key value : Bytes} {operation : Operation}
    (h : (⟨key, value, operation⟩ : Record).Fits) :
    (Mutation.delete key).record.Fits := by
  simp only [Record.Fits, payload_length, Mutation.record,
    List.length_nil] at h ⊢
  omega

theorem byteFormat_replaysOk (hash : Bytes → UInt32) :
    (byteFormat hash).ReplaysOk fun m => m.record.Fits where
  replayed := by
    intro log records h r hr
    have hfits := readLoop_fits h r hr
    obtain ⟨key, value, operation⟩ := r
    cases operation with
    | insert => exact hfits
    | delete => exact fits_delete hfits
  deleted := by
    intro m hm
    cases m with
    | insert key value => exact fits_delete hm
    | delete key => exact hm

/-- With records that are replayed alike, opening does not look at the rest
of the log. -/
theorem withConfig_withLog {disk : Disk F} {log : F.Log}
    {records records' : List Record} (hreplay : F.replay disk.log = .ok records)
    (hreplay' : F.replay log = .ok records')
    (hsame : records'.foldl replayRecord OrderedMap.empty =
      records.foldl replayRecord OrderedMap.empty)
    (config : Config) (listing : List Bytes) :
    Db.withConfig config listing (disk.withLog log) =
      ((Db.withConfig config listing disk).1,
        (Db.withConfig config listing disk).2.withLog log) := by
  have hlog : F.replay (disk.withLog log).log = .ok records' := hreplay'
  have hdir : (disk.withLog log).dir = disk.dir := rfl
  rw [Db.withConfig, hlog, Db.withConfig, hreplay, hdir]
  dsimp only
  rcases SSTableSet.open config.path config.bitsPerKey listing disk.dir with
    ⟨e | set, dir⟩
  · rfl
  · rw [hsame]
    rfl

theorem step_recover_eq {disk : Disk F} {config : Config}
    {listing : List Bytes} (hperm : listing.Perm disk.dir.keys) :
    (⟨disk, none⟩ : State F).step (.recover config listing) =
      match Db.withConfig config listing disk with
      | (.ok db, disk) => some ⟨disk, some ⟨db, .idle, .idle⟩⟩
      | (.error _, disk) => some ⟨disk, none⟩ :=
  if_pos hperm

theorem step_recover_withLog {disk : Disk F} {log : F.Log} {s' : State F}
    {config : Config} {listing : List Bytes}
    (hstep : (⟨disk, none⟩ : State F).step (.recover config listing) =
      some s')
    (hopen : Db.withConfig config listing (disk.withLog log) =
      ((Db.withConfig config listing disk).1,
        (Db.withConfig config listing disk).2.withLog log)) :
    (⟨disk.withLog log, none⟩ : State F).step (.recover config listing) =
      some (s'.withLog log) := by
  have hperm : listing.Perm disk.dir.keys := (State.step_recover hstep).2.1
  have hperm' : listing.Perm (disk.withLog log).dir.keys := hperm
  rw [step_recover_eq hperm] at hstep
  rw [step_recover_eq hperm', hopen]
  cases hopened : Db.withConfig config listing disk with
  | mk result disk' =>
      rw [hopened] at hstep
      cases result with
      | error e =>
          obtain rfl := Option.some.inj hstep
          rfl
      | ok db =>
          obtain rfl := Option.some.inj hstep
          rfl

/-! ## Runs -/

/-- Apart from its log and from files beside its own, the state is one that
follows the history. -/
def Follows (Ok : Mutation → Prop) (hist : List Mutation) (s : State F) :
    Prop :=
  ∃ log, LogWhole Ok log ∧ Amid Ok hist (s.withLog log)

theorem Follows.readsAs {s : State F} (h : Follows Ok hist s) :
    s.ReadsAs hist := by
  obtain ⟨log, -, hamid⟩ := h
  exact hamid.readsAs

theorem follows_initial : Follows Ok [] (State.initial F) :=
  ⟨F.emptyLog, logWhole_nil Ok, amid_initial⟩

theorem Follows.hist_ok {s : State F} (h : Follows Ok hist s) :
    ∀ m ∈ hist, Ok m := by
  obtain ⟨log, -, hamid⟩ := h
  exact hamid.hist_ok

/-- What holds of an open database, on some disk. -/
theorem Follows.process {s : State F} {p : Process F}
    (h : Follows Ok hist s) (hp : s.process = some p) :
    ∃ disk applied ms segs extra orphan,
      ProcessInv Ok hist applied ms segs extra orphan disk p := by
  obtain ⟨log, -, hamid⟩ := h
  obtain ⟨own, hprocess⟩ := hamid.process hp
  exact ⟨_, hprocess⟩

/-- What a step of the threads keeps. -/
theorem Follows.step (hF : F.Lawful Ok) {s s' : State F} {l : Label F}
    (h : Follows Ok hist s) (hstep : s.step l = some s') (hl : l.Running)
    (happend : l.AppendSucceeds) (hm : ∀ m ∈ l.logged, Ok m) :
    Follows Ok (hist ++ l.logged.toList) s' := by
  obtain ⟨log, hwhole, hamid⟩ := h
  have hstep' := step_withLog hl hstep log
  exact ⟨l.log log, step_logWhole hwhole happend hm hstep',
    hamid.step hF hl (stepOk_of_appendSucceeds hwhole happend hm) hstep'⟩

theorem Follows.compact (hF : F.Lawful Ok) {s s' : State F}
    {l : CompactStep} (h : Follows Ok hist s)
    (hstep : s.step (.compact l) = some s') : Follows Ok hist s' := by
  obtain ⟨log, hwhole, hamid⟩ := h
  have hl : (Label.compact l : Label F).Running := trivial
  exact ⟨log, hwhole, hamid.compactStep hF (step_withLog hl hstep log)⟩

/-- A compaction that fails leaves all that is read. -/
theorem Follows.compactFails {s s' : State F} {left : Option F.File}
    (h : Follows Ok hist s) (hstep : s.step (.compactFails left) = some s') :
    Follows Ok hist s' := by
  obtain ⟨log, hwhole, hamid⟩ := h
  have hl : (Label.compactFails left).Running := trivial
  exact ⟨log, hwhole, hamid.compactFails (step_withLog hl hstep log)⟩

/-- An append that fails leaves all but the log. -/
theorem Follows.appendFails {s s' : State F} {m : Mutation}
    {fault : AppendFault} (h : Follows Ok hist s)
    (hstep : s.step (.write (.appendFails m fault)) = some s') :
    Follows Ok hist s' := by
  obtain ⟨disk, process⟩ := s
  obtain ⟨disk', process'⟩ := s'
  obtain ⟨p, p', rfl, rfl, hwrite⟩ := State.step_write hstep
  obtain ⟨log, hwhole, hamid⟩ := h
  refine ⟨log, hwhole, ?_⟩
  cases writeStep_turn hwrite with
  | writeAllFails _ => exact hamid
  | syncDataFails _ _ => exact hamid

/-- What any step of the threads keeps, a failing one included. -/
theorem Follows.step_running (hF : F.Lawful Ok) {s s' : State F}
    {l : Label F} (h : Follows Ok hist s) (hstep : s.step l = some s')
    (hl : l.Running) (hm : ∀ m ∈ l.logged, Ok m) :
    Follows Ok (hist ++ l.logged.toList) s' := by
  by_cases happend : l.AppendSucceeds
  · exact h.step hF hstep hl happend hm
  · unfold Label.AppendSucceeds at happend
    split at happend
    next m fault =>
      change Follows Ok (hist ++ []) s'
      rw [List.append_nil]
      exact h.appendFails hstep
    next => exact absurd trivial happend

/-- What a run of the threads keeps, failing steps included. -/
theorem Follows.exec_running (hF : F.Lawful Ok) {s s' : State F}
    {labels : List (Label F)} (h : Follows Ok hist s)
    (hl : ∀ l ∈ labels, l.Running) (hm : ∀ m ∈ history labels, Ok m)
    (hrun : s.exec labels = some s') :
    Follows Ok (hist ++ history labels) s' :=
  State.exec_traces (Follows Ok)
    (fun h hl hm hstep => h.step_running hF hstep hl hm) h hl hm hrun

theorem Follows.crash {s s' : State F} (h : Follows Ok hist s)
    (hstep : s.step .crash = some s') : Follows Ok hist s' := by
  obtain ⟨disk, process⟩ := s
  obtain ⟨log, hwhole, hamid⟩ := h
  cases process with
  | none => cases hstep
  | some p =>
      obtain rfl := Option.some.inj hstep
      have hstep' : ((⟨disk, some p⟩ : State F).withLog log).step .crash =
          some ⟨disk.withLog log, none⟩ := rfl
      exact ⟨log, hwhole, hamid.crash hstep'⟩

theorem Follows.crashInOpen (hF : F.Lawful Ok) {s s' : State F}
    {listing : List Bytes} {removed : ℕ} (h : Follows Ok hist s)
    (hstep : s.step (.crashInOpen listing removed) = some s') :
    Follows Ok hist s' := by
  obtain ⟨disk, process⟩ := s
  obtain ⟨log, hwhole, hamid⟩ := h
  obtain ⟨ms, hms, rfl⟩ := id hwhole
  cases process with
  | some p => cases hstep
  | none =>
      cases hreplay : F.replay disk.log with
      | error e =>
          simp only [State.step, hreplay] at hstep
          cases hstep
      | ok records =>
          simp only [State.step, hreplay] at hstep
          split_ifs at hstep with hperm
          obtain rfl := Option.some.inj hstep
          have hstep' : ((⟨disk, none⟩ : State F).withLog (F.logOf ms)).step
              (.crashInOpen listing removed) =
                some ⟨⟨F.logOf ms, removeAll disk.dir
                  ((openRemovals listing).take removed)⟩, none⟩ := by
            have hreplay' : F.replay (disk.withLog (F.logOf ms)).log =
                .ok (ms.map Mutation.record) := hF.replay hms
            simp only [State.step, State.withLog, hreplay']
            exact if_pos hperm
          exact ⟨F.logOf ms, hwhole, hamid.crashInOpen hstep'⟩

theorem Follows.recover (hF : F.Lawful Ok) (hreplays : F.ReplaysOk Ok)
    {s s' : State F} {config : Config} {listing : List Bytes}
    (h : Follows Ok hist s)
    (hstep : s.step (.recover config listing) = some s') :
    ∃ hist', Follows Ok hist' s' := by
  obtain ⟨disk, process⟩ := s
  obtain ⟨hp, hperm, -⟩ := State.step_recover hstep
  obtain rfl : process = none := hp
  obtain ⟨log, hwhole, hamid⟩ := h
  obtain ⟨_, all, hclosed⟩ := hamid.closed rfl
  cases hreplay : F.replay disk.log with
  | error e =>
      -- The log cannot be read, and nothing has happened.
      have hnothing : Db.withConfig config listing disk = (.error e, disk) := by
        rw [Db.withConfig, hreplay]
      rw [step_recover_eq hperm, hnothing] at hstep
      obtain rfl := Option.some.inj hstep
      exact ⟨hist, log, hwhole, hamid⟩
  | ok records =>
      have hms : ∀ m ∈ records.map Record.mutation, Ok m := by
        intro m hm
        obtain ⟨r, hr, rfl⟩ := List.mem_map.mp hm
        exact hreplays.replayed hreplay r hr
      have hopen := withConfig_withLog hreplay (hF.replay hms)
        (foldl_replayRecord OrderedMap.empty records) config listing
      have hstep' := step_recover_withLog hstep hopen
      have hamid' : Amid Ok hist (⟨disk.withLog
          (F.logOf (records.map Record.mutation)), none⟩ : State F) :=
        ⟨_, all, hclosed.hist_ok, hms, Or.inl rfl, hclosed.files⟩
      obtain ⟨hist', hnext⟩ := hamid'.recover hF hstep'
      exact ⟨hist', _, ⟨_, hms, rfl⟩, hnext⟩

/-- Whatever happens in a step, the state follows some history. -/
theorem step_follows (hF : F.Lawful Ok) (hreplays : F.ReplaysOk Ok)
    {s s' : State F} {l : Label F} (h : Follows Ok hist s)
    (hm : ∀ m ∈ l.logged, Ok m) (hstep : s.step l = some s') :
    ∃ hist', Follows Ok hist' s' := by
  cases l with
  | write l => exact ⟨_, h.step_running hF hstep trivial hm⟩
  | compact l => exact ⟨hist, h.compact hF hstep⟩
  | compactFails left => exact ⟨hist, h.compactFails hstep⟩
  | crash => exact ⟨hist, h.crash hstep⟩
  | crashInOpen listing removed => exact ⟨hist, h.crashInOpen hF hstep⟩
  | recover config listing => exact h.recover hF hreplays hstep

/-- Every state a run reaches follows some history. -/
theorem exec_follows (hF : F.Lawful Ok) (hreplays : F.ReplaysOk Ok)
    {s s' : State F} {labels : List (Label F)} (h : Follows Ok hist s)
    (hm : ∀ m ∈ history labels, Ok m) (hrun : s.exec labels = some s') :
    ∃ hist', Follows Ok hist' s' :=
  State.exec_keeps (fun s => ∃ hist', Follows Ok hist' s)
    (fun ⟨_, h⟩ _ hm hstep => step_follows hF hreplays h hm hstep)
    ⟨hist, h⟩ (fun _ _ => trivial) hm hrun

end Lsmrs
