import Lsmrs.Db.Writer

/-!
# Runs of the machine

What one step keeps, and from it what a run keeps: the invariant, over the
history of the mutations logged so far.
-/

namespace Lsmrs

open ByteString OrderedMap

variable {F : Format} {Ok : Mutation → Prop} {hist : List Mutation}

/-! ## The steps beside the writer's -/

theorem compact_inv (hF : F.Lawful Ok) {applied ms : List Mutation}
    {segs extra : List (Segment (Writable Ok))}
    {orphan : Option (Segment (Writable Ok))} {disk disk' : Disk F}
    {p p' : Process F}
    (h : ProcessInv Ok hist applied ms segs extra orphan disk p)
    {l : CompactStep} (hstep : p.compactStep disk l = some (disk', p')) :
    ∃ segs' extra',
      ProcessInv Ok hist applied ms segs' extra' orphan disk' p' := by
  obtain ⟨⟨segs', extra', htables, hshown⟩, hframe⟩ :=
    compactStep_keeps hF.tables h.tables hstep
  have hleaves := compactStep_leaves hstep
  refine ⟨segs', extra', ?_⟩
  constructor
  case tables => exact htables
  case next_le => rw [hframe.nextSeq]; exact h.next_le
  case hist_ok => exact h.hist_ok
  case hist_eq => rw [hleaves.writer]; exact h.hist_eq
  case log => rw [hleaves.log]; exact h.log
  case log_hist => exact h.log_hist
  case pending_log => rw [hleaves.writer]; exact h.pending_log
  case map_hist => rw [hleaves.map]; exact h.map_hist
  case map_log => rw [hleaves.map]; exact h.map_log
  case orphan_map => rw [hleaves.map]; exact h.orphan_map
  case shows =>
    intro k hk
    rw [hleaves.map] at hk
    rw [hshown, h.shows k hk]
  case flush =>
    exact h.flush.congr hleaves.writer hleaves.map hframe.nextSeq hframe.tmp

namespace DiskInv

variable {ms : List Mutation} {all kept : List (Segment (Writable Ok))}
  {disk : Disk F} {listing : List Bytes}

theorem replay_eq (hF : F.Lawful Ok)
    (h : DiskInv Ok hist ms all kept disk) :
    F.replay disk.log = .ok (ms.map Mutation.record) :=
  h.log.replay_eq hF fun m hm => h.hist_ok m (h.log_hist.subset hm)

/-- Some of the removals of an opening are harmless. -/
theorem crashInOpen (h : DiskInv Ok hist ms all kept disk)
    (hperm : listing.Perm disk.dir.keys) (removed : ℕ) :
    ∃ all', DiskInv Ok hist ms all' kept
      { disk with dir :=
          removeAll disk.dir ((openRemovals listing).take removed) } :=
  ⟨_, { h with
    files := h.files.removeAll
      (name_not_mem_openRemovals h.files hperm removed) }⟩

/-- Opening the directory gives a database over the same history, unless a
file has the largest sequence number. -/
theorem recover (hF : F.Lawful Ok) (h : DiskInv Ok hist ms all kept disk)
    (hperm : listing.Perm disk.dir.keys) (config : Config) :
    (∃ db, Db.withConfig config listing disk =
        (.ok db, { disk with
          dir := removeAll disk.dir (openRemovals listing) }) ∧
      db.config = config ∧ db.size = 0 ∧
      ProcessInv Ok hist hist ms kept [] none
        { disk with dir := removeAll disk.dir (openRemovals listing) }
        ⟨db, .idle, .idle⟩) ∨
    (∃ d ∈ all, d.span.last = u64Max) ∧
      Db.withConfig config listing disk =
        (.error .panic, { disk with
          dir := removeAll disk.dir (openRemovals listing) }) := by
  have hreplay := h.replay_eq hF
  by_cases hlast : ∃ d ∈ all, d.span.last = u64Max
  · right
    obtain ⟨d, hd, heq⟩ := hlast
    refine ⟨⟨d, hd, heq⟩, ?_⟩
    rw [Db.withConfig, hreplay]
    dsimp only
    rw [SSTableSet.open_exhausted h.files.files hperm hd heq]
  · left
    have hseq : ∀ d ∈ all, d.span.last < u64Max := fun d hd =>
      lt_of_le_of_ne d.bounded fun heq => hlast ⟨d, hd, heq⟩
    obtain ⟨set, hopen, hdescribed, hnext, hbelow, hshows⟩ :=
      SSTableSet.open_eq h.files hperm hseq config.path config.bitsPerKey
    refine ⟨⟨(ms.map Mutation.record).foldl replayRecord OrderedMap.empty, 0,
      config, set⟩, ?_, rfl, rfl, ?_⟩
    · rw [Db.withConfig, hreplay]
      dsimp only
      rw [hopen]
    · constructor
      case tables =>
        refine ⟨hdescribed, h.files.staircase, ?_, by simp, ?_, rfl⟩
        · intro d hd
          exact hbelow d (by simpa using hd)
        · simpa using hshows.files
      case next_le => exact hnext
      case hist_ok => exact h.hist_ok
      case hist_eq => exact (List.append_nil hist).symm
      case log => exact h.log
      case log_hist => exact h.log_hist
      case pending_log => exact List.nil_suffix
      case map_hist =>
        intro k e hk
        rw [get?_replay] at hk
        exact effect_suffix h.log_hist hk
      case map_log =>
        intro k hk
        rwa [get?_replay] at hk
      case orphan_map => simp
      case shows =>
        intro k hk
        rw [get?_replay] at hk
        exact h.shows k hk
      case flush => exact trivial

end DiskInv

/-! ## One step -/

/-- The conditions on the log in a step: appends log mutations that are `Ok`,
behind whole records, and no record stays in the log of an append that
fails. -/
def StepOk (Ok : Mutation → Prop) (s : State F) : Label F → Prop
  | .write (.append m) => Ok m ∧ LogWhole Ok s.disk.log
  | .write (.appendFails m (.writeAll _)) => Ok m ∧ LogWhole Ok s.disk.log
  | .write (.appendFails _ .syncData) => False
  | _ => True

/-- No `compact` returns an error in the step. -/
def Label.Compacts : Label F → Prop
  | .compactFails _ => False
  | _ => True

theorem writeStep_inv (hF : F.Lawful Ok) {applied ms : List Mutation}
    {segs extra : List (Segment (Writable Ok))}
    {orphan : Option (Segment (Writable Ok))} {disk disk' : Disk F}
    {p p' : Process F}
    (h : ProcessInv Ok hist applied ms segs extra orphan disk p)
    {l : WriteStep F} (hok : StepOk Ok ⟨disk, some p⟩ (.write l))
    (hstep : p.writeStep disk l = some (disk', p')) :
    ∃ applied' ms' segs' extra' orphan',
      ProcessInv Ok (hist ++ (Label.write l).logged.toList) applied' ms'
        segs' extra' orphan' disk' p' := by
  have hsame : ∀ {disk' : Disk F} {p' : Process F} {applied' ms'}
      {segs' : List (Segment (Writable Ok))} {orphan'},
      ProcessInv Ok hist applied' ms' segs' extra orphan' disk' p' →
        ∃ applied' ms' segs' extra' orphan',
          ProcessInv Ok (hist ++ (none : Option Mutation).toList) applied'
            ms' segs' extra' orphan' disk' p' := by
    intro disk' p' applied' ms' segs' orphan' h'
    rw [Option.toList_none, List.append_nil]
    exact ⟨applied', ms', segs', extra, orphan', h'⟩
  cases writeStep_turn hstep with
  | append hidle => exact ⟨_, _, _, _, _, h.append hF hidle hok.1 hok.2⟩
  | writeAllFails _ => exact hsame (h.tear hF hok.1 hok.2 _)
  | syncDataFails _ _ => exact hok.elim
  | apply hlogged =>
      refine hsame (h.apply hlogged ?_)
      split_ifs
      · exact Or.inl rfl
      · exact Or.inr rfl
  | createNone hflushing hnil => exact hsame (h.createNone hflushing hnil)
  | create hflushing hne hwrite =>
      exact hsame (h.create hF hflushing hne hwrite)
  | rename hcreated =>
      obtain ⟨orphan', h'⟩ := h.rename hcreated
      exact hsame h'
  | register hpublished hseq =>
      obtain ⟨segs', h'⟩ := h.register hpublished hseq
      exact hsame h'
  | truncate hregistered =>
      obtain ⟨ms', h'⟩ := h.truncate hregistered 0 true
      exact hsame h'
  | nothingCreated hflushing =>
      exact hsame (h.giveUp (by rw [hflushing]; rfl))
  | halfCreated hflushing => exact hsame (h.createFails hflushing _)
  | renameFails hcreated => exact hsame (h.giveUp (by rw [hcreated]; rfl))
  | registerFails hpublished =>
      exact hsame (h.giveUp (by rw [hpublished]; rfl))
  | truncateFails hregistered =>
      obtain ⟨ms', h'⟩ := h.truncate hregistered p.db.size _
      exact hsame h'

/-- A step of a thread needs an open database and leaves one. -/
theorem exists_of_thread {s s' : State F}
    {turn : Process F → Disk F → Option (Disk F × Process F)}
    (h : (s.process.bind fun p => (turn p s.disk).bind fun r =>
      some (⟨r.1, some r.2⟩ : State F)) = some s') :
    ∃ p p', s.process = some p ∧ s'.process = some p' ∧
      turn p s.disk = some (s'.disk, p') := by
  obtain ⟨p, hp, hrest⟩ := Option.bind_eq_some_iff.mp h
  obtain ⟨⟨disk, p'⟩, hturn, heq⟩ := Option.bind_eq_some_iff.mp hrest
  obtain rfl := Option.some.inj heq
  exact ⟨p, p', hp, rfl, hturn⟩

theorem State.step_write {s s' : State F} {l : WriteStep F}
    (h : s.step (.write l) = some s') :
    ∃ p p', s.process = some p ∧ s'.process = some p' ∧
      p.writeStep s.disk l = some (s'.disk, p') :=
  @exists_of_thread F s s' (fun p disk => p.writeStep disk l) h

theorem State.step_compact {s s' : State F} {l : CompactStep}
    (h : s.step (.compact l) = some s') :
    ∃ p p', s.process = some p ∧ s'.process = some p' ∧
      p.compactStep s.disk l = some (s'.disk, p') :=
  @exists_of_thread F s s' (fun p disk => p.compactStep disk l) h

theorem State.step_compactFails {s s' : State F} {left : Option F.File}
    (h : s.step (.compactFails left) = some s') :
    ∃ p, s.process = some p ∧
      s'.process = some { p with compactor := .idle } ∧
        p.failed s.disk left = some s'.disk := by
  obtain ⟨p, hp, hrest⟩ := Option.bind_eq_some_iff.mp h
  obtain ⟨disk, hfailed, heq⟩ := Option.bind_eq_some_iff.mp hrest
  obtain rfl := Option.some.inj heq
  exact ⟨p, hp, rfl, hfailed⟩

theorem State.step_recover {s s' : State F} {config : Config}
    {listing : List Bytes} (h : s.step (.recover config listing) = some s') :
    s.process = none ∧ listing.Perm s.disk.dir.keys ∧
      ((∃ db, Db.withConfig config listing s.disk = (.ok db, s'.disk) ∧
          s'.process = some ⟨db, .idle, .idle⟩) ∨
        ∃ e, Db.withConfig config listing s.disk = (.error e, s'.disk) ∧
          s'.process = none) := by
  simp only [State.step] at h
  split at h
  next => cases h
  next hp =>
    split_ifs at h with hperm
    refine ⟨hp, hperm, ?_⟩
    split at h
    next db disk hdb =>
      cases h
      exact Or.inl ⟨db, hdb, rfl⟩
    next e disk he =>
      cases h
      exact Or.inr ⟨e, he, rfl⟩

theorem Inv.process {s : State F} {p : Process F} (h : Inv Ok hist s)
    (hp : s.process = some p) : ∃ applied ms segs extra orphan,
      ProcessInv Ok hist applied ms segs extra orphan s.disk p := by
  rwa [Inv, hp] at h

theorem Inv.closed {s : State F} (h : Inv Ok hist s)
    (hp : s.process = none) : ∃ ms all kept,
      DiskInv Ok hist ms all kept s.disk := by
  rwa [Inv, hp] at h

/-- What a step keeps. -/
theorem step_inv (hF : F.Lawful Ok) {s s' : State F} {l : Label F}
    (h : Inv Ok hist s) (hok : StepOk Ok s l) (hl : l.Compacts)
    (hstep : s.step l = some s') : Inv Ok (hist ++ l.logged.toList) s' := by
  cases l with
  | write l =>
      obtain ⟨p, p', hp, hp', hwrite⟩ := State.step_write hstep
      obtain ⟨applied, ms, segs, extra, orphan, hinv⟩ := h.process hp
      have hok' : StepOk Ok ⟨s.disk, some p⟩ (.write l) := by
        rw [← hp]
        exact hok
      rw [Inv, hp']
      exact writeStep_inv hF hinv hok' hwrite
  | compact l =>
      obtain ⟨p, p', hp, hp', hcompact⟩ := State.step_compact hstep
      obtain ⟨applied, ms, segs, extra, orphan, hinv⟩ := h.process hp
      obtain ⟨segs', extra', hinv'⟩ := compact_inv hF hinv hcompact
      change Inv Ok (hist ++ []) s'
      rw [List.append_nil, Inv, hp']
      exact ⟨applied, ms, segs', extra', orphan, hinv'⟩
  | compactFails left => exact hl.elim
  | crash =>
      change Inv Ok (hist ++ []) s'
      rw [List.append_nil]
      simp only [State.step] at hstep
      split at hstep
      next p hp =>
        cases hstep
        obtain ⟨applied, ms, segs, extra, orphan, hinv⟩ := h.process hp
        obtain ⟨all, kept, hdisk⟩ := hinv.crash
        exact ⟨ms, all, kept, hdisk⟩
      next => cases hstep
  | crashInOpen listing removed =>
      change Inv Ok (hist ++ []) s'
      rw [List.append_nil]
      simp only [State.step] at hstep
      split at hstep
      next hp _ =>
        split_ifs at hstep with hperm
        cases hstep
        obtain ⟨ms, all, kept, hdisk⟩ := h.closed hp
        obtain ⟨all', hdisk'⟩ := hdisk.crashInOpen hperm removed
        exact ⟨ms, all', kept, hdisk'⟩
      next => cases hstep
  | recover config listing =>
      change Inv Ok (hist ++ []) s'
      rw [List.append_nil]
      obtain ⟨hp, hperm, hopened⟩ := State.step_recover hstep
      obtain ⟨ms, all, kept, hdisk⟩ := h.closed hp
      rw [Inv]
      rcases hdisk.recover hF hperm config with
        ⟨db, hdb, -, -, hinv⟩ | ⟨-, herror⟩
      · rcases hopened with ⟨db', hdb', hp'⟩ | ⟨e, he, -⟩
        · obtain ⟨hresult, hdir⟩ := Prod.mk.inj (hdb.symm.trans hdb')
          rw [hp', ← hdir, ← Except.ok.inj hresult]
          exact ⟨hist, ms, kept, [], none, hinv⟩
        · cases hdb.symm.trans he
      · rcases hopened with ⟨db', hdb', -⟩ | ⟨e, he, hp'⟩
        · cases herror.symm.trans hdb'
        · obtain ⟨-, hdir⟩ := Prod.mk.inj (herror.symm.trans he)
          rw [hp', ← hdir]
          obtain ⟨all', hdisk'⟩ :=
            hdisk.crashInOpen hperm (openRemovals listing).length
          rw [List.take_length] at hdisk'
          exact ⟨ms, all', kept, hdisk'⟩

/-- A step that logs nothing keeps the history. -/
theorem step_inv_of_silent (hF : F.Lawful Ok) {s s' : State F} {l : Label F}
    (h : Inv Ok hist s) (hok : StepOk Ok s l) (hl : l.Compacts)
    (hsilent : l.logged = none) (hstep : s.step l = some s') :
    Inv Ok hist s' := by
  have hinv := step_inv hF h hok hl hstep
  rwa [hsilent, Option.toList_none, List.append_nil] at hinv

/-! ## Runs -/

/-- The conditions hold at every step of a run. -/
def RunOk (Ok : Mutation → Prop) (s : State F) : List (Label F) → Prop
  | [] => True
  | l :: labels =>
    StepOk Ok s l ∧ ∀ s', s.step l = some s' → RunOk Ok s' labels

theorem initial_inv (F : Format) (Ok : Mutation → Prop) :
    Inv Ok [] (State.initial F) :=
  ⟨[], [], [], {
    hist_ok := by simp
    log := Or.inl rfl
    log_hist := List.nil_suffix
    files := by
      refine ⟨⟨by simp, ?_⟩, by simp, List.Pairwise.nil, by simp⟩
      intro name _ hsome
      cases hsome
    shows := fun _ _ => rfl }⟩

theorem State.exec_cons {s s' : State F} {l : Label F}
    {labels : List (Label F)} :
    s.exec (l :: labels) = some s' ↔
      ∃ next, s.step l = some next ∧ next.exec labels = some s' :=
  Option.bind_eq_some_iff

theorem State.exec_append {s s' : State F} {labels later : List (Label F)} :
    s.exec (labels ++ later) = some s' ↔
      ∃ next, s.exec labels = some next ∧ next.exec later = some s' := by
  induction labels generalizing s with
  | nil => simp [State.exec]
  | cons l labels ih =>
      simp only [List.cons_append, State.exec_cons, ih]
      constructor
      · rintro ⟨first, hfirst, next, hnext, hlater⟩
        exact ⟨next, ⟨first, hfirst, hnext⟩, hlater⟩
      · rintro ⟨next, ⟨first, hfirst, hnext⟩, hlater⟩
        exact ⟨first, hfirst, next, hnext, hlater⟩

theorem history_cons (l : Label F) (labels : List (Label F)) :
    history (l :: labels) = l.logged.toList ++ history labels := by
  rw [history, List.filterMap_cons]
  cases l.logged <;> rfl

/-- What each step keeps of the state and of all that was logged so far, a
run keeps. -/
theorem State.exec_traces {ok : Label F → Prop}
    (I : List Mutation → State F → Prop)
    (hkeeps : ∀ {hist : List Mutation} {s s' : State F} {l : Label F},
      I hist s → ok l → (∀ m ∈ l.logged, Ok m) → s.step l = some s' →
        I (hist ++ l.logged.toList) s')
    {s s' : State F} {labels : List (Label F)} (h : I hist s)
    (hl : ∀ l ∈ labels, ok l) (hm : ∀ m ∈ history labels, Ok m)
    (hrun : s.exec labels = some s') : I (hist ++ history labels) s' := by
  induction labels generalizing s hist with
  | nil =>
      obtain rfl := Option.some.inj hrun
      change I (hist ++ []) s
      rwa [List.append_nil]
  | cons l labels ih =>
      obtain ⟨hl, hlabels⟩ := List.forall_mem_cons.mp hl
      obtain ⟨next, hstep, hrest⟩ := State.exec_cons.mp hrun
      rw [history_cons] at hm ⊢
      obtain ⟨hhead, htail⟩ := List.forall_mem_append.mp hm
      rw [← List.append_assoc]
      exact ih (hkeeps h hl (fun m hmem =>
        hhead m (Option.mem_toList.mpr hmem)) hstep) hlabels htail hrest

/-- What each step keeps of the state alone, a run keeps. -/
theorem State.exec_keeps {ok : Label F → Prop} (I : State F → Prop)
    (hkeeps : ∀ {s s' : State F} {l : Label F}, I s → ok l →
      (∀ m ∈ l.logged, Ok m) → s.step l = some s' → I s')
    {s s' : State F} {labels : List (Label F)} (h : I s)
    (hl : ∀ l ∈ labels, ok l) (hm : ∀ m ∈ history labels, Ok m)
    (hrun : s.exec labels = some s') : I s' :=
  @exec_traces F Ok [] ok (fun _ s => I s) hkeeps s s' labels h hl hm hrun

/-- What each step keeps, where the conditions on it are about the state as
well. -/
theorem RunOk.exec_traces {ok : Label F → Prop}
    (I : List Mutation → State F → Prop)
    (hkeeps : ∀ {hist : List Mutation} {s s' : State F} {l : Label F},
      I hist s → ok l → StepOk Ok s l → s.step l = some s' →
        I (hist ++ l.logged.toList) s')
    {s s' : State F} {labels : List (Label F)} (h : I hist s)
    (hl : ∀ l ∈ labels, ok l) (hok : RunOk Ok s labels)
    (hrun : s.exec labels = some s') : I (hist ++ history labels) s' := by
  induction labels generalizing s hist with
  | nil =>
      obtain rfl := Option.some.inj hrun
      change I (hist ++ []) s
      rwa [List.append_nil]
  | cons l labels ih =>
      obtain ⟨hl, hlabels⟩ := List.forall_mem_cons.mp hl
      obtain ⟨next, hstep, hrest⟩ := State.exec_cons.mp hrun
      rw [history_cons, ← List.append_assoc]
      exact ih (hkeeps h hl hok.1 hstep) hlabels (hok.2 next hstep) hrest

/-- What a run keeps. -/
theorem exec_inv (hF : F.Lawful Ok) {s s' : State F}
    {labels : List (Label F)} (h : Inv Ok hist s) (hok : RunOk Ok s labels)
    (hl : ∀ l ∈ labels, l.Compacts) (hrun : s.exec labels = some s') :
    Inv Ok (hist ++ history labels) s' :=
  RunOk.exec_traces (Inv Ok)
    (fun h hl hok hstep => step_inv hF h hok hl hstep) h hl hok hrun

/-! ## The log along a run -/

/-- What a step of the writer does to the log. -/
def WriteStep.log (log : F.Log) : WriteStep F → F.Log
  | .append m => F.append log m
  | .appendFails m (.writeAll written) => F.torn log m written
  | .appendFails m .syncData => F.append log m
  | .truncate => F.emptyLog
  | .flushFails (.truncate effective) =>
    if effective then F.emptyLog else log
  | _ => log

/-- What a step does to the log. -/
def Label.log (log : F.Log) : Label F → F.Log
  | .write l => l.log log
  | _ => log

theorem writeStep_log {disk disk' : Disk F} {p p' : Process F}
    {l : WriteStep F} (h : p.writeStep disk l = some (disk', p')) :
    disk'.log = l.log disk.log := by
  cases writeStep_turn h <;> rfl

theorem failed_log {disk disk' : Disk F} {p : Process F}
    {left : Option F.File} (h : p.failed disk left = some disk') :
    disk'.log = disk.log := by
  cases failed_iff_move.mp h <;> rfl

theorem withConfig_log (config : Config) (listing : List Bytes)
    (disk : Disk F) :
    (Db.withConfig config listing disk).2.log = disk.log := by
  unfold Db.withConfig
  split
  · rfl
  · split <;> rfl

theorem step_log {s s' : State F} {l : Label F} (h : s.step l = some s') :
    s'.disk.log = l.log s.disk.log := by
  cases l with
  | write l =>
      obtain ⟨p, p', -, -, hwrite⟩ := State.step_write h
      exact writeStep_log hwrite
  | compact l =>
      obtain ⟨p, p', -, -, hcompact⟩ := State.step_compact h
      exact (compactStep_leaves hcompact).log
  | compactFails left =>
      obtain ⟨p, -, -, hfailed⟩ := State.step_compactFails h
      exact failed_log hfailed
  | crash =>
      simp only [State.step] at h
      split at h <;> cases h
      rfl
  | crashInOpen listing removed =>
      simp only [State.step] at h
      split at h
      next => split_ifs at h; cases h; rfl
      next => cases h
  | recover config listing =>
      have hlog := withConfig_log config listing s.disk
      obtain ⟨-, -, ⟨db, hdb, -⟩ | ⟨e, he, -⟩⟩ := State.step_recover h
      · rw [hdb] at hlog
        exact hlog
      · rw [he] at hlog
        exact hlog

/-! ## Runs without failing appends -/

/-- The step is no failure of an append to the log. -/
def Label.AppendSucceeds : Label F → Prop
  | .write (.appendFails _ _) => False
  | _ => True

/-- The step is no failure of an append to the log or of a compaction. -/
def Label.OnlyFlushFails : Label F → Prop
  | .write (.appendFails _ _) => False
  | .compactFails _ => False
  | _ => True

instance (l : Label F) : Decidable l.OnlyFlushFails := by
  unfold Label.OnlyFlushFails
  split <;> infer_instance

theorem Label.OnlyFlushFails.compacts {l : Label F}
    (h : l.OnlyFlushFails) : l.Compacts := by
  unfold Label.Compacts
  split
  · exact h
  · trivial

theorem Label.OnlyFlushFails.appendSucceeds {l : Label F}
    (h : l.OnlyFlushFails) : l.AppendSucceeds := by
  unfold Label.AppendSucceeds
  split
  · exact h
  · trivial

theorem logWhole_nil (Ok : Mutation → Prop) :
    LogWhole Ok (F.logOf []) :=
  ⟨[], by simp, rfl⟩

/-- Only an append that fails can leave part of a record. -/
theorem step_logWhole {s s' : State F} {l : Label F}
    (hwhole : LogWhole Ok s.disk.log) (hl : l.AppendSucceeds)
    (hm : ∀ m ∈ l.logged, Ok m) (hstep : s.step l = some s') :
    LogWhole Ok s'.disk.log := by
  rw [step_log hstep]
  cases l with
  | write l =>
      cases l with
      | append m =>
          obtain ⟨ms, hms, hlog⟩ := hwhole
          refine ⟨ms ++ [m], ?_, ?_⟩
          · intro m' hm'
            rcases List.mem_append.mp hm' with hm' | hm'
            · exact hms m' hm'
            · rw [List.mem_singleton.mp hm']
              exact hm m rfl
          · rw [← F.logOf_concat, ← hlog]
            rfl
      | appendFails m fault => exact hl.elim
      | truncate => exact logWhole_nil Ok
      | flushFails fault =>
          cases fault with
          | truncate effective =>
              cases effective with
              | true => exact logWhole_nil Ok
              | false => exact hwhole
          | create left => exact hwhole
          | rename => exact hwhole
          | afterRename => exact hwhole
      | apply => exact hwhole
      | create => exact hwhole
      | rename => exact hwhole
      | register => exact hwhole
  | compact l => exact hwhole
  | compactFails left => exact hwhole
  | crash => exact hwhole
  | crashInOpen listing removed => exact hwhole
  | recover config listing => exact hwhole

theorem stepOk_of_appendSucceeds {s : State F} {l : Label F}
    (hwhole : LogWhole Ok s.disk.log) (hl : l.AppendSucceeds)
    (hm : ∀ m ∈ l.logged, Ok m) : StepOk Ok s l := by
  cases l with
  | write l =>
      cases l with
      | append m => exact ⟨hm m rfl, hwhole⟩
      | appendFails m fault => exact hl.elim
      | apply => exact trivial
      | create => exact trivial
      | rename => exact trivial
      | register => exact trivial
      | truncate => exact trivial
      | flushFails fault => exact trivial
  | compact l => exact trivial
  | compactFails left => exact trivial
  | crash => exact trivial
  | crashInOpen listing removed => exact trivial
  | recover config listing => exact trivial

/-- A run whose appends all succeed meets the conditions at every step. -/
theorem runOk_of_appendSucceeds {s : State F} {labels : List (Label F)}
    (hwhole : LogWhole Ok s.disk.log)
    (hl : ∀ l ∈ labels, l.AppendSucceeds)
    (hm : ∀ m ∈ history labels, Ok m) : RunOk Ok s labels := by
  induction labels generalizing s with
  | nil => exact trivial
  | cons l labels ih =>
      obtain ⟨hl, hlabels⟩ := List.forall_mem_cons.mp hl
      rw [history_cons] at hm
      have hhead : ∀ m ∈ l.logged, Ok m := fun m hmem =>
        hm m (List.mem_append_left _ (Option.mem_toList.mpr hmem))
      refine ⟨stepOk_of_appendSucceeds hwhole hl hhead, ?_⟩
      intro s' hstep
      exact ih (step_logWhole hwhole hl hhead hstep) hlabels
        fun m hmem => hm m (List.mem_append_right _ hmem)

/-- The invariant after a run from an empty directory. -/
theorem inv_of_run (hF : F.Lawful Ok) {s : State F}
    {labels : List (Label F)} (hl : ∀ l ∈ labels, l.OnlyFlushFails)
    (hm : ∀ m ∈ history labels, Ok m)
    (hrun : (State.initial F).exec labels = some s) :
    Inv Ok (history labels) s :=
  exec_inv hF (initial_inv F Ok)
    (runOk_of_appendSucceeds (logWhole_nil Ok)
      (fun l hmem => (hl l hmem).appendSucceeds) hm)
    (fun l hmem => (hl l hmem).compacts) hrun

end Lsmrs
