import Lsmrs.Db.CompactorThread
import Lsmrs.Sstable.NewestWins
import Lsmrs.Sstable.Records

/-!
# The compactor thread is safe

Which panics can end the thread.  With a threshold of at least two there are
none if the tables of the list can be decoded, and the loop comes to rest
once the flushes stop.  Below two the first flush ends the thread, and so can
a single kind of table that makes decoding panic.
-/

namespace Lsmrs

open ByteString OrderedMap

variable {F : TableFormat}

/-! ## Written tables are decoded without a panic -/

/-- Walking the records of the table does not panic. -/
def TableFormat.Decodes (F : TableFormat) (table : F.Table) : Prop :=
  (.error .panic) ∉ F.records table

/-- The table is one that `write_table` returns. -/
def TableFormat.Written (F : TableFormat) (table : F.Table) : Prop :=
  ∃ bitsPerKey entries file,
    F.writeTable bitsPerKey entries = .ok (file, table)

theorem byteTables_decodes {table : SSTable} (h : byteTables.Written table) :
    byteTables.Decodes table := by
  obtain ⟨bitsPerKey, entries, file, hwrite⟩ := h
  obtain ⟨-, blocks, -, hlayout⟩ := writeTable_layout hwrite
  exact hlayout.panic_not_mem_records

/-- The tables a write in progress holds. -/
def Flush.tables : Flush F → List F.Table
  | .idle => []
  | .created _ table => [table]
  | .published _ table => [table]

/-- The tables `compact` has yet to read or to list. -/
def Compactor.tables : Compactor (logless F) → List F.Table
  | .begun run _ _ => run.map Listed.table
  | .created _ _ _ table => [table]
  | .ready _ _ replacement => replacement.toList.map Listed.table
  | _ => []

/-- All tables that are in use. -/
def SetState.tables (s : SetState F) : List F.Table :=
  s.set.sstables.map Listed.table ++ (s.flush.tables ++ s.compactor.tables)

/-- Tables do not come out of nothing. -/
def Keeps (s s' : SetState F) : Prop :=
  ∀ table ∈ s'.tables, table ∈ s.tables ∨ F.Written table

theorem keeps_of_compactor {s : SetState F}
    {compactor : Compactor (logless F)} (dir : Dir F)
    (h : ∀ table ∈ compactor.tables, table ∈ s.tables ∨ F.Written table) :
    Keeps s { s with dir, compactor } := by
  intro table htable
  rcases List.mem_append.mp htable with hlisted | htable
  · exact Or.inl (List.mem_append_left _ hlisted)
  · rcases List.mem_append.mp htable with hflush | hcompactor
    · exact Or.inl (List.mem_append_right _
        (List.mem_append_left _ hflush))
    · exact h table hcompactor

theorem mem_tables_of_compactor {s : SetState F} {table : F.Table}
    (h : table ∈ s.compactor.tables) : table ∈ s.tables :=
  List.mem_append_right _ (List.mem_append_right _ h)

theorem SetMove.keeps {s s' : SetState F} {l : CompactStep}
    (h : SetMove s l s') : Keeps s s' := by
  cases h with
  | begun =>
      refine keeps_of_compactor _ fun table htable => Or.inl ?_
      obtain ⟨t, ht, rfl⟩ := List.mem_map.mp htable
      exact List.mem_append_left _ (List.mem_map_of_mem
        (List.mem_of_mem_drop (List.mem_of_mem_take ht)))
  | merged => exact keeps_of_compactor _ fun _ h => nomatch h
  | mergedAway => exact keeps_of_compactor _ fun _ h => nomatch h
  | unmerged => exact keeps_of_compactor _ fun _ h => nomatch h
  | created hat hwrite =>
      refine keeps_of_compactor _ fun table htable => Or.inr ?_
      rw [List.mem_singleton.mp htable]
      exact ⟨_, _, _, hwrite⟩
  | renamed hat =>
      refine keeps_of_compactor _ fun table htable =>
        Or.inl (mem_tables_of_compactor ?_)
      rw [hat]
      exact htable
  | @swapped start count replacement hat =>
      intro table htable
      have hready : ∀ t ∈ replacement, t.table ∈ s.tables := by
        intro t ht
        apply mem_tables_of_compactor
        rw [hat]
        exact List.mem_map_of_mem (Option.mem_toList.mpr ht)
      have hlisted : ∀ t ∈ s.set.sstables, t.table ∈ s.tables :=
        fun t ht => List.mem_append_left _ (List.mem_map_of_mem ht)
      refine Or.inl ?_
      rcases List.mem_append.mp htable with htable | htable
      · obtain ⟨t, ht, rfl⟩ := List.mem_map.mp htable
        rcases List.mem_append.mp ht with ht | ht
        · exact hlisted t (List.mem_of_mem_take ht)
        · rcases List.mem_append.mp ht with ht | ht
          · exact hready t (Option.mem_toList.mp ht)
          · exact hlisted t (List.mem_of_mem_drop ht)
      · rcases List.mem_append.mp htable with htable | htable
        · exact List.mem_append_right _ (List.mem_append_left _ htable)
        · cases htable
  | unlinked => exact keeps_of_compactor _ fun _ h => nomatch h
  | finished => exact keeps_of_compactor _ fun _ h => nomatch h

theorem Fails.keeps {s s' : SetState F} (h : Fails s s') : Keeps s s' := by
  cases h <;> exact keeps_of_compactor _ fun _ h => nomatch h

theorem FlushStep.keeps {s s' : Running F} (h : FlushStep s s') :
    Keeps s.toSetState s'.toSetState := by
  have hsame : Keeps s.toSetState s.toSetState := fun _ => Or.inl
  cases h with
  | create memtable hstep =>
      cases SetState.step_turn hstep with
      | createNone => exact hsame
      | create hidle hne hwrite =>
          intro table htable
          rcases List.mem_append.mp htable with hlisted | htable
          · exact Or.inl (List.mem_append_left _ hlisted)
          · rcases List.mem_cons.mp htable with rfl | hcompactor
            · exact Or.inr ⟨_, _, _, hwrite⟩
            · exact Or.inl (mem_tables_of_compactor hcompactor)
  | rename hstep =>
      cases SetState.step_turn hstep with
      | rename hcreated =>
          intro table htable
          refine Or.inl ?_
          rw [SetState.tables, hcreated]
          exact htable
  | register hstep =>
      cases SetState.step_turn hstep with
      | register hpublished =>
          intro table htable
          refine Or.inl ?_
          rw [SetState.tables, hpublished]
          simpa [SetState.tables, SSTableSet.register, listedAt,
            Flush.tables, or_assoc, or_left_comm] using htable
  | fail =>
      intro table htable
      rcases List.mem_append.mp htable with hlisted | hcompactor
      · exact Or.inl (List.mem_append_left _ hlisted)
      · exact Or.inl (mem_tables_of_compactor hcompactor)
  | ring => exact hsame

section Runs

variable {size : F.Table → ℕ} {tooFar : ℕ → ℕ → Bool} {minRun : ℕ}
  {s s' : Running F}

theorem ThreadStep.keeps (h : ThreadStep size tooFar minRun s s') :
    Keeps s.toSetState s'.toSetState := by
  have hsame : Keeps s.toSetState s.toSetState := fun _ => Or.inl
  cases h with
  | wake => exact hsame
  | choose => exact hsame
  | rest => exact hsame
  | call _ hstep => exact (SetState.compactStep_move hstep).keeps
  | assertionFails => exact hsame
  | work _ hstep => exact (SetState.compactStep_move hstep).keeps
  | finish _ hstep => exact (SetState.compactStep_move hstep).keeps
  | fail _ hfails => exact hfails.keeps
  | decodingPanics => exact hsame

/-- A thread whose tables are all decoded without a panic goes on. -/
theorem ThreadStep.not_decoding (h : ThreadStep size tooFar minRun s s')
    (htables : ∀ table ∈ s.tables, F.Decodes table)
    (hthread : s.thread ≠ .panicked .decoding) :
    s'.thread ≠ .panicked .decoding := by
  cases h with
  | work => exact hthread
  | decodingPanics hat hrun hmerge =>
      obtain ⟨iter, hiter, hpanic⟩ := error_mem_of_merge hmerge
      obtain ⟨t, ht, rfl⟩ := List.mem_map.mp hiter
      refine absurd hpanic (htables t.table (mem_tables_of_compactor ?_))
      rw [hrun]
      exact List.mem_map_of_mem ht
  | _ => exact nofun

theorem Running.Starts.not_decoding (h : s.Starts)
    (hwritten : ∀ table, F.Written table → F.Decodes table)
    (hlisted : ∀ t ∈ s.set.sstables, F.Decodes t.table)
    (hreaches : Running.Reaches size tooFar minRun s s') :
    s'.thread ≠ .panicked .decoding := by
  suffices hinv : (∀ table ∈ s'.tables, F.Decodes table) ∧
      s'.thread ≠ .panicked .decoding by
    exact hinv.2
  have hkept : ∀ {a b : Running F}, Keeps a.toSetState b.toSetState →
      (∀ table ∈ a.tables, F.Decodes table) →
        ∀ table ∈ b.tables, F.Decodes table := by
    intro a b hkeeps htables table htable
    exact (hkeeps table htable).elim (htables table) (hwritten table)
  induction hreaches with
  | refl =>
      refine ⟨?_, by rw [h.thread]; exact nofun⟩
      intro table htable
      rw [SetState.tables, h.flush, h.compactor] at htable
      rcases List.mem_append.mp htable with htable | htable
      · obtain ⟨t, ht, rfl⟩ := List.mem_map.mp htable
        exact hlisted t ht
      · cases htable
  | tail _ hstep ih =>
      obtain ⟨htables, hthread⟩ := ih
      rcases hstep with hstep | hstep
      · refine ⟨hkept hstep.keeps htables, ?_⟩
        rwa [(flushStep_leaves hstep).thread]
      · exact ⟨hkept hstep.keeps htables,
          hstep.not_decoding htables hthread⟩

end Runs

/-! ## The loop is safe -/

/-- From this state on, the runs that `pick_run` returns satisfy both
assertions of `compact`, and the thread does not panic, whatever is flushed
in between.  Once nothing is flushed any more it takes finitely many steps,
after which it waits for a bell. -/
structure CompactorSafe (size : F.Table → ℕ) (tooFar : ℕ → ℕ → Bool)
    (minRun : ℕ) (s : Running F) : Prop where
  asserts : ∀ {s'}, Running.Reaches size tooFar minRun s s' →
    ∀ start count, s'.thread = .chosen start count → s'.set.Has start count
  runs : ∀ {s'}, Running.Reaches size tooFar minRun s s' →
    ∀ cause, s'.thread ≠ .panicked cause
  ends : ∀ {s'}, Running.Reaches size tooFar minRun s s' →
    Acc (fun later earlier => ThreadStep size tooFar minRun earlier later) s'
  rests : ∀ {s'}, Running.Reaches size tooFar minRun s s' →
    (∀ later, ¬ ThreadStep size tooFar minRun s' later) →
      s'.thread = .waiting ∧ s'.bells = 0

section Safe

variable {size : F.Table → ℕ} {tooFar : ℕ → ℕ → Bool} {minRun : ℕ}
  {s : Running F}

theorem not_asserting {s' : Running F} (hmin : 2 ≤ minRun) (h : s.Starts)
    (hreaches : Running.Reaches size tooFar minRun s s') :
    s'.thread ≠ .panicked .assertion := by
  intro hthread
  have hsound := reaches_sound hmin h.sound hreaches
  rw [Running.Sound, hthread] at hsound
  cases hsound

theorem compactorSafe_of_decodes
    (hwritten : ∀ table, F.Written table → F.Decodes table)
    (hmin : 2 ≤ minRun) (h : s.Starts)
    (hlisted : ∀ t ∈ s.set.sstables, F.Decodes t.table) :
    CompactorSafe size tooFar minRun s := by
  have hruns : ∀ {s' : Running F}, Running.Reaches size tooFar minRun s s' →
      ∀ cause, s'.thread ≠ .panicked cause := by
    rintro s' hreaches (_ | _)
    · exact not_asserting hmin h hreaches
    · exact h.not_decoding hwritten hlisted hreaches
  refine ⟨?_, hruns, fun hreaches =>
    acc_threadStep hmin (reaches_sound hmin h.sound hreaches), ?_⟩
  · intro s' hreaches start count hchosen
    have hsound := reaches_sound hmin h.sound hreaches
    rw [Running.Sound, hchosen] at hsound
    exact hsound.2
  · intro s' hreaches hstuck
    by_contra hnot
    obtain ⟨later, hstep⟩ :
        ∃ later, ThreadStep size tooFar minRun s' later :=
      exists_threadStep (reaches_sound hmin h.sound hreaches)
        (hruns hreaches) fun hwaiting hbells => hnot ⟨hwaiting, hbells⟩
    exact hstuck later hstep

theorem pickRun_singleton (hmin : minRun < 2) (n : ℕ) :
    pickRun tooFar minRun [n] = some (0, 1) := by
  have hone : minRun ≤ 1 := Nat.le_of_lt_succ hmin
  simp [pickRun, pickFrom, runEnd, hone]

/-- With a lower threshold a single table is a run. -/
theorem panics_of_singleton (hmin : minRun < 2) (hthread : s.thread = .waiting)
    (hbell : s.bells ≠ 0) (hone : s.set.sstables.length = 1) :
    ∃ s', Running.Reaches size tooFar minRun s s' ∧
      s'.thread = .panicked .assertion := by
  obtain ⟨bells, hbells⟩ := Nat.exists_eq_succ_of_ne_zero hbell
  obtain ⟨t, hlist⟩ := List.length_eq_one_iff.mp hone
  have hsizes : Measured size s.set.sstables [size t.table] := by
    rw [hlist]
    exact .cons (Or.inl rfl) .nil
  have hnot : ¬ s.set.Has 0 1 := fun hhas => absurd hhas.1 (by decide)
  have hwake : ThreadStep size tooFar minRun s
      { s with thread := .choosing, bells } := .wake hthread hbells
  have hchoose : ThreadStep size tooFar minRun
      { s with thread := .choosing, bells }
      { s with thread := .chosen 0 1, bells } :=
    .choose rfl hsizes (pickRun_singleton hmin _)
  have hfails : ThreadStep size tooFar minRun
      { s with thread := .chosen 0 1, bells }
      { s with thread := .panicked .assertion, bells } :=
    .assertionFails rfl hnot
  have hstart : Running.Reaches size tooFar minRun s s := .refl
  exact ⟨_, ((hstart.thread hwake).thread hchoose).thread hfails, rfl⟩

/-- A whole `write` on the thread that flushes. -/
theorem reaches_write {set : SetState F} {memtable : Memtable}
    (h : s.toSetState.exec (writeSteps memtable) = some set) :
    Running.Reaches size tooFar minRun s { s with toSetState := set } := by
  obtain ⟨set₁, hcreate, h⟩ := Option.bind_eq_some_iff.mp h
  obtain ⟨set₂, hrename, h⟩ := Option.bind_eq_some_iff.mp h
  obtain ⟨set₃, hregister, h⟩ := Option.bind_eq_some_iff.mp h
  obtain rfl := Option.some.inj h
  have hfirst : FlushStep s { s with toSetState := set₁ } :=
    .create memtable hcreate
  have hsecond : FlushStep { s with toSetState := set₁ }
      { s with toSetState := set₂ } := .rename hrename
  have hthird : FlushStep { s with toSetState := set₂ }
      { s with toSetState := set₃ } := .register hregister
  have hstart : Running.Reaches size tooFar minRun s s := .refl
  exact ((hstart.flush hfirst).flush hsecond).flush hthird

end Safe

/-- `file.metadata().len()`. -/
def SSTable.fileLength (t : SSTable) : ℕ := t.file.length

/-- The thread over a directory that was empty when it was opened. -/
def Running.spawned (F : TableFormat) : Running F :=
  ⟨SetState.initial F [] 10, .waiting, 0⟩

theorem Running.spawned_starts (F : TableFormat) :
    (Running.spawned F).Starts := ⟨rfl, rfl, rfl⟩

/-- Below two, the first flush ends the thread. -/
theorem spawned_panics {tooFar : ℕ → ℕ → Bool} {minRun : ℕ}
    (hmin : minRun < 2) :
    ∃ s', Running.Reaches SSTable.fileLength tooFar minRun
        (Running.spawned byteTables) s' ∧
      s'.thread = .panicked .assertion := by
  have hlength : ((SetState.initial byteTables [] 10).exec (writeSteps
      (OrderedMap.empty.insert (ascii "foo") (some (ascii "bar"))))).map
        (fun s => s.set.sstables.length) = some 1 := by
    decide +kernel
  obtain ⟨set, hexec, hone⟩ := Option.map_eq_some_iff.mp hlength
  obtain ⟨s', hreaches, hpanicked⟩ :
      ∃ s', Running.Reaches SSTable.fileLength tooFar minRun
          (⟨set, .waiting, 1⟩ : Running byteTables) s' ∧
        s'.thread = .panicked .assertion :=
    panics_of_singleton hmin rfl one_ne_zero hone
  have hwrite : Running.Reaches SSTable.fileLength tooFar minRun
      (Running.spawned byteTables) ⟨set, .waiting, 0⟩ :=
    reaches_write hexec
  have hring : FlushStep (⟨set, .waiting, 0⟩ : Running byteTables)
      ⟨set, .waiting, 1⟩ := .ring
  exact ⟨s', (hwrite.flush hring).trans hreaches, hpanicked⟩

/-- A list of copies of one table, and a bell that has rung. -/
def Running.copies (table : SSTable) (count : ℕ) : Running byteTables :=
  ⟨⟨⟨OrderedMap.empty, ⟨List.replicate count (listedAt ⟨0, 0⟩ table), [], 10,
    1⟩⟩, .idle, .idle⟩, .waiting, 1⟩

theorem Running.copies_starts (table : SSTable) (count : ℕ) :
    (Running.copies table count).Starts := ⟨rfl, rfl, rfl⟩

theorem mem_copies {table : SSTable} {count : ℕ} {t : Listed byteTables}
    (h : t ∈ (Running.copies table count).set.sstables) :
    t.table = table := by
  rw [List.eq_of_mem_replicate h]
  rfl

/-- Merging copies of a table that makes decoding panic panics. -/
theorem mergeRun_copies {table : SSTable} {count : ℕ} (hpos : 0 < count)
    (h : ¬ byteTables.Decodes table) (start : ℕ) :
    mergeRun (F := byteTables)
      (List.replicate count (listedAt ⟨0, 0⟩ table)) start =
        .error .panic := by
  have hpanic : .error .panic ∈ table.records := not_not.mp h
  have hiters : (List.replicate count (listedAt ⟨0, 0⟩ table)).map
      (fun t : Listed byteTables => byteTables.records t.table) =
        List.replicate count table.records := List.map_replicate
  obtain ⟨f, hmerge, iter, hiter, hf⟩ :=
    merge_error (start == 0) ⟨_, List.mem_replicate.mpr
      ⟨hpos.ne', rfl⟩, _, hpanic⟩
  rw [List.eq_of_mem_replicate hiter] at hf
  rw [mergeRun, hiters, hmerge, SSTable.eq_of_error_mem_records hf hpanic]

theorem measured_replicate (size : F.Table → ℕ) (t : Listed F) (count : ℕ) :
    Measured size (List.replicate count t) (List.replicate count 0) := by
  induction count with
  | zero => exact .nil
  | succ count ih => exact .cons (Or.inr rfl) ih

/-- Such copies are picked as soon as their sizes cannot be read. -/
theorem copies_panic {tooFar : ℕ → ℕ → Bool} {minRun : ℕ} {table : SSTable}
    (hzero : tooFar 0 0 = false) (hmin : 2 ≤ minRun)
    (h : ¬ byteTables.Decodes table) :
    ∃ s', Running.Reaches SSTable.fileLength tooFar minRun
        (Running.copies table minRun) s' ∧
      s'.thread = .panicked .decoding := by
  let s := Running.copies table minRun
  let run := runOf s.set.sstables 0 minRun
  have hpos : 0 < minRun := by omega
  have hrun : run = s.set.sstables :=
    List.take_of_length_le List.length_replicate.le
  have hsizes : Measured SSTable.fileLength s.set.sstables
      (List.replicate minRun 0) :=
    measured_replicate _ _ minRun
  have hhas : s.set.Has 0 minRun := by
    refine ⟨hmin, ?_⟩
    rw [Nat.zero_add]
    exact List.length_replicate.ge
  have hwake : ThreadStep SSTable.fileLength tooFar minRun s
      { s with thread := .choosing, bells := 0 } := .wake rfl rfl
  have hchoose : ThreadStep SSTable.fileLength tooFar minRun
      { s with thread := .choosing, bells := 0 }
      { s with thread := .chosen 0 minRun, bells := 0 } :=
    .choose rfl hsizes (pickRun_replicate hzero hpos le_rfl)
  have hcall : ThreadStep SSTable.fileLength tooFar minRun
      { s with thread := .chosen 0 minRun, bells := 0 }
      { s with compactor := .begun run 0 minRun, thread := .compacting,
               bells := 0 } :=
    .call rfl (SetState.compactStep_of_move (.begun rfl hhas.1 hhas.2))
  have hpanics : ThreadStep SSTable.fileLength tooFar minRun
      { s with compactor := .begun run 0 minRun, thread := .compacting,
               bells := 0 }
      { s with compactor := .begun run 0 minRun,
               thread := .panicked .decoding, bells := 0 } := by
    refine .decodingPanics rfl rfl ?_
    rw [hrun]
    exact mergeRun_copies hpos h 0
  have hstart : Running.Reaches SSTable.fileLength tooFar minRun s s := .refl
  exact ⟨_, (((hstart.thread hwake).thread hchoose).thread hcall).thread
    hpanics, rfl⟩

/-- The compactor thread is safe over every list of such tables just if the
threshold is at least two and all of the tables can be decoded. -/
theorem compactorSafe_iff (config : Config) {tooFar : ℕ → ℕ → Bool}
    (hzero : tooFar 0 0 = false) (tables : Set SSTable) :
    (∀ s : Running byteTables, s.Starts →
      (∀ t ∈ s.set.sstables, t.table ∈ tables) →
        CompactorSafe SSTable.fileLength tooFar config.compactionThreshold
          s) ↔
      2 ≤ config.compactionThreshold ∧
        ∀ table ∈ tables, byteTables.Decodes table := by
  constructor
  · intro hsafe
    have hmin : 2 ≤ config.compactionThreshold := by
      by_contra hlow
      obtain ⟨s', hreaches, hpanicked⟩ := spawned_panics (not_le.mp hlow)
      exact (hsafe _ (Running.spawned_starts _)
        fun _ ht => absurd ht List.not_mem_nil).runs hreaches _ hpanicked
    refine ⟨hmin, fun table htable => ?_⟩
    by_contra hbad
    obtain ⟨s', hreaches, hpanicked⟩ := copies_panic hzero hmin hbad
    exact (hsafe _ (Running.copies_starts table _)
      fun t ht => mem_copies ht ▸ htable).runs hreaches _ hpanicked
  · rintro ⟨hmin, htables⟩ s hstarts hlisted
    exact compactorSafe_of_decodes (fun _ => byteTables_decodes) hmin hstarts
      fun t ht => htables t.table (hlisted t ht)

theorem compactorSafe_spawned :
    CompactorSafe SSTable.fileLength
      (exceeds Config.default.compactionSizeRatio)
      Config.default.compactionThreshold (Running.spawned byteTables) :=
  (compactorSafe_iff Config.default (by decide +kernel) ∅).mpr
    ⟨by decide, fun _ htable => htable.elim⟩ _ (Running.spawned_starts _)
    fun _ ht => absurd ht List.not_mem_nil

/-- A threshold that `Config` allows. -/
def lowThreshold : Config :=
  { Config.default with compactionThreshold := 1 }

theorem compactor_panics_lowThreshold :
    ∃ s', Running.Reaches SSTable.fileLength
        (exceeds lowThreshold.compactionSizeRatio)
        lowThreshold.compactionThreshold (Running.spawned byteTables) s' ∧
      s'.thread = .panicked .assertion :=
  spawned_panics (by decide)

end Lsmrs
