import Lsmrs.Db.Mounted
import Lsmrs.Sstable.AnyDirectory

/-!
# What readers hold on to

From any directory that opens, and with whatever calls come and fail, the set
on its files goes with the set over whole files, and a list of tables that a
reader holds answers as the whole set did when the list was cloned.
-/

namespace Lsmrs

open ByteString OrderedMap Inodes

variable {files : TableFiles} {dirPath : Bytes} {bitsPerKey : ℕ}
  {listing : List Bytes} {s₀ s : Mount} {steps : List MountStep}

/-! ## Opening -/

/-- No call is in progress yet. -/
def SetState.resting {F : TableFormat} (dir : Dir F) (set : SSTableSet F) :
    SetState F :=
  ⟨⟨dir, set⟩, .idle, .idle⟩

/-- The set that is behind the mount. -/
theorem Mount.open_eq_some
    (h : Mount.open files dirPath bitsPerKey listing = some s₀) :
    listing.Perm files.dir.keys ∧ ∃ set dir,
      SSTableSet.open dirPath bitsPerKey listing files.dir = (.ok set, dir) ∧
      s₀ = {
        files := files.keep fun name => (dir.get? name).isSome
        tables := set.sstables.map (OpenTable.ofListed files)
        dirPath, bitsPerKey, nextSeq := set.nextSeq
        flush := none, compactor := .idle, snapshots := [] } := by
  unfold Mount.open at h
  split_ifs at h with hperm
  refine ⟨hperm, ?_⟩
  split at h
  next set dir hopen => exact ⟨set, dir, hopen, (Option.some.inj h).symm⟩
  next => cases h

/-- An open table knows the contents it was opened with. -/
theorem SSTable.file_of_open {path file : Bytes} {t : SSTable}
    (h : SSTable.open path file = .ok t) : t.file = file := by
  rw [SSTable.open] at h
  obtain ⟨trailer, -, h⟩ := bind_eq_ok.mp h
  obtain ⟨metaReader, -, h⟩ := bind_eq_ok.mp h
  obtain ⟨⟨minKey, minReader⟩, -, h⟩ := bind_eq_ok.mp h
  obtain ⟨⟨maxKey, maxReader⟩, -, h⟩ := bind_eq_ok.mp h
  obtain ⟨filterReader, -, h⟩ := bind_eq_ok.mp h
  obtain ⟨filter, -, h⟩ := bind_eq_ok.mp h
  obtain ⟨indexReader, -, h⟩ := bind_eq_ok.mp h
  obtain ⟨sparseIndex, -, h⟩ := bind_eq_ok.mp h
  cases h
  rfl

/-- Opening only takes names away. -/
theorem get?_of_removeAll {F : TableFormat} {dir : Dir F}
    {names : List Bytes} {name : Bytes} {file : F.File}
    (h : (removeAll dir names).get? name = some file) :
    dir.get? name = some file := by
  rw [get?_removeAll] at h
  split_ifs at h
  exact h

/-- The next table is newer than all that were found. -/
theorem last_lt_of_nextSeqOf {spans : List (Span × Bytes)} {n : ℕ}
    (h : nextSeqOf spans = .ok n) {p : Span × Bytes} (hp : p ∈ spans) :
    p.1.last < n := by
  have hmax : ∀ init, init ≤ spans.foldl
      (fun n p => max n (p.1.last + 1)) init ∧
        ∀ p ∈ spans, p.1.last <
          spans.foldl (fun n p => max n (p.1.last + 1)) init := by
    clear h hp
    induction spans with
    | nil => exact fun init => ⟨le_rfl, by simp⟩
    | cons q spans ih =>
        intro init
        obtain ⟨hle, hlt⟩ := ih (max init (q.1.last + 1))
        rw [List.foldl_cons]
        refine ⟨by omega, ?_⟩
        intro p hp
        rcases List.mem_cons.mp hp with rfl | hp
        · omega
        · exact hlt p hp
  rw [nextSeqOf] at h
  split_ifs at h
  exact Except.ok.inj h ▸ (hmax 0).2 p hp

theorem openedAt_of_mem {dir : Dir byteTables} {kept : List (Span × Bytes)}
    {tables : List (Listed byteTables)}
    (h : List.Forall₂ (OpenedAt dirPath dir) kept tables)
    {t : Listed byteTables} (ht : t ∈ tables) :
    ∃ p ∈ kept, OpenedAt dirPath dir p t := by
  induction h with
  | nil => cases ht
  | cons hat _ ih =>
      rcases List.mem_cons.mp ht with rfl | ht
      · exact ⟨_, List.mem_cons_self, hat⟩
      · obtain ⟨p, hp, hat⟩ := ih ht
        exact ⟨p, List.mem_cons_of_mem _ hp, hat⟩

/-- A table that was found is open, and was read from the file that its
descriptor is on. -/
theorem OpenTable.ofListed_sound {set : SSTableSet byteTables}
    {dir : Dir byteTables} (hperm : listing.Perm files.dir.keys)
    (hopen : SSTableSet.open dirPath bitsPerKey listing files.dir =
      (.ok set, dir)) {t : Listed byteTables} (ht : t ∈ set.sstables) :
    (OpenTable.ofListed files t).Sound
        (files.keep fun name => (dir.get? name).isSome) ∧
      t.span.last < set.nextSeq := by
  obtain ⟨-, hnext, hopened, -⟩ := SSTableSet.open_eq_ok hperm hopen
  obtain ⟨p, hp, hat⟩ := openedAt_of_mem hopened ht
  have hin := ((mem_keptSpans hperm).mp hp).1
  have hmem := (mem_spansOf_iff_inDir hperm).mpr hin
  have htmp : ¬ IsTmp t.path := by
    rw [hat.path, IsTmp, hin.isSst]
    decide
  refine ⟨?_, hat.span ▸ last_lt_of_nextSeqOf hnext hmem⟩
  have hfile := hat.opened
  unfold openFile at hfile
  split at hfile
  next => cases hfile
  next file hget =>
    rw [← hat.path, TableFiles.dir, Volume.get?_files, Volume.file] at hget
    obtain ⟨i, hi, hdata⟩ := Option.map_eq_some_iff.mp hget
    have hinode : (OpenTable.ofListed files t).inode = i := by
      rw [OpenTable.ofListed, hi]
      rfl
    constructor
    case apart =>
      rw [hinode]
      refine ⟨files.below hi, ?_⟩
      intro name hname
      rw [Volume.keep, get?_filterKeys] at hname
      split_ifs at hname
      rwa [files.single hname hi]
    case data =>
      rw [hinode]
      exact hdata.trans (SSTable.file_of_open hfile).symm
    case path => exact htmp

theorem SSTableSet.open_names {F : TableFormat} {set : SSTableSet F}
    {dir dir' : Dir F}
    (h : SSTableSet.open dirPath bitsPerKey listing dir = (.ok set, dir')) :
    set.dirPath = dirPath ∧ set.bitsPerKey = bitsPerKey := by
  unfold SSTableSet.open at h
  split at h
  next => cases h
  next =>
    dsimp only at h
    split at h
    next => cases h
    next =>
      split at h
      next => cases h
      next =>
        cases h
        exact ⟨rfl, rfl⟩

/-- The set that was opened is the set behind its descriptors. -/
theorem refines_of_open
    (h : Mount.open files dirPath bitsPerKey listing = some s₀) :
    ∃ set dir,
      SSTableSet.open dirPath bitsPerKey listing files.dir = (.ok set, dir) ∧
      Refines s₀ (SetState.resting dir set) := by
  obtain ⟨hperm, set, dir, hopen, rfl⟩ := Mount.open_eq_some h
  refine ⟨set, dir, hopen, ?_⟩
  obtain ⟨-, -, -, hdir⟩ := SSTableSet.open_eq_ok hperm hopen
  constructor
  case set =>
    obtain ⟨rfl, rfl⟩ := SSTableSet.open_names hopen
    have hsame : ∀ t, (OpenTable.ofListed files t).opened = t := fun _ => rfl
    simp [SetState.resting, Function.comp_def, hsame]
  case shows =>
    intro name _
    change dir.get? name = _
    rw [Volume.file, Volume.keep, get?_filterKeys]
    cases hget : dir.get? name with
    | none => rfl
    | some file =>
        rw [hdir] at hget
        have hfile := get?_of_removeAll (get?_of_removeAll hget)
        rw [TableFiles.dir, Volume.get?_files] at hfile
        exact hfile.symm
  case flush => rfl
  case compactor => rfl
  case listed =>
    intro t ht
    obtain ⟨t, hmem, rfl⟩ := List.mem_map.mp ht
    exact OpenTable.ofListed_sound hperm hopen hmem
  case cloned => exact fun _ hmem => absurd hmem List.not_mem_nil
  case flushing => exact fun job hjob => absurd hjob (Option.not_mem_none job)
  case merging => trivial

/-! ## Whole runs -/

/-- Where the run is, the set over whole files can be as well. -/
theorem Refines.of_run
    (hopen : Mount.open files dirPath bitsPerKey listing = some s₀)
    (hexec : s₀.exec steps = some s) :
    ∃ set dir a,
      SSTableSet.open dirPath bitsPerKey listing files.dir = (.ok set, dir) ∧
      Relation.ReflTransGen (SetState.Goes (∃ l ∈ steps, l.Fails))
        (SetState.resting dir set) a ∧ Refines s a := by
  obtain ⟨set, dir, hset, h⟩ := refines_of_open hopen
  obtain ⟨a, hreach, h⟩ := h.exec hexec
  exact ⟨set, dir, a, hset, hreach, h⟩

/-- What the set on its files lists, as its descriptors read it, is what the
set over whole files lists. -/
theorem Refines.set_reads {a : SetState byteTables} (h : Refines s a) :
    a.set = ⟨s.tables.map fun t => t.reads s.files, s.dirPath,
      s.bitsPerKey, s.nextSeq⟩ := by
  rw [h.set, reads_eq_of_sound fun t ht => (h.listed t ht).1]

/-- The calls on the files of the system go the way of the calls on whole
files: each run from a directory that opens has one over whole files with it,
which lists the same tables and has the same files. -/
theorem mounted_refines
    (hopen : Mount.open files dirPath bitsPerKey listing = some s₀)
    (hexec : s₀.exec steps = some s) :
    ∃ set dir a,
      SSTableSet.open dirPath bitsPerKey listing files.dir = (.ok set, dir) ∧
      Relation.ReflTransGen (SetState.Goes (∃ l ∈ steps, l.Fails))
        (SetState.resting dir set) a ∧
      a.set = ⟨s.tables.map fun t => t.reads s.files, s.dirPath,
        s.bitsPerKey, s.nextSeq⟩ ∧
      ∀ name, ¬ IsTmp name → a.dir.get? name = s.files.file name := by
  obtain ⟨set, dir, a, hset, hreach, h⟩ := Refines.of_run hopen hexec
  exact ⟨set, dir, a, hset, hreach, h.set_reads, h.shows⟩

/-- The lookup that a reader does on a list it cloned. -/
def lookupIn (tables : List OpenTable) (files : TableFiles) (key : Bytes) :
    Result (Option Bytes) :=
  getFrom key (tables.map fun t => t.reads files).reverse

/-- A table is written in two pieces and registered. -/
def flushSteps (memtable : Memtable) : List MountStep :=
  [.create memtable, .flush (.write 5), .flush (.write 1000),
    .flush .rename, .flush .open, .register]

/-- A reader clones a list of two tables, which are then merged into one and
unlinked. -/
def mergedUnderReader : List MountStep :=
  flushSteps (OrderedMap.empty.insert (ascii "foo") (some (ascii "bar"))) ++
    (flushSteps (OrderedMap.empty.insert (ascii "omar") none) ++
      [.clone, .begin 0 2, .merge, .createMerged, .work (.write 1000),
        .work .rename, .work .open, .swap, .unlink, .unlink, .unlink])

theorem mergedUnderReader_runs :
    ∃ s₀ s tables, Mount.open (Volume.empty Bytes UInt8) [] 10 [] =
        some s₀ ∧
      s₀.exec mergedUnderReader = some s ∧
      s.files.names.keys = [tableName ⟨0, 1⟩] ∧ s.snapshots = [tables] ∧
      lookupIn tables s.files (ascii "foo") = .ok (some (ascii "bar")) := by
  have hrun : ((Mount.open (Volume.empty Bytes UInt8) [] 10 []).bind
      fun s => s.exec mergedUnderReader).map (fun s =>
        (s.files.names.keys, s.snapshots.map fun tables =>
          (lookupIn tables s.files (ascii "foo")).toOption)) =
      some ([tableName ⟨0, 1⟩], [some (some (ascii "bar"))]) := by
    decide +kernel
  obtain ⟨s, hrun, hshows⟩ := Option.map_eq_some_iff.mp hrun
  obtain ⟨s₀, hopen, hexec⟩ := Option.bind_eq_some_iff.mp hrun
  obtain ⟨hnames, hanswers⟩ := Prod.mk.inj hshows
  obtain ⟨tables, hsnapshots, hanswer⟩ :=
    List.map_eq_singleton_iff.mp hanswers
  refine ⟨s₀, s, tables, hopen, hexec, hnames, hsnapshots, ?_⟩
  cases hlookup : lookupIn tables s.files (ascii "foo") with
  | error e =>
      rw [hlookup] at hanswer
      cases hanswer
  | ok answer =>
      rw [hlookup] at hanswer
      rw [Option.some.inj hanswer]

theorem mounted_refines_mergedUnderReader :
    ∃ s₀ s, Mount.open (Volume.empty Bytes UInt8) [] 10 [] = some s₀ ∧
      s₀.exec mergedUnderReader = some s ∧
      ∃ set dir a, SSTableSet.open [] 10 []
          (TableFiles.dir (Volume.empty Bytes UInt8)) = (.ok set, dir) ∧
        Relation.ReflTransGen
          (SetState.Goes (∃ l ∈ mergedUnderReader, l.Fails))
          (SetState.resting dir set) a ∧
        a.set = ⟨s.tables.map fun t => t.reads s.files, s.dirPath,
          s.bitsPerKey, s.nextSeq⟩ ∧
        ∀ name, ¬ IsTmp name → a.dir.get? name = s.files.file name := by
  obtain ⟨s₀, s, tables, hopen, hexec, -, -, -⟩ := mergedUnderReader_runs
  exact ⟨s₀, s, hopen, hexec, mounted_refines hopen hexec⟩

/-! ## Readers -/

/-- A step keeps a list that was cloned, or it clones the list there is. -/
theorem snapshot_of_step {s' : Mount} {l : MountStep}
    (hstep : s.step l = some s') {tables : List OpenTable}
    (hmem : tables ∈ s'.snapshots) :
    tables ∈ s.snapshots ∨ l = .clone ∧ tables = s.tables := by
  cases l with
  | clone =>
      obtain rfl := Option.some.inj hstep
      rcases List.mem_append.mp hmem with hmem | hmem
      · exact Or.inl hmem
      · exact Or.inr ⟨rfl, List.mem_singleton.mp hmem⟩
  | release reader =>
      obtain rfl := Option.some.inj hstep
      exact Or.inl (List.mem_of_mem_eraseIdx hmem)
  -- No other step touches the lists of the readers.
  | swap => grind [Mount.step, Mount.replace]
  | create | flush | createMerged | work =>
      grind [Mount.step, Option.map_eq_some_iff]
  | register | flushFails | begin | merge | unlink | compactFails =>
      grind [Mount.step]

/-- A list that a reader holds was the list of the set at some moment. -/
theorem snapshot_of_exec (hexec : s₀.exec steps = some s)
    {tables : List OpenTable} (hmem : tables ∈ s.snapshots) :
    tables ∈ s₀.snapshots ∨ ∃ before after s₁,
      before ++ MountStep.clone :: after = steps ∧
        s₀.exec before = some s₁ ∧ s₁.tables = tables := by
  induction steps generalizing s₀ with
  | nil =>
      obtain rfl := Option.some.inj hexec
      exact Or.inl hmem
  | cons l steps ih =>
      obtain ⟨s', hstep, hrest⟩ := Option.bind_eq_some_iff.mp hexec
      rcases ih hrest with hstart | ⟨before, after, s₁, rfl, hbefore, hat⟩
      · rcases snapshot_of_step hstep hstart with hkept | ⟨rfl, rfl⟩
        · exact Or.inl hkept
        · exact Or.inr ⟨[], steps, s₀, rfl, rfl, rfl⟩
      · refine Or.inr ⟨l :: before, after, s₁, rfl, ?_, hat⟩
        exact Option.bind_eq_some_iff.mpr ⟨s', hstep, hbefore⟩

/-- A reader that still holds a list it cloned looks a key up as in the whole
set of that moment, whatever was written, merged, renamed over and unlinked
since; and each table that anybody has open reads as it was opened. -/
theorem snapshots_read_as_cloned
    (hopen : Mount.open files dirPath bitsPerKey listing = some s₀)
    (hexec : s₀.exec steps = some s) :
    (∀ t ∈ s.held, t.reads s.files = t.opened) ∧
    ∀ tables ∈ s.snapshots, ∃ before after s₁ set dir a,
      before ++ MountStep.clone :: after = steps ∧
      s₀.exec before = some s₁ ∧ s₁.tables = tables ∧
      SSTableSet.open dirPath bitsPerKey listing files.dir = (.ok set, dir) ∧
      Relation.ReflTransGen (SetState.Goes (∃ l ∈ before, l.Fails))
        (SetState.resting dir set) a ∧
      ∀ key, lookupIn tables s.files key = a.set.get key := by
  obtain ⟨_, _, _, _, _, h⟩ := Refines.of_run hopen hexec
  refine ⟨fun t ht => (h.held ht).reads_eq, ?_⟩
  intro tables hmem
  rcases snapshot_of_exec hexec hmem with
    hstart | ⟨before, after, s₁, hsteps, hbefore, rfl⟩
  · obtain ⟨-, set, dir, -, rfl⟩ := Mount.open_eq_some hopen
    exact absurd hstart List.not_mem_nil
  · obtain ⟨set, dir, a, hset, hreach, h₁⟩ := Refines.of_run hopen hbefore
    refine ⟨before, after, s₁, set, dir, a, hsteps, hbefore, rfl, hset,
      hreach, ?_⟩
    intro key
    rw [lookupIn, reads_eq_of_sound (h.cloned _ hmem), SSTableSet.get, h₁.set]

theorem snapshots_read_as_cloned_mergedUnderReader :
    ∃ s₀ s tables, Mount.open (Volume.empty Bytes UInt8) [] 10 [] =
        some s₀ ∧
      s₀.exec mergedUnderReader = some s ∧
      s.files.names.keys = [tableName ⟨0, 1⟩] ∧
      lookupIn tables s.files (ascii "foo") = .ok (some (ascii "bar")) ∧
      ∃ before after s₁ set dir a,
        before ++ MountStep.clone :: after = mergedUnderReader ∧
        s₀.exec before = some s₁ ∧ s₁.tables = tables ∧
        SSTableSet.open [] 10 []
          (TableFiles.dir (Volume.empty Bytes UInt8)) = (.ok set, dir) ∧
        Relation.ReflTransGen (SetState.Goes (∃ l ∈ before, l.Fails))
          (SetState.resting dir set) a ∧
        ∀ key, lookupIn tables s.files key = a.set.get key := by
  obtain ⟨s₀, s, tables, hopen, hexec, hnames, hheld, hanswer⟩ :=
    mergedUnderReader_runs
  have hmem : tables ∈ s.snapshots := by simp [hheld]
  exact ⟨s₀, s, tables, hopen, hexec, hnames, hanswer,
    (snapshots_read_as_cloned hopen hexec).2 tables hmem⟩

end Lsmrs
