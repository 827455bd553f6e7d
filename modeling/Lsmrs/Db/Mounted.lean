import Lsmrs.Db.OpenFiles

/-!
# The set on its files

Step by step, the set behind its descriptors does what the set over a
directory of whole files does.
-/

namespace Lsmrs

open ByteString OrderedMap Inodes

/-! ## Whole files -/

section Goes

variable {F : TableFormat}

/-- A step of a call, or the end of one that fails. -/
inductive SetState.Goes (faulty : Prop) (s : SetState F) :
    SetState F → Prop
  | step {s' : SetState F} {l : SetStep F} (hstep : s.step l = some s') :
    Goes faulty s s'
  | flushFails (hf : faulty) : Goes faulty s { s with flush := .idle }
  | compactFails {s' : SetState F} (hf : faulty) (hfails : Fails s s') :
    Goes faulty s s'

theorem SetState.Goes.mono {faulty faulty' : Prop} {s s' : SetState F}
    (h : faulty → faulty') (hgo : Goes faulty s s') :
    Goes faulty' s s' := by
  cases hgo with
  | step hstep => exact .step hstep
  | flushFails hf => exact .flushFails (h hf)
  | compactFails hf hfails => exact .compactFails (h hf) hfails

/-- A step and the run behind it, of which either may have failed. -/
theorem SetState.Goes.trans {first later faulty : Prop}
    (hfirst : first → faulty) (hlater : later → faulty)
    {s s' s'' : SetState F} (h : Relation.ReflGen (Goes first) s s')
    (h' : Relation.ReflTransGen (Goes later) s' s'') :
    Relation.ReflTransGen (Goes faulty) s s'' := by
  have hstep := h.mono fun _ _ => Goes.mono hfirst
  have hrun := Relation.ReflTransGen.mono
    (fun _ _ => Goes.mono hlater) s' s'' h'
  exact hstep.to_reflTransGen.trans hrun

end Goes

/-- The calls end here with an error. -/
def MountStep.Fails : MountStep → Prop
  | .flushFails => True
  | .compactFails => True
  | _ => False

/-- The `write` over whole files: its temporary file is there at once. -/
def TableJob.flush : TableJob → Flush byteTables
  | .writing span _ _ table => .created span.first table
  | .renamed span table => .published span.first table
  | .opened t => .published t.span.first t.table

def flushOf : Option TableJob → Flush byteTables
  | none => .idle
  | some job => job.flush

/-- The `compact` over whole files. -/
def Merging.compactor : Merging → Compactor (logless byteTables)
  | .idle => .idle
  | .begun run start count =>
    .begun (run.map OpenTable.opened) start count
  | .merged start count span entries => .merged start count span entries
  | .mergedAway start count => .ready start count none
  | .writing start count (.writing span _ _ table) =>
    .created start count span table
  | .writing start count (.renamed span table) =>
    .ready start count (some (listedAt span table))
  | .writing start count (.opened t) => .ready start count (some t.opened)
  | .unlinking obsolete => .unlinking (obsolete.map OpenTable.opened)

/-- What `compact` relies on: its run is older than what `write` writes. -/
def Merging.Sound (files : TableFiles) (dir : Dir byteTables) (nextSeq : ℕ) :
    Merging → Prop
  | .begun run _ _ => run ≠ [] ∧
    ∀ t ∈ run, t.Sound files ∧ t.span.last < nextSeq
  | .merged _ _ span _ => span.last < nextSeq
  | .writing _ _ job => job.Sound files dir ∧ job.span.last < nextSeq
  | .unlinking obsolete => ∀ t ∈ obsolete, t.Sound files
  | _ => True

/-- The set on its files stands where the set over whole files does. -/
structure Refines (s : Mount) (a : SetState byteTables) : Prop where
  set : a.set =
    ⟨s.tables.map OpenTable.opened, s.dirPath, s.bitsPerKey, s.nextSeq⟩
  shows : DirShows s.files a.dir
  flush : a.flush = flushOf s.flush
  compactor : a.compactor = s.compactor.compactor
  listed : ∀ t ∈ s.tables, t.Sound s.files ∧ t.span.last < s.nextSeq
  cloned : ∀ tables ∈ s.snapshots, ∀ t ∈ tables, t.Sound s.files
  flushing : ∀ job ∈ s.flush, job.Sound s.files a.dir ∧
    job.span = ⟨s.nextSeq, s.nextSeq⟩
  merging : s.compactor.Sound s.files a.dir s.nextSeq

/-- The files of older spans are left alone. -/
def LeavesOlder (nextSeq : ℕ) (files files' : TableFiles)
    (dir dir' : Dir byteTables) : Prop :=
  ∀ {span : Span}, span.last < nextSeq → Leaves span files files' dir dir'

theorem Merging.Sound.leaves {files files' : TableFiles}
    {dir dir' : Dir byteTables} {nextSeq : ℕ} {m : Merging}
    (h : m.Sound files dir nextSeq) (hspares : files.Spares IsTmp files')
    (hleaves : LeavesOlder nextSeq files files' dir dir') :
    m.Sound files' dir' nextSeq := by
  cases m with
  | idle => trivial
  | begun run start count =>
      exact ⟨h.1, fun t ht => ⟨(h.2 t ht).1.spares hspares, (h.2 t ht).2⟩⟩
  | merged start count span entries => exact h
  | mergedAway start count => trivial
  | writing start count job =>
      exact ⟨h.1.leaves hspares (hleaves h.2), h.2⟩
  | unlinking obsolete => exact fun t ht => (h t ht).spares hspares

theorem Merging.Sound.mono {files : TableFiles} {dir : Dir byteTables}
    {nextSeq nextSeq' : ℕ} {m : Merging} (h : m.Sound files dir nextSeq)
    (hle : nextSeq ≤ nextSeq') : m.Sound files dir nextSeq' := by
  cases m with
  | idle => trivial
  | begun run start count =>
      exact ⟨h.1, fun t ht => ⟨(h.2 t ht).1, (h.2 t ht).2.trans_le hle⟩⟩
  | merged start count span entries => exact lt_of_lt_of_le h hle
  | mergedAway start count => trivial
  | writing start count job => exact ⟨h.1, h.2.trans_le hle⟩
  | unlinking obsolete => exact h

/-- What is written now is newer than all that is merged. -/
theorem Advances.leavesOlder {files files' : TableFiles}
    {dir dir' : Dir byteTables} {nextSeq : ℕ}
    (h : Advances ⟨nextSeq, nextSeq⟩ files files' dir dir') :
    LeavesOlder nextSeq files files' dir dir' := by
  intro span hlast
  apply h.leaves
  rintro rfl
  exact lt_irrefl _ hlast

namespace Refines

variable {s s' : Mount} {a : SetState byteTables}

/-! ## Steps of `write` -/

/-- The thread inside `write` gets on. -/
theorem writes (h : Refines s a) {files : TableFiles}
    {dir : Dir byteTables} {job : TableJob}
    (hadvances : Advances ⟨s.nextSeq, s.nextSeq⟩ s.files files a.dir dir)
    (hjob : job.Sound files dir)
    (hspan : job.span = ⟨s.nextSeq, s.nextSeq⟩) :
    Refines { s with files, flush := some job }
      ⟨⟨dir, a.set⟩, job.flush, a.compactor⟩ where
  set := h.set
  shows := hadvances.shows
  flush := rfl
  compactor := h.compactor
  listed := fun t ht =>
    ⟨(h.listed t ht).1.spares hadvances.spares, (h.listed t ht).2⟩
  cloned := fun tables hmem t ht =>
    (h.cloned tables hmem t ht).spares hadvances.spares
  flushing := by
    rintro job' hmem
    obtain rfl := Option.some.inj hmem
    exact ⟨hjob, hspan⟩
  merging := h.merging.leaves hadvances.spares hadvances.leavesOlder

theorem create (h : Refines s a) {memtable : Memtable}
    (hstep : s.step (.create memtable) = some s') (faulty : Prop) :
    ∃ a', Relation.ReflGen (SetState.Goes faulty) a a' ∧ Refines s' a' := by
  simp only [Mount.step] at hstep
  split at hstep
  next hflush =>
    split_ifs at hstep with hnil
    · obtain rfl := Option.some.inj hstep
      exact ⟨a, .refl, h⟩
    · obtain ⟨⟨files, job⟩, hcreate, rfl⟩ :=
        Option.map_eq_some_iff.mp hstep
      obtain ⟨inode, file, table, hwrite, rfl, hjob, hadvances⟩ :=
        TableJob.create_sound h.shows hcreate
      refine ⟨_, .single (.step (l := .create memtable) ?_),
        h.writes hadvances hjob rfl⟩
      have hidle : a.flush = .idle := by rw [h.flush, hflush]; rfl
      simp only [SetState.step, hidle, if_neg hnil, h.set]
      rw [show writeTable s.bitsPerKey _ memtable.entries = _ from hwrite]
      rfl
  next => cases hstep

theorem flushStep (h : Refines s a) {l : JobStep}
    (hstep : s.step (.flush l) = some s') (faulty : Prop) :
    ∃ a', Relation.ReflGen (SetState.Goes faulty) a a' ∧ Refines s' a' := by
  simp only [Mount.step] at hstep
  split at hstep
  next job hflush =>
    obtain ⟨⟨files, job'⟩, hjobstep, rfl⟩ :=
      Option.map_eq_some_iff.mp hstep
    have hmove := TableJob.step_move hjobstep
    obtain ⟨hjob, hspan⟩ := h.flushing job hflush
    obtain ⟨hjob', hadvances⟩ := hjob.move h.shows hmove
    rw [hspan] at hadvances hjob'
    have hnext := h.writes hadvances hjob' (hmove.span.trans hspan)
    have hat : a.flush = job.flush := by rw [h.flush, hflush]; rfl
    refine ⟨_, ?_, hnext⟩
    obtain ⟨⟨dir, set⟩, flush, compactor⟩ := a
    cases hmove with
    | wrote =>
        rw [show flush = _ from hat]
        exact .refl
    | opened =>
        rw [show flush = _ from hat]
        exact .refl
    | @renamed span inode table =>
        obtain rfl : span = _ := hspan
        refine .single (.step (l := .rename) ?_)
        simp only [SetState.step, show flush = _ from hat]
        rfl
  next => cases hstep

theorem register (h : Refines s a) (hstep : s.step .register = some s')
    (faulty : Prop) :
    ∃ a', Relation.ReflGen (SetState.Goes faulty) a a' ∧ Refines s' a' := by
  simp only [Mount.step] at hstep
  split at hstep
  next t hflush =>
    split_ifs at hstep with hseq
    obtain rfl := Option.some.inj hstep
    obtain ⟨⟨hpath, hsound⟩, hspan⟩ := h.flushing _ hflush
    change t.span = _ at hspan
    have hat : a.flush = .published t.span.first t.table := by
      rw [h.flush, hflush]
      rfl
    refine ⟨{ a with
      set := a.set.register t.span.first t.table
      flush := .idle }, .single (.step (l := .register) ?_), ?_⟩
    · simp only [SetState.step, hat, if_pos hseq]
    · rw [hspan]
      constructor
      case set =>
        rw [h.set, SSTableSet.register, List.map_append, List.map_singleton,
          OpenTable.opened, hpath, hspan]
        rfl
      case shows => exact h.shows
      case flush => rfl
      case compactor => exact h.compactor
      case listed =>
        intro t' ht'
        rcases List.mem_append.mp ht' with ht' | ht'
        · exact ⟨(h.listed t' ht').1, Nat.lt_succ_of_lt (h.listed t' ht').2⟩
        · obtain rfl := List.mem_singleton.mp ht'
          rw [hspan]
          exact ⟨hsound, Nat.lt_succ_self _⟩
      case cloned => exact h.cloned
      case flushing =>
        exact fun job hjob => absurd hjob (Option.not_mem_none job)
      case merging => exact h.merging.mono (Nat.le_succ _)
  next => cases hstep

/-! ## Steps of `compact` -/

/-- The thread inside `compact` gets on. -/
theorem compacts (h : Refines s a) {files : TableFiles}
    {dir : Dir byteTables} {m : Merging}
    (hspares : s.files.Spares IsTmp files) (hshows : DirShows files dir)
    (hleaves : Leaves ⟨s.nextSeq, s.nextSeq⟩ s.files files a.dir dir)
    (hm : m.Sound files dir s.nextSeq) :
    Refines { s with files, compactor := m }
      ⟨⟨dir, a.set⟩, a.flush, m.compactor⟩ where
  set := h.set
  shows := hshows
  flush := h.flush
  compactor := rfl
  listed := fun t ht =>
    ⟨(h.listed t ht).1.spares hspares, (h.listed t ht).2⟩
  cloned := fun tables hmem t ht =>
    (h.cloned tables hmem t ht).spares hspares
  flushing := by
    intro job hjob
    obtain ⟨hsound, hspan⟩ := h.flushing job hjob
    rw [← hspan] at hleaves
    exact ⟨hsound.leaves hspares hleaves, hspan⟩
  merging := hm

/-- The thread gets on without touching a file. -/
theorem turns (h : Refines s a) {m : Merging}
    (hm : m.Sound s.files a.dir s.nextSeq) :
    Refines { s with compactor := m }
      ⟨⟨a.dir, a.set⟩, a.flush, m.compactor⟩ :=
  h.compacts (Volume.spares_refl _ _) h.shows
    ⟨rfl, fun _ => rfl, id, rfl⟩ hm

theorem tables_length (h : Refines s a) :
    a.set.sstables.length = s.tables.length := by
  rw [h.set, List.length_map]

theorem runOf_eq (h : Refines s a) (start count : ℕ) :
    runOf a.set.sstables start count =
      ((s.tables.drop start).take count).map OpenTable.opened := by
  rw [h.set, runOf, ← List.map_drop, ← List.map_take]

theorem at_compactor (h : Refines s a) {m : Merging}
    (hat : s.compactor = m) : a.compactor = m.compactor := by
  rw [h.compactor, hat]

theorem begin (h : Refines s a) {start count : ℕ}
    (hstep : s.step (.begin start count) = some s') (faulty : Prop) :
    ∃ a', Relation.ReflGen (SetState.Goes faulty) a a' ∧ Refines s' a' := by
  simp only [Mount.step] at hstep
  split at hstep
  next hidle =>
    split_ifs at hstep with hhas
    obtain rfl := Option.some.inj hstep
    have hrun : (Merging.begun ((s.tables.drop start).take count) start
        count).Sound s.files a.dir s.nextSeq := by
      refine ⟨?_, fun t ht =>
        h.listed t (List.mem_of_mem_drop (List.mem_of_mem_take ht))⟩
      intro hnil
      have hlen := congrArg List.length hnil
      simp only [List.length_take, List.length_drop, List.length_nil] at hlen
      omega
    refine ⟨_, .single (.step (l := .compact (.begin start count)) ?_),
      h.turns hrun⟩
    rw [Merging.compactor, ← h.runOf_eq start count]
    refine SetState.compactStep_of_move
      (.begun (h.at_compactor hidle) hhas.1 ?_)
    exact hhas.2.trans_eq h.tables_length.symm
  next => cases hstep

/-- The output ends where its newest input does. -/
theorem runSpan_last_lt {run : List OpenTable} {nextSeq : ℕ}
    (hne : run ≠ []) (h : ∀ t ∈ run, t.span.last < nextSeq) :
    (runSpan (run.map OpenTable.opened)).last < nextSeq := by
  rw [runSpan, List.getLast?_map, List.getLast?_eq_getLast_of_ne_nil hne]
  exact h _ (List.getLast_mem hne)

theorem merge (h : Refines s a) (hstep : s.step .merge = some s')
    (faulty : Prop) :
    ∃ a', Relation.ReflGen (SetState.Goes faulty) a a' ∧ Refines s' a' := by
  simp only [Mount.step] at hstep
  split at hstep
  next run start count hbegun =>
    have hsound := h.merging
    rw [hbegun] at hsound
    have hat := h.at_compactor hbegun
    rw [reads_eq_of_sound fun t ht => (hsound.2 t ht).1] at hstep
    split at hstep
    next entries hmerge =>
      obtain rfl := Option.some.inj hstep
      have hmove := SetState.compactStep_of_move (s := a)
        (.merged hat hmerge)
      refine ⟨_, .single (.step (l := .compact .merge) hmove), ?_⟩
      by_cases hnil : entries = []
      · rw [if_pos hnil, if_pos hnil]
        exact h.turns (m := .mergedAway start count) trivial
      · rw [if_neg hnil, if_neg hnil]
        exact h.turns (m := .merged start count _ entries)
          (runSpan_last_lt hsound.1 fun t ht => (hsound.2 t ht).2)
    next e hmerge =>
      obtain rfl := Option.some.inj hstep
      have hmove := SetState.compactStep_of_move (s := a)
        (.unmerged hat hmerge)
      exact ⟨_, .single (.step (l := .compact .merge) hmove),
        h.turns (m := .idle) trivial⟩
  next => cases hstep

theorem createMerged (h : Refines s a)
    (hstep : s.step .createMerged = some s') (faulty : Prop) :
    ∃ a', Relation.ReflGen (SetState.Goes faulty) a a' ∧ Refines s' a' := by
  simp only [Mount.step] at hstep
  split at hstep
  next start count span entries hmerged =>
    have hlast : span.last < s.nextSeq := by
      have hsound := h.merging
      rwa [hmerged] at hsound
    obtain ⟨⟨files, job⟩, hcreate, rfl⟩ :=
      Option.map_eq_some_iff.mp hstep
    obtain ⟨inode, file, table, hwrite, rfl, hjob, hadvances⟩ :=
      TableJob.create_sound h.shows hcreate
    have hbits : a.set.bitsPerKey = s.bitsPerKey := by rw [h.set]
    rw [← hbits] at hwrite
    have hmove := SetState.compactStep_of_move (s := a)
      (.created (h.at_compactor hmerged) hwrite)
    exact ⟨_, .single (.step (l := .compact .create) hmove),
      h.compacts hadvances.spares hadvances.shows
        (hadvances.leaves fun heq => by simp [← heq] at hlast)
        ⟨hjob, hlast⟩⟩
  next => cases hstep

theorem work (h : Refines s a) {l : JobStep}
    (hstep : s.step (.work l) = some s') (faulty : Prop) :
    ∃ a', Relation.ReflGen (SetState.Goes faulty) a a' ∧ Refines s' a' := by
  simp only [Mount.step] at hstep
  split at hstep
  next start count job hwriting =>
    obtain ⟨hjob, hlast⟩ : job.Sound s.files a.dir ∧
        job.span.last < s.nextSeq := by
      have hsound := h.merging
      rwa [hwriting] at hsound
    have hat := h.at_compactor hwriting
    obtain ⟨⟨files, job'⟩, hjobstep, rfl⟩ :=
      Option.map_eq_some_iff.mp hstep
    have hmove := TableJob.step_move hjobstep
    obtain ⟨hjob', hadvances⟩ := hjob.move h.shows hmove
    have hnext := h.compacts (m := .writing start count job')
      hadvances.spares hadvances.shows
      (hadvances.leaves fun heq => by simp [← heq] at hlast)
      ⟨hjob', hmove.span ▸ hlast⟩
    refine ⟨_, ?_, hnext⟩
    cases hmove with
    | wrote =>
        obtain ⟨⟨dir, set⟩, flush, compactor⟩ := a
        rw [show compactor = _ from hat]
        exact .refl
    | opened =>
        obtain ⟨⟨dir, set⟩, flush, compactor⟩ := a
        rw [show compactor = _ from hat]
        exact .refl
    | renamed =>
        have hrename := SetState.compactStep_of_move (s := a)
          (.renamed hat)
        exact .single (.step (l := .compact .rename) hrename)
  next => cases hstep

/-- The run gives way to its replacement, and nothing else is closed. -/
theorem replaces (h : Refines s a) {start count : ℕ}
    (replacement : Option OpenTable)
    (hnew : ∀ t ∈ replacement, t.Sound s.files ∧ t.span.last < s.nextSeq)
    (hat : a.compactor =
      .ready start count (replacement.map OpenTable.opened))
    (hstep : s.replace start count replacement = some s')
    (faulty : Prop) :
    ∃ a', Relation.ReflGen (SetState.Goes faulty) a a' ∧ Refines s' a' := by
  unfold Mount.replace at hstep
  split_ifs at hstep with hrange
  obtain rfl := Option.some.inj hstep
  have hswap := SetState.compactStep_of_move (s := a)
    (.swapped hat (hrange.trans_eq h.tables_length.symm))
  refine ⟨_, .single (.step (l := .compact .swap) hswap), ?_⟩
  constructor
  case set =>
    dsimp only [SetState.process]
    rw [h.set, spliced, ← List.map_take, ← List.map_drop]
    cases replacement <;> simp
  case shows => exact h.shows
  case flush => exact h.flush
  case compactor =>
    exact congrArg Compactor.unlinking (h.runOf_eq start count)
  case listed =>
    intro t ht
    rcases List.mem_append.mp ht with ht | ht
    · exact h.listed t (List.mem_of_mem_take ht)
    · rcases List.mem_append.mp ht with ht | ht
      · exact hnew t (Option.mem_toList.mp ht)
      · exact h.listed t (List.mem_of_mem_drop ht)
  case cloned => exact h.cloned
  case flushing => exact h.flushing
  case merging =>
    intro t ht
    exact (h.listed t (List.mem_of_mem_drop (List.mem_of_mem_take ht))).1

theorem swap (h : Refines s a) (hstep : s.step .swap = some s')
    (faulty : Prop) :
    ∃ a', Relation.ReflGen (SetState.Goes faulty) a a' ∧ Refines s' a' := by
  simp only [Mount.step] at hstep
  split at hstep
  next start count t hwriting =>
    have hsound := h.merging
    rw [hwriting] at hsound
    refine h.replaces (some t) ?_ (h.at_compactor hwriting) hstep faulty
    intro t' ht'
    obtain rfl := Option.some.inj ht'
    exact ⟨hsound.1.2, hsound.2⟩
  next start count hmergedAway =>
    refine h.replaces none ?_ (h.at_compactor hmergedAway) hstep faulty
    exact fun t ht => absurd ht (Option.not_mem_none t)
  next => cases hstep

theorem unlink (h : Refines s a) (hstep : s.step .unlink = some s')
    (faulty : Prop) :
    ∃ a', Relation.ReflGen (SetState.Goes faulty) a a' ∧ Refines s' a' := by
  simp only [Mount.step] at hstep
  split at hstep
  next t obsolete hunlinking =>
    obtain rfl := Option.some.inj hstep
    have hsound := h.merging
    rw [hunlinking] at hsound
    have hpath : ¬ IsTmp t.path := (hsound t List.mem_cons_self).path
    have hunlink := SetState.compactStep_of_move (s := a)
      (.unlinked (h.at_compactor hunlinking))
    have hspares : s.files.Spares IsTmp (s.files.unlink t.path) :=
      Volume.spares_unlink t.path
    refine ⟨_, .single (.step (l := .compact .unlink) hunlink),
      h.compacts (m := .unlinking obsolete) hspares (shows_unlink h.shows)
        (leaves_unlink hpath _) ?_⟩
    intro t' ht'
    exact (hsound t' (List.mem_cons_of_mem _ ht')).spares hspares
  next hunlinking =>
    obtain rfl := Option.some.inj hstep
    have hdone := SetState.compactStep_of_move (s := a)
      (.finished (h.at_compactor hunlinking))
    exact ⟨_, .single (.step (l := .compact .unlink) hdone),
      h.turns (m := .idle) trivial⟩
  next => cases hstep

/-! ## Calls that fail, and readers -/

theorem flushFails (h : Refines s a)
    (hstep : s.step .flushFails = some s') {faulty : Prop} (hf : faulty) :
    ∃ a', Relation.ReflGen (SetState.Goes faulty) a a' ∧ Refines s' a' := by
  simp only [Mount.step] at hstep
  split at hstep
  next =>
    obtain rfl := Option.some.inj hstep
    refine ⟨_, .single (.flushFails hf), ⟨h.set, h.shows, rfl, h.compactor,
      h.listed, h.cloned, ?_, h.merging⟩⟩
    exact fun job hjob => absurd hjob (Option.not_mem_none job)
  next => cases hstep

theorem compactFails (h : Refines s a)
    (hstep : s.step .compactFails = some s') {faulty : Prop}
    (hf : faulty) :
    ∃ a', Relation.ReflGen (SetState.Goes faulty) a a' ∧ Refines s' a' := by
  have hidle := h.turns (m := .idle) trivial
  simp only [Mount.step] at hstep
  split at hstep
  next hbegun =>
    obtain rfl := Option.some.inj hstep
    exact ⟨_, .single (.compactFails hf (.read (h.at_compactor hbegun))),
      hidle⟩
  next hmerged =>
    obtain rfl := Option.some.inj hstep
    exact ⟨_, .single (.compactFails hf
      (.write none (h.at_compactor hmerged))), hidle⟩
  next start count job hwriting =>
    obtain rfl := Option.some.inj hstep
    have hat := h.at_compactor hwriting
    cases job with
    | writing =>
        exact ⟨_, .single (.compactFails hf (.rename hat)), hidle⟩
    | renamed =>
        exact ⟨_, .single (.compactFails hf (.sync hat)), hidle⟩
    | opened =>
        exact ⟨_, .single (.compactFails hf (.sync hat)), hidle⟩
  next hunlinking =>
    obtain rfl := Option.some.inj hstep
    exact ⟨_, .single (.compactFails hf
      (.remove (h.at_compactor hunlinking))), hidle⟩
  next => cases hstep

theorem clone (h : Refines s a) (hstep : s.step .clone = some s') :
    Refines s' a := by
  obtain rfl := Option.some.inj hstep
  refine ⟨h.set, h.shows, h.flush, h.compactor, h.listed, ?_, h.flushing,
    h.merging⟩
  intro tables hmem
  rcases List.mem_append.mp hmem with hmem | hmem
  · exact h.cloned tables hmem
  · obtain rfl := List.mem_singleton.mp hmem
    exact fun t ht => (h.listed t ht).1

theorem release (h : Refines s a) {reader : ℕ}
    (hstep : s.step (.release reader) = some s') : Refines s' a := by
  obtain rfl := Option.some.inj hstep
  exact ⟨h.set, h.shows, h.flush, h.compactor, h.listed,
    fun tables hmem => h.cloned tables (List.mem_of_mem_eraseIdx hmem),
    h.flushing, h.merging⟩

/-! ## Runs -/

theorem step (h : Refines s a) {l : MountStep}
    (hstep : s.step l = some s') :
    ∃ a', Relation.ReflGen (SetState.Goes l.Fails) a a' ∧
      Refines s' a' := by
  cases l with
  | create memtable => exact h.create hstep _
  | flush l => exact h.flushStep hstep _
  | register => exact h.register hstep _
  | flushFails => exact h.flushFails hstep trivial
  | begin start count => exact h.begin hstep _
  | merge => exact h.merge hstep _
  | createMerged => exact h.createMerged hstep _
  | work l => exact h.work hstep _
  | swap => exact h.swap hstep _
  | unlink => exact h.unlink hstep _
  | compactFails => exact h.compactFails hstep trivial
  | clone => exact ⟨a, .refl, h.clone hstep⟩
  | release reader => exact ⟨a, .refl, h.release hstep⟩

theorem exec (h : Refines s a) {steps : List MountStep}
    (hexec : s.exec steps = some s') :
    ∃ a', Relation.ReflTransGen
      (SetState.Goes (∃ l ∈ steps, l.Fails)) a a' ∧ Refines s' a' := by
  induction steps generalizing s a with
  | nil =>
      obtain rfl := Option.some.inj hexec
      exact ⟨a, .refl, h⟩
  | cons l steps ih =>
      obtain ⟨s₁, hstep, hrest⟩ := Option.bind_eq_some_iff.mp hexec
      obtain ⟨a₁, hgo, h₁⟩ := h.step hstep
      obtain ⟨a', hreach, h'⟩ := ih h₁ hrest
      refine ⟨a', SetState.Goes.trans ?_ ?_ hgo hreach, h'⟩
      · exact fun hl => ⟨l, List.mem_cons_self, hl⟩
      · rintro ⟨l', hmem, hl'⟩
        exact ⟨l', List.mem_cons_of_mem l hmem, hl'⟩

/-- Whatever somebody holds on to reads as it was opened. -/
theorem held (h : Refines s a) {t : OpenTable} (ht : t ∈ s.held) :
    t.Sound s.files := by
  rw [Mount.held, List.mem_append, List.mem_append, List.mem_append] at ht
  rcases ht with ht | ht | ht | ht
  · exact (h.listed t ht).1
  · obtain ⟨tables, hmem, ht⟩ := List.mem_flatten.mp ht
    exact h.cloned tables hmem t ht
  · split at ht
    next hflush =>
      obtain rfl := List.mem_singleton.mp ht
      exact (h.flushing _ hflush).1.2
    next => cases ht
  · have hsound := h.merging
    split at ht
    next hat =>
      rw [hat] at hsound
      exact (hsound.2 t ht).1
    next hat =>
      rw [hat] at hsound
      obtain rfl := List.mem_singleton.mp ht
      exact hsound.1.2
    next hat =>
      rw [hat] at hsound
      exact hsound t ht
    next => cases ht

end Refines

end Lsmrs
