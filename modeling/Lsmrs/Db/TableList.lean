import Lsmrs.Db.Invariant
import Lsmrs.Sstable.Calls

/-!
# The list of tables

One set of tables over its directory, with a `write` and a `compact` that
take their steps in any order, and reopenings.  In every state of a run the
spans of the list ascend without overlap, no rename goes onto a listed file,
and once no call is in progress the directory is the list.
-/

namespace Lsmrs

open ByteString OrderedMap

variable {F : TableFormat}

/-! ## A set with its calls in progress -/

/-- The tables alone, for a database that logs nothing. -/
@[reducible] def logless (F : TableFormat) : Format where
  toTableFormat := F
  Log := Unit
  emptyLog := ()
  append _ _ := ()
  torn _ _ _ := ()
  replay _ := .ok []

/-- Where the thread inside `SSTableSet::write` stands. -/
inductive Flush (F : TableFormat) where
  | idle
  | created (seq : ℕ) (table : F.Table)
  | published (seq : ℕ) (table : F.Table)

/-- A set and its directory, with the calls in progress. -/
structure SetState (F : TableFormat) extends Store F where
  flush : Flush F
  compactor : Compactor (logless F)

inductive SetStep (F : TableFormat) where
  | create (memtable : OrderedMap Bytes (Option Bytes))
  | rename
  | register
  | compact (step : CompactStep)
  | reopen (dirPath : Bytes) (bitsPerKey : ℕ) (listing : List Bytes)

namespace SetState

/-- A database around the set, which does nothing but compact. -/
def process (s : SetState F) : Process (logless F) :=
  ⟨⟨OrderedMap.empty, 0, Config.default, s.set⟩, .idle, s.compactor⟩

/-- A step of `compact`. -/
def compactStep (s : SetState F) (l : CompactStep) : Option (SetState F) :=
  (s.process.compactStep ⟨(), s.dir⟩ l).map fun (disk, p) =>
    ⟨⟨disk.dir, p.db.sstableSet⟩, s.flush, p.compactor⟩

/-- A step of one of the calls, or a reopening, which gives up what was in
progress as a crash does. -/
def step (s : SetState F) : SetStep F → Option (SetState F)
  | .create memtable =>
    match s.flush with
    | .idle =>
      let seq := s.set.nextSeq
      if memtable.entries = [] then some s
      else
        match F.writeTable s.set.bitsPerKey memtable.entries with
        | .ok (file, table) =>
          some { s with
            dir := createTmp s.dir ⟨seq, seq⟩ file
            flush := .created seq table }
        | .error _ => none
    | _ => none
  | .rename =>
    match s.flush with
    | .created seq table =>
      some { s with
        dir := publish s.dir ⟨seq, seq⟩
        flush := .published seq table }
    | _ => none
  | .register =>
    match s.flush with
    | .published seq table =>
      -- `seq + 1` must fit its `u64`.
      if seq < u64Max then
        some { s with set := s.set.register seq table, flush := .idle }
      else none
    | _ => none
  | .compact l => s.compactStep l
  | .reopen dirPath bitsPerKey listing =>
    if listing.Perm s.dir.keys then
      match SSTableSet.open dirPath bitsPerKey listing s.dir with
      | (.ok set, dir) => some ⟨⟨dir, set⟩, .idle, .idle⟩
      | (.error _, _) => none
    else none

/-- A run. -/
def exec (s : SetState F) : List (SetStep F) → Option (SetState F)
  | [] => some s
  | l :: steps => (s.step l).bind fun s => s.exec steps

/-- A set that was opened on an empty directory. -/
def initial (F : TableFormat) (dirPath : Bytes) (bitsPerKey : ℕ) :
    SetState F :=
  ⟨Store.initial F dirPath bitsPerKey, .idle, .idle⟩

/-! ## What holds in every state -/

/-- The final paths that a `write_table` in progress renames onto next. -/
def targets (s : SetState F) : List Bytes :=
  (match s.flush with
    | .created seq _ => [tableName ⟨seq, seq⟩]
    | _ => []) ++
  match s.compactor with
    | .created _ _ span _ => [tableName span]
    | _ => []

/-- No call is in progress. -/
def Quiet (s : SetState F) : Prop :=
  (match s.flush with
    | .idle => True
    | _ => False) ∧
  match s.compactor with
    | .idle => True
    | _ => False

/-- The directory holds the listed tables and no others, and opening it
gives the same list of spans, in whatever order it is read. -/
structure Settled (s : SetState F) : Prop where
  files : ∀ name, IsSst name →
    ((s.dir.get? name).isSome ↔ ∃ t ∈ s.set.sstables, t.path = name)
  reopens : ∀ listing : List Bytes, listing.Perm s.dir.keys →
    ∀ (dirPath : Bytes) (bitsPerKey : ℕ), ∃ set dir,
      SSTableSet.open dirPath bitsPerKey listing s.dir = (.ok set, dir) ∧
        set.sstables.map Listed.span = s.set.sstables.map Listed.span

/-- The list of tables is in order, below `next_seq`, and out of the way of
what is being written. -/
structure Consistent (s : SetState F) : Prop where
  ordered : ∀ t ∈ s.set.sstables, t.span.first ≤ t.span.last
  ascending : s.set.sstables.Pairwise fun a b => a.span.last < b.span.first
  below : ∀ t ∈ s.set.sstables, t.span.last < s.set.nextSeq
  spares : ∀ t ∈ s.set.sstables, t.path ∉ s.targets
  settled : s.Quiet → s.Settled

end SetState

/-- What is written fits the format. -/
def SetStep.EntriesOk (EntryOk : Entry → Prop) : SetStep F → Prop
  | .create memtable => ∀ e ∈ memtable.entries, EntryOk e
  | _ => True

instance SetStep.decidableEntriesOk {EntryOk : Entry → Prop}
    [DecidablePred EntryOk] (l : SetStep F) :
    Decidable (l.EntriesOk EntryOk) :=
  match l with
  | .create memtable =>
    inferInstanceAs (Decidable (∀ e ∈ memtable.entries, EntryOk e))
  | .rename => .isTrue trivial
  | .register => .isTrue trivial
  | .compact _ => .isTrue trivial
  | .reopen _ _ _ => .isTrue trivial

/-! ## What a step can be -/

/-- The steps of the set with what each needs and does. -/
inductive SetTurn (s : SetState F) : SetStep F → SetState F → Prop where
  | createNone {memtable : OrderedMap Bytes (Option Bytes)}
      (hidle : s.flush = .idle) (hnil : memtable.entries = []) :
    SetTurn s (.create memtable) s
  | create {memtable : OrderedMap Bytes (Option Bytes)} {file : F.File}
      {table : F.Table} (hidle : s.flush = .idle)
      (hne : memtable.entries ≠ [])
      (hwrite : F.writeTable s.set.bitsPerKey memtable.entries =
        .ok (file, table)) :
    SetTurn s (.create memtable)
      { s with
        dir := createTmp s.dir ⟨s.set.nextSeq, s.set.nextSeq⟩ file
        flush := .created s.set.nextSeq table }
  | rename {seq : ℕ} {table : F.Table}
      (hcreated : s.flush = .created seq table) :
    SetTurn s .rename
      { s with
        dir := publish s.dir ⟨seq, seq⟩
        flush := .published seq table }
  | register {seq : ℕ} {table : F.Table}
      (hpublished : s.flush = .published seq table) (hseq : seq < u64Max) :
    SetTurn s .register
      { s with set := s.set.register seq table, flush := .idle }
  | compact {l : CompactStep} {s' : SetState F}
      (hstep : s.compactStep l = some s') :
    SetTurn s (.compact l) s'
  | reopen {dirPath : Bytes} {bitsPerKey : ℕ} {listing : List Bytes}
      {set : SSTableSet F} {dir : Dir F} (hperm : listing.Perm s.dir.keys)
      (hopen : SSTableSet.open dirPath bitsPerKey listing s.dir =
        (.ok set, dir)) :
    SetTurn s (.reopen dirPath bitsPerKey listing)
      ⟨⟨dir, set⟩, .idle, .idle⟩

theorem SetState.step_turn {s s' : SetState F} {l : SetStep F}
    (h : s.step l = some s') : SetTurn s l s' := by
  cases l with
  | create memtable =>
      simp only [SetState.step] at h
      split at h
      next hidle =>
        split_ifs at h with hne
        · obtain rfl := Option.some.inj h
          exact .createNone hidle hne
        · split at h
          next file table hwrite =>
            obtain rfl := Option.some.inj h
            exact .create hidle hne hwrite
          next => cases h
      next => cases h
  | rename =>
      simp only [SetState.step] at h
      split at h
      next seq table hcreated =>
        obtain rfl := Option.some.inj h
        exact .rename hcreated
      next => cases h
  | register =>
      simp only [SetState.step] at h
      split at h
      next seq table hpublished =>
        split_ifs at h with hseq
        obtain rfl := Option.some.inj h
        exact .register hpublished hseq
      next => cases h
  | compact l => exact .compact h
  | reopen dirPath bitsPerKey listing =>
      simp only [SetState.step] at h
      split_ifs at h with hperm
      split at h
      next set dir hopen =>
        obtain rfl := Option.some.inj h
        exact .reopen hperm hopen
      next => cases h

/-! ## The invariant -/

variable {Ok : Mutation → Prop}

/-- What holds of the file and the table of a write in progress. -/
def FlushPhase (dir : Dir F) (set : SSTableSet F)
    (orphan : Option (Segment (Writable Ok))) : Flush F → Prop
  | .idle => orphan = none
  | .created seq table =>
    orphan = none ∧ seq = set.nextSeq ∧ ∃ d : Segment (Writable Ok),
      d.span = ⟨seq, seq⟩ ∧ F.Holds table d.content ∧ Waiting dir d
  | .published seq table =>
    seq = set.nextSeq ∧ ∃ d, orphan = some d ∧ F.Holds table d.content

structure SetInv (s : SetState F) (segs extra : List (Segment (Writable Ok)))
    (orphan : Option (Segment (Writable Ok))) : Prop where
  tables : TablesInv (F := logless F) .disjoint s.dir s.set s.compactor segs
    extra orphan
  next_le : s.set.nextSeq ≤ u64Max
  flush : FlushPhase s.dir s.set orphan s.flush

theorem described_spans {EntryOk : Entry → Prop} {tables : List (Listed F)}
    {segs : List (Segment EntryOk)}
    (h : List.Forall₂ Described tables segs) :
    tables.map Listed.span = segs.map Segment.span := by
  induction h with
  | nil => rfl
  | cons hd _ ih => rw [List.map_cons, List.map_cons, hd.span, ih]

namespace SetInv

variable {s s' : SetState F} {segs extra : List (Segment (Writable Ok))}
  {orphan : Option (Segment (Writable Ok))}

/-- The temporary file of a write changes nothing of the tables. -/
theorem create (hF : F.Lawful (Writable Ok))
    (h : SetInv s segs extra orphan) {memtable : Memtable}
    (hok : ∀ e ∈ memtable.entries, Writable Ok e)
    (hidle : s.flush = .idle) (hne : memtable.entries ≠ []) {file : F.File}
    {table : F.Table}
    (hwrite : F.writeTable s.set.bitsPerKey memtable.entries =
      .ok (file, table)) :
    SetInv
      { s with
        dir := createTmp s.dir ⟨s.set.nextSeq, s.set.nextSeq⟩ file
        flush := .created s.set.nextSeq table }
      segs extra orphan := by
  have horphan := h.flush
  rw [hidle] at horphan
  obtain ⟨hopen, hholds⟩ := hF.write hwrite hne memtable.ascending hok
  refine ⟨h.tables.createTmp file, h.next_le, horphan, rfl, ?_⟩
  let d : Segment (Writable Ok) :=
    { span := ⟨s.set.nextSeq, s.set.nextSeq⟩
      content := memtable.entries
      ordered := le_rfl
      bounded := h.next_le
      nonempty := hne
      ascending := memtable.ascending
      fits := hok }
  refine ⟨d, rfl, hholds, file, ?_, table, hopen, hholds⟩
  rw [createTmp, get?_insert, if_pos rfl]

theorem rename (h : SetInv s segs extra orphan) {seq : ℕ} {table : F.Table}
    (hcreated : s.flush = .created seq table) :
    ∃ d, SetInv
      { s with
        dir := publish s.dir ⟨seq, seq⟩
        flush := .published seq table }
      segs extra (some d) := by
  have hflush := h.flush
  rw [hcreated] at hflush
  obtain ⟨-, rfl, d, hspan, hholds, hwaiting⟩ := hflush
  exact ⟨d, h.tables.publish hspan hwaiting, h.next_le, rfl, d, rfl, hholds⟩

theorem register (h : SetInv s segs extra orphan) {seq : ℕ}
    {table : F.Table} (hpublished : s.flush = .published seq table)
    (hseq : seq < u64Max) :
    ∃ d, SetInv
      { s with set := s.set.register seq table, flush := .idle }
      (segs ++ [d]) extra none := by
  have hflush := h.flush
  rw [hpublished] at hflush
  obtain ⟨rfl, d, rfl, hholds⟩ := hflush
  exact ⟨d, h.tables.register hholds, hseq, rfl⟩

/-- The compactor leaves a write in progress alone. -/
theorem compactStep (hF : F.Lawful (Writable Ok))
    (h : SetInv s segs extra orphan) {l : CompactStep}
    (hstep : s.compactStep l = some s') :
    ∃ segs' extra' : List (Segment (Writable Ok)),
      SetInv s' segs' extra' orphan := by
  obtain ⟨⟨disk, p⟩, hcompact, rfl⟩ := Option.map_eq_some_iff.mp hstep
  have htables : ProcessTables (F := logless F) .disjoint ⟨(), s.dir⟩
      s.process segs extra orphan := h.tables
  obtain ⟨⟨segs', extra', hkeeps, -⟩, hframe⟩ :=
    compactStep_keeps hF htables hcompact
  refine ⟨segs', extra', hkeeps, ?_, ?_⟩
  · exact hframe.nextSeq.trans_le h.next_le
  · have hflush := h.flush
    cases hat : s.flush with
    | idle => rwa [hat] at hflush
    | created seq table =>
        rw [hat] at hflush
        obtain ⟨horphan, hseq, d, hspan, hholds, file, hfile, hstores⟩ :=
          hflush
        refine ⟨horphan, hseq.trans hframe.nextSeq.symm, d, hspan, hholds,
          file, ?_, hstores⟩
        have hle : s.set.nextSeq ≤ d.span.last := by rw [hspan, hseq]
        exact (hframe.tmp d.span hle).trans hfile
    | published seq table =>
        rw [hat] at hflush
        obtain ⟨hseq, hrest⟩ := hflush
        exact ⟨hseq.trans hframe.nextSeq.symm, hrest⟩

/-- A reopening lists what the directory shows. -/
theorem reopen (h : SetInv s segs extra orphan) {listing : List Bytes}
    (hperm : listing.Perm s.dir.keys) {dirPath : Bytes} {bitsPerKey : ℕ}
    {set : SSTableSet F} {dir : Dir F}
    (hopen : SSTableSet.open dirPath bitsPerKey listing s.dir =
      (.ok set, dir)) :
    ∃ kept : List (Segment (Writable Ok)),
      SetInv ⟨⟨dir, set⟩, .idle, .idle⟩ kept [] none := by
  obtain ⟨kept, hshows, hchain, -⟩ := h.tables.shows
  have hseq : ∀ d ∈ segs ++ (extra ++ orphan.toList),
      d.span.last < u64Max := by
    intro d hd
    refine lt_of_le_of_ne d.bounded fun heq => ?_
    rw [SSTableSet.open_exhausted hshows.files hperm hd heq] at hopen
    cases hopen
  obtain ⟨set', hopen', hdescribed, hnext, hbelow, hshows'⟩ :=
    SSTableSet.open_eq hshows hperm hseq dirPath bitsPerKey
  rw [hopen'] at hopen
  obtain ⟨hset, rfl⟩ := Prod.mk.inj hopen
  obtain rfl := Except.ok.inj hset
  refine ⟨kept, ⟨hdescribed, hchain, ?_, by simp, ?_, rfl⟩, hnext, rfl⟩
  · intro d hd
    exact hbelow d (by simpa using hd)
  · simpa using hshows'.files

/-! ## Every state of a run -/

/-- Each step keeps the invariant. -/
theorem step (hF : F.Lawful (Writable Ok)) (h : SetInv s segs extra orphan)
    {l : SetStep F} (hok : l.EntriesOk (Writable Ok))
    (hstep : s.step l = some s') :
    ∃ (segs' extra' : List (Segment (Writable Ok)))
      (orphan' : Option (Segment (Writable Ok))),
      SetInv s' segs' extra' orphan' := by
  cases SetState.step_turn hstep with
  | createNone => exact ⟨segs, extra, orphan, h⟩
  | create hidle hne hwrite =>
      exact ⟨segs, extra, orphan, h.create hF hok hidle hne hwrite⟩
  | rename hcreated =>
      obtain ⟨d, hinv⟩ := h.rename hcreated
      exact ⟨segs, extra, some d, hinv⟩
  | register hpublished hseq =>
      obtain ⟨d, hinv⟩ := h.register hpublished hseq
      exact ⟨segs ++ [d], extra, none, hinv⟩
  | compact hcompact =>
      obtain ⟨segs', extra', hinv⟩ := h.compactStep hF hcompact
      exact ⟨segs', extra', orphan, hinv⟩
  | reopen hperm hopen =>
      obtain ⟨kept, hinv⟩ := h.reopen hperm hopen
      exact ⟨kept, [], none, hinv⟩

theorem exec (hF : F.Lawful (Writable Ok)) (h : SetInv s segs extra orphan)
    {steps : List (SetStep F)}
    (hok : ∀ l ∈ steps, l.EntriesOk (Writable Ok))
    (hrun : s.exec steps = some s') :
    ∃ (segs' extra' : List (Segment (Writable Ok)))
      (orphan' : Option (Segment (Writable Ok))),
      SetInv s' segs' extra' orphan' := by
  induction steps generalizing s segs extra orphan with
  | nil =>
      obtain rfl := Option.some.inj hrun
      exact ⟨segs, extra, orphan, h⟩
  | cons l steps ih =>
      obtain ⟨hl, hsteps⟩ := List.forall_mem_cons.mp hok
      obtain ⟨s₁, hstep, hrest⟩ := Option.bind_eq_some_iff.mp hrun
      obtain ⟨segs', extra', orphan', h'⟩ := h.step hF hl hstep
      exact ih h' hsteps hrest

/-! ## The list -/

/-- A path that is renamed onto belongs to no listed segment. -/
theorem name_not_mem_targets (h : SetInv s segs extra orphan)
    {d : Segment (Writable Ok)} (hd : d ∈ segs) : d.name ∉ s.targets := by
  intro hmem
  rcases List.mem_append.mp hmem with hflush | hcompactor
  · have hphase := h.flush
    split at hflush
    next seq table hat =>
      rw [hat] at hphase
      obtain ⟨-, rfl, -⟩ := hphase
      have hspan := tableName_injective (List.mem_singleton.mp hflush)
      have hlt := h.tables.below d (List.mem_append_left _ hd)
      rw [hspan] at hlt
      exact lt_irrefl _ hlt
    next => cases hflush
  · have hphase := h.tables.phase
    split at hcompactor
    next start count span table hat =>
      rw [hat] at hphase
      obtain ⟨-, out, hout, rfl, -⟩ := hphase
      exact hout.span_ne h.tables.order hd
        (tableName_injective (List.mem_singleton.mp hcompactor))
    next => cases hcompactor

/-- Without a call in progress the listed segments are all there are. -/
theorem files_of_quiet (h : SetInv s segs extra orphan) (hquiet : s.Quiet) :
    Files s.dir segs := by
  obtain ⟨hflush, hcompactor⟩ := hquiet
  have hphase := h.flush
  have hphase' := h.tables.phase
  have hfiles := h.tables.files
  split at hflush
  next hidle =>
    split at hcompactor
    next hidle' =>
      rw [hidle] at hphase
      rw [hidle'] at hphase'
      obtain rfl : orphan = none := hphase
      obtain rfl : extra = [] := hphase'
      simpa using hfiles
    next => cases hcompactor
  next => cases hflush

theorem settled (h : SetInv s segs extra orphan) (hquiet : s.Quiet) :
    s.Settled := by
  have hfiles := h.files_of_quiet hquiet
  have hbelow : ∀ d ∈ segs, d.span.last < u64Max := fun d hd =>
    (h.tables.below d (List.mem_append_left _ hd)).trans_le h.next_le
  have hshows : Shows s.dir segs segs :=
    ⟨hfiles, fun _ hd => hd, h.tables.order.staircase,
      fun d hd => ⟨d, hd, le_rfl, le_rfl⟩⟩
  constructor
  · intro name hsst
    constructor
    · intro hsome
      obtain ⟨d, hd, rfl⟩ := hfiles.only name hsst hsome
      obtain ⟨t, ht, hdescribed⟩ := exists_table h.tables.described hd
      exact ⟨t, ht, hdescribed.path⟩
    · rintro ⟨t, ht, rfl⟩
      obtain ⟨d, hd, hdescribed⟩ := exists_segment h.tables.described ht
      obtain ⟨file, hfile, -⟩ := hfiles.stored d hd
      rw [hdescribed.path, hfile]
      rfl
  · intro listing hperm dirPath bitsPerKey
    obtain ⟨set, hopen, hdescribed, -⟩ :=
      SSTableSet.open_eq hshows hperm hbelow dirPath bitsPerKey
    refine ⟨set, _, hopen, ?_⟩
    rw [described_spans hdescribed]
    exact (described_spans h.tables.described).symm

theorem consistent (h : SetInv s segs extra orphan) : s.Consistent where
  ordered := by
    intro t ht
    obtain ⟨d, -, hdescribed⟩ := exists_segment h.tables.described ht
    rw [hdescribed.span]
    exact d.ordered
  ascending := by
    have hchain : (segs.map Segment.span).Pairwise
        fun a b => a.last < b.first :=
      List.pairwise_map.mpr h.tables.order
    have hspans : s.set.sstables.map Listed.span = segs.map Segment.span :=
      described_spans h.tables.described
    rw [← hspans] at hchain
    exact List.pairwise_map.mp hchain
  below := by
    intro t ht
    obtain ⟨d, hd, hdescribed⟩ := exists_segment h.tables.described ht
    rw [hdescribed.span]
    exact h.tables.below d (List.mem_append_left _ hd)
  spares := by
    intro t ht
    obtain ⟨d, hd, hdescribed⟩ := exists_segment h.tables.described ht
    rw [hdescribed.path]
    exact h.name_not_mem_targets hd
  settled := h.settled

end SetInv

theorem setInv_initial (dirPath : Bytes) (bitsPerKey : ℕ) :
    SetInv (SetState.initial F dirPath bitsPerKey)
      ([] : List (Segment (Writable Ok))) [] none := by
  refine ⟨⟨.nil, .nil, by simp, by simp, ⟨by simp, ?_⟩, rfl⟩,
    Nat.zero_le _, rfl⟩
  intro name _ hsome
  cases hsome

/-! ## From an empty directory -/

/-- Every state of every run of good writes from an empty directory is
consistent. -/
def KeepsTableList (F : TableFormat) (EntryOk : Entry → Prop) : Prop :=
  ∀ (dirPath : Bytes) (bitsPerKey : ℕ) (steps : List (SetStep F))
    (s : SetState F), (∀ l ∈ steps, l.EntriesOk EntryOk) →
      (SetState.initial F dirPath bitsPerKey).exec steps = some s →
        s.Consistent

theorem Mutation.key_value_ofEntry (e : Entry) :
    ((Mutation.ofEntry e).key, (Mutation.ofEntry e).value) = e := by
  obtain ⟨key, value⟩ := e
  cases value <;> rfl

theorem keepsTableList {EntryOk : Entry → Prop} (hF : F.Lawful EntryOk) :
    KeepsTableList F EntryOk := by
  have heq : Writable (fun m => EntryOk (m.key, m.value)) = EntryOk := by
    funext e
    rw [Writable, Mutation.key_value_ofEntry]
  rw [← heq] at hF ⊢
  intro dirPath bitsPerKey steps s hok hrun
  obtain ⟨segs, extra, orphan, hinv⟩ :=
    (setInv_initial dirPath bitsPerKey).exec hF hok hrun
  exact hinv.consistent

/-- The list of tables stays in order, and matches the directory whenever no
call is in progress. -/
theorem tableList_consistent :
    KeepsTableList listTables (fun _ => True) ∧
      KeepsTableList byteTables EntryFits :=
  ⟨keepsTableList listTables_lawful, keepsTableList byteTables_lawful⟩

/-- The steps of one `write`. -/
def writeSteps (memtable : Memtable) : List (SetStep F) :=
  [.create memtable, .rename, .register]

/-- A third table is pushed between the snapshot of a compaction of the
first two and its swap.  The directory is then opened again. -/
def flushedWhileMerging : List (SetStep byteTables) :=
  writeSteps (OrderedMap.empty.insert (ascii "foo") (some (ascii "bar"))) ++
    (writeSteps (OrderedMap.empty.insert (ascii "omar") none) ++
      ([.compact (.begin 0 2), .compact .merge, .compact .create] ++
        (writeSteps (OrderedMap.empty.insert (ascii "foo") none) ++
          [.compact .rename, .compact .swap, .compact .unlink,
            .compact .unlink, .compact .unlink,
            .reopen [] 10 [tableName ⟨2, 2⟩, tableName ⟨0, 1⟩]])))

theorem tableList_consistent_flushedWhileMerging :
    ∃ s, (SetState.initial byteTables [] 10).exec flushedWhileMerging =
        some s ∧ s.Consistent ∧
      s.set.sstables.map Listed.span = [⟨0, 1⟩, ⟨2, 2⟩] := by
  have hspans : ((SetState.initial byteTables [] 10).exec
      flushedWhileMerging).map (fun s => s.set.sstables.map Listed.span) =
        some [⟨0, 1⟩, ⟨2, 2⟩] := by
    decide +kernel
  obtain ⟨s, hrun, hlist⟩ := Option.map_eq_some_iff.mp hspans
  exact ⟨s, hrun, tableList_consistent.2 [] 10 flushedWhileMerging s
    (by decide +kernel) hrun, hlist⟩

end Lsmrs
