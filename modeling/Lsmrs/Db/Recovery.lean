import Lsmrs.Db.Runs

/-!
# Reads of a run

The database refines the plain map of its history: in every run whose appends
succeed, reads of the open database and reads after a reopening see the
mutations that reached the log, whatever the compactor does, wherever a crash
falls and however a flush fails.
-/

namespace Lsmrs

open ByteString OrderedMap

variable {F : Format} {Ok : Mutation → Prop} {hist : List Mutation}

/-! ## What is read -/

/-- Between two calls the open database reads as the history. -/
def State.ReadsAs (s : State F) (hist : List Mutation) : Prop :=
  ∀ p, s.process = some p → p.writer = .idle →
    ∀ key, p.db.get key = .ok (plainMap hist key)

/-- A file has the largest sequence number: there is no next one. -/
def State.Exhausted (s : State F) : Prop :=
  ∃ first, (s.disk.dir.get? (tableName ⟨first, u64Max⟩)).isSome

/-- Whatever the configuration, and in whatever order the directory is
listed, a database opened on it reads as the history. -/
def State.ReopensAs (s : State F) (hist : List Mutation) : Prop :=
  ∀ (config : Config) (listing : List Bytes),
    listing.Perm s.disk.dir.keys →
      (∃ db disk, Db.withConfig config listing s.disk = (.ok db, disk) ∧
        ∀ key, db.get key = .ok (plainMap hist key)) ∨ s.Exhausted

theorem exhausted_of_mem {s : State F} {all : List (Segment (Writable Ok))}
    (h : Files s.disk.dir all) {d : Segment (Writable Ok)} (hd : d ∈ all)
    (hlast : d.span.last = u64Max) : s.Exhausted := by
  obtain ⟨file, hfile, -⟩ := h.stored d hd
  have hname : tableName ⟨d.span.first, u64Max⟩ = d.name := by
    rw [← hlast]
    rfl
  refine ⟨d.span.first, ?_⟩
  rw [hname, hfile]
  rfl

theorem Inv.readsAs {s : State F} (h : Inv Ok hist s) :
    s.ReadsAs hist := by
  intro p hp hidle key
  obtain ⟨applied, ms, segs, extra, orphan, hinv⟩ := h.process hp
  rw [hinv.get_eq, hinv.applied_eq (by rw [hidle]; rfl)]

theorem Inv.diskInv {s : State F} (h : Inv Ok hist s) :
    ∃ ms all kept, DiskInv Ok hist ms all kept s.disk := by
  cases hp : s.process with
  | some p =>
      obtain ⟨applied, ms, segs, extra, orphan, hinv⟩ := h.process hp
      exact ⟨ms, hinv.crash⟩
  | none => exact h.closed hp

theorem Inv.reopensAs (hF : F.Lawful Ok) {s : State F} (h : Inv Ok hist s) :
    s.ReopensAs hist := by
  intro config listing hperm
  obtain ⟨ms, all, kept, hdisk⟩ := h.diskInv
  rcases hdisk.recover hF hperm config with
    ⟨db, hdb, -, -, hinv⟩ | ⟨⟨d, hd, hlast⟩, -⟩
  · left
    exact ⟨db, _, hdb, hinv.get_eq⟩
  · right
    exact exhausted_of_mem hdisk.files.files hd hlast

/-! ## Compaction in the background -/

/-- No I/O error happens in the step. -/
def Label.Faultless : Label F → Prop
  | .write (.appendFails _ _) => False
  | .write (.flushFails _) => False
  | .compactFails _ => False
  | _ => True

/-- The step is one of an open database's threads. -/
def Label.Running : Label F → Prop
  | .write _ => True
  | .compact _ => True
  | .compactFails _ => True
  | _ => False

instance : (l : Label F) → Decidable l.Faultless
  | .write (.append _) => instDecidableTrue
  | .write (.appendFails _ _) => instDecidableFalse
  | .write .apply => instDecidableTrue
  | .write .create => instDecidableTrue
  | .write .rename => instDecidableTrue
  | .write .register => instDecidableTrue
  | .write .truncate => instDecidableTrue
  | .write (.flushFails _) => instDecidableFalse
  | .compact _ => instDecidableTrue
  | .compactFails _ => instDecidableFalse
  | .crash => instDecidableTrue
  | .crashInOpen _ _ => instDecidableTrue
  | .recover _ _ => instDecidableTrue

instance : (l : Label F) → Decidable l.Running
  | .write _ => instDecidableTrue
  | .compact _ => instDecidableTrue
  | .compactFails _ => instDecidableTrue
  | .crash => instDecidableFalse
  | .crashInOpen _ _ => instDecidableFalse
  | .recover _ _ => instDecidableFalse

theorem Label.Faultless.onlyFlushFails {l : Label F} (h : l.Faultless) :
    l.OnlyFlushFails := by
  unfold Label.OnlyFlushFails
  split
  · exact h
  · exact h
  · trivial

theorem step_running {s s' : State F} {l : Label F} (hl : l.Running)
    (hstep : s.step l = some s') : s'.process.isSome := by
  cases l with
  | write l =>
      obtain ⟨p, p', -, hp', -⟩ := State.step_write hstep
      rw [hp']
      rfl
  | compact l =>
      obtain ⟨p, p', -, hp', -⟩ := State.step_compact hstep
      rw [hp']
      rfl
  | compactFails left =>
      obtain ⟨p, -, hp', -⟩ := State.step_compactFails hstep
      rw [hp']
      rfl
  | crash => exact hl.elim
  | crashInOpen listing removed => exact hl.elim
  | recover config listing => exact hl.elim

theorem exec_running {s s' : State F} {labels : List (Label F)}
    (hs : s.process.isSome) (hl : ∀ l ∈ labels, l.Running)
    (hrun : s.exec labels = some s') : s'.process.isSome :=
  State.exec_keeps (fun s => s.process.isSome)
    (fun _ hl _ hstep => step_running hl hstep) hs hl
    (fun _ _ => trivial) hrun

/-- An empty directory opens. -/
theorem recover_initial (hF : F.Lawful Ok) {config : Config}
    {listing : List Bytes} {s : State F}
    (hstep : (State.initial F).step (.recover config listing) = some s) :
    s.process.isSome := by
  obtain ⟨ms, all, kept, hdisk⟩ := (initial_inv F Ok).closed rfl
  obtain ⟨-, hperm, hopened⟩ := State.step_recover hstep
  rcases hdisk.recover hF hperm config with
    ⟨db, hdb, -⟩ | ⟨⟨d, hd, -⟩, -⟩
  · rcases hopened with ⟨db', -, hp⟩ | ⟨e, he, -⟩
    · rw [hp]
      rfl
    · cases hdb.symm.trans he
  · obtain ⟨file, hfile, -⟩ := hdisk.files.files.stored d hd
    cases hfile

/-- A live database reads as the plain map of its history at any point of
its compactions. -/
theorem get_eq_plainMap (hash : Bytes → UInt32) (config : Config)
    {labels : List (Label (byteFormat hash))} {s : State (byteFormat hash)}
    (hlabels : ∀ l ∈ labels, l.Running ∧ l.Faultless)
    (hfits : ∀ m ∈ history labels, m.record.Fits)
    (hrun : (State.initial (byteFormat hash)).exec
      (.recover config [] :: labels) = some s) :
    ∃ p, s.process = some p ∧ (p.writer = .idle →
      ∀ key, p.db.get key = .ok (plainMap (history labels) key)) := by
  have hF := byteFormat_lawful hash
  obtain ⟨first, hfirst, hrest⟩ := State.exec_cons.mp hrun
  have hinv : Inv (fun m => m.record.Fits)
      (history (.recover config [] :: labels)) s := by
    refine inv_of_run hF ?_ hfits hrun
    intro l hl
    rcases List.mem_cons.mp hl with rfl | hl
    · exact trivial
    · exact (hlabels l hl).2.onlyFlushFails
  obtain ⟨p, hp⟩ := Option.isSome_iff_exists.mp
    (exec_running (recover_initial hF hfirst) (fun l hl => (hlabels l hl).1)
      hrest)
  exact ⟨p, hp, hinv.readsAs p hp⟩

/-! ## A run -/

/-- Every mutation flushes. -/
def flushEach : Config := { Config.default with tableSize := 0 }

/-- A call that logs a mutation, applies it and flushes. -/
def flushedCall (m : Mutation) : List (Label F) :=
  [.write (.append m), .write .apply, .write .create, .write .rename,
    .write .register, .write .truncate]

/-- Two tables are merged while the deletion of a key is flushed above
them. -/
def deletedWhileMerging : List (Label F) :=
  flushedCall (.insert (ascii "foo") (ascii "bar")) ++
    (flushedCall (.insert (ascii "omar") (ascii "ashour")) ++
      ([.compact (.begin 0 2), .compact .merge] ++
        (flushedCall (.delete (ascii "foo")) ++
          [.compact .create, .compact .rename, .compact .swap,
            .compact .unlink])))

/-- A run ended with no call under way. -/
def endsIdle : Option (State F) → Bool
  | some ⟨_, some ⟨_, .idle, _⟩⟩ => true
  | _ => false

theorem exists_of_endsIdle {result : Option (State F)}
    (h : endsIdle result = true) :
    ∃ s p, result = some s ∧ s.process = some p ∧ p.writer = .idle := by
  unfold endsIdle at h
  split at h
  next disk db compactor => exact ⟨_, _, rfl, rfl, rfl⟩
  next => cases h

/-- What is computed from the state at the end of a run. -/
theorem observed {α : Type} {result : Option (State F)} {s : State F}
    (hrun : result = some s) {f : State F → α} {a : α}
    (h : result.map f = some a) : f s = a := by
  rw [hrun] at h
  exact Option.some.inj h

/-- What is computed from the process at the end of a run. -/
theorem observedProcess {α : Type} {result : Option (State F)} {s : State F}
    {p : Process F} (hrun : result = some s) (hp : s.process = some p)
    {f : Process F → α} {a : α}
    (h : (result.bind State.process).map f = some a) : f p = a := by
  rw [hrun, Option.bind_some, hp] at h
  exact Option.some.inj h

theorem get_eq_plainMap_deleted :
    ∃ s p, (State.initial (byteFormat crc32)).exec
        (.recover flushEach [] :: deletedWhileMerging) = some s ∧
      s.process = some p ∧ p.db.get (ascii "foo") = .ok none ∧
        p.db.get (ascii "omar") = .ok (some (ascii "ashour")) := by
  have hends : endsIdle ((State.initial (byteFormat crc32)).exec
      (.recover flushEach [] :: deletedWhileMerging)) = true := by
    decide +kernel
  obtain ⟨s, p, hrun, hp, hidle⟩ := exists_of_endsIdle hends
  obtain ⟨p', hp', hget⟩ := get_eq_plainMap crc32 flushEach
    (by decide +kernel) (by decide +kernel) hrun
  obtain rfl := Option.some.inj (hp.symm.trans hp')
  refine ⟨s, p, hrun, hp, (hget hidle _).trans ?_, (hget hidle _).trans ?_⟩
  · decide +kernel
  · decide +kernel

/-! ## Crashes and failing flushes -/

/-- In every run of allowed steps from an empty directory, the live database
and the reopened one read as the history. -/
def ReadsSurvive (F : Format) (Ok : Mutation → Prop)
    (Allowed : Label F → Prop) : Prop :=
  ∀ (labels : List (Label F)) (s : State F),
    (∀ l ∈ labels, Allowed l) → (∀ m ∈ history labels, Ok m) →
      (State.initial F).exec labels = some s →
        s.ReadsAs (history labels) ∧ s.ReopensAs (history labels)

theorem readsSurvive_of_onlyFlushFails (hF : F.Lawful Ok)
    {Allowed : Label F → Prop} (h : ∀ l, Allowed l → l.OnlyFlushFails) :
    ReadsSurvive F Ok Allowed := by
  intro labels s hlabels hok hrun
  have hinv := inv_of_run hF (fun l hl => h l (hlabels l hl)) hok hrun
  exact ⟨hinv.readsAs, hinv.reopensAs hF⟩

/-- Crashes lose no mutation that reached the log and bring back none that
was overwritten. -/
theorem reads_survive_crashes :
    ReadsSurvive listFormat (fun _ => True) Label.Faultless ∧
      ∀ hash, ReadsSurvive (byteFormat hash) (fun m => m.record.Fits)
        Label.Faultless :=
  ⟨readsSurvive_of_onlyFlushFails listFormat_lawful
      fun _ => Label.Faultless.onlyFlushFails,
    fun hash => readsSurvive_of_onlyFlushFails (byteFormat_lawful hash)
      fun _ => Label.Faultless.onlyFlushFails⟩

/-- A key's table and its deletion merge to nothing; crashes fall between
the rename and the truncation of the flush, inside the reopening, and
between the two unlinks. -/
def mergedAway : List (Label F) :=
  .recover flushEach [] ::
    (flushedCall (.insert (ascii "foo") (ascii "bar")) ++
      [.write (.append (.delete (ascii "foo"))), .write .apply,
        .write .create, .write .rename, .crash,
        .crashInOpen [tableName ⟨1, 1⟩, tableName ⟨0, 0⟩] 1,
        .recover Config.default [tableName ⟨1, 1⟩, tableName ⟨0, 0⟩],
        .compact (.begin 0 2), .compact .merge, .compact .swap,
        .compact .unlink, .crash,
        .recover Config.default [tableName ⟨1, 1⟩]])

theorem reads_survive_crashes_mergedAway :
    ∃ s p, (State.initial listFormat).exec mergedAway = some s ∧
      s.process = some p ∧ p.db.get (ascii "foo") = .ok none := by
  have hends : endsIdle ((State.initial listFormat).exec mergedAway) =
      true := by
    decide +kernel
  obtain ⟨s, p, hrun, hp, hidle⟩ := exists_of_endsIdle hends
  obtain ⟨hreads, -⟩ := reads_survive_crashes.1 mergedAway s
    (by decide +kernel) (fun _ _ => trivial) hrun
  refine ⟨s, p, hrun, hp, (hreads p hp hidle _).trans ?_⟩
  decide +kernel

/-- Neither do flushes that fail, at any of their steps and any number of
times. -/
theorem reads_survive_failing_flushes :
    ReadsSurvive listFormat (fun _ => True) Label.OnlyFlushFails ∧
      ∀ hash, ReadsSurvive (byteFormat hash) (fun m => m.record.Fits)
        Label.OnlyFlushFails :=
  ⟨readsSurvive_of_onlyFlushFails listFormat_lawful fun _ hl => hl,
    fun hash => readsSurvive_of_onlyFlushFails (byteFormat_lawful hash)
      fun _ hl => hl⟩

/-- A flush fails after its rename and is tried again under the same name,
then fails to truncate the log. -/
def retriedFlush : List (Label F) :=
  [.recover flushEach [],
    .write (.append (.insert (ascii "foo") (ascii "bar"))), .write .apply,
    .write .create, .write .rename, .write (.flushFails .afterRename),
    .write (.append (.insert (ascii "foo") (ascii "baz"))), .write .apply,
    .write .create, .write .rename, .write .register,
    .write (.flushFails (.truncate false)), .crash,
    .recover flushEach [tableName ⟨0, 0⟩]]

theorem reads_survive_failing_flushes_retried :
    ∃ s p, (State.initial (byteFormat crc32)).exec retriedFlush = some s ∧
      s.process = some p ∧
        p.db.get (ascii "foo") = .ok (some (ascii "baz")) := by
  have hends : endsIdle ((State.initial (byteFormat crc32)).exec
      retriedFlush) = true := by
    decide +kernel
  obtain ⟨s, p, hrun, hp, hidle⟩ := exists_of_endsIdle hends
  obtain ⟨hreads, -⟩ := reads_survive_failing_flushes.2 crc32 retriedFlush s
    (by decide +kernel) (by decide +kernel) hrun
  refine ⟨s, p, hrun, hp, (hreads p hp hidle _).trans ?_⟩
  decide +kernel

end Lsmrs
