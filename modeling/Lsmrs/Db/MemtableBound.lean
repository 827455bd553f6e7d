import Lsmrs.Db.Recovery

/-!
# The size of the memtable

`size` counts the bytes that calls have added since the last flush, and a
flush follows once it exceeds `table_size`.  The counter covers the memtable
as long as it starts from an empty one; a reopening sets it to zero whatever
the log brings back.
-/

namespace Lsmrs

open ByteString OrderedMap

variable {F : Format} {Ok : Mutation → Prop}

/-- The key and value bytes of an entry; a tombstone has its key's alone. -/
def entryBytes (e : Entry) : ℕ :=
  e.1.length + (e.2.map List.length).getD 0

/-- The bytes of all entries of a memtable. -/
def memtableBytes (map : Memtable) : ℕ :=
  (map.entries.map entryBytes).sum

/-- The bytes of the memtable that is replayed from a log. -/
def Disk.replayedBytes (disk : Disk F) : ℕ :=
  match F.replay disk.log with
  | .ok records =>
    memtableBytes (records.foldl replayRecord OrderedMap.empty)
  | .error _ => 0

theorem memtableBytes_apply_le (db : Db F) (m : Mutation) :
    memtableBytes (db.apply m).map ≤ memtableBytes db.map + m.bytes := by
  have hentry : entryBytes (m.key, m.value) = m.bytes := by
    cases m <;> rfl
  rw [← hentry]
  exact sum_store_le entryBytes m.key m.value db.map.entries

theorem memtableBytes_of_entries_nil {map : Memtable}
    (h : map.entries = []) : memtableBytes map = 0 := by
  rw [memtableBytes, h]
  rfl

/-! ## The counter -/

/-- The memtable is what the log replays to, and the counter covers it. -/
structure Counted (Ok : Mutation → Prop) (log : F.Log) (ms : List Mutation)
    (p : Process F) : Prop where
  log_ok : ∀ m ∈ ms ++ p.writer.pending, Ok m
  log : log = F.logOf (ms ++ p.writer.pending)
  map : p.writer ≠ .registered → ∀ k, p.db.map.get? k = effect ms k
  emptied : p.writer = .registered → p.db.map.entries = []
  covers : memtableBytes p.db.map ≤ p.db.size
  within : (p.writer = .idle ∨ ∃ m, p.writer = .logged m) →
    p.db.size ≤ p.db.config.tableSize

def CountedState (Ok : Mutation → Prop) (s : State F) : Prop :=
  match s.process with
  | some p => ∃ ms, Counted Ok s.disk.log ms p
  | none => LogWhole Ok s.disk.log

theorem CountedState.logWhole {s : State F} (h : CountedState Ok s) :
    LogWhole Ok s.disk.log := by
  rw [CountedState] at h
  cases hp : s.process with
  | some p =>
      rw [hp] at h
      obtain ⟨ms, hcounted⟩ := h
      exact ⟨_, hcounted.log_ok, hcounted.log⟩
  | none => rwa [hp] at h

/-- The log of a counted memtable replays to the memtable. -/
theorem Counted.replayedBytes_eq (hF : F.Lawful Ok) {disk : Disk F}
    {ms : List Mutation} {p : Process F} (h : Counted Ok disk.log ms p)
    (hidle : p.writer = .idle) :
    disk.replayedBytes = memtableBytes p.db.map := by
  have hok := h.log_ok
  have hlog := h.log
  rw [show p.writer.pending = [] by rw [hidle]; rfl, List.append_nil]
    at hok hlog
  have hmap := h.map (by rw [hidle]; nofun)
  rw [Disk.replayedBytes, hlog, hF.replay hok]
  dsimp only
  congr 1
  exact ext_get? fun k => by rw [get?_replay, hmap]

section Steps

variable {disk disk' : Disk F} {p p' : Process F} {ms : List Mutation}

/-- A step of the flush that keeps log, memtable and counter. -/
theorem Counted.setWriter {log : F.Log} (h : Counted Ok log ms p)
    (hpending : p.writer.pending = []) (hat : p.writer ≠ .registered)
    {writer : Writer F} (hpending' : writer.pending = [])
    (hat' : writer ≠ .registered) (hidle : writer ≠ .idle) :
    Counted Ok log ms { p with writer } := by
  have hok := h.log_ok
  have hlog := h.log
  rw [hpending, ← hpending'] at hok hlog
  refine ⟨hok, hlog, fun _ => h.map hat, fun heq => absurd heq hat',
    h.covers, ?_⟩
  rintro (heq | ⟨m, heq⟩)
  · exact absurd heq hidle
  · rw [show writer = .logged m from heq] at hpending'
    cases hpending'

theorem Counted.append {log : F.Log} {m : Mutation}
    (h : Counted Ok log ms p) (hidle : p.writer = .idle) (hm : Ok m) :
    Counted Ok (F.append log m) ms { p with writer := .logged m } := by
  have hok := h.log_ok
  have hlog := h.log
  rw [show p.writer.pending = [] by rw [hidle]; rfl, List.append_nil]
    at hok hlog
  refine ⟨?_, ?_, fun _ => h.map (by rw [hidle]; nofun), nofun, h.covers,
    fun _ => h.within (Or.inl hidle)⟩
  · intro m' hm'
    rcases List.mem_append.mp hm' with hm' | hm'
    · exact hok m' hm'
    · rw [List.mem_singleton.mp hm']
      exact hm
  · rw [hlog]
    exact F.logOf_concat ms m

theorem Counted.apply {log : F.Log} {m : Mutation}
    (h : Counted Ok log ms p) (hlogged : p.writer = .logged m) :
    Counted Ok log (ms ++ [m])
      { p with
        db := p.db.apply m
        writer :=
          if (p.db.apply m).config.tableSize < (p.db.apply m).size then
            .flushing
          else .idle } := by
  have hpending : p.writer.pending = [m] := by rw [hlogged]; rfl
  have hok := h.log_ok
  have hlog := h.log
  have hmap := h.map (by rw [hlogged]; nofun)
  rw [hpending] at hok hlog
  -- Where the writer goes next, nothing is pending.
  have hnext : ∀ writer : Writer F, writer = .flushing ∨ writer = .idle →
      writer.pending = [] ∧ writer ≠ .registered := by
    rintro writer (rfl | rfl)
    · exact ⟨rfl, nofun⟩
    · exact ⟨rfl, nofun⟩
  obtain ⟨hnil, hat⟩ := hnext
    (if (p.db.apply m).config.tableSize < (p.db.apply m).size then
      .flushing else .idle) (by split_ifs <;> simp)
  refine ⟨?_, ?_, ?_, fun heq => absurd heq hat, ?_, ?_⟩
  · rw [hnil, List.append_nil]
    exact hok
  · rw [hnil, List.append_nil]
    exact hlog
  · intro _ k
    rw [get?_apply, effect_concat, hmap]
  · exact (memtableBytes_apply_le p.db m).trans
      (Nat.add_le_add_right h.covers _)
  · intro hbetween
    dsimp only at hbetween ⊢
    split_ifs at hbetween with hfull
    · rcases hbetween with heq | ⟨m', heq⟩ <;> cases heq
    · exact Nat.le_of_not_lt hfull

theorem writeStep_counted (h : Counted Ok disk.log ms p) {l : WriteStep F}
    (hl : (Label.write l).Faultless)
    (hm : ∀ m ∈ (Label.write l).logged, Ok m)
    (hstep : p.writeStep disk l = some (disk', p')) :
    ∃ ms', Counted Ok disk'.log ms' p' := by
  cases writeStep_turn hstep with
  | append hidle => exact ⟨ms, h.append hidle (hm _ rfl)⟩
  | writeAllFails hidle => exact hl.elim
  | syncDataFails hidle hsync => exact hl.elim
  | apply hlogged => exact ⟨_, h.apply hlogged⟩
  | createNone hflushing hnil =>
      have hok := h.log_ok
      have hlog := h.log
      rw [hflushing] at hok hlog
      exact ⟨ms, hok, hlog, fun hat => absurd rfl hat, fun _ => hnil,
        h.covers, by rintro (heq | ⟨m, heq⟩) <;> cases heq⟩
  | create hflushing hne hwrite =>
      exact ⟨ms, h.setWriter (by rw [hflushing]; rfl)
        (by rw [hflushing]; nofun) rfl nofun nofun⟩
  | rename hcreated =>
      exact ⟨ms, h.setWriter (by rw [hcreated]; rfl)
        (by rw [hcreated]; nofun) rfl nofun nofun⟩
  | register hpublished hseq =>
      have hok := h.log_ok
      have hlog := h.log
      rw [hpublished] at hok hlog
      exact ⟨ms, hok, hlog, fun hat => absurd rfl hat, fun _ => rfl,
        Nat.zero_le _, by rintro (heq | ⟨m, heq⟩) <;> cases heq⟩
  | truncate hregistered =>
      have hnil := h.emptied hregistered
      refine ⟨[], by simp [Writer.pending], rfl, ?_, fun _ => hnil, ?_,
        fun _ => Nat.zero_le _⟩
      · intro _ k
        dsimp only
        rw [OrderedMap.get?, hnil]
        rfl
      · exact (memtableBytes_of_entries_nil hnil).le
  | nothingCreated hflushing => exact hl.elim
  | halfCreated hflushing => exact hl.elim
  | renameFails hcreated => exact hl.elim
  | registerFails hpublished => exact hl.elim
  | truncateFails hregistered => exact hl.elim

theorem compactStep_counted (h : Counted Ok disk.log ms p) {l : CompactStep}
    (hstep : p.compactStep disk l = some (disk', p')) :
    Counted Ok disk'.log ms p' := by
  have hleaves := compactStep_leaves hstep
  constructor
  case log_ok => rw [hleaves.writer]; exact h.log_ok
  case log => rw [hleaves.log, hleaves.writer]; exact h.log
  case map => rw [hleaves.writer, hleaves.map]; exact h.map
  case emptied => rw [hleaves.writer, hleaves.map]; exact h.emptied
  case covers => rw [hleaves.map, hleaves.size]; exact h.covers
  case within =>
    rw [hleaves.writer, hleaves.size, hleaves.config]
    exact h.within

end Steps

/-! ## Reopening -/

theorem withConfig_eq_ok {config : Config} {listing : List Bytes}
    {disk disk' : Disk F} {db : Db F}
    (h : Db.withConfig config listing disk = (.ok db, disk')) :
    ∃ records, F.replay disk.log = .ok records ∧
      db.map = records.foldl replayRecord OrderedMap.empty ∧
        db.size = 0 ∧ disk'.log = disk.log := by
  unfold Db.withConfig at h
  split at h
  · cases h
  next records hreplay =>
    split at h
    · cases h
    · cases h
      exact ⟨records, hreplay, rfl, rfl, rfl⟩

/-- A database that is opened on a log without entry bytes starts with a
counter that covers its memtable. -/
theorem recover_counted (hF : F.Lawful Ok) {config : Config}
    {listing : List Bytes} {disk disk' : Disk F} {db : Db F}
    (hwhole : LogWhole Ok disk.log) (hempty : disk.replayedBytes = 0)
    (hdb : Db.withConfig config listing disk = (.ok db, disk')) :
    ∃ ms, Counted Ok disk'.log ms ⟨db, .idle, .idle⟩ := by
  obtain ⟨ms, hms, hlog⟩ := hwhole
  obtain ⟨records, hreplay, hmap, hsize, hlog'⟩ := withConfig_eq_ok hdb
  have hrecords : records = ms.map Mutation.record := by
    have h := hF.replay hms
    rw [← hlog, hreplay] at h
    exact Except.ok.inj h
  have hbytes : memtableBytes db.map = 0 := by
    rw [Disk.replayedBytes, hreplay] at hempty
    rwa [hmap]
  refine ⟨ms, ?_, ?_, ?_, nofun, ?_, ?_⟩
  · simpa [Writer.pending] using hms
  · rw [hlog', hlog]
    simp [Writer.pending]
  · intro _ k
    dsimp only
    rw [hmap, hrecords, get?_replay]
  · dsimp only
    rw [hbytes]
    exact Nat.zero_le _
  · intro _
    dsimp only
    rw [hsize]
    exact Nat.zero_le _

/-- Every reopening of the run replays a log without entry bytes. -/
def ReopensEmpty (s : State F) : List (Label F) → Prop
  | [] => True
  | l :: labels =>
    (∀ config listing, l = .recover config listing →
      s.disk.replayedBytes = 0) ∧
      ∀ s', s.step l = some s' → ReopensEmpty s' labels

theorem step_counted (hF : F.Lawful Ok) {s s' : State F} {l : Label F}
    (h : CountedState Ok s) (hl : l.Faultless) (hm : ∀ m ∈ l.logged, Ok m)
    (hempty : ∀ config listing, l = .recover config listing →
      s.disk.replayedBytes = 0)
    (hstep : s.step l = some s') : CountedState Ok s' := by
  have hwhole := step_logWhole h.logWhole hl.onlyFlushFails.appendSucceeds hm
    hstep
  rw [CountedState]
  cases hp' : s'.process with
  | none => exact hwhole
  | some p' =>
      cases l with
      | write l =>
          obtain ⟨p, q, hp, hq, hwrite⟩ := State.step_write hstep
          obtain rfl := Option.some.inj (hq.symm.trans hp')
          rw [CountedState, hp] at h
          obtain ⟨ms, hcounted⟩ := h
          exact writeStep_counted hcounted hl hm hwrite
      | compact l =>
          obtain ⟨p, q, hp, hq, hcompact⟩ := State.step_compact hstep
          obtain rfl := Option.some.inj (hq.symm.trans hp')
          rw [CountedState, hp] at h
          obtain ⟨ms, hcounted⟩ := h
          exact ⟨ms, compactStep_counted hcounted hcompact⟩
      | compactFails left => exact hl.elim
      | crash =>
          simp only [State.step] at hstep
          split at hstep <;> cases hstep
          cases hp'
      | crashInOpen listing removed =>
          simp only [State.step] at hstep
          split at hstep
          next => split_ifs at hstep; cases hstep; cases hp'
          next => cases hstep
      | recover config listing =>
          obtain ⟨-, -, ⟨db, hdb, hq⟩ | ⟨e, -, hq⟩⟩ :=
            State.step_recover hstep
          · obtain rfl := Option.some.inj (hq.symm.trans hp')
            exact recover_counted hF h.logWhole (hempty config listing rfl)
              hdb
          · cases hq.symm.trans hp'

theorem exec_counted (hF : F.Lawful Ok) {s s' : State F}
    {labels : List (Label F)} (h : CountedState Ok s)
    (hl : ∀ l ∈ labels, l.Faultless) (hm : ∀ m ∈ history labels, Ok m)
    (hempty : ReopensEmpty s labels) (hrun : s.exec labels = some s') :
    CountedState Ok s' := by
  induction labels generalizing s with
  | nil =>
      obtain rfl := Option.some.inj hrun
      exact h
  | cons l labels ih =>
      obtain ⟨hl, hlabels⟩ := List.forall_mem_cons.mp hl
      obtain ⟨next, hstep, hrest⟩ := State.exec_cons.mp hrun
      rw [history_cons] at hm
      have hhead : ∀ m ∈ l.logged, Ok m := fun m hmem =>
        hm m (List.mem_append_left _ (Option.mem_toList.mpr hmem))
      refine ih (step_counted hF h hl hhead hempty.1 hstep) hlabels ?_
        (hempty.2 next hstep) hrest
      exact fun m hmem => hm m (List.mem_append_right _ hmem)

/-! ## The bound -/

/-- In every run without I/O errors whose reopenings replay no entry bytes,
between two calls the memtable holds at most `table_size` bytes, and so does
what the log replays to. -/
def MemtableBounded (F : Format) (Ok : Mutation → Prop) : Prop :=
  ∀ (labels : List (Label F)) (s : State F) (p : Process F),
    (∀ l ∈ labels, l.Faultless) → (∀ m ∈ history labels, Ok m) →
      ReopensEmpty (State.initial F) labels →
        (State.initial F).exec labels = some s → s.process = some p →
          p.writer = .idle →
            memtableBytes p.db.map ≤ p.db.config.tableSize ∧
              s.disk.replayedBytes ≤ p.db.config.tableSize

theorem memtableBounded_of_lawful (hF : F.Lawful Ok) :
    MemtableBounded F Ok := by
  intro labels s p hl hm hempty hrun hp hidle
  have hstart : CountedState Ok (State.initial F) := logWhole_nil Ok
  have hcounted := exec_counted hF hstart hl hm hempty hrun
  rw [CountedState, hp] at hcounted
  obtain ⟨ms, hcounted⟩ := hcounted
  have hbound := hcounted.covers.trans (hcounted.within (Or.inl hidle))
  refine ⟨hbound, ?_⟩
  rw [hcounted.replayedBytes_eq hF hidle]
  exact hbound

theorem memtable_bounded (hash : Bytes → UInt32) :
    MemtableBounded listFormat (fun _ => True) ∧
      MemtableBounded (byteFormat hash) (fun m => m.record.Fits) :=
  ⟨memtableBounded_of_lawful listFormat_lawful,
    memtableBounded_of_lawful (byteFormat_lawful hash)⟩

/-! ## Reopening on entries -/

/-- Two entries of a memtable fit its bytes together. -/
theorem entryBytes_add_le {map : Memtable} {e e' : Entry}
    (he : e ∈ map.entries) (he' : e' ∈ map.entries) (hne : e' ≠ e) :
    entryBytes e + entryBytes e' ≤ memtableBytes map := by
  have hperm := List.perm_cons_erase he
  have hmem : e' ∈ map.entries.erase e := (List.mem_erase_of_ne hne).mpr he'
  have hle : entryBytes e' ≤ ((map.entries.erase e).map entryBytes).sum :=
    List.le_sum_of_mem (List.mem_map_of_mem hmem)
  rw [memtableBytes, (hperm.map entryBytes).sum_eq, List.map_cons,
    List.sum_cons]
  omega

/-- Some key of a given length is not in a memtable that has no more bytes
than that. -/
theorem exists_new_key {map : Memtable} {n : ℕ} (hn : 0 < n)
    (hle : memtableBytes map ≤ n) :
    ∃ key : Bytes, key.length = n ∧ map.get? key = none := by
  by_contra hall
  push Not at hall
  have hentry : ∀ b : UInt8, ∃ value,
      (List.replicate n b, value) ∈ map.entries := by
    intro b
    obtain ⟨value, hvalue⟩ := Option.ne_none_iff_exists'.mp
      (hall (List.replicate n b) List.length_replicate)
    exact ⟨value, mem_entries_iff.mpr hvalue⟩
  obtain ⟨v, hv⟩ := hentry 0
  obtain ⟨w, hw⟩ := hentry 1
  have hne : (List.replicate n (1 : UInt8), w) ≠
      (List.replicate n (0 : UInt8), v) := by
    intro heq
    have hkeys := (Prod.mk.inj heq).1
    rw [List.replicate_inj] at hkeys
    exact absurd (hkeys.2.resolve_left hn.ne') (by decide)
  have hsum := entryBytes_add_le hv hw hne
  simp only [entryBytes, List.length_replicate] at hsum
  omega

/-- If the log brings entry bytes back, one put can take the memtable over
the bound. -/
theorem exceeds_after_reopening (hF : F.Lawful Ok) {s : State F}
    {hist : List Mutation} (h : Inv Ok hist s) (hp : s.process = none)
    (hseq : ¬ s.Exhausted) {config : Config}
    (hpos : 0 < s.disk.replayedBytes)
    (hle : s.disk.replayedBytes ≤ config.tableSize) :
    ∃ m s' p', s.exec [.recover config s.disk.dir.keys,
        .write (.append m), .write .apply] = some s' ∧
      s'.process = some p' ∧ p'.writer = .idle ∧
        p'.db.config.tableSize < memtableBytes p'.db.map := by
  obtain ⟨ms, all, kept, hdisk⟩ := h.closed hp
  rcases hdisk.recover hF (List.Perm.refl s.disk.dir.keys) config with
    ⟨db, hdb, hconfig, hsize, -⟩ | ⟨⟨d, hd, hlast⟩, -⟩
  · obtain ⟨records, hreplay, hmap, -, -⟩ := withConfig_eq_ok hdb
    have hbytes : s.disk.replayedBytes = memtableBytes db.map := by
      rw [Disk.replayedBytes, hreplay, hmap]
    rw [hbytes] at hpos hle
    obtain ⟨key, hlength, hnew⟩ := exists_new_key (hpos.trans_le hle) hle
    have hstay : ¬ (db.apply (.insert key [])).config.tableSize <
        (db.apply (.insert key [])).size := by
      change ¬ db.config.tableSize < db.size + (key.length + 0)
      rw [hconfig, hsize, hlength]
      omega
    have hopen : s.step (.recover config s.disk.dir.keys) =
        some ⟨{ s.disk with
            dir := removeAll s.disk.dir (openRemovals s.disk.dir.keys) },
          some ⟨db, .idle, .idle⟩⟩ := by
      simp only [State.step, hp, if_pos (List.Perm.refl _), hdb]
    have happly : ∀ disk : Disk F,
        (⟨disk, some ⟨db, .logged (.insert key []), .idle⟩⟩ : State F).step
          (.write .apply) =
            some ⟨disk, some ⟨db.apply (.insert key []), .idle, .idle⟩⟩ := by
      intro disk
      simp only [State.step, Process.writeStep, Option.bind_eq_bind,
        Option.bind_some, if_neg hstay]
      rfl
    refine ⟨.insert key [], _, ⟨db.apply (.insert key []), .idle, .idle⟩,
      State.exec_cons.mpr ⟨_, hopen, State.exec_cons.mpr ⟨_, rfl,
        State.exec_cons.mpr ⟨_, happly _, rfl⟩⟩⟩, rfl, rfl, ?_⟩
    · change db.config.tableSize < memtableBytes (db.apply _).map
      have hsum := sum_store_of_find_none entryBytes (v := some []) hnew
      change memtableBytes (db.apply (.insert key [])).map =
        memtableBytes db.map + (key.length + 0) at hsum
      rw [hsum, hconfig, hlength]
      omega
  · exact absurd (exhausted_of_mem hdisk.files.files hd hlast) hseq

/-- At most ten bytes are to stay in the memtable. -/
def tenBytes : Config := { Config.default with tableSize := 10 }

/-- The database is closed right after a flush, and opened again. -/
def closedFlushed : List (Label F) :=
  [.recover tenBytes [],
    .write (.append (.insert (ascii "omar") (ascii "ashour"))),
    .write .apply] ++
    (flushedCall (.insert (ascii "foo") (ascii "bar")) ++
      [.crash, .recover tenBytes [tableName ⟨0, 0⟩],
        .write (.append (.insert (ascii "foo") (ascii "baz"))),
        .write .apply])

/-- Computes whether every reopening of a run replays no entry bytes. -/
def reopensEmpty (s : State F) : List (Label F) → Bool
  | [] => true
  | l :: labels =>
    (match l with
      | .recover _ _ => s.disk.replayedBytes == 0
      | _ => true) &&
      match s.step l with
      | some s' => reopensEmpty s' labels
      | none => true

theorem reopensEmpty_eq_true {s : State F} {labels : List (Label F)}
    (h : reopensEmpty s labels = true) : ReopensEmpty s labels := by
  induction labels generalizing s with
  | nil => exact trivial
  | cons l labels ih =>
      unfold reopensEmpty at h
      obtain ⟨hl, hrest⟩ := Bool.and_eq_true_iff.mp h
      refine ⟨?_, ?_⟩
      · rintro config listing rfl
        exact beq_iff_eq.mp hl
      · intro s' hstep
        rw [hstep] at hrest
        exact ih hrest

theorem memtable_bounded_closedFlushed :
    ∃ s p, (State.initial (byteFormat crc32)).exec closedFlushed = some s ∧
      s.process = some p ∧ memtableBytes p.db.map ≤ 10 := by
  have hends : endsIdle ((State.initial (byteFormat crc32)).exec
      closedFlushed) = true := by
    decide +kernel
  obtain ⟨s, p, hrun, hp, hidle⟩ := exists_of_endsIdle hends
  have hbound := ((memtable_bounded crc32).2 closedFlushed s p
    (by decide +kernel) (by decide +kernel)
    (reopensEmpty_eq_true (by decide +kernel)) hrun hp hidle).1
  have hsize : p.db.config.tableSize = 10 := by
    refine observedProcess hrun hp (f := fun p => p.db.config.tableSize) ?_
    decide +kernel
  rw [hsize] at hbound
  exact ⟨s, p, hrun, hp, hbound⟩

/-- The counter starts at zero over a memtable that was replayed: two puts
in two sessions leave sixteen bytes. -/
theorem reopened_memtable_exceeds :
    ¬ ∀ (labels : List (Label (byteFormat crc32)))
        (s : State (byteFormat crc32)) (p : Process (byteFormat crc32)),
      (∀ l ∈ labels, l.Faultless) →
        (State.initial (byteFormat crc32)).exec labels = some s →
          s.process = some p → p.writer = .idle →
            memtableBytes p.db.map ≤ p.db.config.tableSize := by
  intro hclaim
  have hends : endsIdle ((State.initial (byteFormat crc32)).exec
      [.recover tenBytes [],
        .write (.append (.insert (ascii "foo") (ascii "bar"))),
        .write .apply, .crash, .recover tenBytes [],
        .write (.append (.insert (ascii "omar") (ascii "ashour"))),
        .write .apply]) = true := by
    decide +kernel
  obtain ⟨s, p, hrun, hp, hidle⟩ := exists_of_endsIdle hends
  have hbound := hclaim _ s p (by decide +kernel) hrun hp hidle
  have hexceeds : (memtableBytes p.db.map, p.db.config.tableSize) =
      (16, 10) := by
    refine observedProcess hrun hp (f := fun p =>
      (memtableBytes p.db.map, p.db.config.tableSize)) ?_
    decide +kernel
  obtain ⟨hbytes, hsize⟩ := Prod.mk.inj hexceeds
  rw [hbytes, hsize] at hbound
  exact absurd hbound (by decide)

end Lsmrs
