import Lsmrs.Sstable.Refusals

/-!
# Damaged tables

Beyond the magic and the version nothing in a table's file is checked.  What
opening, looking up and iterating do for any bytes: they end, and they end
with `Ok` or an error, unless a probe leaves the words of the filter, a block
ends before it starts, or a buffer is asked for that there is no memory for.
-/

namespace Lsmrs

open ByteString OrderedMap PartitionPoint Loops Metered

namespace SSTable

variable {t : SSTable}

/-! ## What is not checked -/

/-- The block can be measured, and a buffer can be that long. -/
def BlockInOrder (t : SSTable) (block : ℕ) : Prop :=
  ∀ p, t.sparseIndex[block]? = some p →
    p.2 ≤ t.blockEnd block ∧ t.blockEnd block - p.2 ≤ maxFileSize

/-- Everything a lookup or an iteration gets to is in bounds. -/
structure InBounds (t : SSTable) : Prop where
  probes : ∀ key, t.minKey ≤ key → key ≤ t.maxKey →
    ∀ i < t.filter.numProbes, t.filter.Queries (hash64 key) i →
      t.filter.Lands (hash64 key) i
  looked : ∀ key, t.minKey ≤ key → key ≤ t.maxKey →
    t.filter.Queries (hash64 key) t.filter.numProbes →
    ∀ block, partitionPoint (fun p => decide (p.1 ≤ key)) t.sparseIndex =
      block + 1 → t.BlockInOrder block
  walked : ∀ block, (∀ earlier < block, t.BlockDecodes earlier) →
    t.BlockInOrder block

/-! ## Opening -/

theorem seekStart_ne_panic (file : Bytes) (offset : ℕ) :
    seekStart file offset ≠ .error .panic := by
  rw [seekStart]
  split_ifs
  · simp
  · simp [ioError]

theorem readTrailer_ne_panic (path file : Bytes) :
    readTrailer path file ≠ .error .panic := by
  rw [readTrailer]
  split_ifs
  · simp [ioError]
  · simp [ioError]
  · simp [ioError]
  · simp

theorem readWords_ne_panic (count : ℕ) (reader : Bytes) :
    readWords count reader ≠ .error .panic := by
  induction count generalizing reader with
  | zero => simp [readWords]
  | succ count ih =>
      exact bind_ne_panic (readExact_ne_panic _ _) fun _ =>
        bind_ne_panic (ih _) fun _ => ok_ne_panic _

theorem readFilter_ne_panic (reader : Bytes) :
    readFilter reader ≠ .error .panic :=
  bind_ne_panic (readExact_ne_panic _ _) fun _ =>
    bind_ne_panic (readWords_ne_panic _ _) fun _ => ok_ne_panic _

theorem readIndexEntry_ne_panic (reader : Bytes) :
    readIndexEntry reader ≠ .error .panic :=
  bind_ne_panic (readPrefixed_ne_panic _) fun _ =>
    bind_ne_panic (readExact_ne_panic _ _) fun _ => ok_ne_panic _

theorem readIndex_ne_panic (filterStart turns pos : ℕ) (reader : Bytes) :
    readIndex filterStart turns pos reader ≠ .error .panic := by
  induction turns generalizing pos reader with
  | zero => simp [readIndex]
  | succ turns ih =>
      rw [readIndex_succ]
      split_ifs
      · exact bind_ne_panic (readIndexEntry_ne_panic _) fun _ =>
          bind_ne_panic (ih _ _) fun _ => ok_ne_panic _
      · simp

/-- Whatever a file holds, opening it does not panic. -/
theorem open_ne_panic (path file : Bytes) :
    SSTable.open path file ≠ .error .panic :=
  bind_ne_panic (readTrailer_ne_panic _ _) fun _ =>
    bind_ne_panic (seekStart_ne_panic _ _) fun _ =>
    bind_ne_panic (readPrefixed_ne_panic _) fun _ =>
    bind_ne_panic (readPrefixed_ne_panic _) fun _ =>
    bind_ne_panic (seekStart_ne_panic _ _) fun _ =>
    bind_ne_panic (readFilter_ne_panic _) fun _ =>
    bind_ne_panic (seekStart_ne_panic _ _) fun _ =>
    bind_ne_panic (readIndex_ne_panic _ _ _ _) fun _ => ok_ne_panic _

/-! ## Looking up -/

theorem readBlock_eq_panic_iff {start stop : ℕ} :
    t.readBlock start stop = .error .panic ↔
      ¬ (start ≤ stop ∧ stop - start ≤ maxFileSize) := by
  have hiff : ¬ (start ≤ stop ∧ stop - start ≤ maxFileSize) ↔
      stop < start ∨ maxFileSize < stop - start := by
    omega
  rw [hiff, readBlock]
  dsimp only
  split_ifs with hbad hempty
  · exact iff_of_true rfl hbad
  · exact iff_of_false (fun h => by cases h) hbad
  · refine iff_of_false ?_ hbad
    exact bind_ne_panic (seekStart_ne_panic _ _) fun _ =>
      bind_ne_panic (readExact_ne_panic _ _) fun _ => ok_ne_panic _

theorem readBlock_length {start stop : ℕ} {bytes : Bytes}
    (h : t.readBlock start stop = .ok bytes) :
    start ≤ stop ∧ bytes.length = stop - start := by
  rw [readBlock] at h
  split_ifs at h with hbad hempty
  · cases h
    exact ⟨by omega, hempty.symm⟩
  · obtain ⟨reader, -, h⟩ := bind_eq_ok.mp h
    obtain ⟨⟨block, rest⟩, hread, h⟩ := bind_eq_ok.mp h
    cases h
    exact ⟨by omega, (readExact_eq_ok_iff.mp hread).2⟩

theorem readBlock_panics_iff {block : ℕ} {p : Bytes × ℕ}
    (hp : t.sparseIndex[block]? = some p) :
    t.readBlock p.2 (t.blockEnd block) = .error .panic ↔
      ¬ t.BlockInOrder block := by
  rw [readBlock_eq_panic_iff, BlockInOrder, hp]
  simp

theorem scanBlock_ne_panic (key : Bytes) (blockEnd turns pos : ℕ)
    (reader : Bytes) :
    scanBlock key blockEnd turns pos reader ≠ .error .panic := by
  induction turns generalizing pos reader with
  | zero => simp [scanBlock]
  | succ turns ih =>
      rw [scanBlock]
      split_ifs
      · refine bind_ne_panic (readFields_ne_panic _) fun r => ?_
        obtain ⟨recordKey, value, op, rest⟩ := r
        dsimp only
        split_ifs
        · exact ih _ _
        · simp
        · simp
        · simp
        · simp [invalidOpType, ioError]
      · simp

theorem bind_eq_panic_iff {α β : Type} (x : Result α) {f : α → Result β}
    (hf : ∀ a, f a ≠ .error .panic) :
    (x >>= f) = .error .panic ↔ x = .error .panic := by
  rw [bind_eq_error, or_iff_left]
  rintro ⟨a, -, ha⟩
  exact hf a ha

/-- When a lookup panics. -/
theorem get_eq_panic_iff {key : Bytes} {hash : UInt64} :
    t.get key hash = .error .panic ↔
      (t.minKey ≤ key ∧ key ≤ t.maxKey) ∧
        ((∃ i < t.filter.numProbes, t.filter.Queries hash i ∧
            ¬ t.filter.Lands hash i) ∨
          t.filter.Queries hash t.filter.numProbes ∧
            ∃ block, partitionPoint (fun p => decide (p.1 ≤ key))
              t.sparseIndex = block + 1 ∧ ¬ t.BlockInOrder block) := by
  rw [← BloomFilter.contains_eq_panic_iff, ← BloomFilter.contains_eq_true_iff,
    get]
  by_cases hrange : key < t.minKey ∨ t.maxKey < key
  · rw [if_pos hrange]
    refine iff_of_false (fun h => by cases h) ?_
    rintro ⟨⟨hmin, hmax⟩, -⟩
    exact hrange.elim (not_lt.mpr hmin) (not_lt.mpr hmax)
  · rw [if_neg hrange]
    rw [not_or, not_lt, not_lt] at hrange
    rw [and_iff_right hrange]
    cases t.filter.contains hash with
    | error e => simp [bind, Except.bind]
    | ok present =>
        cases present with
        | false => simp [pure, Except.pure]
        | true =>
            have hle := partitionPoint_le (fun p => decide (p.1 ≤ key))
              t.sparseIndex
            rw [ok_bind]
            simp only [Bool.not_true, Bool.false_eq_true, if_false]
            cases hcandidate : partitionPoint (fun p => decide (p.1 ≤ key))
              t.sparseIndex with
            | zero => simp [pure, Except.pure]
            | succ block =>
                rw [hcandidate] at hle
                have hp := List.getElem?_eq_getElem
                  (Nat.lt_of_succ_le hle)
                have hbind := bind_eq_panic_iff (t.readBlock
                  t.sparseIndex[block].2 (t.blockEnd block)) fun bytes =>
                    scanBlock_ne_panic key (t.blockEnd block)
                      (bytes.length + 1) t.sparseIndex[block].2 bytes
                rw [readBlock_panics_iff hp] at hbind
                simp only [hp]
                rw [hbind]
                simp

/-! ## Iterating -/

theorem panic_mem_andThen_iff {records later : List (Result Entry)}
    (h : .error .panic ∉ records) :
    .error .panic ∈ andThen records later ↔
      (∀ f, .error f ∉ records) ∧ .error .panic ∈ later := by
  induction records with
  | nil => simp [andThen]
  | cons r records ih =>
      cases r with
      | ok e =>
          have hrest : .error .panic ∉ records := fun hmem =>
            h (List.mem_cons_of_mem _ hmem)
          simpa [andThen] using ih hrest
      | error e =>
          refine iff_of_false ?_ fun hall => hall.1 e List.mem_cons_self
          rw [andThen, List.mem_singleton]
          intro heq
          rw [heq] at h
          exact h List.mem_cons_self

theorem blockDecodes_iff {block : ℕ} {p : Bytes × ℕ} {buf : Bytes}
    (hp : t.sparseIndex[block]? = some p)
    (hread : t.readBlock p.2 (t.blockEnd block) = .ok buf) :
    t.BlockDecodes block ↔
      ∀ f, .error f ∉ blockRecords buf.length buf := by
  constructor
  · rintro ⟨p', buf', hp', hread', hall⟩
    rw [hp] at hp'
    obtain rfl := Option.some.inj hp'
    rw [hread] at hread'
    obtain rfl := Except.ok.inj hread'
    exact hall
  · exact fun hall => ⟨p, buf, hp, hread, hall⟩

theorem not_blockDecodes {block : ℕ} {p : Bytes × ℕ} {f : Failure}
    (hp : t.sparseIndex[block]? = some p)
    (hread : t.readBlock p.2 (t.blockEnd block) = .error f) :
    ¬ t.BlockDecodes block := by
  rintro ⟨p', buf, hp', hread', -⟩
  rw [hp] at hp'
  obtain rfl := Option.some.inj hp'
  rw [hread] at hread'
  cases hread'

/-- The first bad block of a range is its first block, or lies behind that
one. -/
theorem exists_first_succ {Decodes Bad : ℕ → Prop} {block count : ℕ} :
    (∃ b, block ≤ b ∧ b < block + (count + 1) ∧
      (∀ e, block ≤ e → e < b → Decodes e) ∧ Bad b) ↔
    Bad block ∨ Decodes block ∧
      ∃ b, block + 1 ≤ b ∧ b < block + 1 + count ∧
        (∀ e, block + 1 ≤ e → e < b → Decodes e) ∧ Bad b := by
  constructor
  · rintro ⟨b, hle, hlt, hall, hbad⟩
    rcases hle.eq_or_lt with rfl | hnext
    · exact Or.inl hbad
    · exact Or.inr ⟨hall block le_rfl hnext, b, hnext, by omega,
        fun e hle' => hall e (by omega), hbad⟩
  · rintro (hbad | ⟨hfirst, b, hle, hlt, hrest, hbad⟩)
    · exact ⟨block, le_rfl, by omega, fun e hle hlt => by omega, hbad⟩
    · refine ⟨b, by omega, by omega, ?_, hbad⟩
      intro e hle' hlt'
      rcases hle'.eq_or_lt with rfl | hnext
      · exact hfirst
      · exact hrest e hnext hlt'

/-- An iteration panics at the first block out of order, if it comes there. -/
theorem panic_mem_recordsFrom_iff {count block : ℕ} :
    .error .panic ∈ t.recordsFrom count block ↔
      ∃ b, block ≤ b ∧ b < block + count ∧
        (∀ e, block ≤ e → e < b → t.BlockDecodes e) ∧
          ¬ t.BlockInOrder b := by
  induction count generalizing block with
  | zero =>
      refine iff_of_false List.not_mem_nil ?_
      rintro ⟨b, hle, hlt, -⟩
      omega
  | succ count ih =>
      rw [recordsFrom]
      cases hp : t.sparseIndex[block]? with
      | none =>
          refine iff_of_false List.not_mem_nil ?_
          rintro ⟨b, hle, -, -, hbad⟩
          refine hbad fun p hb => ?_
          have hlen := List.getElem?_eq_none_iff.mp hp
          rw [List.getElem?_eq_none (hlen.trans hle)] at hb
          cases hb
      | some p =>
          have hpanics := readBlock_panics_iff hp
          rw [exists_first_succ]
          dsimp only
          cases hread : t.readBlock p.2 (t.blockEnd block) with
          | error f =>
              have hnot := not_blockDecodes hp hread
              rw [or_iff_left fun hlater => hnot hlater.1,
                List.mem_singleton, ← hpanics, hread, Except.error.injEq,
                Except.error.injEq, eq_comm]
          | ok buf =>
              have horder : t.BlockInOrder block := by
                by_contra hbad
                rw [← hpanics, hread] at hbad
                cases hbad
              dsimp only
              rw [or_iff_right (not_not.mpr horder),
                panic_mem_andThen_iff (panic_not_mem_blockRecords _ _),
                ← blockDecodes_iff hp hread, ih]

theorem panic_not_mem_records_iff :
    .error .panic ∉ t.records ↔
      ∀ block, (∀ earlier < block, t.BlockDecodes earlier) →
        t.BlockInOrder block := by
  rw [records, panic_mem_recordsFrom_iff]
  constructor
  · intro hnone block hdecodes
    by_contra hbad
    refine hnone ⟨block, Nat.zero_le _, ?_, fun e _ => hdecodes e, hbad⟩
    rw [Nat.zero_add]
    by_contra hlen
    refine hbad fun p hp => ?_
    rw [List.getElem?_eq_none (not_lt.mp hlen)] at hp
    cases hp
  · rintro hall ⟨block, -, -, hdecodes, hbad⟩
    exact hbad (hall block fun e => hdecodes e (Nat.zero_le _))

theorem inBounds_iff :
    t.InBounds ↔ (∀ key, t.get key (hash64 key) ≠ .error .panic) ∧
      .error .panic ∉ t.records := by
  rw [panic_not_mem_records_iff]
  constructor
  · intro h
    refine ⟨fun key hpanics => ?_, h.walked⟩
    obtain ⟨⟨hmin, hmax⟩, ⟨i, hi, hqueries, hnot⟩ |
      ⟨hqueries, block, hblock, hnot⟩⟩ := get_eq_panic_iff.mp hpanics
    · exact hnot (h.probes key hmin hmax i hi hqueries)
    · exact hnot (h.looked key hmin hmax hqueries block hblock)
  · rintro ⟨hgets, hwalked⟩
    refine ⟨?_, ?_, hwalked⟩
    · intro key hmin hmax i hi hqueries
      by_contra hnot
      exact hgets key (get_eq_panic_iff.mpr
        ⟨⟨hmin, hmax⟩, Or.inl ⟨i, hi, hqueries, hnot⟩⟩)
    · intro key hmin hmax hqueries block hblock
      by_contra hnot
      exact hgets key (get_eq_panic_iff.mpr
        ⟨⟨hmin, hmax⟩, Or.inr ⟨hqueries, block, hblock, hnot⟩⟩)

/-- No position of a table that was opened is past its `u64`. -/
theorem blockEnd_lt {path file : Bytes}
    (h : SSTable.open path file = .ok t) (block : ℕ) :
    t.blockEnd block < 2 ^ 64 := by
  rw [SSTable.open] at h
  obtain ⟨trailer, -, h⟩ := bind_eq_ok.mp h
  obtain ⟨metaReader, -, h⟩ := bind_eq_ok.mp h
  obtain ⟨⟨minKey, minReader⟩, -, h⟩ := bind_eq_ok.mp h
  obtain ⟨⟨maxKey, maxReader⟩, -, h⟩ := bind_eq_ok.mp h
  obtain ⟨filterReader, -, h⟩ := bind_eq_ok.mp h
  obtain ⟨filter, -, h⟩ := bind_eq_ok.mp h
  obtain ⟨indexReader, hseek, h⟩ := bind_eq_ok.mp h
  obtain ⟨sparseIndex, hindex, h⟩ := bind_eq_ok.mp h
  cases h
  have hstart : trailer.indexStart ≤ maxFileSize := by
    rw [seekStart] at hseek
    split_ifs at hseek with hle
    exact hle
  rw [blockEnd]
  dsimp only
  cases hp : sparseIndex[block + 1]? with
  | none =>
      rw [maxFileSize] at hstart
      dsimp only
      omega
  | some p =>
      exact readIndex_offsets_lt hindex p (List.mem_of_getElem? hp)

end SSTable

/-! ## Whatever a file holds -/

/-- The call ends with `Ok` or an error: it does not panic, and no buffer is
refused it, which aborts the process. -/
def ReturnsWithin {α : Type} (memory : ℕ) (call : Metered Failure α) : Prop :=
  ∃ r, call.run memory = some r ∧ r ≠ .error .panic

theorem returnsWithin_iff {α : Type} {memory : ℕ} {call : Metered Failure α} :
    ReturnsWithin memory call ↔
      call.Within memory ∧ call.result ≠ .error .panic := by
  constructor
  · rintro ⟨r, hrun, hr⟩
    obtain ⟨hwithin, rfl⟩ := run_eq_some_iff.mp hrun
    exact ⟨hwithin, hr⟩
  · exact fun h => ⟨_, run_eq_some_iff.mpr ⟨h.1, rfl⟩, h.2⟩

/-- Calling `next` comes to the end of the records or to an error, with no
panic and no buffer refused. -/
inductive SSTable.Walks (t : SSTable) (memory : ℕ) : Records → Prop
  | ends {iter : Records}
      (h : (Buffered.nextRecord t iter).run memory = some (.ok none)) :
    Walks t memory iter
  | fails {iter : Records} {f : Failure}
      (h : (Buffered.nextRecord t iter).run memory = some (.error f))
      (hf : f ≠ .panic) : Walks t memory iter
  | next {iter iter' : Records} {e : Entry}
      (h : (Buffered.nextRecord t iter).run memory =
        some (.ok (some (e, iter'))))
      (hrest : Walks t memory iter') : Walks t memory iter

namespace SSTable

variable {t : SSTable} {memory : ℕ}

theorem run_nextRecord {iter : Records}
    {r : Result (Option (Entry × Records))} :
    (Buffered.nextRecord t iter).run memory = some r ↔
      (Buffered.nextRecord t iter).Within memory ∧
        t.nextRecord iter = r := by
  rw [run_eq_some_iff, Buffered.nextRecord_result]

theorem Walks.ahead {iter : Records} (h : t.Walks memory iter) :
    t.Ahead memory iter ∧ .error .panic ∉ t.remaining iter := by
  induction h with
  | ends h =>
      obtain ⟨hwithin, hnext⟩ := run_nextRecord.mp h
      rw [ahead_nextRecord, remaining_nextRecord, hnext]
      refine ⟨⟨hwithin, fun e iter' heq => ?_⟩, List.not_mem_nil⟩
      cases heq
  | fails h hf =>
      obtain ⟨hwithin, hnext⟩ := run_nextRecord.mp h
      rw [ahead_nextRecord, remaining_nextRecord, hnext]
      refine ⟨⟨hwithin, fun e iter' heq => ?_⟩, ?_⟩
      · cases heq
      · simpa using hf.symm
  | next h _ ih =>
      obtain ⟨hwithin, hnext⟩ := run_nextRecord.mp h
      rw [ahead_nextRecord, remaining_nextRecord, hnext]
      refine ⟨⟨hwithin, fun e iter' heq => ?_⟩, ?_⟩
      · cases heq
        exact ih.1
      · simpa using ih.2

theorem walks_of_ahead {iter : Records} (h : t.Ahead memory iter)
    (hpanic : .error .panic ∉ t.remaining iter) : t.Walks memory iter := by
  obtain ⟨left, hleft⟩ : ∃ left, (t.remaining iter).length < left :=
    ⟨_, Nat.lt_succ_self _⟩
  induction left generalizing iter with
  | zero => exact absurd hleft (Nat.not_lt_zero _)
  | succ left ih =>
      obtain ⟨hwithin, hahead⟩ := ahead_nextRecord.mp h
      have hremaining := t.remaining_nextRecord iter
      have hrun := run_nextRecord.mpr ⟨hwithin, rfl⟩
      cases hnext : t.nextRecord iter with
      | error f =>
          rw [hnext] at hrun hremaining
          refine .fails hrun fun hf => hpanic ?_
          rw [hremaining, hf]
          exact List.mem_cons_self
      | ok item =>
          rw [hnext] at hrun hremaining
          cases item with
          | none => exact .ends hrun
          | some p =>
              rw [hremaining] at hpanic hleft
              exact .next hrun (ih (hahead p.1 p.2 hnext)
                (fun hmem => hpanic (List.mem_cons_of_mem _ hmem))
                (Nat.lt_of_succ_lt_succ hleft))

theorem walks_iff {iter : Records} :
    t.Walks memory iter ↔
      t.Ahead memory iter ∧ .error .panic ∉ t.remaining iter :=
  ⟨Walks.ahead, fun h => walks_of_ahead h.1 h.2⟩

/-- A table reads cleanly where it is in bounds and its buffers are given. -/
theorem inBounds_and_fitsIn_iff :
    t.InBounds ∧ t.FitsIn memory ↔
      (∀ key, ReturnsWithin memory (Buffered.get t key (hash64 key))) ∧
        t.Walks memory .start := by
  have hgets : (∀ key, ReturnsWithin memory (Buffered.get t key (hash64 key))) ↔
      (∀ key, (Buffered.get t key (hash64 key)).Within memory) ∧
        ∀ key, t.get key (hash64 key) ≠ .error .panic := by
    simp only [returnsWithin_iff, Buffered.get_result]
    exact forall_and
  have hstart : t.Ahead memory .start ↔ t.BlocksFit memory 0 :=
    ahead_spent le_rfl
  rw [inBounds_iff, walks_iff, hstart, remaining_start, hgets]
  simp only [Buffered.within_get]
  constructor
  · rintro ⟨⟨hpanics, hrecords⟩, hfits⟩
    exact ⟨⟨hfits.looked, hpanics⟩, fun block _ hall =>
      hfits.walked block fun earlier hlt => hall earlier (Nat.zero_le _) hlt,
      hrecords⟩
  · rintro ⟨⟨hlooked, hpanics⟩, hblocks, hrecords⟩
    exact ⟨⟨hpanics, hrecords⟩, hlooked, fun block hall =>
      hblocks block (Nat.zero_le _) fun earlier _ => hall earlier⟩

end SSTable

/-- Opening the file, and looking keys up in the table or iterating over it,
ends with `Ok` or an error on a machine with this much memory for a buffer:
no call panics or aborts, every loop ends, and the positions the loops count
fit their `u64`. -/
structure FailsCleanly (memory : ℕ) (path file : Bytes) : Prop where
  opens : ReturnsWithin memory (Buffered.open path file)
  index_ends : ∀ trailer, readTrailer path file = .ok trailer →
    Ends (indexTurn trailer.filterStart)
      ⟨trailer.indexStart, file.drop trailer.indexStart, []⟩
      (readIndex trailer.filterStart (file.length + 1) trailer.indexStart
        (file.drop trailer.indexStart))
  index_fits : ∀ trailer, readTrailer path file = .ok trailer →
    trailer.indexStart ≤ maxFileSize → file.length ≤ maxFileSize →
    ∀ s, Reaches (indexTurn trailer.filterStart)
      ⟨trailer.indexStart, file.drop trailer.indexStart, []⟩ s →
      s.pos < 2 ^ 64
  gets : ∀ t, SSTable.open path file = .ok t → ∀ key,
    ReturnsWithin memory (Buffered.get t key (hash64 key))
  scan_ends : ∀ (key bytes : Bytes) (start stop : ℕ),
    Ends (SSTable.scanTurn key stop) ⟨start, bytes⟩
      (SSTable.scanBlock key stop (bytes.length + 1) start bytes)
  scan_fits : ∀ t, SSTable.open path file = .ok t →
    ∀ (key bytes : Bytes) (start block : ℕ),
      t.readBlock start (t.blockEnd block) = .ok bytes →
      ∀ s, Reaches (SSTable.scanTurn key (t.blockEnd block))
        ⟨start, bytes⟩ s → s.pos < 2 ^ 64
  load_ends : ∀ t, SSTable.open path file = .ok t → ∀ iter,
    Ends t.loadTurn iter (t.loadBlocks (t.sparseIndex.length + 1) iter)
  walks : ∀ t, SSTable.open path file = .ok t → t.Walks memory .start

theorem index_pos_lt {file : Bytes} {indexStart filterStart : ℕ}
    (hstart : indexStart ≤ maxFileSize) (hfile : file.length ≤ maxFileSize)
    {s : IndexLoop} (h : Reaches (indexTurn filterStart)
      ⟨indexStart, file.drop indexStart, []⟩ s) :
    s.pos < 2 ^ 64 := by
  have hpos := indexTurn_pos h
  rw [maxFileSize] at hstart hfile
  dsimp only at hpos
  rw [List.length_drop] at hpos
  omega

theorem scan_pos_lt {path file : Bytes} {t : SSTable}
    (hopen : SSTable.open path file = .ok t) {key bytes : Bytes}
    {start block : ℕ}
    (hread : t.readBlock start (t.blockEnd block) = .ok bytes)
    {s : ScanLoop} (h : Reaches (SSTable.scanTurn key (t.blockEnd block))
      ⟨start, bytes⟩ s) :
    s.pos < 2 ^ 64 := by
  have hpos := SSTable.scanTurn_pos h
  have hstop := SSTable.blockEnd_lt hopen block
  obtain ⟨hle, hlen⟩ := SSTable.readBlock_length hread
  dsimp only at hpos
  omega

/-- Reading a file's table fails cleanly exactly if opening it reads lengths
that buffers can have, and what lookups and the iteration get to is in bounds
and has such lengths as well. -/
theorem failsCleanly_iff (memory : ℕ) (path file : Bytes) :
    FailsCleanly memory path file ↔
      FileFits memory path file ∧
        ∀ t, SSTable.open path file = .ok t →
          t.InBounds ∧ t.FitsIn memory := by
  have hopens : ReturnsWithin memory (Buffered.open path file) ↔
      FileFits memory path file := by
    rw [returnsWithin_iff, Buffered.within_open, Buffered.open_result]
    exact and_iff_left (SSTable.open_ne_panic path file)
  constructor
  · exact fun h => ⟨hopens.mp h.opens, fun t ht =>
      SSTable.inBounds_and_fitsIn_iff.mpr ⟨h.gets t ht, h.walks t ht⟩⟩
  · rintro ⟨hfile, htable⟩
    exact {
      opens := hopens.mpr hfile
      index_ends := fun trailer _ =>
        readIndex_ends_nil trailer.filterStart _ (by simp)
      index_fits := fun _ _ hstart hfile _ hs =>
        index_pos_lt hstart hfile hs
      gets := fun t ht =>
        (SSTable.inBounds_and_fitsIn_iff.mp (htable t ht)).1
      scan_ends := fun key bytes start stop =>
        @SSTable.scanBlock_ends key stop (bytes.length + 1) ⟨start, bytes⟩
          (Nat.lt_succ_self _)
      scan_fits := fun _ ht _ _ _ _ hread _ hs => scan_pos_lt ht hread hs
      load_ends := fun t _ iter => t.loadBlocks_ends (by omega)
      walks := fun t ht =>
        (SSTable.inBounds_and_fitsIn_iff.mp (htable t ht)).2 }

/-- A table without records whose filter has one probe and no bits. -/
def zeroBits : Bytes :=
  filterBytes ⟨[], 0, 1⟩ ++ (metaBytes [] [] ++ trailerBytes 0 0 12)

theorem zeroBits_panics :
    ¬ ∃ memory, ∀ path file, FailsCleanly memory path file := by
  rintro ⟨memory, hclaim⟩
  have hgets : (SSTable.open [] zeroBits).map (fun t => t.get [] (hash64 [])) =
      .ok (.error .panic) := by
    decide +kernel
  obtain ⟨t, hopen, hpanics⟩ := map_eq_ok.mp hgets
  have hreturns := returnsWithin_iff.mp ((hclaim [] zeroBits).gets t hopen [])
  rw [Buffered.get_result] at hreturns
  exact hreturns.2 hpanics

/-- A file of 52 bytes whose filter is said to have `2 ^ 62` bits. -/
example : (Buffered.open [] (filterBytes ⟨[], 2 ^ 62, 1⟩ ++
    (metaBytes [] [] ++ trailerBytes 0 0 12))).run (2 ^ 47) = none := by
  decide +kernel

end Lsmrs
