import Lsmrs.Bloom.Probes
import Lsmrs.Sstable.Buffers

/-!
# Buffers that are refused

Which of the numbers in a file are read as lengths of buffers, and how large
they may be for opening, looking up and iterating to be given all of them.
-/

namespace Lsmrs

open ByteString PartitionPoint Loops Metered

/-! ## The numbers that count -/

/-- A buffer can have the length in front of these bytes, if there is one. -/
def PrefixFits (memory : ℕ) (reader : Bytes) : Prop :=
  4 ≤ reader.length → fromLeBytes (reader.take 4) ≤ memory

/-- So it is with two byte strings, one behind the other. -/
def FieldsFit (memory : ℕ) (reader : Bytes) : Prop :=
  PrefixFits memory reader ∧
    ∀ key rest, readPrefixed reader = .ok (key, rest) →
      PrefixFits memory rest

/-- Opening gets past the metadata block. -/
def ReadsKeys (path file : Bytes) (trailer : Trailer) : Prop :=
  readTrailer path file = .ok trailer ∧
    ∃ reader minKey maxKey, seekStart file trailer.metaStart = .ok reader ∧
      readPrefixed reader = .ok minKey ∧ readPrefixed minKey.2 = .ok maxKey

/-- Opening gets past the filter block. -/
def ReadsFilter (file : Bytes) (trailer : Trailer) : Prop :=
  ∃ reader filter, seekStart file trailer.filterStart = .ok reader ∧
    readFilter reader = .ok filter

/-- As far as opening the file gets, the keys and the words of the filter
have lengths that a buffer can have. -/
structure FileFits (memory : ℕ) (path file : Bytes) : Prop where
  keys : ∀ trailer reader, readTrailer path file = .ok trailer →
    seekStart file trailer.metaStart = .ok reader → FieldsFit memory reader
  words : ∀ trailer reader header rest, ReadsKeys path file trailer →
    seekStart file trailer.filterStart = .ok reader →
      readExact 12 reader = .ok (header, rest) →
        8 * (fromLeBytes (header.take 8) / 64) ≤ memory
  index : ∀ trailer reader, ReadsKeys path file trailer →
    ReadsFilter file trailer →
      seekStart file trailer.indexStart = .ok reader →
        ∀ s, Reaches (indexTurn trailer.filterStart)
            ⟨trailer.indexStart, reader, []⟩ s →
          s.pos < trailer.filterStart → PrefixFits memory s.reader

/-- One record of a block is decoded. -/
def recordTurn (buf : Bytes) : Turn Bytes Unit :=
  if buf = [] then .stop ()
  else match SSTable.readFields buf with
    | .error _ => .stop ()
    | .ok (_, _, op, rest) =>
      if op = 0 ∨ op = 1 then .goOn rest else .stop ()

/-- As far as the records can be decoded. -/
def RecordsFit (memory : ℕ) (buf : Bytes) : Prop :=
  ∀ rest, Reaches recordTurn buf rest → rest ≠ [] → FieldsFit memory rest

/-- As far as a lookup scans the records. -/
def ScanFits (memory : ℕ) (key : Bytes) (stop : ℕ) (s : ScanLoop) : Prop :=
  ∀ s', Reaches (SSTable.scanTurn key stop) s s' → s'.pos < stop →
    FieldsFit memory s'.reader

namespace SSTable

variable {t : SSTable} {memory : ℕ}

/-- The block has a length that a buffer can have, unless it is a panic to
ask for one. -/
def BlockFits (t : SSTable) (memory block : ℕ) : Prop :=
  ∀ p, t.sparseIndex[block]? = some p →
    t.blockEnd block - p.2 ≤ maxFileSize → t.blockEnd block - p.2 ≤ memory

/-- The bytes of the block, if it can be read. -/
def Loads (t : SSTable) (block : ℕ) (p : Bytes × ℕ) (buf : Bytes) : Prop :=
  t.sparseIndex[block]? = some p ∧
    t.readBlock p.2 (t.blockEnd block) = .ok buf

/-- The block can be read, and all of it decodes. -/
def BlockDecodes (t : SSTable) (block : ℕ) : Prop :=
  ∃ p buf, t.sparseIndex[block]? = some p ∧
    t.readBlock p.2 (t.blockEnd block) = .ok buf ∧
    ∀ f, .error f ∉ blockRecords buf.length buf

/-- What lookups and an iteration read are lengths that a buffer can
have. -/
structure FitsIn (memory : ℕ) (t : SSTable) : Prop where
  looked : ∀ key, t.minKey ≤ key → key ≤ t.maxKey →
    t.filter.Queries (hash64 key) t.filter.numProbes →
    ∀ block, partitionPoint (fun p => decide (p.1 ≤ key)) t.sparseIndex =
      block + 1 → t.BlockFits memory block ∧
        ∀ p buf, t.Loads block p buf →
          ScanFits memory key (t.blockEnd block) ⟨p.2, buf⟩
  walked : ∀ block, (∀ earlier < block, t.BlockDecodes earlier) →
    t.BlockFits memory block ∧
      ∀ p buf, t.Loads block p buf → RecordsFit memory buf

theorem blockFits_iff {block : ℕ} {p : Bytes × ℕ}
    (hp : t.sparseIndex[block]? = some p) :
    t.BlockFits memory block ↔ (t.blockEnd block - p.2 ≤ maxFileSize →
      t.blockEnd block - p.2 ≤ memory) := by
  simp only [BlockFits, hp, Option.some.injEq, forall_eq']

theorem forall_loads_iff {block : ℕ} {p : Bytes × ℕ}
    (hp : t.sparseIndex[block]? = some p) {P : Bytes × ℕ → Bytes → Prop} :
    (∀ p' buf, t.Loads block p' buf → P p' buf) ↔
      ∀ buf, t.readBlock p.2 (t.blockEnd block) = .ok buf → P p buf := by
  constructor
  · exact fun h buf hread => h p buf ⟨hp, hread⟩
  · rintro h p' buf ⟨hp', hread⟩
    obtain rfl := Option.some.inj (hp.symm.trans hp')
    exact h buf hread

end SSTable

/-! ## Opening -/

namespace Buffered

variable {memory : ℕ}

theorem within_allocate {len : ℕ} :
    (allocate len).Within memory ↔ (len ≤ maxFileSize → len ≤ memory) := by
  rw [allocate]
  split_ifs with hlong
  · exact iff_of_true (within_lift _) fun hle => absurd hlong (not_lt.mpr hle)
  · rw [within_ask, imp_iff_right (not_lt.mp hlong)]

theorem within_allocate_of_le {len : ℕ} (h : len ≤ maxFileSize) :
    (allocate len).Within memory ↔ len ≤ memory := by
  rw [within_allocate, imp_iff_right h]

theorem within_readPrefixed {reader : Bytes} :
    (readPrefixed reader).Within memory ↔ PrefixFits memory reader := by
  rw [readPrefixed, within_bind, PrefixFits]
  simp only [within_lift, true_and, result_lift]
  constructor
  · intro h hfour
    have hread : readExact 4 reader = .ok (reader.take 4, reader.drop 4) :=
      readExact_eq_ok_iff.mpr
        ⟨(List.take_append_drop 4 reader).symm, by simpa using hfour⟩
    have hlen : fromLeBytes (reader.take 4) ≤ maxFileSize := by
      have hlt := fromLeBytes_lt (reader.take 4)
      rw [(readExact_eq_ok_iff.mp hread).2] at hlt
      rw [maxFileSize]
      omega
    exact (within_allocate_of_le hlen).mp (within_bind.mp (h _ hread)).1
  · intro h r hread
    obtain ⟨hsplit, hfour⟩ := readExact_eq_ok_iff.mp hread
    have hle : 4 ≤ reader.length := by
      rw [hsplit, List.length_append]
      omega
    have htake : reader.take 4 = r.1 := by
      rw [hsplit, List.take_left' hfour]
    rw [within_bind, within_allocate, ← htake]
    exact ⟨fun _ => h hle, fun _ _ => within_lift _⟩

theorem within_readFields {reader : Bytes} :
    (readFields reader).Within memory ↔ FieldsFit memory reader := by
  rw [readFields, within_bind, within_readPrefixed, FieldsFit,
    readPrefixed_result]
  refine and_congr Iff.rfl ?_
  constructor
  · intro h key rest hkey
    exact within_readPrefixed.mp (within_bind.mp (h _ hkey)).1
  · rintro h ⟨key, rest⟩ hkey
    dsimp only
    rw [within_bind, within_readPrefixed]
    refine ⟨h key rest hkey, fun value _ => ?_⟩
    rw [within_bind]
    exact ⟨within_lift _, fun _ _ => within_pure _⟩

theorem within_readFilter {reader : Bytes} :
    (readFilter reader).Within memory ↔
      ∀ header rest, readExact 12 reader = .ok (header, rest) →
        8 * (fromLeBytes (header.take 8) / 64) ≤ memory := by
  rw [readFilter, within_bind]
  simp only [within_lift, true_and, result_lift]
  have hlen : ∀ header rest, readExact 12 reader = .ok (header, rest) →
      8 * (fromLeBytes (header.take 8) / 64) ≤ maxFileSize := by
    intro header rest _
    exact words_le_maxFileSize header
  constructor
  · intro h header rest hread
    exact (within_allocate_of_le (hlen header rest hread)).mp
      (within_bind.mp (h _ hread)).1
  · rintro h ⟨header, rest⟩ hread
    dsimp only
    rw [within_bind, within_allocate_of_le (hlen header rest hread)]
    refine ⟨h header rest hread, fun _ _ => ?_⟩
    rw [within_bind]
    exact ⟨within_lift _, fun _ _ => within_pure _⟩

theorem within_readIndex {filterStart turns : ℕ} {s : IndexLoop}
    (h : s.reader.length < turns) :
    (readIndex filterStart turns s.pos s.reader).Within memory ↔
      ∀ s', Reaches (indexTurn filterStart) s s' → s'.pos < filterStart →
        PrefixFits memory s'.reader := by
  induction turns generalizing s with
  | zero => exact absurd h (Nat.not_lt_zero _)
  | succ turns ih =>
      rw [forall_reaches, readIndex]
      by_cases hpos : s.pos < filterStart
      · rw [if_pos hpos, imp_iff_right hpos, within_bind,
          within_readPrefixed, readPrefixed_result]
        refine and_congr Iff.rfl ?_
        constructor
        · intro hrest s₁ hturn
          obtain ⟨p, -, hentry, hmoved, -⟩ := indexTurn_goOn hturn
          have hless := (readIndexEntry_length hentry).1
          rw [readIndexEntry] at hentry
          obtain ⟨key, hkey, hentry⟩ := bind_eq_ok.mp hentry
          obtain ⟨offset, hoffset, hentry⟩ := bind_eq_ok.mp hentry
          obtain ⟨rfl, hreader⟩ := Prod.mk.inj (Except.ok.inj hentry)
          have hnext := (within_bind.mp (hrest _ hkey)).2 _ hoffset
          rw [← ih (by omega), hmoved, ← hreader]
          exact (within_bind.mp hnext).1
        · rintro hrest ⟨key, rest⟩ hkey
          dsimp only
          rw [within_bind]
          refine ⟨within_lift _, fun offset hoffset => ?_⟩
          have hentry : readIndexEntry s.reader =
              .ok ((key, fromLeBytes offset.1), offset.2) := by
            rw [readIndexEntry, hkey, ok_bind]
            dsimp only
            rw [result_lift] at hoffset
            rw [hoffset]
            rfl
          have hless := (readIndexEntry_length hentry).1
          have hturn : indexTurn filterStart s = .goOn
              ⟨s.pos + (4 + key.length + 8), offset.2,
                s.sparseIndex ++ [(key, fromLeBytes offset.1)]⟩ := by
            rw [indexTurn, if_pos hpos, hentry]
          rw [within_bind]
          exact ⟨(ih (by dsimp only; omega)).mpr (hrest _ hturn),
            fun _ _ => within_pure _⟩
      · rw [if_neg hpos]
        refine iff_of_true (within_lift _) ⟨fun hlt => absurd hlt hpos, ?_⟩
        intro s₁ hturn
        exact absurd (indexTurn_goOn hturn).choose_spec.1 hpos

theorem seekStart_length_le {file reader : Bytes} {offset : ℕ}
    (h : seekStart file offset = .ok reader) :
    reader.length ≤ file.length := by
  rw [seekStart] at h
  split_ifs at h
  cases h
  rw [List.length_drop]
  exact Nat.sub_le _ _

/-- When opening is given all its buffers. -/
theorem within_open {path file : Bytes} :
    (Buffered.open path file).Within memory ↔ FileFits memory path file := by
  have hsteps : (Buffered.open path file).Within memory ↔
      ∀ trailer, readTrailer path file = .ok trailer →
        ∀ reader, seekStart file trailer.metaStart = .ok reader →
          PrefixFits memory reader ∧
          ∀ minKey rest, Lsmrs.readPrefixed reader = .ok (minKey, rest) →
            PrefixFits memory rest ∧
            ∀ maxKey rest', Lsmrs.readPrefixed rest = .ok (maxKey, rest') →
              ∀ reader, seekStart file trailer.filterStart = .ok reader →
                (readFilter reader).Within memory ∧
                ∀ filter, Lsmrs.readFilter reader = .ok filter →
                  ∀ reader,
                    seekStart file trailer.indexStart = .ok reader →
                      (readIndex trailer.filterStart (file.length + 1)
                        trailer.indexStart reader).Within memory := by
    simp only [Buffered.open, within_bind, within_lift, true_and,
      result_lift, readPrefixed_result, readFilter_result, within_pure,
      within_readPrefixed, Prod.forall, implies_true, and_true]
  rw [hsteps]
  constructor
  · intro h
    refine ⟨fun trailer reader htrailer hseek => ?_, ?_, ?_⟩
    · obtain ⟨hmin, hmax⟩ := h trailer htrailer reader hseek
      exact ⟨hmin, fun key rest hkey => (hmax key rest hkey).1⟩
    · rintro trailer reader header rest ⟨htrailer, keys, minKey, maxKey,
        hseek, hmin, hmax⟩ hreader hheader
      exact within_readFilter.mp (((h trailer htrailer keys hseek).2 _ _
        hmin).2 _ _ hmax reader hreader).1 header rest hheader
    · rintro trailer reader ⟨htrailer, keys, minKey, maxKey, hseek, hmin,
        hmax⟩ ⟨words, filter, hwords, hfilter⟩ hreader
      have hindex := (((h trailer htrailer keys hseek).2 _ _ hmin).2 _ _ hmax
        words hwords).2 filter hfilter reader hreader
      exact (@within_readIndex memory trailer.filterStart _
        ⟨trailer.indexStart, reader, []⟩
        (Nat.lt_succ_of_le (seekStart_length_le hreader))).mp hindex
  · intro h trailer htrailer reader hseek
    obtain ⟨hmin, hmax⟩ := h.keys trailer reader htrailer hseek
    refine ⟨hmin, fun minKey rest hkey => ⟨hmax minKey rest hkey, ?_⟩⟩
    intro maxKey rest' hkey' words hwords
    have hkeys : ReadsKeys path file trailer :=
      ⟨htrailer, reader, _, _, hseek, hkey, hkey'⟩
    refine ⟨within_readFilter.mpr fun header rest =>
      h.words trailer words header rest hkeys hwords, ?_⟩
    intro filter hfilter index hindex
    exact (@within_readIndex memory trailer.filterStart _
      ⟨trailer.indexStart, index, []⟩
      (Nat.lt_succ_of_le (seekStart_length_le hindex))).mpr
        (h.index trailer index hkeys ⟨words, filter, hwords, hfilter⟩ hindex)

/-! ## Looking up -/

theorem within_readBlock {t : SSTable} {start stop : ℕ} :
    (readBlock t start stop).Within memory ↔
      (stop - start ≤ maxFileSize → stop - start ≤ memory) := by
  rw [readBlock]
  split_ifs with hbad
  · refine iff_of_true (within_lift _) fun _ => ?_
    omega
  · rw [within_bind, within_allocate]
    exact and_iff_left fun _ _ => within_lift _

theorem within_scanBlock {key : Bytes} {stop turns : ℕ} {s : ScanLoop}
    (h : s.reader.length < turns) :
    (scanBlock key stop turns s.pos s.reader).Within memory ↔
      ScanFits memory key stop s := by
  induction turns generalizing s with
  | zero => exact absurd h (Nat.not_lt_zero _)
  | succ turns ih =>
      rw [ScanFits, forall_reaches, scanBlock]
      by_cases hpos : s.pos < stop
      · rw [if_pos hpos, imp_iff_right hpos, within_bind,
          within_readFields, readFields_result]
        refine and_congr Iff.rfl ?_
        constructor
        · intro hrest s₁ hturn
          have hless := (SSTable.scanTurn_goOn hturn).1
          rw [SSTable.scanTurn, if_pos hpos] at hturn
          cases hread : SSTable.readFields s.reader with
          | error e =>
              rw [hread] at hturn
              cases hturn
          | ok r =>
              obtain ⟨recordKey, value, op, rest⟩ := r
              have hscan := hrest _ hread
              rw [hread] at hturn
              dsimp only at hturn hscan
              split_ifs at hturn with hkey
              cases hturn
              rw [if_pos hkey] at hscan
              exact (@ih ⟨_, rest⟩ (by dsimp only at hless ⊢; omega)).mp hscan
        · rintro hrest ⟨recordKey, value, op, rest⟩ hread
          dsimp only
          split_ifs with hkey
          · have hturn : SSTable.scanTurn key stop s = .goOn
                ⟨s.pos + (9 + recordKey.length + value.length), rest⟩ := by
              rw [SSTable.scanTurn, if_pos hpos, hread]
              exact if_pos hkey
            have hless := (SSTable.scanTurn_goOn hturn).1
            exact (@ih ⟨_, rest⟩ (by dsimp only at hless ⊢; omega)).mpr
              (hrest _ hturn)
          all_goals exact within_lift _
      · rw [if_neg hpos]
        refine iff_of_true (within_lift _) ⟨fun hlt => absurd hlt hpos, ?_⟩
        intro s₁ hturn
        rw [SSTable.scanTurn, if_neg hpos] at hturn
        cases hturn

/-- When a lookup is given all its buffers. -/
theorem within_get {t : SSTable} {key : Bytes} {hash : UInt64} :
    (get t key hash).Within memory ↔
      (t.minKey ≤ key → key ≤ t.maxKey →
        t.filter.Queries hash t.filter.numProbes →
        ∀ block, partitionPoint (fun p => decide (p.1 ≤ key)) t.sparseIndex =
          block + 1 → t.BlockFits memory block ∧
            ∀ p buf, t.Loads block p buf →
              ScanFits memory key (t.blockEnd block) ⟨p.2, buf⟩) := by
  rw [← BloomFilter.contains_eq_true_iff, get]
  by_cases hrange : key < t.minKey ∨ t.maxKey < key
  · rw [if_pos hrange]
    refine iff_of_true (within_lift _) fun hmin hmax => ?_
    exact absurd hrange (not_or.mpr ⟨not_lt.mpr hmin, not_lt.mpr hmax⟩)
  · rw [if_neg hrange]
    rw [not_or, not_lt, not_lt] at hrange
    rw [imp_iff_right hrange.1, imp_iff_right hrange.2, within_bind]
    simp only [within_lift, true_and, result_lift]
    cases t.filter.contains hash with
    | error e => simp
    | ok present =>
        cases present with
        | false => simp
        | true =>
            have hle := partitionPoint_le (fun p => decide (p.1 ≤ key))
              t.sparseIndex
            simp only [Except.ok.injEq, forall_eq', Bool.not_true,
              Bool.false_eq_true, if_false, forall_const]
            cases hcandidate : partitionPoint
                (fun p => decide (p.1 ≤ key)) t.sparseIndex with
            | zero => simp
            | succ block =>
                rw [hcandidate] at hle
                have hp := List.getElem?_eq_getElem (Nat.lt_of_succ_le hle)
                simp only [hp, Nat.succ.injEq, forall_eq']
                rw [within_bind, within_readBlock, readBlock_result]
                have hturns : ∀ buf : Bytes,
                    (scanBlock key (t.blockEnd block) (buf.length + 1)
                      t.sparseIndex[block].2 buf).Within memory ↔
                    ScanFits memory key (t.blockEnd block)
                      ⟨t.sparseIndex[block].2, buf⟩ := fun buf =>
                  @within_scanBlock memory key (t.blockEnd block) _
                    ⟨t.sparseIndex[block].2, buf⟩ (Nat.lt_succ_self _)
                rw [SSTable.blockFits_iff hp, SSTable.forall_loads_iff hp]
                simp only [hturns]

end Buffered

/-! ## Iterating -/

/-- All of the records decode. -/
def Decodes (buf : Bytes) : Prop :=
  ∀ f, .error f ∉ SSTable.blockRecords buf.length buf

theorem decodes_nil : Decodes [] := by
  intro f
  rw [blockRecords_nil]
  exact List.not_mem_nil

/-- Decoding goes on behind a record whose op byte is known. -/
theorem recordTurn_goOn {buf rest : Bytes} :
    recordTurn buf = .goOn rest ↔
      ∃ key value op, SSTable.readFields buf = .ok (key, value, op, rest) ∧
        (op = 0 ∨ op = 1) := by
  rw [recordTurn]
  by_cases hempty : buf = []
  · rw [if_pos hempty, hempty]
    refine iff_of_false (fun h => by cases h) ?_
    rintro ⟨key, value, op, hread, -⟩
    have hlen := (readFields_rest hread).1
    rw [List.length_nil] at hlen
    omega
  · rw [if_neg hempty]
    cases SSTable.readFields buf with
    | error e => simp
    | ok r =>
        obtain ⟨key, value, op, rest'⟩ := r
        dsimp only
        split_ifs with hop
        · simp [hop]
        · simp [hop]

theorem decodes_iff {buf : Bytes} (hne : buf ≠ []) :
    Decodes buf ↔ ∃ rest, recordTurn buf = .goOn rest ∧ Decodes rest := by
  simp only [recordTurn_goOn]
  rw [Decodes, blockRecords_of_ne_nil hne le_rfl]
  cases hread : SSTable.readFields buf with
  | error e => simp
  | ok r =>
      obtain ⟨key, value, op, rest⟩ := r
      have hless := (readFields_rest hread).1
      have hrest : SSTable.blockRecords buf.length rest =
          SSTable.blockRecords rest.length rest :=
        blockRecords_eq_of_le (by omega) le_rfl
      dsimp only
      rw [hrest]
      split_ifs with hvalue htombstone
      · simp [hvalue, Decodes]
      · simp [htombstone, Decodes]
      · simp [hvalue, htombstone]

theorem recordsFit_iff {memory : ℕ} {buf : Bytes} :
    RecordsFit memory buf ↔ (buf ≠ [] → FieldsFit memory buf) ∧
      ∀ rest, recordTurn buf = .goOn rest → RecordsFit memory rest :=
  forall_reaches

theorem recordsFit_nil (memory : ℕ) : RecordsFit memory [] := by
  rw [recordsFit_iff]
  refine ⟨fun h => absurd rfl h, fun rest hturn => ?_⟩
  rw [recordTurn, if_pos rfl] at hturn
  cases hturn

namespace SSTable

variable {t : SSTable} {memory : ℕ}

/-- What an iteration reads from this block on. -/
def BlocksFit (t : SSTable) (memory first : ℕ) : Prop :=
  ∀ block, first ≤ block →
    (∀ earlier, first ≤ earlier → earlier < block → t.BlockDecodes earlier) →
      t.BlockFits memory block ∧
        ∀ p buf, t.Loads block p buf → RecordsFit memory buf

theorem blocksFit_of_none {first : ℕ} (h : t.sparseIndex[first]? = none) :
    t.BlocksFit memory first := by
  intro block hle _
  have hnone : t.sparseIndex[block]? = none :=
    List.getElem?_eq_none ((List.getElem?_eq_none_iff.mp h).trans hle)
  refine ⟨fun p hp => ?_, fun p buf hloads => ?_⟩
  · rw [hnone] at hp
    cases hp
  · have hp := hloads.1
    rw [hnone] at hp
    cases hp

theorem blocksFit_iff {first : ℕ} {p : Bytes × ℕ}
    (hp : t.sparseIndex[first]? = some p) :
    t.BlocksFit memory first ↔ t.BlockFits memory first ∧
      ∀ buf, t.readBlock p.2 (t.blockEnd first) = .ok buf →
        RecordsFit memory buf ∧
          (Decodes buf → t.BlocksFit memory (first + 1)) := by
  constructor
  · intro h
    obtain ⟨hblock, hrecords⟩ := h first le_rfl
      fun earlier hle hlt => absurd hlt (not_lt.mpr hle)
    refine ⟨hblock, fun buf hread => ⟨hrecords p buf ⟨hp, hread⟩, ?_⟩⟩
    intro hdecodes block hle hall
    refine h block (by omega) fun earlier hearlier hlt => ?_
    rcases hearlier.eq_or_lt with rfl | hnext
    · exact ⟨p, buf, hp, hread, hdecodes⟩
    · exact hall earlier hnext hlt
  · rintro ⟨hblock, hbuf⟩ block hle hall
    rcases hle.eq_or_lt with rfl | hnext
    · exact ⟨hblock, (forall_loads_iff hp).mpr
        fun buf hread => (hbuf buf hread).1⟩
    · obtain ⟨p', buf, hp', hread, hdecodes⟩ := hall first le_rfl hnext
      obtain rfl := Option.some.inj (hp.symm.trans hp')
      exact (hbuf buf hread).2 hdecodes block hnext
        fun earlier hearlier hlt => hall earlier (by omega) hlt

/-- What an iteration reads from this state on. -/
def Ahead (t : SSTable) (memory : ℕ) (iter : Records) : Prop :=
  RecordsFit memory (iter.buf.drop iter.cursor) ∧
    (Decodes (iter.buf.drop iter.cursor) →
      t.BlocksFit memory iter.block)

theorem ahead_spent {iter : Records}
    (h : iter.buf.length ≤ iter.cursor) :
    t.Ahead memory iter ↔ t.BlocksFit memory iter.block := by
  rw [Ahead, List.drop_eq_nil_of_le h, imp_iff_right decodes_nil,
    and_iff_right (recordsFit_nil memory)]

theorem ahead_loadBlocks {turns : ℕ} {iter : Records}
    (h : t.sparseIndex.length - iter.block < turns) :
    t.Ahead memory iter ↔
      (Buffered.loadBlocks t turns iter).Within memory ∧
        ∀ iter', t.loadBlocks turns iter = .ok (some iter') →
          t.Ahead memory iter' := by
  induction turns generalizing iter with
  | zero => exact absurd h (Nat.not_lt_zero _)
  | succ turns ih =>
      rw [Buffered.loadBlocks, loadBlocks]
      by_cases hspent : iter.buf.length ≤ iter.cursor
      · rw [if_pos hspent, if_pos hspent, ahead_spent hspent]
        cases hp : t.sparseIndex[iter.block]? with
        | none =>
            refine iff_of_true (blocksFit_of_none hp) ⟨within_lift _, ?_⟩
            intro iter' hload
            cases hload
        | some p =>
            obtain ⟨hlt, -⟩ := List.getElem?_eq_some_iff.mp hp
            dsimp only
            rw [blocksFit_iff hp, blockFits_iff hp, within_bind,
              Buffered.within_readBlock, Buffered.readBlock_result, and_assoc]
            refine and_congr Iff.rfl ?_
            cases hread : t.readBlock p.2 (t.blockEnd iter.block) with
            | error e => simp [bind, Except.bind]
            | ok buf =>
                have hnext := @ih ⟨iter.block + 1, buf, 0⟩
                  (by dsimp only; omega)
                simpa [Ahead] using hnext
      · rw [if_neg hspent, if_neg hspent]
        simp

/-- One call of `next`: what it reads, and what its state reads. -/
theorem ahead_nextRecord {iter : Records} :
    t.Ahead memory iter ↔
      (Buffered.nextRecord t iter).Within memory ∧
        ∀ e iter', t.nextRecord iter = .ok (some (e, iter')) →
          t.Ahead memory iter' := by
  have hturns : t.sparseIndex.length - iter.block <
      t.sparseIndex.length + 1 :=
    Nat.lt_succ_of_le (Nat.sub_le _ iter.block)
  rw [ahead_loadBlocks hturns, Buffered.nextRecord, nextRecord, within_bind,
    Buffered.loadBlocks_result, and_assoc]
  refine and_congr Iff.rfl ?_
  cases hload : t.loadBlocks (t.sparseIndex.length + 1) iter with
  | error f => simp [bind, Except.bind]
  | ok loaded =>
      cases loaded with
      | none => simp
      | some iter' =>
          obtain ⟨hne, hslice⟩ := loadBlocks_slice hload
          simp only [Except.ok.injEq, Option.some.injEq, forall_eq', ok_bind,
            within_bind, within_lift, true_and, result_lift, hslice,
            Buffered.within_readFields, Buffered.readFields_result]
          rw [Ahead, recordsFit_iff, imp_iff_right hne, and_assoc,
            and_assoc, decodes_iff hne]
          simp only [recordTurn_goOn]
          refine and_congr Iff.rfl ?_
          cases hread : readFields (iter'.buf.drop iter'.cursor) with
          | error f => simp [bind, Except.bind]
          | ok r =>
              obtain ⟨key, value, op, rest⟩ := r
              obtain ⟨-, hrest⟩ := readFields_rest hread
              rw [List.drop_drop] at hrest
              simp only [Except.ok.injEq, forall_eq', ok_bind, Prod.mk.injEq]
              split_ifs with hvalue htombstone
              · simp [hvalue, Ahead, hrest]
              · simp [htombstone, Ahead, hrest]
              · simp [hvalue, htombstone]

end SSTable

end Lsmrs
