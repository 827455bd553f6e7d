import Lsmrs.Sstable.TableLoops
import Lsmrs.Support.Metered

/-!
# The buffers a table is read into

`SSTable::open`, `get` and `next_record` with the buffers they ask for.  The
lengths of these are read from the file, and a file can say anything.  With
memory for all of them the calls result in what they do in `Sstable.Table`
and `Sstable.Records`; without it the process aborts.
-/

namespace Lsmrs

open ByteString PartitionPoint Loops Metered

/-! ## The calls -/

/-- `vec![0; len]`.  A length above `isize::MAX` panics. -/
def allocate (len : ℕ) : Metered Failure Unit :=
  if maxFileSize < len then lift (.error .panic) else ask len

namespace Buffered

/-- `read_prefixed`. -/
def readPrefixed (reader : Bytes) : Metered Failure (Bytes × Bytes) := do
  let (lenBuf, reader) ← lift (readExact 4 reader)
  allocate (fromLeBytes lenBuf)
  lift (readExact (fromLeBytes lenBuf) reader)

/-- The filter block of `SSTable::open`.  A word has eight bytes. -/
def readFilter (reader : Bytes) : Metered Failure BloomFilter := do
  let (header, reader) ← lift (readExact 12 reader)
  let numBits := fromLeBytes (header.take 8)
  let numProbes := fromLeBytes (header.drop 8)
  allocate (8 * (numBits / 64))
  let words ← lift (readWords (numBits / 64) reader)
  return BloomFilter.fromParts words numBits numProbes

/-- The loop of `SSTable::open` over the sparse index block. -/
def readIndex (filterStart : ℕ) :
    ℕ → ℕ → Bytes → Metered Failure (List (Bytes × ℕ))
  | 0, _, _ => lift (.ok [])
  | turns + 1, pos, reader =>
    if pos < filterStart then do
      let (key, reader) ← readPrefixed reader
      let (offsetBuf, reader) ← lift (readExact 8 reader)
      let rest ← readIndex filterStart turns (pos + (4 + key.length + 8)) reader
      return (key, fromLeBytes offsetBuf) :: rest
    else lift (.ok [])

end Buffered

/-- `SSTable::open`. -/
def Buffered.open (path file : Bytes) : Metered Failure SSTable := do
  let trailer ← lift (readTrailer path file)
  let reader ← lift (seekStart file trailer.metaStart)
  let (minKey, reader) ← Buffered.readPrefixed reader
  let (maxKey, _) ← Buffered.readPrefixed reader
  let reader ← lift (seekStart file trailer.filterStart)
  let filter ← Buffered.readFilter reader
  let reader ← lift (seekStart file trailer.indexStart)
  let sparseIndex ← Buffered.readIndex trailer.filterStart (file.length + 1)
    trailer.indexStart reader
  return {
    file, sparseIndex, indexStart := trailer.indexStart, minKey, maxKey,
    filter }

namespace Buffered

/-- Read `[blockStart, blockEnd)` of the file. -/
def readBlock (t : SSTable) (blockStart blockEnd : ℕ) :
    Metered Failure Bytes :=
  if blockEnd < blockStart then lift (.error .panic)
  else do
    allocate (blockEnd - blockStart)
    lift (t.readBlock blockStart blockEnd)

/-- The fields of one record. -/
def readFields (reader : Bytes) :
    Metered Failure (Bytes × Bytes × UInt8 × Bytes) := do
  let (key, reader) ← readPrefixed reader
  let (value, reader) ← readPrefixed reader
  let (op, reader) ← lift (readExact 1 reader)
  return (key, value, op.headD 0, reader)

/-- The loop of `SSTable::get` over one block. -/
def scanBlock (key : Bytes) (blockEnd : ℕ) :
    ℕ → ℕ → Bytes → Metered Failure (Option Found)
  | 0, _, _ => lift (.ok none)
  | turns + 1, pos, reader =>
    if pos < blockEnd then do
      let (recordKey, value, op, reader) ← readFields reader
      if recordKey < key then
        scanBlock key blockEnd turns
          (pos + (9 + recordKey.length + value.length)) reader
      else if key < recordKey then lift (.ok none)
      else if op = 0 then lift (.ok (some (.value value)))
      else if op = 1 then lift (.ok (some .tombstone))
      else lift (.error SSTable.invalidOpType)
    else lift (.ok none)

/-- `SSTable::get`. -/
def get (t : SSTable) (key : Bytes) (hash : UInt64) :
    Metered Failure (Option Found) :=
  if key < t.minKey ∨ t.maxKey < key then lift (.ok none)
  else do
    let present ← lift (t.filter.contains hash)
    if !present then lift (.ok none)
    else
      match partitionPoint (fun p => decide (p.1 ≤ key)) t.sparseIndex with
      | 0 => lift (.ok none)
      | block + 1 =>
        match t.sparseIndex[block]? with
        | none => lift (.error .panic)
        | some (_, blockStart) => do
          let stop := t.blockEnd block
          let bytes ← readBlock t blockStart stop
          scanBlock key stop (bytes.length + 1) blockStart bytes

/-- The loop of `next_record` that loads blocks. -/
def loadBlocks (t : SSTable) : ℕ → Records →
    Metered Failure (Option Records)
  | 0, _ => lift (.ok none)
  | turns + 1, iter =>
    if iter.buf.length ≤ iter.cursor then
      match t.sparseIndex[iter.block]? with
      | none => lift (.ok none)
      | some (_, blockStart) => do
        let buf ← readBlock t blockStart (t.blockEnd iter.block)
        loadBlocks t turns ⟨iter.block + 1, buf, 0⟩
    else lift (.ok (some iter))

/-- `next_record`. -/
def nextRecord (t : SSTable) (iter : Records) :
    Metered Failure (Option (Entry × Records)) := do
  let some iter ← loadBlocks t (t.sparseIndex.length + 1) iter
    | lift (.ok none)
  let reader ← lift (slice iter.buf iter.cursor iter.buf.length)
  let (key, value, op, _) ← readFields reader
  let iter :=
    { iter with cursor := iter.cursor + (9 + key.length + value.length) }
  if op = 0 then lift (.ok (some ((key, some value), iter)))
  else if op = 1 then lift (.ok (some ((key, none), iter)))
  else lift (.error SSTable.invalidOpType)

/-! ## With memory for all of them -/

theorem allocate_result {len : ℕ} (h : len ≤ maxFileSize) :
    (allocate len).result = .ok () := by
  rw [allocate, if_neg (not_lt.mpr h)]
  rfl

@[simp] theorem readPrefixed_result (reader : Bytes) :
    (readPrefixed reader).result = Lsmrs.readPrefixed reader := by
  rw [readPrefixed, Lsmrs.readPrefixed, result_bind, result_lift]
  cases hread : readExact 4 reader with
  | error e => rfl
  | ok r =>
      obtain ⟨hsplit, hfour⟩ := readExact_eq_ok_iff.mp hread
      have hlt := fromLeBytes_lt r.1
      rw [hfour] at hlt
      have hlen : fromLeBytes r.1 ≤ maxFileSize := by
        rw [maxFileSize]
        omega
      rw [ok_bind, ok_bind]
      dsimp only
      rw [result_bind, allocate_result hlen, ok_bind, result_lift]

theorem words_le_maxFileSize (header : Bytes) :
    8 * (fromLeBytes (header.take 8) / 64) ≤ maxFileSize := by
  have hlt := fromLeBytes_lt (header.take 8)
  have hpow : 256 ^ (header.take 8).length ≤ 256 ^ 8 :=
    Nat.pow_le_pow_right (by decide) (List.length_take_le 8 header)
  rw [maxFileSize]
  omega

@[simp] theorem readFilter_result (reader : Bytes) :
    (readFilter reader).result = Lsmrs.readFilter reader := by
  rw [readFilter, Lsmrs.readFilter, result_bind, result_lift]
  cases hread : readExact 12 reader with
  | error e => rfl
  | ok r =>
      rw [ok_bind, ok_bind]
      dsimp only
      rw [result_bind, allocate_result (words_le_maxFileSize r.1), ok_bind]
      rfl

@[simp] theorem readIndex_result (filterStart turns pos : ℕ)
    (reader : Bytes) :
    (readIndex filterStart turns pos reader).result =
      Lsmrs.readIndex filterStart turns pos reader := by
  induction turns generalizing pos reader with
  | zero => rfl
  | succ turns ih =>
      rw [readIndex, Lsmrs.readIndex, result_ite, result_bind,
        readPrefixed_result, result_lift]
      split_ifs
      · cases Lsmrs.readPrefixed reader with
        | error e => rfl
        | ok r =>
            rw [ok_bind, ok_bind]
            dsimp only
            rw [result_bind, result_lift]
            cases readExact 8 r.2 with
            | error e => rfl
            | ok offset =>
                rw [ok_bind, ok_bind, result_bind, ih]
                rfl
      · rfl

theorem open_result (path file : Bytes) :
    (Buffered.open path file).result = SSTable.open path file := by
  rw [Buffered.open, SSTable.open]
  simp only [result_bind, result_lift, readPrefixed_result,
    readFilter_result, readIndex_result, result_pure]
  rfl

@[simp] theorem readBlock_result (t : SSTable) (start stop : ℕ) :
    (readBlock t start stop).result = t.readBlock start stop := by
  rw [readBlock, result_ite]
  split_ifs with hbad
  · rw [result_lift, SSTable.readBlock, if_pos (Or.inl hbad)]
  · rw [result_bind, allocate, result_ite, result_lift, result_ask,
      result_lift]
    split_ifs with hlong
    · rw [SSTable.readBlock, if_pos (Or.inr hlong)]
      rfl
    · rfl

@[simp] theorem readFields_result (reader : Bytes) :
    (readFields reader).result = SSTable.readFields reader := by
  rw [readFields, SSTable.readFields]
  simp only [result_bind, readPrefixed_result, result_lift, result_pure]
  rfl

@[simp] theorem scanBlock_result (key : Bytes) (blockEnd turns pos : ℕ)
    (reader : Bytes) :
    (scanBlock key blockEnd turns pos reader).result =
      SSTable.scanBlock key blockEnd turns pos reader := by
  induction turns generalizing pos reader with
  | zero => rfl
  | succ turns ih =>
      rw [scanBlock, SSTable.scanBlock]
      simp only [result_ite, result_bind, readFields_result, result_lift, ih]

theorem get_result (t : SSTable) (key : Bytes) (hash : UInt64) :
    (get t key hash).result = t.get key hash := by
  rw [get, SSTable.get, result_ite, result_lift, result_bind, result_lift]
  split_ifs
  · rfl
  · cases t.filter.contains hash with
    | error e => rfl
    | ok present =>
        rw [ok_bind, ok_bind, result_ite, result_lift]
        split_ifs
        · rfl
        · dsimp only
          cases partitionPoint (fun p => decide (p.1 ≤ key))
              t.sparseIndex with
          | zero => rfl
          | succ block =>
              dsimp only
              cases t.sparseIndex[block]? with
              | none => rfl
              | some p =>
                  dsimp only
                  simp only [result_bind, readBlock_result, scanBlock_result]

@[simp] theorem loadBlocks_result (t : SSTable) (turns : ℕ)
    (iter : Records) :
    (loadBlocks t turns iter).result = t.loadBlocks turns iter := by
  induction turns generalizing iter with
  | zero => rfl
  | succ turns ih =>
      rw [loadBlocks, SSTable.loadBlocks, result_ite, result_lift]
      split_ifs
      · cases t.sparseIndex[iter.block]? with
        | none => rfl
        | some p =>
            dsimp only
            simp only [result_bind, readBlock_result, ih]
      · rfl

theorem nextRecord_result (t : SSTable) (iter : Records) :
    (nextRecord t iter).result = t.nextRecord iter := by
  rw [nextRecord, SSTable.nextRecord, result_bind, loadBlocks_result]
  cases t.loadBlocks (t.sparseIndex.length + 1) iter with
  | error e => rfl
  | ok loaded =>
      cases loaded with
      | none => rfl
      | some iter' =>
          rw [ok_bind, ok_bind]
          dsimp only
          simp only [result_bind, result_lift, readFields_result, result_ite]

end Buffered

end Lsmrs
