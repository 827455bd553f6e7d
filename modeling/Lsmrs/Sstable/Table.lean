import Lsmrs.Bloom
import Lsmrs.Support.Decimal
import Lsmrs.Support.PartitionPoint

/-!
# One SSTable

The file format of `sstable.rs`: writing a table, opening its file, looking a
key up in it and walking its records.  A table keeps the descriptor of its
file open, so its bytes are part of it whatever happens to the name.  Every
buffer is granted here; `Sstable.Buffers` has the calls with the buffers they
ask for.
-/

namespace Lsmrs

open ByteString PartitionPoint

/-! ## The format -/

/-- `BLOCK_SIZE`. -/
def blockSize : ℕ := 1024 * 4

/-- `MAGIC`. -/
def magic : Bytes := ascii "LSMRS" ++ [0]

/-- `FORMAT_VERSION`. -/
def formatVersion : UInt8 := 1

/-- `TRAILER_SIZE`. -/
def trailerSize : ℕ := 32

/-- The largest offset a file can be read or written at. -/
def maxFileSize : ℕ := 2 ^ 63 - 1

/-- A key with its value, or with `none` for a tombstone. -/
abbrev Entry := Bytes × Option Bytes

inductive Found where
  | value (v : Bytes)
  | tombstone
  deriving DecidableEq, Repr

/-- What an entry's value is found as. -/
def Found.ofValue : Option Bytes → Found
  | some v => .value v
  | none => .tombstone

structure SSTable where
  file : Bytes
  sparseIndex : List (Bytes × ℕ)
  indexStart : ℕ
  minKey : Bytes
  maxKey : Bytes
  filter : BloomFilter
  deriving DecidableEq, Repr

/-- A length-prefixed byte string.  The cast to `u32` truncates. -/
def prefixed (bytes : Bytes) : Bytes :=
  toLeBytes 4 bytes.length ++ bytes

/-- `read_prefixed`. -/
def readPrefixed (reader : Bytes) : Result (Bytes × Bytes) := do
  let (lenBuf, reader) ← readExact 4 reader
  readExact (fromLeBytes lenBuf) reader

/-- The value bytes and the op byte of an entry. -/
def valueBytes : Option Bytes → Bytes
  | some v => v
  | none => []

def opType : Option Bytes → UInt8
  | some _ => 0
  | none => 1

/-- One record of the data region. -/
def encodeEntry (e : Entry) : Bytes :=
  prefixed e.1 ++ (prefixed (valueBytes e.2) ++ [opType e.2])

/-! ## Writing -/

/-- The variables of the loop in `write_table`. -/
structure TableWriter where
  data : Bytes
  sparseIndex : List (Bytes × ℕ)
  filter : BloomFilter
  minKey : Bytes
  maxKey : Bytes
  currentOffset : ℕ
  blockStart : ℕ

/-- One turn of the loop in `write_table`. -/
def TableWriter.push (w : TableWriter) (e : Entry) :
    Result TableWriter := do
  let filter ← w.filter.insert (hash64 e.1)
  let offset := w.currentOffset + (9 + e.1.length + (valueBytes e.2).length)
  return {
    data := w.data ++ encodeEntry e
    sparseIndex :=
      if w.blockStart = w.currentOffset then
        w.sparseIndex ++ [(e.1, w.currentOffset)]
      else w.sparseIndex
    filter
    minKey := if w.currentOffset = 0 then e.1 else w.minKey
    maxKey := e.1
    currentOffset := offset
    blockStart :=
      if blockSize ≤ offset - w.blockStart then offset else w.blockStart }

def TableWriter.pushAll : TableWriter → List Entry → Result TableWriter
  | w, [] => .ok w
  | w, e :: entries => do
    let w ← w.push e
    pushAll w entries

/-- The sparse index block. -/
def indexBytes (sparseIndex : List (Bytes × ℕ)) : Bytes :=
  sparseIndex.flatMap fun p => prefixed p.1 ++ toLeBytes 8 p.2

/-- `filter_start_offset`, which the loop over the sparse index moves on by
what it takes an entry to be. -/
def filterStartOffset : ℕ → List (Bytes × ℕ) → ℕ
  | offset, [] => offset
  | offset, p :: sparseIndex =>
    filterStartOffset (offset + (4 + p.1.length + 8)) sparseIndex

/-- The filter block. -/
def filterBytes (f : BloomFilter) : Bytes :=
  toLeBytes 8 f.numBits ++ (toLeBytes 4 f.numProbes ++
    f.bits.flatMap fun word => toLeBytes 8 word.toNat)

/-- The metadata block. -/
def metaBytes (minKey maxKey : Bytes) : Bytes :=
  prefixed minKey ++ prefixed maxKey

def trailerBytes (indexStart filterStart metaStart : ℕ) : Bytes :=
  toLeBytes 8 indexStart ++ (toLeBytes 8 filterStart ++
    (toLeBytes 8 metaStart ++ (magic ++ [formatVersion, 0])))

/-- `SSTableSet::write_table` up to the rename: the bytes of the file and the
table that reads them.  A file that would grow past the largest offset fails
with an I/O error. -/
def writeTable (bitsPerKey numKeys : ℕ) (entries : List Entry) :
    Result (Bytes × SSTable) := do
  let filter ← BloomFilter.new numKeys bitsPerKey
  let w ← TableWriter.pushAll ⟨[], [], filter, [], [], 0, 0⟩ entries
  let indexStart := w.currentOffset
  let filterStart := filterStartOffset indexStart w.sparseIndex
  let metaStart := filterStart + 12 + w.filter.bits.length * 8
  let file := w.data ++ (indexBytes w.sparseIndex ++
    (filterBytes w.filter ++ (metaBytes w.minKey w.maxKey ++
      trailerBytes indexStart filterStart metaStart)))
  if file.length ≤ maxFileSize then
    return (file,
      { file, sparseIndex := w.sparseIndex, indexStart,
        minKey := w.minKey, maxKey := w.maxKey, filter := w.filter })
  else
    .error (ioError .other (ascii "File too large (os error 27)"))

/-! ## Opening -/

/-- `seek(SeekFrom::Start(offset))`, giving what is read from there on. -/
def seekStart (file : Bytes) (offset : ℕ) : Result Bytes :=
  if offset ≤ maxFileSize then .ok (file.drop offset)
  else .error (ioError .invalidInput (ascii "Invalid argument (os error 22)"))

/-- The words of the filter block. -/
def readWords : ℕ → Bytes → Result (List UInt64)
  | 0, _ => .ok []
  | count + 1, reader => do
    let (wordBuf, reader) ← readExact 8 reader
    let words ← readWords count reader
    return UInt64.ofNat (fromLeBytes wordBuf) :: words

/-- The loop that reads the sparse index block. -/
def readIndex (filterStart : ℕ) :
    ℕ → ℕ → Bytes → Result (List (Bytes × ℕ))
  | 0, _, _ => .ok []
  | turns + 1, pos, reader =>
    if pos < filterStart then do
      let (key, reader) ← readPrefixed reader
      let (offsetBuf, reader) ← readExact 8 reader
      let rest ← readIndex filterStart turns (pos + (4 + key.length + 8)) reader
      return (key, fromLeBytes offsetBuf) :: rest
    else .ok []

/-- The offsets a trailer gives. -/
structure Trailer where
  indexStart : ℕ
  filterStart : ℕ
  metaStart : ℕ
  deriving DecidableEq, Repr

/-- Read and check the trailer.  `path` is what error texts show. -/
def readTrailer (path file : Bytes) : Result Trailer :=
  let trailer := file.drop (file.length - trailerSize)
  let version := (trailer.drop 30).headD 0
  if file.length < trailerSize then
    .error (ioError .invalidInput (ascii "Invalid argument (os error 22)"))
  else if (trailer.drop 24).take 6 ≠ magic then
    .error (ioError .invalidData (path ++ ascii " is not an lsmrs SSTable"))
  else if version ≠ formatVersion then
    .error (ioError .invalidData (path ++
      (ascii " has SSTable format version " ++
        (Decimal.ofNat version.toNat ++ (ascii ", expected " ++
          Decimal.ofNat formatVersion.toNat)))))
  else
    .ok {
      indexStart := fromLeBytes (trailer.take 8)
      filterStart := fromLeBytes ((trailer.drop 8).take 8)
      metaStart := fromLeBytes ((trailer.drop 16).take 8) }

/-- Read the filter block.  There is memory for its words. -/
def readFilter (reader : Bytes) : Result BloomFilter := do
  let (header, reader) ← readExact 12 reader
  let numBits := fromLeBytes (header.take 8)
  let numProbes := fromLeBytes (header.drop 8)
  let words ← readWords (numBits / 64) reader
  return BloomFilter.fromParts words numBits numProbes

/-- `SSTable::open`. -/
def SSTable.open (path file : Bytes) : Result SSTable := do
  let trailer ← readTrailer path file
  let reader ← seekStart file trailer.metaStart
  let (minKey, reader) ← readPrefixed reader
  let (maxKey, _) ← readPrefixed reader
  let reader ← seekStart file trailer.filterStart
  let filter ← readFilter reader
  let reader ← seekStart file trailer.indexStart
  let sparseIndex ← readIndex trailer.filterStart (file.length + 1)
    trailer.indexStart reader
  return {
    file, sparseIndex, indexStart := trailer.indexStart, minKey, maxKey,
    filter }

/-! ## Reading -/

namespace SSTable

/-- Where the block with this index ends. -/
def blockEnd (t : SSTable) (block : ℕ) : ℕ :=
  match t.sparseIndex[block + 1]? with
  | some (_, next) => next
  | none => t.indexStart

/-- Read `[blockStart, blockEnd)` of the file.  A negative length, or one no
buffer can have, panics; for any other there is memory. -/
def readBlock (t : SSTable) (blockStart blockEnd : ℕ) : Result Bytes :=
  let len := blockEnd - blockStart
  if blockEnd < blockStart ∨ maxFileSize < len then .error .panic
  else if len = 0 then .ok []
  else do
    let reader ← seekStart t.file blockStart
    let (block, _) ← readExact len reader
    return block

/-- The fields of one record: key, value bytes, op byte, and what follows. -/
def readFields (reader : Bytes) :
    Result (Bytes × Bytes × UInt8 × Bytes) := do
  let (key, reader) ← readPrefixed reader
  let (value, reader) ← readPrefixed reader
  let (op, reader) ← readExact 1 reader
  return (key, value, op.headD 0, reader)

def invalidOpType : Failure :=
  ioError .invalidData (ascii "invalid op_type byte in SSTable record")

/-- The loop of `get` over one block. -/
def scanBlock (key : Bytes) (blockEnd : ℕ) :
    ℕ → ℕ → Bytes → Result (Option Found)
  | 0, _, _ => .ok none
  | turns + 1, pos, reader =>
    if pos < blockEnd then do
      let (recordKey, value, op, reader) ← readFields reader
      if recordKey < key then
        scanBlock key blockEnd turns
          (pos + (9 + recordKey.length + value.length)) reader
      else if key < recordKey then .ok none
      else if op = 0 then .ok (some (.value value))
      else if op = 1 then .ok (some .tombstone)
      else .error invalidOpType
    else .ok none

/-- `SSTable::get`. -/
def get (t : SSTable) (key : Bytes) (hash : UInt64) :
    Result (Option Found) := do
  if key < t.minKey ∨ t.maxKey < key then return none
  if !(← t.filter.contains hash) then return none
  let candidate := partitionPoint (fun p => decide (p.1 ≤ key)) t.sparseIndex
  match candidate with
  | 0 => return none
  | block + 1 =>
    match t.sparseIndex[block]? with
    | none => .error .panic
    | some (_, blockStart) =>
      let stop := t.blockEnd block
      let bytes ← t.readBlock blockStart stop
      scanBlock key stop (bytes.length + 1) blockStart bytes

/-- The records of one block, ending at the first error. -/
def blockRecords : ℕ → Bytes → List (Result Entry)
  | 0, _ => []
  | turns + 1, buf =>
    if buf = [] then []
    else match readFields buf with
      | .error e => [.error e]
      | .ok (key, value, op, rest) =>
        if op = 0 then .ok (key, some value) :: blockRecords turns rest
        else if op = 1 then .ok (key, none) :: blockRecords turns rest
        else [.error invalidOpType]

/-- Put the records of one block in front of those of the next ones, unless
they end with an error. -/
def andThen (records : List (Result Entry))
    (later : List (Result Entry)) : List (Result Entry) :=
  match records with
  | [] => later
  | .ok e :: records => .ok e :: andThen records later
  | .error e :: _ => [.error e]

/-- The records of `count` blocks from this one on. -/
def recordsFrom (t : SSTable) : ℕ → ℕ → List (Result Entry)
  | 0, _ => []
  | count + 1, block =>
    match t.sparseIndex[block]? with
    | none => []
    | some (_, blockStart) =>
      match t.readBlock blockStart (t.blockEnd block) with
      | .error e => [.error e]
      | .ok buf =>
        andThen (blockRecords buf.length buf) (t.recordsFrom count (block + 1))

/-- `records`: the items of the iterator up to the first error, where every
caller stops. -/
def records (t : SSTable) : List (Result Entry) :=
  t.recordsFrom t.sparseIndex.length 0

end SSTable

end Lsmrs
