import Lsmrs.Sstable.Merge
import Lsmrs.Sstable.Names
import Mathlib.Data.List.Sort
import Mathlib.Data.Prod.Lex

/-!
# The set of tables

`SSTableSet`: the list of open tables over a directory, opening it, and the
steps that `write` and `compact` are made of.  A directory is its file names
with their contents; reading it lists the names in any order.

How one table is stored and read is a parameter, so that the same steps run
on the bytes of the real format and on plain lists of records.
-/

namespace Lsmrs

open ByteString OrderedMap

/-! ## Formats -/

/-- The operations on one table file. -/
structure TableFormat where
  File : Type
  Table : Type
  writeTable : ℕ → List Entry → Result (File × Table)
  openTable : Bytes → File → Result Table
  get : Table → Bytes → Result (Option Found)
  records : Table → RecordStream

/-- The format of the source. -/
@[reducible] def byteTables : TableFormat where
  File := Bytes
  Table := SSTable
  writeTable bitsPerKey entries :=
    writeTable bitsPerKey entries.length entries
  openTable := SSTable.open
  get t key := t.get key (hash64 key)
  records := SSTable.records

/-- Files that are their lists of records. -/
@[reducible] def listTables : TableFormat where
  File := List Entry
  Table := List Entry
  writeTable _ entries := .ok (entries, entries)
  openTable _ entries := .ok entries
  get entries key := .ok ((find entries key).map Found.ofValue)
  records := streamOf

/-- The files of a directory by name. -/
abbrev Dir (F : TableFormat) := OrderedMap Bytes F.File

/-- A table in the list of a set. -/
structure Listed (F : TableFormat) where
  path : Bytes
  span : Span
  table : F.Table

structure SSTableSet (F : TableFormat) where
  sstables : List (Listed F)
  dirPath : Bytes
  bitsPerKey : ℕ
  nextSeq : ℕ

variable {F : TableFormat}

/-- `Path::join`, for error texts. -/
def joinPath (dirPath name : Bytes) : Bytes :=
  if dirPath = [] ∨ dirPath.getLast? = some 47 then dirPath ++ name
  else dirPath ++ 47 :: name

/-! ## Opening a directory -/

def IsSst (name : Bytes) : Prop :=
  extension name = some (ascii "sst")

def IsTmp (name : Bytes) : Prop :=
  extension name = some (ascii "tmp")

instance (name : Bytes) : Decidable (IsSst name) := by
  unfold IsSst
  infer_instance

instance (name : Bytes) : Decidable (IsTmp name) := by
  unfold IsTmp
  infer_instance

/-- The loop over the directory's entries. -/
def scanDir (dirPath : Bytes) :
    List Bytes → Dir F → Result (List (Span × Bytes)) × Dir F
  | [], dir => (.ok [], dir)
  | name :: listing, dir =>
    if IsSst name then
      match parseSpan name with
      | some span =>
        let (spans, dir) := scanDir dirPath listing dir
        (spans.map ((span, name) :: ·), dir)
      | none =>
        (.error (ioError .invalidData (joinPath dirPath name ++
          ascii " does not follow the SSTable naming scheme")), dir)
    else if IsTmp name then scanDir dirPath listing (dir.erase name)
    else scanDir dirPath listing dir

/-- What `spans.sort()` compares. -/
def spanKey (p : Span × Bytes) : ℕ ×ₗ (ℕ ×ₗ Bytes) :=
  toLex (p.1.first, toLex (p.1.last, p.2))

/-- `spans.sort()`. -/
def sortSpans (spans : List (Span × Bytes)) : List (Span × Bytes) :=
  spans.insertionSort fun a b => spanKey a ≤ spanKey b

/-- One more than the largest sequence number.  The addition must not
overflow. -/
def nextSeqOf (spans : List (Span × Bytes)) : Result ℕ :=
  if spans.any fun p => p.1.last = u64Max then .error .panic
  else .ok (spans.foldl (fun n p => max n (p.1.last + 1)) 0)

/-- Another span contains this one. -/
def superseded (spans : List (Span × Bytes)) (i : ℕ) (s : Span) : Bool :=
  spans.zipIdx.any fun p => decide (p.2 ≠ i ∧ s.Within p.1.1)

/-- The loop that opens the tables and removes the superseded ones. -/
def openSpans (dirPath : Bytes) (spans : List (Span × Bytes)) :
    List ((Span × Bytes) × ℕ) → Dir F → Result (List (Listed F)) × Dir F
  | [], dir => (.ok [], dir)
  | ((span, path), i) :: rest, dir =>
    if superseded spans i span then
      openSpans dirPath spans rest (dir.erase path)
    else
      match dir.get? path with
      | none =>
        (.error (ioError .other
          (ascii "No such file or directory (os error 2)")), dir)
      | some file =>
        match F.openTable (joinPath dirPath path) file with
        | .error e => (.error e, dir)
        | .ok table =>
          let (tables, dir) := openSpans dirPath spans rest dir
          (tables.map (⟨path, span, table⟩ :: ·), dir)

/-- `SSTableSet::open`; `listing` is the order in which the directory is
read. -/
def SSTableSet.open (dirPath : Bytes) (bitsPerKey : ℕ)
    (listing : List Bytes) (dir : Dir F) :
    Result (SSTableSet F) × Dir F :=
  match scanDir dirPath listing dir with
  | (.error e, dir) => (.error e, dir)
  | (.ok spans, dir) =>
    let spans := sortSpans spans
    match nextSeqOf spans with
    | .error e => (.error e, dir)
    | .ok nextSeq =>
      match openSpans dirPath spans spans.zipIdx dir with
      | (.error e, dir) => (.error e, dir)
      | (.ok sstables, dir) =>
        (.ok { sstables, dirPath, bitsPerKey, nextSeq }, dir)

/-- The files `SSTableSet::open` removes, in order: the temporary ones as
they are listed, then the superseded ones as they are sorted. -/
def openRemovals (listing : List Bytes) : List Bytes :=
  let spans := sortSpans (listing.filterMap fun name =>
    if IsSst name then (parseSpan name).map fun span => (span, name)
    else none)
  let tmps := listing.filter fun name => ¬ IsSst name ∧ IsTmp name
  match nextSeqOf spans with
  | .ok _ =>
    tmps ++ (spans.zipIdx.filter fun p => superseded spans p.2 p.1.1).map
      fun p => p.1.2
  | .error _ => tmps

def removeAll (dir : Dir F) (names : List Bytes) : Dir F :=
  names.foldl (fun dir name => dir.erase name) dir

/-! ## Looking up -/

/-- The loop of `get` over the tables, newest first. -/
def getFrom (key : Bytes) : List (Listed F) → Result (Option Bytes)
  | [] => .ok none
  | sstable :: older => do
    match ← F.get sstable.table key with
    | some (.value value) => return some value
    | some .tombstone => return none
    | none => getFrom key older

/-- `SSTableSet::get`. -/
def SSTableSet.get (set : SSTableSet F) (key : Bytes) :
    Result (Option Bytes) :=
  getFrom key set.sstables.reverse

/-! ## The steps of `write` and `compact` -/

/-- Leave a synced `.tmp` file behind. -/
def createTmp (dir : Dir F) (span : Span) (file : F.File) : Dir F :=
  dir.insert (tmpName span) file

/-- The rename in `publish`. -/
def publish (dir : Dir F) (span : Span) : Dir F :=
  match dir.get? (tmpName span) with
  | some file => (dir.erase (tmpName span)).insert (tableName span) file
  | none => dir

/-- The table `write_table` returns for a span. -/
def listedAt (span : Span) (table : F.Table) : Listed F :=
  ⟨tableName span, span, table⟩

/-- The end of `write`: advance `next_seq` and push the table. -/
def SSTableSet.register (set : SSTableSet F) (seq : ℕ) (table : F.Table) :
    SSTableSet F :=
  { set with
    nextSeq := seq + 1
    sstables := set.sstables ++ [listedAt ⟨seq, seq⟩ table] }

/-- `tables[start..start + count]`. -/
def runOf (tables : List (Listed F)) (start count : ℕ) : List (Listed F) :=
  (tables.drop start).take count

/-- The span of a run: from the first sequence number of its first table to
the last one of its last table. -/
def runSpan (run : List (Listed F)) : Span :=
  ⟨(run.head?.map fun t => t.span.first).getD 0,
    (run.getLast?.map fun t => t.span.last).getD 0⟩

/-- The merge of a run.  Only the oldest run may drop tombstones. -/
def mergeRun (run : List (Listed F)) (start : ℕ) : Result (List Entry) :=
  merge (run.map fun t => F.records t.table) (start == 0)

/-- The list after `splice(start..start + count, replacement)`. -/
def spliced (tables : List (Listed F)) (start count : ℕ)
    (replacement : Option (Listed F)) : List (Listed F) :=
  tables.take start ++ (replacement.toList ++ tables.drop (start + count))

example : sortSpans [(⟨2, 2⟩, [2]), (⟨0, 1⟩, [0]), (⟨0, 0⟩, [1])] =
    [(⟨0, 0⟩, [1]), (⟨0, 1⟩, [0]), (⟨2, 2⟩, [2])] := by
  decide +kernel

end Lsmrs
