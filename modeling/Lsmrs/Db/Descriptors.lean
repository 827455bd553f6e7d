import Lsmrs.Db.CompactorThread
import Lsmrs.Support.Inodes

/-!
# Tables behind descriptors

`SSTableSet` on the files of the system.  A table that is open is a
descriptor and what was read into memory with it; a table that is written
goes to its temporary file piece by piece, is renamed, and then opened under
its final name.  Readers hold on to the tables of the lists they cloned, also
while `compact` unlinks these.
-/

namespace Lsmrs

open ByteString OrderedMap Inodes

/-- The directory of the tables. -/
abbrev TableFiles := Volume Bytes UInt8

/-- What the directory holds, by name. -/
def TableFiles.dir (files : TableFiles) : Dir byteTables :=
  files.files

/-- An `SSTable`.  The contents in `table` are those that the file had when
it was written or opened; nothing reads them. -/
structure OpenTable where
  path : Bytes
  span : Span
  inode : ℕ
  table : SSTable

namespace OpenTable

/-- The table as it was written or opened. -/
def opened (t : OpenTable) : Listed byteTables :=
  ⟨t.path, t.span, t.table⟩

/-- The table as its descriptor reads it. -/
def reads (t : OpenTable) (files : TableFiles) : Listed byteTables :=
  ⟨t.path, t.span, { t.table with file := files.data t.inode }⟩

/-- The table that `File::open` and the reading of the rest gave. -/
def ofListed (files : TableFiles) (t : Listed byteTables) : OpenTable :=
  ⟨t.path, t.span, (files.names.get? t.path).getD 0, t.table⟩

end OpenTable

/-! ## Writing a table -/

/-- Where a thread stands inside `write_table`: with part of the bytes still
to be written, behind the rename, or behind `File::open`. -/
inductive TableJob where
  | writing (span : Span) (inode : ℕ) (rest : Bytes) (table : SSTable)
  | renamed (span : Span) (table : SSTable)
  | opened (t : OpenTable)

/-- The next bytes go to the file; or it is renamed, or opened. -/
inductive JobStep where
  | write (count : ℕ)
  | rename
  | open
  deriving DecidableEq, Repr

/-- `File::create` at the start of `write_table`. -/
def TableJob.create (files : TableFiles) (bitsPerKey : ℕ) (span : Span)
    (entries : List Entry) : Option (TableFiles × TableJob) :=
  match byteTables.writeTable bitsPerKey entries with
  | .ok (file, table) =>
    let created := files.create (tmpName span)
    some (created.2, .writing span created.1 file table)
  | .error _ => none

def TableJob.step (files : TableFiles) :
    TableJob → JobStep → Option (TableFiles × TableJob)
  | .writing span inode rest table, .write count =>
    some (files.append inode (rest.take count),
      .writing span inode (rest.drop count) table)
  | .writing span _ [] table, .rename =>
    some (files.rename (tmpName span) (tableName span),
      .renamed span table)
  | .renamed span table, .open =>
    match files.names.get? (tableName span) with
    | some inode =>
      some (files, .opened ⟨tableName span, span, inode, table⟩)
    | none => none
  | _, _ => none

/-! ## The set -/

/-- Where the compactor thread stands inside `compact`. -/
inductive Merging where
  | idle
  | begun (run : List OpenTable) (start count : ℕ)
  | merged (start count : ℕ) (span : Span) (entries : List Entry)
  | mergedAway (start count : ℕ)
  | writing (start count : ℕ) (job : TableJob)
  | unlinking (obsolete : List OpenTable)

/-- An open set with the calls in progress, and the lists that readers have
cloned. -/
structure Mount where
  files : TableFiles
  tables : List OpenTable
  dirPath : Bytes
  bitsPerKey : ℕ
  nextSeq : ℕ
  flush : Option TableJob
  compactor : Merging
  snapshots : List (List OpenTable)

inductive MountStep where
  | create (memtable : OrderedMap Bytes (Option Bytes))
  | flush (l : JobStep)
  | register
  | flushFails
  | begin (start count : ℕ)
  | merge
  | createMerged
  | work (l : JobStep)
  | swap
  | unlink
  | compactFails
  | clone
  | release (reader : ℕ)

namespace Mount

/-- The end of `compact` up to the removals: the run is replaced in the
list. -/
def replace (s : Mount) (start count : ℕ)
    (replacement : Option OpenTable) : Option Mount :=
  if start + count ≤ s.tables.length then
    some { s with
      tables := s.tables.take start ++
        (replacement.toList ++ s.tables.drop (start + count))
      compactor := .unlinking ((s.tables.drop start).take count) }
  else none

def step (s : Mount) : MountStep → Option Mount
  | .create memtable =>
    match s.flush with
    | none =>
      if memtable.entries = [] then some s
      else
        (TableJob.create s.files s.bitsPerKey ⟨s.nextSeq, s.nextSeq⟩
          memtable.entries).map fun (files, job) =>
            { s with files, flush := some job }
    | _ => none
  | .flush l =>
    match s.flush with
    | some job =>
      (job.step s.files l).map fun (files, job) =>
        { s with files, flush := some job }
    | none => none
  | .register =>
    match s.flush with
    | some (.opened t) =>
      -- `seq + 1` must fit its `u64`.
      if t.span.first < u64Max then
        some { s with
          tables := s.tables ++ [t]
          nextSeq := t.span.first + 1
          flush := none }
      else none
    | _ => none
  | .flushFails =>
    match s.flush with
    | some _ => some { s with flush := none }
    | none => none
  | .begin start count =>
    match s.compactor with
    | .idle =>
      if 2 ≤ count ∧ start + count ≤ s.tables.length then
        some { s with
          compactor := .begun ((s.tables.drop start).take count) start
            count }
      else none
    | _ => none
  | .merge =>
    match s.compactor with
    | .begun run start count =>
      match mergeRun (run.map fun t => t.reads s.files) start with
      | .ok entries =>
        some { s with
          compactor :=
            if entries = [] then .mergedAway start count
            else .merged start count (runSpan (run.map OpenTable.opened))
              entries }
      | .error _ => some { s with compactor := .idle }
    | _ => none
  | .createMerged =>
    match s.compactor with
    | .merged start count span entries =>
      (TableJob.create s.files s.bitsPerKey span entries).map
        fun (files, job) =>
          { s with files, compactor := .writing start count job }
    | _ => none
  | .work l =>
    match s.compactor with
    | .writing start count job =>
      (job.step s.files l).map fun (files, job) =>
        { s with files, compactor := .writing start count job }
    | _ => none
  | .swap =>
    match s.compactor with
    | .writing start count (.opened t) => s.replace start count (some t)
    | .mergedAway start count => s.replace start count none
    | _ => none
  | .unlink =>
    match s.compactor with
    | .unlinking (t :: obsolete) =>
      some { s with
        files := s.files.unlink t.path
        compactor := .unlinking obsolete }
    | .unlinking [] => some { s with compactor := .idle }
    | _ => none
  | .compactFails =>
    match s.compactor with
    | .begun _ _ _ => some { s with compactor := .idle }
    | .merged _ _ _ _ => some { s with compactor := .idle }
    | .writing _ _ _ => some { s with compactor := .idle }
    | .unlinking (_ :: _) => some { s with compactor := .idle }
    | _ => none
  | .clone => some { s with snapshots := s.snapshots ++ [s.tables] }
  | .release reader =>
    some { s with snapshots := s.snapshots.eraseIdx reader }

def exec (s : Mount) : List MountStep → Option Mount
  | [] => some s
  | l :: steps => (s.step l).bind fun s => s.exec steps

/-- The tables that somebody has open. -/
def held (s : Mount) : List OpenTable :=
  s.tables ++ (s.snapshots.flatten ++
    ((match s.flush with
      | some (.opened t) => [t]
      | _ => []) ++
    match s.compactor with
      | .begun run _ _ => run
      | .writing _ _ (.opened t) => [t]
      | .unlinking obsolete => obsolete
      | _ => []))

end Mount

/-- `SSTableSet::open`, which leaves some of the names. -/
def Mount.open (files : TableFiles) (dirPath : Bytes) (bitsPerKey : ℕ)
    (listing : List Bytes) : Option Mount :=
  if listing.Perm files.dir.keys then
    match SSTableSet.open dirPath bitsPerKey listing files.dir with
    | (.ok set, dir) =>
      some {
        files := files.keep fun name => (dir.get? name).isSome
        tables := set.sstables.map (OpenTable.ofListed files)
        dirPath, bitsPerKey, nextSeq := set.nextSeq
        flush := none, compactor := .idle, snapshots := [] }
    | (.error _, _) => none
  else none

end Lsmrs
