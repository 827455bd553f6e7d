import Lsmrs.Sstable.Set
import Lsmrs.Wal.Log

/-!
# The database

`Db` over its log and its tables, as a machine that takes one small step at a
time: the thread inside `put` or `delete`, the compactor thread, crashes and
reopenings interleave in any order.  A step is as much as happens between two
points where a crash or the other thread can be seen.
-/

namespace Lsmrs

open ByteString

/-! ## Storage -/

/-- The operations on one table file and on the log. -/
structure Format extends TableFormat where
  Log : Type
  emptyLog : Log
  append : Log → Mutation → Log
  /-- The log after a `write_all` of a record that stopped early. -/
  torn : Log → Mutation → ℕ → Log
  replay : Log → Result (List Record)

/-- The formats of the source. -/
@[reducible] def byteFormat (hash : Bytes → UInt32) : Format where
  toTableFormat := byteTables
  Log := Bytes
  emptyLog := []
  append log m := ((Wal.open log true).log hash m .ok).2.file
  torn log m written :=
    ((Wal.open log true).log hash m (.writeFails written ⟨.other, []⟩)).2.file
  replay := replay hash

/-- A log that is its list of records, with tables that are theirs. -/
@[reducible] def listFormat : Format where
  toTableFormat := listTables
  Log := List Record
  emptyLog := []
  append log m := log ++ [m.record]
  torn log _ _ := log
  replay := .ok

/-- What a crash leaves: `wal.log` and the other files of the directory. -/
structure Disk (F : Format) where
  log : F.Log
  dir : Dir F.toTableFormat

/-- An empty directory. -/
def Disk.empty (F : Format) : Disk F := ⟨F.emptyLog, OrderedMap.empty⟩

structure Config where
  path : Bytes
  sync : Bool
  tableSize : ℕ
  bitsPerKey : ℕ
  compactionThreshold : ℕ
  compactionSizeRatio : ℚ
  deriving DecidableEq

/-- `Config::default`. -/
def Config.default : Config where
  path := ascii "data"
  sync := true
  tableSize := 4096 * 1024
  bitsPerKey := 10
  compactionThreshold := 4
  compactionSizeRatio := 3 / 2

/-! ## The memtable -/

/-- Keys with their values, or with `none` where they were deleted. -/
abbrev Memtable := OrderedMap Bytes (Option Bytes)

def Mutation.key : Mutation → Bytes
  | .insert key _ => key
  | .delete key => key

/-- What a mutation stores under its key. -/
def Mutation.value : Mutation → Option Bytes
  | .insert _ value => some value
  | .delete _ => none

/-- What `put` and `delete` add to `size`. -/
def Mutation.bytes : Mutation → ℕ
  | .insert key value => key.length + value.length
  | .delete key => key.length

/-- One turn of the replay loop in `with_config`. -/
def replayRecord (map : Memtable) (r : Record) : Memtable :=
  match r.operation with
  | .insert => map.insert r.key (some r.value)
  | .delete => map.insert r.key none

structure Db (F : Format) where
  map : Memtable
  size : ℕ
  config : Config
  sstableSet : SSTableSet F.toTableFormat

variable {F : Format}

/-- `Db::with_config` on a directory; `listing` is the order in which it is
read. -/
def Db.withConfig (config : Config) (listing : List Bytes) (disk : Disk F) :
    Result (Db F) × Disk F :=
  match F.replay disk.log with
  | .error e => (.error e, disk)
  | .ok records =>
    match SSTableSet.open config.path config.bitsPerKey listing disk.dir with
    | (.error e, dir) => (.error e, { disk with dir })
    | (.ok sstableSet, dir) =>
      (.ok {
        map := records.foldl replayRecord OrderedMap.empty
        size := 0
        config
        sstableSet }, { disk with dir })

/-- `Db::get`.  Nothing it reads changes once the list of tables is
cloned. -/
def Db.get (db : Db F) (key : Bytes) : Result (Option Bytes) :=
  match db.map.get? key with
  | some entry => .ok entry
  | none => db.sstableSet.get key

/-- `Db::scan`. -/
def Db.scan (db : Db F) : List (Bytes × Bytes) :=
  db.map.entries.filterMap fun e => e.2.map fun value => (e.1, value)

/-- The middle of `put` and `delete`: the record is logged, and goes into
the memtable. -/
def Db.apply (db : Db F) (m : Mutation) : Db F :=
  { db with
    size := db.size + m.bytes
    map := db.map.insert m.key m.value }

/-! ## Threads -/

/-- Where the thread that calls `put` and `delete` stands. -/
inductive Writer (F : Format) where
  | idle
  | logged (m : Mutation)
  | flushing
  | created (seq : ℕ) (table : F.Table)
  | published (seq : ℕ) (table : F.Table)
  | registered

/-- Where the compactor thread stands inside `compact`. -/
inductive Compactor (F : Format) where
  | idle
  | begun (run : List (Listed F.toTableFormat)) (start count : ℕ)
  | merged (start count : ℕ) (span : Span) (entries : List Entry)
  | created (start count : ℕ) (span : Span) (table : F.Table)
  | ready (start count : ℕ)
      (replacement : Option (Listed F.toTableFormat))
  | unlinking (obsolete : List (Listed F.toTableFormat))

/-- An open database with its two threads. -/
structure Process (F : Format) where
  db : Db F
  writer : Writer F
  compactor : Compactor F

/-- Where the append to the log fails. -/
inductive AppendFault where
  | writeAll (written : ℕ)
  | syncData
  deriving DecidableEq, Repr

/-- Where a flush fails: before the `.tmp` file is whole, which may leave
something under its name; at the rename; after it; or at the truncation,
which may have taken effect. -/
inductive FlushFault (F : Format) where
  | create (left : Option F.File)
  | rename
  | afterRename
  | truncate (effective : Bool)

inductive WriteStep (F : Format) where
  | append (m : Mutation)
  | appendFails (m : Mutation) (fault : AppendFault)
  | apply
  | create
  | rename
  | register
  | truncate
  | flushFails (fault : FlushFault F)

inductive CompactStep where
  | begin (start count : ℕ)
  | merge
  | create
  | rename
  | swap
  | unlink
  deriving DecidableEq, Repr

/-- A step of `put` or `delete`.  A call that fails goes back to `idle` with
whatever it did before. -/
def Process.writeStep (p : Process F) (disk : Disk F) :
    WriteStep F → Option (Disk F × Process F)
  | .append m =>
    match p.writer with
    | .idle =>
      some ({ disk with log := F.append disk.log m },
        { p with writer := .logged m })
    | _ => none
  | .appendFails m (.writeAll written) =>
    match p.writer with
    | .idle => some ({ disk with log := F.torn disk.log m written }, p)
    | _ => none
  | .appendFails m .syncData =>
    match p.writer with
    | .idle =>
      if p.db.config.sync then
        some ({ disk with log := F.append disk.log m }, p)
      else none
    | _ => none
  | .apply =>
    match p.writer with
    | .logged m =>
      let db := p.db.apply m
      some (disk, { p with
        db
        writer := if db.config.tableSize < db.size then .flushing else .idle })
    | _ => none
  | .create =>
    match p.writer with
    | .flushing =>
      let seq := p.db.sstableSet.nextSeq
      if p.db.map.entries = [] then
        some (disk, { p with writer := .registered })
      else
        match F.writeTable p.db.sstableSet.bitsPerKey p.db.map.entries with
        | .ok (file, table) =>
          some ({ disk with dir := createTmp disk.dir ⟨seq, seq⟩ file },
            { p with writer := .created seq table })
        | .error _ => none
    | _ => none
  | .rename =>
    match p.writer with
    | .created seq table =>
      some ({ disk with dir := publish disk.dir ⟨seq, seq⟩ },
        { p with writer := .published seq table })
    | _ => none
  | .register =>
    match p.writer with
    | .published seq table =>
      -- `seq + 1` must fit its `u64`.
      if seq < u64Max then
        some (disk, { p with
          db := { p.db with
            map := OrderedMap.empty
            sstableSet := p.db.sstableSet.register seq table }
          writer := .registered })
      else none
    | _ => none
  | .truncate =>
    match p.writer with
    | .registered =>
      some ({ disk with log := F.emptyLog },
        { p with db := { p.db with size := 0 }, writer := .idle })
    | _ => none
  | .flushFails (.create left) =>
    match p.writer with
    | .flushing =>
      let seq := p.db.sstableSet.nextSeq
      some (match left with
        | some file =>
          { disk with dir := createTmp disk.dir ⟨seq, seq⟩ file }
        | none => disk, { p with writer := .idle })
    | _ => none
  | .flushFails .rename =>
    match p.writer with
    | .created _ _ => some (disk, { p with writer := .idle })
    | _ => none
  | .flushFails .afterRename =>
    match p.writer with
    | .published _ _ => some (disk, { p with writer := .idle })
    | _ => none
  | .flushFails (.truncate effective) =>
    match p.writer with
    | .registered =>
      some ({ disk with log := if effective then F.emptyLog else disk.log },
        { p with writer := .idle })
    | _ => none

/-- A step of `compact` in which no I/O fails.  The list of tables may have
grown since the snapshot the run was taken from. -/
def Process.compactStep (p : Process F) (disk : Disk F) :
    CompactStep → Option (Disk F × Process F)
  | .begin start count =>
    match p.compactor with
    | .idle =>
      let tables := p.db.sstableSet.sstables
      if 2 ≤ count ∧ start + count ≤ tables.length then
        some (disk, { p with
          compactor := .begun (runOf tables start count) start count })
      else none
    | _ => none
  | .merge =>
    match p.compactor with
    | .begun run start count =>
      match mergeRun run start with
      | .ok entries =>
        some (disk, { p with
          compactor :=
            if entries = [] then .ready start count none
            else .merged start count (runSpan run) entries })
      | .error _ => some (disk, { p with compactor := .idle })
    | _ => none
  | .create =>
    match p.compactor with
    | .merged start count span entries =>
      match F.writeTable p.db.sstableSet.bitsPerKey entries with
      | .ok (file, table) =>
        some ({ disk with dir := createTmp disk.dir span file },
          { p with compactor := .created start count span table })
      | .error _ => none
    | _ => none
  | .rename =>
    match p.compactor with
    | .created start count span table =>
      some ({ disk with dir := publish disk.dir span },
        { p with
          compactor := .ready start count (some (listedAt span table)) })
    | _ => none
  | .swap =>
    match p.compactor with
    | .ready start count replacement =>
      let tables := p.db.sstableSet.sstables
      if start + count ≤ tables.length then
        some (disk, { p with
          db := { p.db with
            sstableSet := { p.db.sstableSet with
              sstables := spliced tables start count replacement } }
          compactor := .unlinking (runOf tables start count) })
      else none
    | _ => none
  | .unlink =>
    match p.compactor with
    | .unlinking (table :: obsolete) =>
      some ({ disk with dir := disk.dir.erase table.path },
        { p with compactor := .unlinking obsolete })
    | .unlinking [] => some (disk, { p with compactor := .idle })
    | _ => none

/-- The directory after an error inside `compact`: reading an input, before
the `.tmp` file is whole, which may leave something under its name, at the
rename, between it and the swap, or at a `remove_file`. -/
def Process.failed (p : Process F) (disk : Disk F)
    (left : Option F.File) : Option (Disk F) :=
  match p.compactor with
  | .begun _ _ _ => some disk
  | .merged _ _ span _ =>
    match left with
    | some file => some { disk with dir := createTmp disk.dir span file }
    | none => some disk
  | .created _ _ _ _ => some disk
  | .ready _ _ (some _) => some disk
  | .unlinking (_ :: _) => some disk
  | _ => none

/-! ## The machine -/

/-- The directory, and the process that has it open. -/
structure State (F : Format) where
  disk : Disk F
  process : Option (Process F)

/-- Nothing has been opened yet. -/
def State.initial (F : Format) : State F := ⟨Disk.empty F, none⟩

inductive Label (F : Format) where
  | write (step : WriteStep F)
  | compact (step : CompactStep)
  /-- `compact` returns an error, which may leave part of a file. -/
  | compactFails (left : Option F.File)
  | crash
  /-- A reopening that stops after some of its own removals. -/
  | crashInOpen (listing : List Bytes) (removed : ℕ)
  | recover (config : Config) (listing : List Bytes)

def State.step (s : State F) : Label F → Option (State F)
  | .write l => do
    let p ← s.process
    let (disk, p) ← p.writeStep s.disk l
    return ⟨disk, some p⟩
  | .compact l => do
    let p ← s.process
    let (disk, p) ← p.compactStep s.disk l
    return ⟨disk, some p⟩
  | .compactFails left => do
    let p ← s.process
    let disk ← p.failed s.disk left
    return ⟨disk, some { p with compactor := .idle }⟩
  | .crash =>
    match s.process with
    | some _ => some ⟨s.disk, none⟩
    | none => none
  | .crashInOpen listing removed =>
    match s.process, F.replay s.disk.log with
    | none, .ok _ =>
      if listing.Perm s.disk.dir.keys then
        some ⟨{ s.disk with
          dir := removeAll s.disk.dir ((openRemovals listing).take removed) },
          none⟩
      else none
    | _, _ => none
  | .recover config listing =>
    match s.process with
    | some _ => none
    | none =>
      if listing.Perm s.disk.dir.keys then
        match Db.withConfig config listing s.disk with
        | (.ok db, disk) => some ⟨disk, some ⟨db, .idle, .idle⟩⟩
        | (.error _, disk) => some ⟨disk, none⟩
      else none

/-- A run of the machine. -/
def State.exec (s : State F) : List (Label F) → Option (State F)
  | [] => some s
  | l :: labels => (s.step l).bind fun s => s.exec labels

/-- The mutation whose append to the log a step completes. -/
def Label.logged : Label F → Option Mutation
  | .write (.append m) => some m
  | _ => none

/-- The mutations a run logs, in order. -/
def history (labels : List (Label F)) : List Mutation :=
  labels.filterMap Label.logged

/-! ## The plain map -/

def Mutation.applyTo (m : Mutation) (map : Bytes → Option Bytes) :
    Bytes → Option Bytes :=
  Function.update map m.key m.value

/-- The map the database stands for after a sequence of mutations. -/
def plainMap (ms : List Mutation) : Bytes → Option Bytes :=
  ms.foldl (fun map m => m.applyTo map) fun _ => none

end Lsmrs
