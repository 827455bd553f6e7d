import Lsmrs.Error

/-!
# The write-ahead log

The record format of `wal.rs`, appending to the log and reading it back.  A
log file is its bytes: it is opened in append mode, so every write lands at
the end whatever was read before.  `crc32fast::hash` is a parameter; the
checksum it stands for is `crc32`.
-/

namespace Lsmrs

open ByteString

/-! ## The checksum -/

/-- One bit of the reflected CRC-32 division. -/
def crc32Bit (crc : UInt32) : UInt32 :=
  if crc &&& 1 = 1 then (crc >>> 1) ^^^ 0xEDB88320 else crc >>> 1

def crc32Byte (crc : UInt32) (byte : UInt8) : UInt32 :=
  Nat.iterate crc32Bit 8 (crc ^^^ byte.toUInt32)

/-- CRC-32 (IEEE, reflected), what `crc32fast::hash` computes. -/
def crc32 (bytes : Bytes) : UInt32 :=
  ~~~ bytes.foldl crc32Byte 0xFFFFFFFF

example : crc32 (ascii "123456789") = 0xCBF43926 := by
  decide +kernel

/-! ## Records -/

/-- `CRC_SIZE`: the checksum's share of a record's `length`. -/
def crcSize : ℕ := 4

inductive Operation where
  | insert
  | delete
  deriving DecidableEq, Repr

/-- `impl From<Operation> for u8`. -/
def Operation.toU8 : Operation → UInt8
  | .insert => 0
  | .delete => 1

/-- `impl TryFrom<u8> for Operation`. -/
def Operation.tryFrom (value : UInt8) : Result Operation :=
  if value = 0 then .ok .insert
  else if value = 1 then .ok .delete
  else .error (ioError .invalidData (ascii "Invalid operation byte"))

structure Record where
  key : Bytes
  value : Bytes
  operation : Operation
  deriving DecidableEq, Repr

/-- The checksummed part of a record. -/
def payload (key value : Bytes) (operation : Operation) : Bytes :=
  toLeBytes 4 key.length ++ (key ++ (toLeBytes 4 value.length ++
    (value ++ [operation.toU8])))

/-- `Wal::create_body`.  The casts to `u32` truncate. -/
def createBody (hash : Bytes → UInt32)
    (key value : Bytes) (operation : Operation) : Bytes :=
  let payload := payload key value operation
  let checksum := hash payload
  let length := crcSize + payload.length
  toLeBytes 4 length ++ (toLeBytes 4 checksum.toNat ++ payload)

/-- The bytes a record occupies in the log. -/
def Record.encode (hash : Bytes → UInt32) (r : Record) : Bytes :=
  createBody hash r.key r.value r.operation

/-- The record's `length` field fits its `u32`. -/
def Record.Fits (r : Record) : Prop :=
  crcSize + (payload r.key r.value r.operation).length < 2 ^ 32

instance (r : Record) : Decidable r.Fits := by
  unfold Record.Fits
  infer_instance

/-- `Wal::parse_record`. -/
def parseRecord (payload : Bytes) : Result Record := do
  let keyLen := fromLeBytes (← slice payload 0 4)
  let key ← slice payload 4 (4 + keyLen)
  let valueLen := fromLeBytes
    (← slice payload (4 + keyLen) (4 + keyLen + 4))
  let value ← slice payload (4 + keyLen + 4) (4 + keyLen + 4 + valueLen)
  let operation ← Operation.tryFrom
    (← index payload (4 + keyLen + 4 + valueLen))
  return { key, value, operation }

/-! ## The log file -/

/-- An open log: the file's bytes and whether appends are synced. -/
structure Wal where
  file : Bytes
  sync : Bool
  deriving DecidableEq, Repr

/-- `Wal::open` on a log file with these bytes. -/
def Wal.open (file : Bytes) (sync : Bool) : Wal :=
  ⟨file, sync⟩

/-- What the operating system makes of one append.  A `write_all` that fails
has written a strict prefix of the record. -/
inductive AppendIo where
  | ok
  | writeFails (written : ℕ) (e : IoError)
  | syncFails (e : IoError)
  deriving DecidableEq, Repr

/-- `write_all` followed by the optional `sync_data`. -/
def Wal.append (wal : Wal) (body : Bytes) (io : AppendIo) :
    Result Unit × Wal :=
  match io with
  | .ok => (.ok (), { wal with file := wal.file ++ body })
  | .writeFails written e =>
      (.error (.io e), { wal with
        file := wal.file ++ body.take (min written (body.length - 1)) })
  | .syncFails e =>
      (if wal.sync then .error (.io e) else .ok (),
        { wal with file := wal.file ++ body })

/-- `Wal::insert`. -/
def Wal.insert (hash : Bytes → UInt32) (wal : Wal)
    (key value : Bytes) (io : AppendIo) : Result Unit × Wal :=
  wal.append (createBody hash key value .insert) io

/-- `Wal::delete`. -/
def Wal.delete (hash : Bytes → UInt32) (wal : Wal)
    (key : Bytes) (io : AppendIo) : Result Unit × Wal :=
  wal.append (createBody hash key [] .delete) io

/-- What one turn of the loop in `Wal::read` does with the bytes left. -/
inductive Frame where
  | stop
  | fail (e : Failure)
  | record (r : Record) (rest : Bytes)
  deriving DecidableEq, Repr

/-- One turn of the loop in `Wal::read`.  Running out of bytes ends the log;
a frame that is all there but malformed is an error. -/
def readFrame (hash : Bytes → UInt32) (reader : Bytes) : Frame :=
  match takeExact 4 reader with
  | none => .stop
  | some (lengthBytes, reader) =>
    let length := fromLeBytes lengthBytes
    if length < crcSize then .stop
    else match takeExact 4 reader with
    | none => .stop
    | some (checksumBytes, reader) =>
      match takeExact (length - crcSize) reader with
      | none => .stop
      | some (payload, reader) =>
        if (hash payload).toNat ≠ fromLeBytes checksumBytes then
          .fail (ioError .invalidData (ascii "Checksum mismatch"))
        else match parseRecord payload with
        | .error e => .fail e
        | .ok r => .record r reader

/-- The loop in `Wal::read`.  A turn that goes on consumes bytes, so the
length of the file is enough turns. -/
def readLoop (hash : Bytes → UInt32) : ℕ → Bytes → Result (List Record)
  | 0, _ => .ok []
  | turns + 1, reader =>
    match readFrame hash reader with
    | .stop => .ok []
    | .fail e => .error e
    | .record r rest => (readLoop hash turns rest).map (r :: ·)

/-- Reading a whole log file back. -/
def replay (hash : Bytes → UInt32) (file : Bytes) : Result (List Record) :=
  readLoop hash file.length file

/-- `Wal::read`.  It only moves the read position, which appends ignore. -/
def Wal.read (hash : Bytes → UInt32) (wal : Wal) : Result (List Record) :=
  replay hash wal.file

/-! ## Mutations -/

/-- One acknowledged change of the store, as the log records it. -/
inductive Mutation where
  | insert (key value : Bytes)
  | delete (key : Bytes)
  deriving DecidableEq, Repr

/-- The record `Wal::insert` or `Wal::delete` writes. -/
def Mutation.record : Mutation → Record
  | .insert key value => ⟨key, value, .insert⟩
  | .delete key => ⟨key, [], .delete⟩

/-- Call `Wal::insert` or `Wal::delete`. -/
def Wal.log (hash : Bytes → UInt32) (wal : Wal) (m : Mutation)
    (io : AppendIo) : Result Unit × Wal :=
  match m with
  | .insert key value => wal.insert hash key value io
  | .delete key => wal.delete hash key io

/-- A run of calls that all return `Ok`. -/
def Wal.logAll (hash : Bytes → UInt32) (wal : Wal)
    (ms : List Mutation) : Wal :=
  ms.foldl (fun wal m => (wal.log hash m .ok).2) wal

end Lsmrs
