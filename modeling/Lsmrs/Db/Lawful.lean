import Lsmrs.Db.Machine
import Lsmrs.Sstable.Lawful
import Lsmrs.Wal.Replay

/-!
# What a log has to do

The laws the machine's proofs use of the log, and that the bytes of the
source and the plain lists both satisfy them.
-/

namespace Lsmrs

open ByteString OrderedMap

/-- The log of a sequence of completed appends. -/
def Format.logOf (F : Format) (ms : List Mutation) : F.Log :=
  ms.foldl F.append F.emptyLog

theorem Format.logOf_concat (F : Format) (ms : List Mutation)
    (m : Mutation) :
    F.append (F.logOf ms) m = F.logOf (ms ++ [m]) := by
  rw [Format.logOf, Format.logOf, List.foldl_append]
  rfl

/-- The mutation that stores an entry. -/
def Mutation.ofEntry : Entry → Mutation
  | (key, some value) => .insert key value
  | (key, none) => .delete key

theorem Mutation.ofEntry_key_value (m : Mutation) :
    Mutation.ofEntry (m.key, m.value) = m := by
  cases m <;> rfl

/-- Logs are read back, also behind a torn record, and tables hold what was
written. -/
structure Format.Lawful (F : Format) (Ok : Mutation → Prop) : Prop where
  tables : F.toTableFormat.Lawful fun e => Ok (Mutation.ofEntry e)
  replay : ∀ {ms : List Mutation}, (∀ m ∈ ms, Ok m) →
    F.replay (F.logOf ms) = .ok (ms.map Mutation.record)
  replay_torn : ∀ {ms : List Mutation} {m : Mutation} (written : ℕ),
    (∀ m ∈ ms, Ok m) → Ok m →
    F.replay (F.torn (F.logOf ms) m written) = .ok (ms.map Mutation.record)

variable {hash : Bytes → UInt32}

theorem wal_log_ok (file : Bytes) (m : Mutation) :
    ((Wal.open file true).log hash m .ok).2.file =
      file ++ m.record.encode hash := by
  cases m <;> rfl

theorem wal_log_torn (file : Bytes) (m : Mutation) (written : ℕ)
    (e : IoError) :
    ((Wal.open file true).log hash m (.writeFails written e)).2.file =
      file ++ (m.record.encode hash).take
        (min written ((m.record.encode hash).length - 1)) := by
  cases m <;> rfl

theorem byteFormat_logOf (ms : List Mutation) :
    (byteFormat hash).logOf ms = logOf hash (ms.map Mutation.record) := by
  suffices hgen : ∀ file : Bytes,
      ms.foldl (byteFormat hash).append file =
        file ++ logOf hash (ms.map Mutation.record) by
    exact hgen []
  induction ms with
  | nil => intro file; simp
  | cons m ms ih =>
      intro file
      have hstep : (byteFormat hash).append file m =
          file ++ m.record.encode hash := wal_log_ok file m
      rw [List.foldl_cons, hstep, ih, List.map_cons]
      simp [logOf]

theorem entryFits_of_fits {e : Entry}
    (he : (Mutation.ofEntry e).record.Fits) : EntryFits e := by
  obtain ⟨key, value⟩ := e
  have hlengths := he.lengths
  cases value with
  | some value => exact hlengths
  | none => exact ⟨hlengths.1, Nat.two_pow_pos 32⟩

theorem byteFormat_lawful (hash : Bytes → UInt32) :
    (byteFormat hash).Lawful fun m => m.record.Fits where
  tables := ⟨fun h hne hsorted hok => byteTables_lawful.write h hne hsorted
    fun e he => entryFits_of_fits (hok e he)⟩
  replay := by
    intro ms hms
    rw [byteFormat_logOf]
    exact replay_logOf (map_record_fits hms)
  replay_torn := by
    intro ms m written hms hm
    have hpre : (m.record.encode hash).take
        (min written ((m.record.encode hash).length - 1)) <+:
          m.record.encode hash := List.take_prefix _ _
    have hne : (m.record.encode hash).take
        (min written ((m.record.encode hash).length - 1)) ≠
          m.record.encode hash := by
      intro heq
      have hlen := congrArg List.length heq
      rw [List.length_take, encode_length] at hlen
      omega
    change replay hash
      ((Wal.open _ true).log hash m (.writeFails written _)).2.file = _
    rw [wal_log_torn, byteFormat_logOf,
      replay_logOf_append (map_record_fits hms), replay_torn hm hpre hne]
    simp [Except.map]

theorem listFormat_logOf (ms : List Mutation) :
    listFormat.logOf ms = ms.map Mutation.record := by
  suffices hgen : ∀ log : List Record,
      ms.foldl listFormat.append log = log ++ ms.map Mutation.record by
    exact hgen []
  induction ms with
  | nil => intro log; simp
  | cons m ms ih =>
      intro log
      have hstep : listFormat.append log m = log ++ [m.record] := rfl
      rw [List.foldl_cons, hstep, ih]
      simp

theorem listFormat_lawful : listFormat.Lawful fun _ => True where
  tables := ⟨fun h hne hsorted _ => listTables_lawful.write h hne hsorted
    fun _ _ => trivial⟩
  replay := by
    intro ms _
    rw [listFormat_logOf]
  replay_torn := by
    intro ms m written _ _
    rw [listFormat_logOf]

end Lsmrs
