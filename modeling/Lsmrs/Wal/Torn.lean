import Lsmrs.Wal.Replay

/-!
# Appending behind a torn record

Replay drops a torn record at the end of the log, but nothing removes its
bytes from the file, so later appends land behind them.  The next replay then
reads a frame whose header is the torn one.  Whatever the torn bytes are,
some later record is lost to it.
-/

namespace Lsmrs

open ByteString

variable {hash : Bytes → UInt32}

/-! ## What a sequence of calls leaves in the file -/

theorem Wal.log_ok (wal : Wal) (m : Mutation) :
    wal.log hash m .ok =
      (.ok (), { wal with file := wal.file ++ m.record.encode hash }) := by
  cases m <;> rfl

theorem Wal.logAll_file (wal : Wal) (ms : List Mutation) :
    (wal.logAll hash ms).file =
      wal.file ++ logOf hash (ms.map Mutation.record) := by
  induction ms generalizing wal with
  | nil => simp [Wal.logAll]
  | cons m ms ih =>
      rw [Wal.logAll, List.foldl_cons, Wal.log_ok]
      change (Wal.logAll hash _ ms).file = _
      rw [ih]
      simp [logOf]

theorem mutation_delete_fits : (Mutation.delete []).record.Fits := by
  decide

/-! ## A later record that a torn one swallows -/

/-- The first frame behind a complete log decides whether exactly the
appended record comes back. -/
theorem readFrame_of_replay_eq_singleton {s : Bytes} {r : Record}
    (h : replay hash s = .ok [r]) :
    ∃ rest, readFrame hash s = .record r rest := by
  rw [replay_eq] at h
  cases hframe : readFrame hash s with
  | stop => simp [hframe] at h
  | fail e => simp [hframe] at h
  | record r' rest =>
      rw [hframe] at h
      dsimp only at h
      cases hrest : replay hash rest with
      | error e => simp [hrest, Except.map] at h
      | ok rs =>
          simp only [hrest, Except.map, Except.ok.injEq,
            List.cons.injEq] at h
          exact ⟨rest, by rw [h.1]⟩

/-- Fewer than four torn bytes: the header is completed by the low bytes of
the next record's length, which land in its high bytes and announce far more
than the file holds. -/
theorem readFrame_short_torn {t rest : Bytes} {r : Record}
    (ht : t ≠ []) (hshort : t.length < 4) :
    readFrame hash (t ++ (Mutation.delete []).record.encode hash) ≠
      .record r rest := by
  intro h
  obtain ⟨lengthBytes, checksumBytes, p, hs, hl, hc, hlen, -⟩ :=
    readFrame_eq_record.mp h
  have htotal := congrArg List.length hs
  simp only [List.length_append, encode_length, Mutation.record,
    List.length_nil] at htotal
  have hhead : lengthBytes =
      (t ++ (Mutation.delete []).record.encode hash).take 4 := by
    rw [hs, ← hl, List.take_left']
    rfl
  obtain ⟨tail, hdelete⟩ : ∃ tail,
      (Mutation.delete []).record.encode hash = 13 :: 0 :: 0 :: 0 :: tail :=
    ⟨_, rfl⟩
  have hbig : 3328 ≤ fromLeBytes lengthBytes := by
    rw [hhead, hdelete]
    rcases t with _ | ⟨a, _ | ⟨b, _ | ⟨c, _ | ⟨d, t⟩⟩⟩⟩
    · exact absurd rfl ht
    · simp [fromLeBytes]
    · simp [fromLeBytes]
      omega
    · simp [fromLeBytes]
      omega
    · simp only [List.length_cons] at hshort
      omega
  simp only [crcSize] at hlen
  omega

/-- At least four torn bytes: the torn header fixes how long the payload
is. -/
theorem readFrame_torn_payload {torn : Record} (hfits : torn.Fits)
    {t missing more rest : Bytes} {r : Record}
    (ht : t ++ missing = torn.encode hash) (hlong : 4 ≤ t.length)
    (h : readFrame hash (t ++ more) = .record r rest) :
    r.key.length + r.value.length ≤
        torn.key.length + torn.value.length ∧
      torn.key.length + torn.value.length + 17 ≤ t.length + more.length := by
  obtain ⟨lengthBytes, checksumBytes, p, hs, hl, hc, hlen, -, hr⟩ :=
    readFrame_eq_record.mp h
  have htorn : fromLeBytes (toLeBytes 4 (crcSize +
      (payload torn.key torn.value torn.operation).length)) =
        crcSize + (payload torn.key torn.value torn.operation).length :=
    fromLeBytes_toLeBytes_of_lt hfits
  have hhead : lengthBytes = toLeBytes 4
      (crcSize + (payload torn.key torn.value torn.operation).length) := by
    calc
      lengthBytes = (t ++ more).take 4 := by
        rw [hs, ← hl, List.take_left']
        rfl
      _ = (t ++ missing).take 4 := by
        rw [List.take_append_of_le_length hlong,
          List.take_append_of_le_length hlong]
      _ = _ := by
        rw [ht, Record.encode, createBody]
        exact List.take_left' (toLeBytes_length 4 _)
  have htotal := congrArg List.length hs
  have hfields := (parseRecord_eq_ok hr).2
  rw [hhead, htorn] at hlen
  simp only [List.length_append, payload_length] at htotal hlen
  omega

/-- At least twelve torn bytes: the torn record's key length is the one the
next frame is parsed with. -/
theorem readFrame_torn_key {torn : Record} (hfits : torn.Fits)
    {t missing more rest : Bytes} {r : Record}
    (ht : t ++ missing = torn.encode hash) (hlong : 12 ≤ t.length)
    (h : readFrame hash (t ++ more) = .record r rest) :
    r.key.length = torn.key.length := by
  obtain ⟨lengthBytes, checksumBytes, p, hs, hl, hc, hlen, -, hr⟩ :=
    readFrame_eq_record.mp h
  obtain ⟨hkey, hfields⟩ := parseRecord_eq_ok hr
  have hp : p.take 4 = toLeBytes 4 torn.key.length := by
    calc
      p.take 4 = ((t ++ more).take 12).drop 8 := by
        rw [hs, ← List.append_assoc, List.drop_take,
          List.drop_left' (by simp [hl, hc]),
          List.take_append_of_le_length (by omega)]
      _ = ((t ++ missing).take 12).drop 8 := by
        rw [List.take_append_of_le_length hlong,
          List.take_append_of_le_length hlong]
      _ = _ := by
        rw [ht, Record.encode, createBody, payload, ← List.append_assoc,
          List.drop_take, List.drop_left' (by simp)]
        exact List.take_left' (toLeBytes_length 4 _)
  rw [hkey, hp]
  exact fromLeBytes_toLeBytes_of_lt hfits.lengths.1

/-- Every non-empty strict prefix of a record swallows some later one. -/
theorem exists_swallowed {torn : Record} (hfits : torn.Fits)
    {t : Bytes} (hpre : t <+: torn.encode hash) (hne : t ≠ []) :
    ∃ m : Mutation, m.record.Fits ∧ ∀ rest,
      readFrame hash (t ++ m.record.encode hash) ≠
        .record m.record rest := by
  obtain ⟨missing, ht⟩ := hpre
  rcases Nat.lt_or_ge t.length 4 with hshort | hlong
  · exact ⟨.delete [], mutation_delete_fits,
      fun _ => readFrame_short_torn hne hshort⟩
  rcases Nat.lt_or_ge t.length 12 with hmid | hlong'
  · by_cases hroom : torn.key.length + torn.value.length + 14 < 2 ^ 32
    · -- A key longer than the torn payload cannot come out of it.
      refine ⟨.delete (List.replicate
        (torn.key.length + torn.value.length + 1) 0), ?_, ?_⟩
      · simp only [Record.Fits, payload_length, Mutation.record, crcSize,
          List.length_replicate, List.length_nil]
        omega
      · intro rest h
        have hlen := (readFrame_torn_payload hfits ht hlong h).1
        simp only [Mutation.record, List.length_replicate,
          List.length_nil] at hlen
        omega
    · -- The torn payload is so long that a short record leaves it torn.
      refine ⟨.delete [], mutation_delete_fits, ?_⟩
      intro rest h
      have hlen := (readFrame_torn_payload hfits ht hlong h).2
      simp only [encode_length, Mutation.record, List.length_nil] at hlen
      omega
  · by_cases hkey : torn.key.length = 0
    · refine ⟨.delete [0], by decide, ?_⟩
      intro rest h
      have heq := readFrame_torn_key hfits ht hlong' h
      simp [Mutation.record, hkey] at heq
    · refine ⟨.delete [], mutation_delete_fits, ?_⟩
      intro rest h
      have heq := readFrame_torn_key hfits ht hlong' h
      simp only [Mutation.record, List.length_nil] at heq
      omega

/-! ## Which torn tails are harmless -/

/-- Every non-empty sequence of writes appended to a log holding the records
`rs` and the bytes `t` is read back behind `rs`. -/
def LaterWritesSurvive (hash : Bytes → UInt32) (sync : Bool)
    (rs : List Record) (t : Bytes) : Prop :=
  ∀ ms : List Mutation, ms ≠ [] → (∀ m ∈ ms, m.record.Fits) →
    ((Wal.open (logOf hash rs ++ t) sync).logAll hash ms).read hash =
      .ok (rs ++ ms.map Mutation.record)

/-- A torn tail costs no later write exactly when it is empty. -/
theorem laterWritesSurvive_iff
    (hash : Bytes → UInt32) (sync : Bool)
    {rs : List Record} (hrs : ∀ r ∈ rs, r.Fits)
    {torn : Record} (htorn : torn.Fits) {t : Bytes}
    (hpre : t <+: torn.encode hash) :
    LaterWritesSurvive hash sync rs t ↔ t = [] := by
  constructor
  · intro hsurvive
    by_contra hne
    obtain ⟨m, hm, hlost⟩ := exists_swallowed htorn hpre hne
    have hread := hsurvive [m] (by simp) (by simpa using hm)
    rw [Wal.read, Wal.logAll_file, Wal.open, List.append_assoc,
      replay_logOf_append hrs, List.map_singleton, logOf_singleton] at hread
    have hsingle : replay hash (t ++ m.record.encode hash) =
        .ok [m.record] := by
      cases hreplay : replay hash (t ++ m.record.encode hash) with
      | error e => simp [hreplay, Except.map] at hread
      | ok rs' => simpa [hreplay, Except.map] using hread
    obtain ⟨rest, hframe⟩ := readFrame_of_replay_eq_singleton hsingle
    exact hlost rest hframe
  · rintro rfl ms - hms
    rw [Wal.read, Wal.logAll_file, Wal.open, List.append_nil,
      ← logOf_append]
    apply replay_logOf
    intro r hr
    rcases List.mem_append.mp hr with hr | hr
    · exact hrs r hr
    · obtain ⟨m, hm, rfl⟩ := List.mem_map.mp hr
      exact hms m hm

/-- A log that was never torn meets the condition. -/
theorem laterWritesSurvive_untorn :
    LaterWritesSurvive crc32 true [⟨[1], [2], .insert⟩] [] := by
  have hrecord : (⟨[3], [4], .insert⟩ : Record).Fits := by decide
  exact (laterWritesSurvive_iff crc32 true (by decide) hrecord
    List.nil_prefix).mpr rfl

/-- A log with one complete record, twelve bytes of a second one, and a
third appended after reopening.  The third is acknowledged, and the next
replay fails on the frame its bytes complete. -/
theorem torn_tail_loses_later_write :
    let foo : Record := ⟨ascii "foo", ascii "bar", .insert⟩
    let omar : Record := ⟨ascii "omar", ascii "ashour", .insert⟩
    let later : Mutation := .insert (ascii "k") (ascii "v")
    let torn := (omar.encode crc32).take 12
    torn <+: omar.encode crc32 ∧ torn ≠ omar.encode crc32 ∧
      ((Wal.open (logOf crc32 [foo] ++ torn) true).logAll crc32
        [later]).read crc32 =
          .error (ioError .invalidData (ascii "Checksum mismatch")) := by
  decide +kernel

end Lsmrs
