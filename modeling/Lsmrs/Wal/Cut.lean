import Lsmrs.Wal.Torn

/-!
# Cutting a log

The log of successful calls, cut after any number of bytes, is replayed to
exactly the records that are complete before the cut.
-/

namespace Lsmrs

open ByteString

variable {hash : Bytes → UInt32}

/-- The records of a log that starts at an offset, each with the offset its
encoding ends at. -/
def endsOf (hash : Bytes → UInt32) : ℕ → List Record → List (Record × ℕ)
  | _, [] => []
  | start, r :: rs =>
    let stop := start + (r.encode hash).length
    (r, stop) :: endsOf hash stop rs

/-- The records whose encoding ends at or before byte `n`. -/
def completeAt (hash : Bytes → UInt32) (n : ℕ) (rs : List Record) :
    List Record :=
  ((endsOf hash 0 rs).filter fun p => p.2 ≤ n).map Prod.fst

theorem le_of_mem_endsOf {start : ℕ} {rs : List Record} {p : Record × ℕ}
    (hp : p ∈ endsOf hash start rs) : start ≤ p.2 := by
  induction rs generalizing start with
  | nil => cases hp
  | cons r rs ih =>
      rcases List.mem_cons.mp hp with rfl | hp
      · exact Nat.le_add_right _ _
      · exact (Nat.le_add_right _ _).trans (ih hp)

/-- A log that starts at an offset, cut `n` bytes behind it. -/
theorem replay_take_logOf {rs : List Record} (hrs : ∀ r ∈ rs, r.Fits)
    (start n : ℕ) :
    replay hash ((logOf hash rs).take n) =
      .ok (((endsOf hash start rs).filter fun p =>
        p.2 ≤ start + n).map Prod.fst) := by
  induction rs generalizing start n with
  | nil =>
      rw [logOf_nil, List.take_nil]
      rfl
  | cons r rs ih =>
      obtain ⟨hr, hrs⟩ := List.forall_mem_cons.mp hrs
      rw [logOf_cons, endsOf]
      by_cases hcut : (r.encode hash).length ≤ n
      · -- The first record is whole, and the cut falls behind it.
        obtain ⟨m, rfl⟩ := Nat.exists_eq_add_of_le hcut
        have hone : ∀ r' ∈ [r], r'.Fits := by simpa using hr
        have hstop : start + ((r.encode hash).length + m) =
            start + (r.encode hash).length + m := by omega
        have hkept : start + (r.encode hash).length ≤
            start + (r.encode hash).length + m := Nat.le_add_right _ _
        have hrest : replay hash (logOf hash [r] ++ (logOf hash rs).take m) =
            (replay hash ((logOf hash rs).take m)).map ([r] ++ ·) :=
          replay_logOf_append hone _
        rw [logOf_singleton] at hrest
        rw [List.take_length_add_append, hrest,
          ih hrs (start + (r.encode hash).length) m, hstop,
          List.filter_cons, if_pos (decide_eq_true hkept)]
        rfl
      · -- The cut falls into the first record.
        rw [not_le] at hcut
        have hpre : (r.encode hash).take n <+: r.encode hash :=
          List.take_prefix _ _
        have hne : (r.encode hash).take n ≠ r.encode hash := by
          intro heq
          have hlen := congrArg List.length heq
          rw [List.length_take] at hlen
          omega
        rw [List.take_append_of_le_length hcut.le, replay_torn hr hpre hne]
        have hnone : ((r, start + (r.encode hash).length) ::
            endsOf hash (start + (r.encode hash).length) rs).filter
              (fun p => p.2 ≤ start + n) = [] := by
          rw [List.filter_eq_nil_iff]
          intro p hp
          rw [decide_eq_true_eq, not_le]
          rcases List.mem_cons.mp hp with rfl | hp
          · exact Nat.add_lt_add_left hcut start
          · exact (Nat.add_lt_add_left hcut start).trans_le
              (le_of_mem_endsOf hp)
        rw [hnone]
        rfl

/-- `Wal::read` on the first bytes of a log returns exactly the operations
that are complete there. -/
theorem read_cut {ms : List Mutation} (hms : ∀ m ∈ ms, m.record.Fits)
    (hash : Bytes → UInt32) (sync : Bool) (n : ℕ) :
    (Wal.open (((Wal.open [] sync).logAll hash ms).file.take n) sync).read
        hash =
      .ok (completeAt hash n (ms.map Mutation.record)) := by
  rw [Wal.logAll_file]
  change replay hash ((logOf hash (ms.map Mutation.record)).take n) = _
  rw [replay_take_logOf (map_record_fits hms) 0 n, Nat.zero_add]
  rfl

/-- Two insertions and a deletion, 50 bytes up to the end of the second. -/
def threeCalls : List Mutation :=
  [.insert (ascii "foo") (ascii "bar"),
    .insert (ascii "omar") (ascii "ashour"), .delete (ascii "foo")]

theorem read_cut_insideSecond :
    (Wal.open (((Wal.open [] true).logAll crc32 threeCalls).file.take 49)
        true).read crc32 =
      .ok [⟨ascii "foo", ascii "bar", .insert⟩] :=
  (read_cut (by decide) crc32 true 49).trans (by decide +kernel)

end Lsmrs
