import Lsmrs.Support.Checksum
import Lsmrs.Wal.Torn

/-!
# Corrupted records

CRC-32 tells payloads apart that differ in one byte, so a log with one
changed byte in a checksum or in a payload is never replayed.
-/

namespace Lsmrs

open ByteString Checksum

/-! ## The checksum -/

theorem and_one_eq_one_iff (crc : UInt32) :
    crc &&& 1 = 1 ↔ crc.toBitVec.getLsbD 0 = true := by
  rw [← UInt32.toNat_inj, UInt32.toNat_and]
  change crc.toNat &&& 1 = 1 ↔ crc.toNat.testBit 0 = true
  rw [Nat.and_one_is_mod, Nat.testBit_zero, decide_eq_true_iff]

theorem getLsbD_shiftRight_one (crc : UInt32) (i : ℕ) :
    (crc >>> 1).toBitVec.getLsbD i = crc.toBitVec.getLsbD (i + 1) := by
  rw [UInt32.toBitVec_shiftRight]
  change (crc.toBitVec >>> 1).getLsbD i = _
  rw [BitVec.getLsbD_ushiftRight, Nat.add_comm]

/-- The highest bit of the polynomial is set, so that of the result is the
bit that was shifted out. -/
theorem crc32Bit_top (crc : UInt32) :
    (crc32Bit crc).toBitVec.getLsbD 31 = crc.toBitVec.getLsbD 0 := by
  have hshift : (crc >>> 1).toBitVec.getLsbD 31 = false := by
    rw [getLsbD_shiftRight_one]
    exact BitVec.getLsbD_of_ge _ _ le_rfl
  rw [crc32Bit]
  split_ifs with hlow
  · rw [UInt32.toBitVec_xor, BitVec.getLsbD_xor, hshift,
      (and_one_eq_one_iff crc).mp hlow]
    rfl
  · rw [hshift]
    exact (Bool.eq_false_iff.mpr (mt (and_one_eq_one_iff crc).mpr hlow)).symm

theorem crc32Bit_injective : Function.Injective crc32Bit := by
  intro a b h
  have hlow : a.toBitVec.getLsbD 0 = b.toBitVec.getLsbD 0 := by
    rw [← crc32Bit_top, h, crc32Bit_top]
  have hiff : a &&& 1 = 1 ↔ b &&& 1 = 1 := by
    rw [and_one_eq_one_iff, and_one_eq_one_iff, hlow]
  have hshift : a >>> 1 = b >>> 1 := by
    rw [crc32Bit, crc32Bit] at h
    by_cases ha : a &&& 1 = 1
    · rw [if_pos ha, if_pos (hiff.mp ha)] at h
      exact (UInt32.xor_left_inj _).mp h
    · rwa [if_neg ha, if_neg (mt hiff.mpr ha)] at h
  apply UInt32.toBitVec_inj.mp
  apply BitVec.eq_of_getLsbD_eq
  intro i _
  cases i with
  | zero => exact hlow
  | succ i => rw [← getLsbD_shiftRight_one, hshift, getLsbD_shiftRight_one]

theorem crc32Byte_reversible : Reversible crc32Byte where
  state := by
    intro byte a b h
    have heq := crc32Bit_injective.iterate 8 h
    exact (UInt32.xor_left_inj _).mp heq
  symbol := by
    intro crc a b h
    have heq := (UInt32.xor_right_inj crc).mp
      (crc32Bit_injective.iterate 8 h)
    apply UInt8.toNat_inj.mp
    have hnat := congrArg UInt32.toNat heq
    rwa [UInt8.toNat_toUInt32, UInt8.toNat_toUInt32] at hnat

/-- Messages that differ in one byte have different checksums. -/
theorem crc32_set_ne {bytes : Bytes} {i : ℕ} {b : UInt8}
    (hi : i < bytes.length) (hb : bytes[i] ≠ b) :
    crc32 (bytes.set i b) ≠ crc32 bytes := by
  intro heq
  apply crc32Byte_reversible.foldl_set_ne hi hb 0xFFFFFFFF
  exact UInt32.not_inj.mp heq

/-! ## A changed frame -/

theorem ne_of_set_eq {bytes : Bytes} {i : ℕ} {b : UInt8}
    (hi : i < bytes.length) (hb : bytes[i]? ≠ some b) :
    bytes.set i b ≠ bytes := by
  intro heq
  have hget := List.getElem?_set_self (a := b) hi
  rw [heq] at hget
  exact hb hget

/-- A frame with one changed byte behind its header is a frame whose checksum
is wrong. -/
theorem exists_frameWith_set {p : Bytes} {i : ℕ} {b : UInt8} (hi : 4 ≤ i)
    (hlt : i < (frame crc32 p).length)
    (hb : (frame crc32 p)[i]? ≠ some b) :
    ∃ checksum p', (frame crc32 p).set i b = frameWith checksum p' ∧
      p'.length = p.length ∧ crc32 p' ≠ checksum := by
  let header := toLeBytes 4 (crcSize + p.length)
  let sum := toLeBytes 4 (crc32 p).toNat
  have hheader : header.length = 4 := toLeBytes_length 4 _
  have hsum : sum.length = 4 := toLeBytes_length 4 _
  have hframe : frame crc32 p = header ++ (sum ++ p) := rfl
  rw [hframe, List.getElem?_append_right (by omega), hheader] at hb
  rw [hframe, List.length_append, List.length_append, hheader, hsum] at hlt
  rw [hframe, List.set_append_right (h := by omega), hheader]
  by_cases hin : i - 4 < 4
  · -- The byte belongs to the checksum.
    rw [List.getElem?_append_left (by omega)] at hb
    have hne := ne_of_set_eq (by omega) hb
    have hlen : (sum.set (i - 4) b).length = 4 := by
      rw [List.length_set, hsum]
    have hback := toLeBytes_fromLeBytes (sum.set (i - 4) b)
    have hbound := fromLeBytes_lt (sum.set (i - 4) b)
    rw [hlen] at hback hbound
    have hchecksum : toLeBytes 4 (UInt32.ofNat (fromLeBytes
        (sum.set (i - 4) b))).toNat = sum.set (i - 4) b := by
      rw [UInt32.toNat_ofNat_of_lt' hbound, hback]
    refine ⟨UInt32.ofNat (fromLeBytes (sum.set (i - 4) b)), p, ?_, rfl, ?_⟩
    · rw [frameWith, hchecksum, List.set_append_left (h := by omega)]
    · intro heq
      rw [← heq] at hchecksum
      exact hne hchecksum.symm
  · -- The byte belongs to the payload.
    rw [List.getElem?_append_right (by omega), hsum] at hb
    have hpos : i - 4 - 4 < p.length := by omega
    rw [List.getElem?_eq_getElem hpos] at hb
    refine ⟨crc32 p, p.set (i - 4 - 4) b, ?_, List.length_set, ?_⟩
    · rw [frameWith, List.length_set, List.set_append_right (h := by omega),
        hsum]
    · exact crc32_set_ne hpos fun heq => hb (by rw [heq])

/-! ## A changed log -/

/-- Changing one byte in the checksum or the payload of a complete record
makes `Wal::read` fail. -/
theorem read_corrupted {before later : List Mutation} {m : Mutation}
    (hfits : ∀ m' ∈ before ++ m :: later, m'.record.Fits) {i : ℕ}
    {b : UInt8} (hi : 4 ≤ i) (hlt : i < (m.record.encode crc32).length)
    (hb : (m.record.encode crc32)[i]? ≠ some b) (sync : Bool) :
    (Wal.open
      (((Wal.open [] sync).logAll crc32 (before ++ m :: later)).file.set
        ((logOf crc32 (before.map Mutation.record)).length + i) b)
      sync).read crc32 = .error checksumMismatch := by
  let pre := logOf crc32 (before.map Mutation.record)
  let post := logOf crc32 (later.map Mutation.record)
  have hbefore : ∀ r ∈ before.map Mutation.record, r.Fits :=
    map_record_fits fun m' hm' => hfits m' (List.mem_append_left _ hm')
  have hm : m.record.Fits := hfits m (by simp)
  obtain ⟨checksum, p, hset, hlen, hne⟩ := exists_frameWith_set hi hlt hb
  have hp : Announced p := by
    rw [Announced, hlen]
    exact hm
  have hfile : ((Wal.open [] sync).logAll crc32
      (before ++ m :: later)).file.set (pre.length + i) b =
        pre ++ (frameWith checksum p ++ post) := by
    rw [Wal.logAll_file, List.map_append, List.map_cons, logOf_append,
      logOf_cons]
    change (pre ++ (m.record.encode crc32 ++ post)).set (pre.length + i) b =
      _
    rw [List.set_append_right (h := Nat.le_add_right _ _),
      Nat.add_sub_cancel_left, List.set_append_left (h := hlt)]
    exact congrArg (fun s => pre ++ (s ++ post)) hset
  change replay crc32 (((Wal.open [] sync).logAll crc32
    (before ++ m :: later)).file.set (pre.length + i) b) = _
  rw [hfile, replay_logOf_append hbefore, replay_eq,
    readFrame_frameWith hp, if_pos hne]
  rfl

/-- The first byte of the key length of the second of three records. -/
theorem read_corrupted_keyLength :
    (Wal.open
      (((Wal.open [] true).logAll crc32
        ([.insert (ascii "foo") (ascii "bar")] ++
          .insert (ascii "omar") (ascii "ashour") ::
            [.delete (ascii "foo")])).file.set
        ((logOf crc32 ([.insert (ascii "foo") (ascii "bar")].map
          Mutation.record)).length + 8) 200)
      true).read crc32 = .error checksumMismatch :=
  read_corrupted (by decide) (by decide) (by decide +kernel)
    (by decide +kernel) true

end Lsmrs
