import Lsmrs.Hash
import Lsmrs.Support.Checksum
import Lsmrs.Support.Mixing

/-!
# Keys that differ in one byte

`hash64` takes the bytes in one after the other, each turn of which can be
undone, and scrambles the state it ends in without losing any of it.
-/

namespace Lsmrs

open ByteString Checksum

/-! ## The finalizer -/

theorem mul_injective {c : UInt64} (hc : Odd c.toNat) :
    Function.Injective fun hash : UInt64 => hash * c := by
  intro a b h
  have hbits : a.toBitVec * c.toBitVec = b.toBitVec * c.toBitVec :=
    congrArg UInt64.toBitVec h
  exact UInt64.toBitVec_inj.mp (Mixing.mul_injective hc hbits)

theorem xorShift33_injective :
    Function.Injective fun hash : UInt64 => hash ^^^ (hash >>> 33) := by
  intro a b h
  have hbits : Mixing.xorShift 33 a.toBitVec = Mixing.xorShift 33 b.toBitVec :=
    congrArg UInt64.toBitVec h
  exact UInt64.toBitVec_inj.mp
    (Mixing.xorShift_injective (by decide) hbits)

theorem mix_injective : Function.Injective mix := by
  have hfirst : Odd (0xff51afd7ed558ccd : UInt64).toNat := by decide
  have hsecond : Odd (0xc4ceb9fe1a85ec53 : UInt64).toNat := by decide
  intro a b h
  exact xorShift33_injective (mul_injective hfirst (xorShift33_injective
    (mul_injective hsecond (xorShift33_injective h))))

theorem mix_bijective : Function.Bijective mix :=
  Finite.injective_iff_bijective.mp mix_injective

/-! ## The bytes -/

theorem toUInt64_injective : Function.Injective UInt8.toUInt64 := by
  intro a b h
  have hnat := congrArg UInt64.toNat h
  rw [UInt8.toNat_toUInt64, UInt8.toNat_toUInt64] at hnat
  exact UInt8.toNat_inj.mp hnat

theorem fnvStep_reversible : Reversible fnvStep where
  state := by
    intro byte a b h
    have hxor := mul_injective (c := fnvPrime) (by decide) h
    exact (UInt64.xor_left_inj _).mp hxor
  symbol := by
    intro hash a b h
    have hxor := mul_injective (c := fnvPrime) (by decide) h
    exact toUInt64_injective ((UInt64.xor_right_inj hash).mp hxor)

/-- Every turn can be undone, the finalizer is a permutation, and so a changed
byte changes the hash, wherever it stands. -/
theorem hash64_oneByte :
    (∀ byte, Function.Injective fun hash => fnvStep hash byte) ∧
      (∀ hash, Function.Injective (fnvStep hash)) ∧
        Function.Bijective mix ∧
          ∀ (p s : Bytes) (a b : UInt8), a ≠ b →
            hash64 (p ++ [a] ++ s) ≠ hash64 (p ++ [b] ++ s) := by
  refine ⟨fnvStep_reversible.state, fnvStep_reversible.symbol, mix_bijective,
    ?_⟩
  intro p s a b hab heq
  rw [List.append_assoc, List.append_assoc] at heq
  exact fnvStep_reversible.foldl_append_cons_ne hab p s fnvOffsetBasis
    (mix_injective heq)

theorem hash64_oneByte_key :
    hash64 (ascii "key000000" ++ ascii "4" ++ ascii "2") ≠
      hash64 (ascii "key000000" ++ ascii "5" ++ ascii "2") :=
  hash64_oneByte.2.2.2 (ascii "key000000") (ascii "2") 52 53 (by decide)

end Lsmrs
