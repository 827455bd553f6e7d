import Mathlib.Algebra.Ring.Parity
import Mathlib.Data.FinEnum
import Mathlib.Data.Nat.ModEq
import Mathlib.Tactic

/-!
# Mixing words

The steps that hash functions scramble a machine word with.  An xor with the
upper bits of the word itself can be undone from the top bit down, and an odd
factor can be cancelled modulo a power of two, so neither loses anything.
-/

namespace Mixing

variable {w k : ℕ}

/-- A word xored with its own bits from `k` places further up. -/
def xorShift (k : ℕ) (x : BitVec w) : BitVec w :=
  x ^^^ (x >>> k)

theorem getLsbD_xorShift (x : BitVec w) (i : ℕ) :
    (xorShift k x).getLsbD i = (x.getLsbD i ^^ x.getLsbD (k + i)) := by
  rw [xorShift, BitVec.getLsbD_xor, BitVec.getLsbD_ushiftRight]

/-- The top `k` bits are left as they are, and each bit below them is xored
with one that is known by then. -/
theorem xorShift_injective (hk : 0 < k) :
    Function.Injective (xorShift k : BitVec w → BitVec w) := by
  intro x y h
  have hbits : ∀ n i, w ≤ i + n → x.getLsbD i = y.getLsbD i := by
    intro n
    induction n with
    | zero =>
        intro i hi
        rw [BitVec.getLsbD_of_ge x i hi, BitVec.getLsbD_of_ge y i hi]
    | succ n ih =>
        intro i hi
        have habove := ih (k + i) (by omega)
        have hbit := congrArg (fun z => z.getLsbD i) h
        simp only [getLsbD_xorShift, habove] at hbit
        exact Bool.xor_left_inj.mp hbit
  exact BitVec.eq_of_getLsbD_eq fun i _ => hbits w i (Nat.le_add_left w i)

theorem mul_injective {c : BitVec w} (hc : Odd c.toNat) :
    Function.Injective fun x : BitVec w => x * c := by
  intro x y h
  have hcoprime : Nat.Coprime (2 ^ w) c.toNat :=
    (Nat.coprime_two_left.mpr hc).pow_left w
  have hmod : x.toNat * c.toNat ≡ y.toNat * c.toNat [MOD 2 ^ w] := by
    have hnat := congrArg BitVec.toNat h
    rwa [BitVec.toNat_mul, BitVec.toNat_mul] at hnat
  have hsame := Nat.ModEq.cancel_right_of_coprime hcoprime hmod
  exact BitVec.toNat_inj.mp (hsame.eq_of_lt_of_lt x.isLt y.isLt)

end Mixing
