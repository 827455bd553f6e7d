import Mathlib.Data.List.Lex
import Mathlib.Data.Nat.Bits
import Mathlib.Tactic

/-!
# Byte strings

Byte strings as lists of `UInt8`, ordered lexicographically, together with
fixed-width little-endian integers and ASCII literals.  Nothing here knows
about a file format: a format is built from `toLeBytes` and read back with
`fromLeBytes`, and the round-trip lemmas below are all a codec proof needs
about integers.
-/

namespace ByteString

/-- A byte string. -/
abbrev Bytes := List UInt8

/-- Bytes are ordered as numbers; `List.instLinearOrder` lifts this to the
lexicographic order on byte strings. -/
instance instLinearOrderUInt8 : LinearOrder UInt8 where
  le_refl a := UInt8.le_refl a
  le_trans _ _ _ := UInt8.le_trans
  le_antisymm _ _ := UInt8.le_antisymm
  le_total a b := UInt8.le_total a b
  lt_iff_le_not_ge a b := by
    simp only [UInt8.lt_iff_toNat_lt, UInt8.le_iff_toNat_le]
    omega
  toDecidableLE := inferInstance
  toDecidableEq := inferInstance
  toDecidableLT := inferInstance
  min_def _ _ := rfl
  max_def _ _ := rfl

/-- A statement about the bytes of a string is decided by looking at these,
not at all bytes there are. -/
instance (priority := high) decidableForallMem (p : UInt8 → Prop)
    [DecidablePred p] (bs : Bytes) : Decidable (∀ b ∈ bs, p b) :=
  List.decidableBAll p bs

/-- The bytes of an ASCII literal. -/
def ascii (s : String) : Bytes :=
  s.toList.map fun c => UInt8.ofNat c.toNat

/-! ## Little-endian integers -/

/-- The `width` low bytes of `n`, least significant first.  Bits above
`8 * width` are dropped, as in a truncating cast. -/
def toLeBytes : ℕ → ℕ → Bytes
  | 0, _ => []
  | width + 1, n => UInt8.ofNat n :: toLeBytes width (n / 256)

/-- The number a little-endian byte string denotes. -/
def fromLeBytes : Bytes → ℕ
  | [] => 0
  | b :: bs => b.toNat + 256 * fromLeBytes bs

@[simp] theorem toLeBytes_length (width n : ℕ) :
    (toLeBytes width n).length = width := by
  induction width generalizing n with
  | zero => rfl
  | succ width ih => simp [toLeBytes, ih]

theorem fromLeBytes_toLeBytes (width n : ℕ) :
    fromLeBytes (toLeBytes width n) = n % 256 ^ width := by
  induction width generalizing n with
  | zero => simp [toLeBytes, fromLeBytes, Nat.mod_one]
  | succ width ih =>
      have hbyte : (UInt8.ofNat n).toNat = n % 256 := by simp
      rw [toLeBytes, fromLeBytes, ih, hbyte, Nat.pow_succ', Nat.mod_mul]

/-- A number that fits its width survives the round trip. -/
theorem fromLeBytes_toLeBytes_of_lt
    {width n : ℕ} (h : n < 256 ^ width) :
    fromLeBytes (toLeBytes width n) = n := by
  rw [fromLeBytes_toLeBytes, Nat.mod_eq_of_lt h]

theorem toLeBytes_fromLeBytes (bs : Bytes) :
    toLeBytes bs.length (fromLeBytes bs) = bs := by
  induction bs with
  | nil => rfl
  | cons b bs ih =>
      have hb : b.toNat < 256 := b.toNat_lt
      have hbyte : UInt8.ofNat (b.toNat + 256 * fromLeBytes bs) = b := by
        apply UInt8.toNat_inj.mp
        simp
      have hdiv : (b.toNat + 256 * fromLeBytes bs) / 256 =
          fromLeBytes bs := by omega
      rw [List.length_cons, fromLeBytes, toLeBytes, hbyte, hdiv, ih]

theorem fromLeBytes_lt (bs : Bytes) :
    fromLeBytes bs < 256 ^ bs.length := by
  induction bs with
  | nil => simp [fromLeBytes]
  | cons b bs ih =>
      have hb : b.toNat < 256 := b.toNat_lt
      rw [fromLeBytes, List.length_cons, Nat.pow_succ']
      omega

/-! ## Splitting off a prefix -/

/-- Reading exactly `n` bytes: the bytes and what follows them, or `none`
when fewer than `n` are left. -/
def takeExact (n : ℕ) (bs : Bytes) : Option (Bytes × Bytes) :=
  if n ≤ bs.length then some (bs.take n, bs.drop n) else none

theorem takeExact_append (xs rest : Bytes) :
    takeExact xs.length (xs ++ rest) = some (xs, rest) := by
  simp [takeExact]

theorem takeExact_append_of_length
    {n : ℕ} {xs : Bytes} (hn : xs.length = n) (rest : Bytes) :
    takeExact n (xs ++ rest) = some (xs, rest) := by
  rw [← hn, takeExact_append]

theorem takeExact_eq_none {n : ℕ} {bs : Bytes} :
    takeExact n bs = none ↔ bs.length < n := by
  simp [takeExact]

theorem takeExact_eq_some {n : ℕ} {bs xs rest : Bytes} :
    takeExact n bs = some (xs, rest) ↔
      bs = xs ++ rest ∧ xs.length = n := by
  constructor
  · intro h
    rw [takeExact] at h
    split at h
    next hn =>
      obtain ⟨rfl, rfl⟩ := Prod.mk.inj (Option.some.inj h)
      exact ⟨(List.take_append_drop n bs).symm, by simp [hn]⟩
    next => cases h
  · rintro ⟨rfl, hn⟩
    exact takeExact_append_of_length hn rest

end ByteString
