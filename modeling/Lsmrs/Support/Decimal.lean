import Lsmrs.Support.Bytes

/-!
# Decimal numerals

Printing numbers as ASCII decimals and parsing them back, with the optional
sign and the range check of a fixed-width parse.  Printing uses
`Nat.toDigits`; the round trip rests on `Nat.ofDigitChars_ten_toDigits`.
-/

namespace Decimal

open ByteString

def isDigit (b : UInt8) : Bool :=
  48 ≤ b && b ≤ 57

/-- The number a run of ASCII digits denotes. -/
def digitsValue (digits : Bytes) : ℕ :=
  digits.foldl (fun n b => 10 * n + (b.toNat - 48)) 0

/-- A non-empty run of digits, and nothing else. -/
def toNat? (text : Bytes) : Option ℕ :=
  if text ≠ [] ∧ text.all isDigit then some (digitsValue text) else none

/-- The decimal digits of `n`. -/
def ofNat (n : ℕ) : Bytes :=
  (Nat.toDigits 10 n).map fun c => UInt8.ofNat c.toNat

def ofInt : ℤ → Bytes
  | .ofNat n => ofNat n
  | .negSucc n => 45 :: ofNat (n + 1)

/-- An optional minus sign and a run of digits. -/
def toInt? (text : Bytes) : Option ℤ :=
  match text with
  | 45 :: rest => (toNat? rest).map fun n => -(n : ℤ)
  | _ => (toNat? text).map Int.ofNat

/-- Parse an unsigned number that must not exceed `max`: digits after an
optional `+`. -/
def parseUnsigned (max : ℕ) (text : Bytes) : Option ℕ :=
  let digits := match text with
    | 43 :: rest => rest
    | _ => text
  (toNat? digits).filter (· ≤ max)

/-- Parse a signed number in `[-max - 1, max]`: digits after an optional
sign. -/
def parseSigned (max : ℕ) (text : Bytes) : Option ℤ :=
  match text with
  | 45 :: rest => ((toNat? rest).filter (· ≤ max + 1)).map fun n => -(n : ℤ)
  | _ => (parseUnsigned max text).map Int.ofNat

/-! ## Printing, then parsing -/

/-- A decimal digit character is an ASCII byte. -/
theorem toNat_of_isDigit {c : Char} (hc : c.isDigit) :
    (UInt8.ofNat c.toNat).toNat = c.toNat ∧
      isDigit (UInt8.ofNat c.toNat) = true := by
  obtain ⟨hlow, hhigh⟩ : 48 ≤ c.toNat ∧ c.toNat ≤ 57 := by
    simpa [Char.isDigit, UInt32.le_iff_toNat_le] using hc
  have hbyte : (UInt8.ofNat c.toNat).toNat = c.toNat := by
    rw [UInt8.toNat_ofNat']
    omega
  refine ⟨hbyte, ?_⟩
  simp [isDigit, UInt8.le_iff_toNat_le]
  omega

theorem isDigit_of_mem_ofNat {n : ℕ} {b : UInt8} (hb : b ∈ ofNat n) :
    isDigit b = true := by
  obtain ⟨c, hc, rfl⟩ := List.mem_map.mp hb
  exact (toNat_of_isDigit
    (Nat.isDigit_of_mem_toDigits (by decide) (by decide) hc)).2

theorem ofNat_ne_nil (n : ℕ) : ofNat n ≠ [] := by
  simp [ofNat, Nat.toDigits_ne_nil]

theorem digitsValue_ofNat (n : ℕ) : digitsValue (ofNat n) = n := by
  suffices hgen : ∀ (cs : List Char) (init : ℕ), (∀ c ∈ cs, c.isDigit) →
      (cs.map fun c => UInt8.ofNat c.toNat).foldl
          (fun n b => 10 * n + (b.toNat - 48)) init =
        Nat.ofDigitChars 10 cs init by
    rw [digitsValue, ofNat, hgen, Nat.ofDigitChars_ten_toDigits]
    intro c hc
    exact Nat.isDigit_of_mem_toDigits (by decide) (by decide) hc
  intro cs
  induction cs with
  | nil => intro init _; simp
  | cons c cs ih =>
      intro init hcs
      obtain ⟨hc, hcs⟩ := List.forall_mem_cons.mp hcs
      rw [List.map_cons, List.foldl_cons, ih _ hcs,
        Nat.ofDigitChars_cons, (toNat_of_isDigit hc).1]
      rfl

theorem toNat?_ofNat (n : ℕ) : toNat? (ofNat n) = some n := by
  have hall : (ofNat n).all isDigit := by
    rw [List.all_eq_true]
    exact fun b hb => isDigit_of_mem_ofNat hb
  rw [toNat?, if_pos ⟨ofNat_ne_nil n, hall⟩, digitsValue_ofNat]

/-- A printed number does not start with a byte that is no digit. -/
theorem ofNat_ne_cons {n : ℕ} {b : UInt8} (hb : isDigit b = false)
    (rest : Bytes) : ofNat n ≠ b :: rest := by
  intro h
  have hmem : b ∈ ofNat n := by simp [h]
  simp [isDigit_of_mem_ofNat hmem] at hb

theorem toInt?_ofInt (n : ℤ) : toInt? (ofInt n) = some n := by
  cases n with
  | ofNat n =>
      have hminus : ∀ rest, ofNat n ≠ 45 :: rest := ofNat_ne_cons (by decide)
      rw [ofInt]
      unfold toInt?
      split
      next rest heq => exact absurd heq (hminus rest)
      next => simp [toNat?_ofNat]
  | negSucc n =>
      simp [ofInt, toInt?, toNat?_ofNat, Int.negSucc_eq]

theorem parseUnsigned_ofNat {max n : ℕ} (h : n ≤ max) :
    parseUnsigned max (ofNat n) = some n := by
  have hplus : ∀ rest, ofNat n ≠ 43 :: rest := ofNat_ne_cons (by decide)
  unfold parseUnsigned
  split
  next rest heq => exact absurd heq (hplus rest)
  next => simp [toNat?_ofNat, h]

theorem parseSigned_ofNat {max n : ℕ} (h : n ≤ max) :
    parseSigned max (ofNat n) = some (n : ℤ) := by
  have hminus : ∀ rest, ofNat n ≠ 45 :: rest := ofNat_ne_cons (by decide)
  unfold parseSigned
  split
  next rest heq => exact absurd heq (hminus rest)
  next => simp [parseUnsigned_ofNat h]

end Decimal
