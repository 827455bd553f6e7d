import Lsmrs.Support.Utf8

/-!
# Text and its bytes

The bytes of a text.  A lossy conversion gives them back, and no two texts
have the same.
-/

namespace Utf8

open ByteString

/-- The UTF-8 bytes of a text. -/
def encode (text : List Char) : Bytes :=
  text.flatMap String.utf8EncodeChar

@[simp] theorem encode_nil : encode [] = [] := rfl

theorem encode_cons (c : Char) (text : List Char) :
    encode (c :: text) = String.utf8EncodeChar c ++ encode text := rfl

theorem encode_append (text text' : List Char) :
    encode (text ++ text') = encode text ++ encode text' :=
  List.flatMap_append

theorem encode_intercalate (sep : List Char) (lines : List (List Char)) :
    encode (sep.intercalate lines) =
      (encode sep).intercalate (lines.map encode) := by
  induction lines with
  | nil => rfl
  | cons line lines ih =>
      cases lines with
      | nil =>
          rw [List.map_singleton, List.intercalate_singleton,
            List.intercalate_singleton]
      | cons next lines =>
          rw [List.map_cons, List.map_cons, List.intercalate_cons_cons,
            List.intercalate_cons_cons, encode_append, encode_append, ih,
            List.map_cons]

/-- Bytes are no fewer where there is more text. -/
theorem encode_length_le {text text' : List Char}
    (h : text.Sublist text') : (encode text).length ≤ (encode text').length :=
  (h.flatMap _).length_le

theorem encode_injective : Function.Injective encode := by
  intro text text' h
  exact String.ofList_injective
    (String.toByteArray_inj.mp (congrArg List.toByteArray h))

/-! ## Characters as chunks -/

theorem ofNat_le_ofNat {m n : ℕ} (hm : m < 256) (hn : n < 256) :
    UInt8.ofNat m ≤ UInt8.ofNat n ↔ m ≤ n := by
  rw [UInt8.le_iff_toNat_le, UInt8.toNat_ofNat_of_lt' hm,
    UInt8.toNat_ofNat_of_lt' hn]

/-- A byte between two bounds. -/
theorem ofNat_between (low high : ℕ) {n : ℕ} (hlow : low ≤ n)
    (hhigh : n ≤ high) (hbyte : high < 256) :
    UInt8.ofNat low ≤ UInt8.ofNat n ∧ UInt8.ofNat n ≤ UInt8.ofNat high :=
  ⟨(ofNat_le_ofNat (by omega) (by omega)).mpr hlow,
    (ofNat_le_ofNat (by omega) hbyte).mpr hhigh⟩

theorem ofNat_eq_ofNat {m n : ℕ} (hm : m < 256) (hn : n < 256) :
    UInt8.ofNat m = UInt8.ofNat n ↔ m = n := by
  rw [← UInt8.toNat_inj, UInt8.toNat_ofNat_of_lt' hm,
    UInt8.toNat_ofNat_of_lt' hn]

theorem isContinuation_ofNat (n : ℕ) :
    isContinuation (UInt8.ofNat (n % 64 + 128)) = true := by
  rw [isContinuation, Bool.and_eq_true, decide_eq_true_eq,
    decide_eq_true_eq]
  exact ofNat_between 128 191 (by omega) (by omega) (by decide)

/-- The second byte of a three-byte character: no overlong form, and no
surrogate. -/
theorem isSecondOfThree_ofNat {m n : ℕ} (hm : m < 16) (hn : n < 64)
    (hlong : m = 0 → 32 ≤ n) (hsurrogate : m = 13 → n < 32) :
    isSecondOfThree (UInt8.ofNat (m + 224)) (UInt8.ofNat (n + 128)) =
      true := by
  have hzero : UInt8.ofNat (m + 224) = UInt8.ofNat 224 ↔ m + 224 = 224 :=
    ofNat_eq_ofNat (by omega) (by decide)
  have hthirteen :
      UInt8.ofNat (m + 224) = UInt8.ofNat 237 ↔ m + 224 = 237 :=
    ofNat_eq_ofNat (by omega) (by decide)
  rw [isSecondOfThree]
  split_ifs with h₁ h₂
  · have := hlong (by have := hzero.mp h₁; omega)
    rw [Bool.and_eq_true, decide_eq_true_eq, decide_eq_true_eq]
    exact ofNat_between 160 191 (by omega) (by omega) (by decide)
  · have := hsurrogate (by have := hthirteen.mp h₂; omega)
    rw [Bool.and_eq_true, decide_eq_true_eq, decide_eq_true_eq]
    exact ofNat_between 128 159 (by omega) (by omega) (by decide)
  · rw [← Nat.mod_eq_of_lt hn]
    exact isContinuation_ofNat n

theorem isSecondOfFour_ofNat {m n : ℕ} (hm : m < 8) (hn : n < 64)
    (hlong : m = 0 → 16 ≤ n) (hlarge : m = 4 → n < 16) :
    isSecondOfFour (UInt8.ofNat (m + 240)) (UInt8.ofNat (n + 128)) =
      true := by
  have hzero : UInt8.ofNat (m + 240) = UInt8.ofNat 240 ↔ m + 240 = 240 :=
    ofNat_eq_ofNat (by omega) (by decide)
  have hfour : UInt8.ofNat (m + 240) = UInt8.ofNat 244 ↔ m + 240 = 244 :=
    ofNat_eq_ofNat (by omega) (by decide)
  rw [isSecondOfFour]
  split_ifs with h₁ h₂
  · have := hlong (by have := hzero.mp h₁; omega)
    rw [Bool.and_eq_true, decide_eq_true_eq, decide_eq_true_eq]
    exact ofNat_between 144 191 (by omega) (by omega) (by decide)
  · have := hlarge (by have := hfour.mp h₂; omega)
    rw [Bool.and_eq_true, decide_eq_true_eq, decide_eq_true_eq]
    exact ofNat_between 128 143 (by omega) (by omega) (by decide)
  · rw [← Nat.mod_eq_of_lt hn]
    exact isContinuation_ofNat n

theorem chunk_two {b c : UInt8} (hb : 194 ≤ b ∧ b ≤ 223)
    (hc : isContinuation c = true) (rest : Bytes) :
    chunk b (c :: rest) = (true, 1) := by
  have hascii : ¬ b < 128 := not_lt.mpr (le_trans (by decide) hb.1)
  simp [chunk, hascii, hb, hc]

theorem chunk_three {b c d : UInt8} (hb : 224 ≤ b ∧ b ≤ 239)
    (hc : isSecondOfThree b c = true) (hd : isContinuation d = true)
    (rest : Bytes) : chunk b (c :: d :: rest) = (true, 2) := by
  have hascii : ¬ b < 128 := not_lt.mpr (le_trans (by decide) hb.1)
  have htwo : ¬ b ≤ 223 := not_le.mpr (lt_of_lt_of_le (by decide) hb.1)
  simp [chunk, hascii, htwo, hb, hc, hd]

theorem chunk_four {b c d e : UInt8} (hb : 240 ≤ b ∧ b ≤ 244)
    (hc : isSecondOfFour b c = true) (hd : isContinuation d = true)
    (he : isContinuation e = true) (rest : Bytes) :
    chunk b (c :: d :: e :: rest) = (true, 3) := by
  have hascii : ¬ b < 128 := not_lt.mpr (le_trans (by decide) hb.1)
  have htwo : ¬ b ≤ 223 := not_le.mpr (lt_of_lt_of_le (by decide) hb.1)
  have hthree : ¬ b ≤ 239 := not_le.mpr (lt_of_lt_of_le (by decide) hb.1)
  simp [chunk, hascii, htwo, hthree, hb, hc, hd, he]

/-- The bytes of a character are one chunk. -/
theorem chunk_encodeChar (c : Char) :
    ∃ b more, String.utf8EncodeChar c = b :: more ∧
      ∀ rest, chunk b (more ++ rest) = (true, more.length) := by
  have hvalid := c.valid
  rw [UInt32.isValidChar, Nat.isValidChar] at hvalid
  simp only [String.utf8EncodeChar]
  generalize c.val.toNat = v at *
  split_ifs with hone htwo hthree
  · refine ⟨_, _, rfl, fun rest => chunk_ascii ?_ _⟩
    rw [UInt8.lt_iff_toNat_lt, UInt8.toNat_ofNat_of_lt'
      (lt_of_le_of_lt hone (by decide))]
    exact Nat.lt_succ_of_le hone
  · exact ⟨_, _, rfl, fun rest => chunk_two
      (ofNat_between 194 223 (by omega) (by omega) (by decide))
      (isContinuation_ofNat v) rest⟩
  · exact ⟨_, _, rfl, fun rest => chunk_three
      (ofNat_between 224 239 (by omega) (by omega) (by decide))
      (isSecondOfThree_ofNat (by omega) (by omega) (by omega) (by omega))
      (isContinuation_ofNat v) rest⟩
  · exact ⟨_, _, rfl, fun rest => chunk_four
      (ofNat_between 240 244 (by omega) (by omega) (by decide))
      (isSecondOfFour_ofNat (by omega) (by omega) (by omega) (by omega))
      (isContinuation_ofNat (v / 64)) (isContinuation_ofNat v) rest⟩

theorem lossyLoop_encode (text : List Char) {fuel : ℕ}
    (hfuel : (encode text).length ≤ fuel) :
    lossyLoop fuel (encode text) = encode text := by
  induction text generalizing fuel with
  | nil => cases fuel <;> rfl
  | cons c text ih =>
      obtain ⟨b, more, hbytes, hchunk⟩ := chunk_encodeChar c
      rw [encode_cons, hbytes] at hfuel ⊢
      rw [List.cons_append, List.length_cons, List.length_append] at hfuel
      obtain ⟨fuel, rfl⟩ : ∃ n, fuel = n + 1 :=
        Nat.exists_eq_add_one.mpr (by omega)
      rw [List.cons_append, lossyLoop, hchunk]
      dsimp only
      rw [List.take_left, List.drop_left, ih (by omega)]
      rfl

/-- Text passes through a lossy conversion unchanged. -/
theorem lossy_encode (text : List Char) :
    lossy (encode text) = encode text :=
  lossyLoop_encode text le_rfl

end Utf8
