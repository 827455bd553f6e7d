import Lsmrs.Resp.Frames
import Lsmrs.Support.Words

/-!
# Limits on commands

`MAX_ARGS` and `MAX_BULK_LEN` are checked where lengths are parsed, so an
array keeps them.  An inline line has no lengths to parse, and keeps them
only when it does so by itself.
-/

namespace Lsmrs

open ByteString

/-- A command that the stream gives has no more arguments than `MAX_ARGS`,
and none longer than `MAX_BULK_LEN`. -/
def LimitsHold (reader : Bytes) : Prop :=
  ∀ args rest, readCommand reader = .ok (some args, rest) →
    (args.length : ℤ) ≤ maxArgs ∧ ∀ arg ∈ args, (arg.length : ℤ) ≤ maxBulkLen

/-- A line that needs no limit: in no more places than there may be
arguments something begins after whitespace, and nothing without whitespace
is longer than an argument may be. -/
def WithinLimits (line : Bytes) : Prop :=
  (Words.starts isAsciiWhitespace true line : ℤ) ≤ maxArgs ∧
    ∀ word, Words.Unbroken isAsciiWhitespace word line →
      (word.length : ℤ) ≤ maxBulkLen

/-- The words of a line keep the limits when the line does. -/
theorem wordsOf_limits_iff (line : Bytes) :
    ((wordsOf line).length ≤ maxArgs ∧
      ∀ word ∈ wordsOf line, (word.length : ℤ) ≤ maxBulkLen) ↔
        WithinLimits line := by
  have hcast : ∀ word : Bytes,
      (word.length : ℤ) ≤ maxBulkLen ↔ word.length ≤ maxBulkLen.toNat :=
    fun word => by
      simp only [maxBulkLen]
      omega
  simp only [WithinLimits, hcast, wordsOf, Words.length_filter_splitOnP,
    Words.length_le_iff]

/-- Lengths that are parsed keep the limits. -/
theorem limitsHold_of_star {reader digits : Bytes}
    (h : lineOf reader = 42 :: digits) : LimitsHold reader := by
  intro args rest hread
  obtain ⟨count, hcount, hlen, bytes, hframe, -⟩ :=
    (readCommand_star_eq_ok_iff h).mp hread
  have hmax := parseLen_le hcount
  refine ⟨?_, hframe.length_le⟩
  simp only [maxArgs] at hmax ⊢
  omega

/-- The limits hold exactly where lengths are parsed, and on lines that need
none. -/
theorem limitsHold_iff (reader : Bytes) :
    LimitsHold reader ↔
      (lineOf reader).head? = some 42 ∨ WithinLimits (lineOf reader) := by
  by_cases hstar : (lineOf reader).head? = some 42
  · obtain ⟨digits, hline⟩ := List.head?_eq_some_iff.mp hstar
    exact ⟨fun _ => Or.inl hstar, fun _ => limitsHold_of_star hline⟩
  · rw [← wordsOf_limits_iff, or_iff_right hstar]
    by_cases hnil : reader = []
    · subst hnil
      constructor
      · intro _
        decide
      · intro _ args rest hread
        cases hread
    · have hread := readCommand_of_not_star hnil hstar
      constructor
      · exact fun h => h _ _ hread
      · intro hwords args rest hread'
        rw [hread] at hread'
        cases hread'
        exact hwords

/-- One more word than an array may have arguments. -/
def manyWords : WireCommand :=
  .inline (List.replicate 1025 [97]) []

theorem manyWords_beyond_limits : ¬ LimitsHold manyWords.encode := by
  intro h
  have hvalid : manyWords.Valid := by
    decide +kernel
  have hread := readCommand_inline hvalid []
  rw [List.append_nil] at hread
  have hle := (h _ _ hread).1
  rw [List.length_replicate] at hle
  exact absurd hle (by decide)

end Lsmrs
