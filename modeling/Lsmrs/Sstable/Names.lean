import Lsmrs.Support.Decimal

/-!
# File names

The names `SSTableSet` gives its files and how it reads them back: a table
covers a span of sequence numbers, and the span is in its name.
-/

namespace Lsmrs

open ByteString

/-- The largest `u64`. -/
def u64Max : ℕ := 2 ^ 64 - 1

/-- The sequence numbers a table covers. -/
structure Span where
  first : ℕ
  last : ℕ
  deriving DecidableEq, Repr

/-- One span lies in the other. -/
def Span.Within (s other : Span) : Prop :=
  other.first ≤ s.first ∧ s.last ≤ other.last

instance (s other : Span) : Decidable (s.Within other) := by
  unfold Span.Within
  infer_instance

/-- `{n:06}`. -/
def padded (n : ℕ) : Bytes :=
  List.replicate (6 - (Decimal.ofNat n).length) 48 ++ Decimal.ofNat n

def stemPrefix : Bytes := ascii "sstable-"

/-- A file name without its extensions. -/
def stemOf (span : Span) : Bytes :=
  stemPrefix ++ (padded span.first ++ (ascii "-" ++ padded span.last))

/-- The final name of a table. -/
def tableName (span : Span) : Bytes :=
  stemOf span ++ ascii ".sst"

/-- The name a table is written under, `with_extension("sst.tmp")`. -/
def tmpName (span : Span) : Bytes :=
  stemOf span ++ ascii ".sst.tmp"

/-- `Path::file_stem` and `Path::extension` of a file name: the last dot
splits it, unless nothing stands before the dot. -/
def splitExtension (name : Bytes) : Bytes × Option Bytes :=
  match name.reverse.span (· ≠ 46) with
  | (_, []) => (name, none)
  | (_, [_]) => (name, none)
  | (extension, _ :: stem) => (stem.reverse, some extension.reverse)

/-- `Path::extension`. -/
def extension (name : Bytes) : Option Bytes :=
  (splitExtension name).2

/-- `str::strip_prefix`. -/
def stripPrefix (pre text : Bytes) : Option Bytes :=
  if pre <+: text then some (text.drop pre.length) else none

/-- `str::split_once` at a byte. -/
def splitOnce (at_ : UInt8) (text : Bytes) : Option (Bytes × Bytes) :=
  match text.span (· ≠ at_) with
  | (_, []) => none
  | (before, _ :: after) => some (before, after)

/-- `parse_span`.  A name that is not UTF-8 has a byte no number has. -/
def parseSpan (name : Bytes) : Option Span := do
  let stem ← stripPrefix stemPrefix (splitExtension name).1
  let (first, last) ← splitOnce 45 stem
  let first ← Decimal.parseUnsigned u64Max first
  let last ← Decimal.parseUnsigned u64Max last
  return ⟨first, last⟩

/-! ## Names read back -/

theorem span_loop_append {p : UInt8 → Bool} {xs rest : Bytes} {b : UInt8}
    (hxs : ∀ c ∈ xs, p c = true) (hb : p b = false) :
    (xs ++ b :: rest).span p = (xs, b :: rest) := by
  rw [List.span_eq_takeWhile_dropWhile]
  simp [List.takeWhile_append_of_pos hxs, List.dropWhile_append_of_pos hxs,
    hb]

/-- The last dot splits a name. -/
theorem splitExtension_append {stem ext : Bytes} (hstem : stem ≠ [])
    (hext : (46 : UInt8) ∉ ext) :
    splitExtension (stem ++ 46 :: ext) = (stem, some ext) := by
  have hrev : (stem ++ 46 :: ext).reverse =
      ext.reverse ++ 46 :: stem.reverse := by
    simp
  have hspan : (ext.reverse ++ 46 :: stem.reverse).span (· ≠ 46) =
      (ext.reverse, 46 :: stem.reverse) := by
    apply span_loop_append
    · intro c hc
      rw [decide_eq_true_eq]
      rintro rfl
      exact hext (List.mem_reverse.mp hc)
    · rfl
  obtain ⟨b, rest, hb⟩ :=
    List.exists_cons_of_ne_nil (List.reverse_ne_nil_iff.mpr hstem)
  rw [splitExtension, hrev, hspan, hb]
  simp [← hb]

theorem padded_digits {n : ℕ} {b : UInt8} (hb : b ∈ padded n) :
    Decimal.isDigit b = true := by
  rcases List.mem_append.mp hb with hb | hb
  · rw [List.eq_of_mem_replicate hb]
    rfl
  · exact Decimal.isDigit_of_mem_ofNat hb

theorem digitsValue_padded (n : ℕ) : Decimal.digitsValue (padded n) = n := by
  have hzeros : ∀ count, (List.replicate count (48 : UInt8)).foldl
      (fun n b => 10 * n + (b.toNat - 48)) 0 = 0 := by
    intro count
    induction count with
    | zero => rfl
    | succ count ih => rw [List.replicate_succ, List.foldl_cons]; exact ih
  rw [Decimal.digitsValue, padded, List.foldl_append, hzeros]
  exact Decimal.digitsValue_ofNat n

theorem parseUnsigned_padded {n : ℕ} (hn : n ≤ u64Max) :
    Decimal.parseUnsigned u64Max (padded n) = some n := by
  have hne : padded n ≠ [] := by
    rw [padded]
    simp [Decimal.ofNat_ne_nil]
  have hall : (padded n).all Decimal.isDigit = true :=
    List.all_eq_true.mpr fun b hb => padded_digits hb
  have hplus : ∀ rest, padded n ≠ 43 :: rest := by
    intro rest h
    have hmem : (43 : UInt8) ∈ padded n := by simp [h]
    exact absurd (padded_digits hmem) (by decide)
  have hparse : Decimal.toNat? (padded n) = some n := by
    rw [Decimal.toNat?, if_pos ⟨hne, hall⟩, digitsValue_padded]
  unfold Decimal.parseUnsigned
  split
  next rest heq => exact absurd heq (hplus rest)
  next => simp [hparse, hn]

theorem splitExtension_tableName (span : Span) :
    splitExtension (tableName span) = (stemOf span, some (ascii "sst")) := by
  have hstem : stemOf span ≠ [] := by simp [stemOf, stemPrefix, ascii]
  exact splitExtension_append hstem (by decide)

theorem extension_tableName (span : Span) :
    extension (tableName span) = some (ascii "sst") := by
  rw [extension, splitExtension_tableName]

theorem extension_tmpName (span : Span) :
    extension (tmpName span) = some (ascii "tmp") := by
  have hsplit : tmpName span =
      (stemOf span ++ ascii ".sst") ++ 46 :: ascii "tmp" := by
    rw [List.append_assoc]
    rfl
  have hstem : stemOf span ++ ascii ".sst" ≠ [] := by
    simp [stemOf, stemPrefix, ascii]
  rw [extension, hsplit, splitExtension_append hstem (by decide)]

/-- The two numbers of a stem. -/
theorem splitOnce_stem (span : Span) :
    (stripPrefix stemPrefix (stemOf span)).bind (splitOnce 45) =
      some (padded span.first, padded span.last) := by
  have hstrip : stripPrefix stemPrefix (stemOf span) =
      some (padded span.first ++ (ascii "-" ++ padded span.last)) := by
    rw [stripPrefix, stemOf, if_pos (List.prefix_append _ _),
      List.drop_left]
  have hdigits : ∀ c ∈ padded span.first, decide (c ≠ 45) = true := by
    intro c hc
    rw [decide_eq_true_eq]
    rintro rfl
    exact absurd (padded_digits hc) (by decide)
  have hspan : (padded span.first ++ 45 :: padded span.last).span (· ≠ 45) =
      (padded span.first, 45 :: padded span.last) :=
    span_loop_append hdigits rfl
  rw [hstrip]
  change splitOnce 45 (padded span.first ++ 45 :: padded span.last) = _
  rw [splitOnce, hspan]

theorem parseSpan_tableName {span : Span}
    (hfirst : span.first ≤ u64Max) (hlast : span.last ≤ u64Max) :
    parseSpan (tableName span) = some span := by
  have hsplit := splitOnce_stem span
  obtain ⟨stem, hstem, hnumbers⟩ := Option.bind_eq_some_iff.mp hsplit
  rw [parseSpan, splitExtension_tableName]
  simp [hstem, hnumbers, parseUnsigned_padded hfirst,
    parseUnsigned_padded hlast]

theorem stemOf_injective {s s' : Span} (h : stemOf s = stemOf s') :
    s = s' := by
  have hsplit := splitOnce_stem s
  rw [h, splitOnce_stem s'] at hsplit
  obtain ⟨hfirst, hlast⟩ := Prod.mk.inj (Option.some.inj hsplit)
  have hfirst' := congrArg Decimal.digitsValue hfirst
  have hlast' := congrArg Decimal.digitsValue hlast
  simp only [digitsValue_padded] at hfirst' hlast'
  cases s
  cases s'
  simp_all

theorem tableName_injective {s s' : Span}
    (h : tableName s = tableName s') : s = s' :=
  stemOf_injective (List.append_cancel_right h)

theorem tableName_ne_tmpName (s s' : Span) : tableName s ≠ tmpName s' := by
  intro h
  have hext := congrArg extension h
  rw [extension_tableName, extension_tmpName] at hext
  exact absurd hext (by decide)

theorem tmpName_injective {s s' : Span} (h : tmpName s = tmpName s') :
    s = s' :=
  stemOf_injective (List.append_cancel_right h)

example : tableName ⟨3, 1234567⟩ = ascii "sstable-000003-1234567.sst" := by
  decide +kernel

end Lsmrs
