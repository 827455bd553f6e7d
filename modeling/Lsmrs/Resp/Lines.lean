import Lsmrs.Resp.RoundTrip

/-!
# Lines

The line at the front of a stream, and what `readCommand` makes of it: the
header of an array, or words.
-/

namespace Lsmrs

open ByteString

/-! ## Lines -/

/-- The bytes before the first LF, and those behind it. -/
def lineOf (reader : Bytes) : Bytes :=
  reader.takeWhile (· ≠ lf)

def afterLine (reader : Bytes) : Bytes :=
  (reader.dropWhile (· ≠ lf)).tail

theorem ne_lf_of_not_mem {line : Bytes} (hline : lf ∉ line) :
    ∀ b ∈ line, decide (b ≠ lf) = true := by
  intro b hb
  rw [decide_eq_true_eq]
  rintro rfl
  exact hline hb

theorem lineOf_append {line : Bytes} (hline : lf ∉ line) (rest : Bytes) :
    lineOf (line ++ lf :: rest) = line ∧
      afterLine (line ++ lf :: rest) = rest := by
  have hall := ne_lf_of_not_mem hline
  rw [lineOf, afterLine, List.takeWhile_append_of_pos hall,
    List.dropWhile_append_of_pos hall]
  simp

theorem lineOf_of_not_mem {line : Bytes} (hline : lf ∉ line) :
    lineOf line = line ∧ afterLine line = [] := by
  have hall := ne_lf_of_not_mem hline
  rw [lineOf, afterLine, List.takeWhile_eq_self_iff.mpr hall,
    List.dropWhile_eq_nil_iff.mpr hall]
  exact ⟨rfl, rfl⟩

theorem lf_not_mem_lineOf (reader : Bytes) : lf ∉ lineOf reader := by
  intro hmem
  exact absurd (List.mem_takeWhile_imp hmem) (by simp)

/-- A stream is its line, with an LF and what follows if it has one. -/
theorem eq_lineOf_or (reader : Bytes) :
    reader = lineOf reader ++ lf :: afterLine reader ∨
      reader = lineOf reader ∧ afterLine reader = [] := by
  by_cases hmem : lf ∈ reader
  · obtain ⟨line, rest, rfl, hline⟩ := List.eq_append_cons_of_mem hmem
    obtain ⟨hfirst, hafter⟩ := lineOf_append hline rest
    left
    rw [hfirst, hafter]
  · obtain ⟨hline, hafter⟩ := lineOf_of_not_mem hmem
    exact Or.inr ⟨hline.symm, hafter⟩

theorem readUntil_of_not_mem {line : Bytes} (hline : lf ∉ line) :
    readUntil lf line = (line, []) := by
  induction line with
  | nil => rfl
  | cons b line ih =>
      obtain ⟨hb, hline⟩ := not_or.mp (List.mem_cons.not.mp hline)
      simp [readUntil, Ne.symm hb, ih hline]

/-- What `read_line` returns: the line without the line ends behind it, and
nothing when the stream has ended. -/
theorem readLine_eq {reader : Bytes} (hne : reader ≠ []) :
    readLine reader =
      (some ((lineOf reader).rdropWhile isLineEnd), afterLine reader) := by
  have hline := lf_not_mem_lineOf reader
  rcases eq_lineOf_or reader with hsplit | ⟨hsplit, hafter⟩
  · conv_lhs => rw [hsplit]
    rw [readLine, readUntil_append hline]
    dsimp only
    rw [if_neg (by simp), List.rdropWhile_concat_pos _ _ _ (by decide)]
  · conv_lhs => rw [hsplit]
    rw [readLine, readUntil_of_not_mem hline, hafter]
    dsimp only
    rw [if_neg (hsplit ▸ hne)]

theorem rdropWhile_cons {b : UInt8} (hb : isLineEnd b = false)
    (line : Bytes) :
    (b :: line).rdropWhile isLineEnd = b :: line.rdropWhile isLineEnd := by
  induction line using List.reverseRecOn with
  | nil => simp [List.rdropWhile_singleton, hb]
  | append_singleton line c ih =>
      rw [← List.cons_append]
      cases hc : isLineEnd c with
      | true => rw [List.rdropWhile_concat_pos _ _ _ hc, ih,
          List.rdropWhile_concat_pos _ _ _ hc]
      | false =>
          have hc' : ¬ isLineEnd c = true := by simp [hc]
          rw [List.rdropWhile_concat_neg _ _ _ hc',
            List.rdropWhile_concat_neg _ _ _ hc', List.cons_append]

theorem head?_of_rdropWhile {line rest : Bytes} {b : UInt8}
    (h : line.rdropWhile isLineEnd = b :: rest) : line.head? = some b := by
  obtain ⟨ends, hends⟩ := List.rdropWhile_prefix isLineEnd line
  rw [h] at hends
  rw [← hends]
  rfl

theorem isAsciiWhitespace_of_isLineEnd {b : UInt8}
    (hb : isLineEnd b = true) : isAsciiWhitespace b = true := by
  simp only [isLineEnd, Bool.or_eq_true, decide_eq_true_eq] at hb
  rcases hb with rfl | rfl
  · decide
  · decide

/-- Line ends are no part of any word. -/
theorem wordsOf_rdropWhile (line : Bytes) :
    wordsOf (line.rdropWhile isLineEnd) = wordsOf line := by
  induction line using List.reverseRecOn with
  | nil => rfl
  | append_singleton line c ih =>
      cases hc : isLineEnd c with
      | true =>
          have hspace := isAsciiWhitespace_of_isLineEnd hc
          rw [List.rdropWhile_concat_pos _ _ _ hc, ih, wordsOf, wordsOf,
            List.splitOnP_append_cons line [] hspace]
          simp
      | false => rw [List.rdropWhile_concat_neg _ _ _ (by simp [hc])]

/-! ## The two syntaxes -/

/-- A line with a star is the header of an array. -/
theorem readCommand_of_star {reader digits : Bytes}
    (h : lineOf reader = 42 :: digits) :
    readCommand reader = (do
      let count ← parseLen (digits.rdropWhile isLineEnd) maxArgs
      let (args, rest) ← readArgs count.toNat (afterLine reader)
      .ok (some args, rest)) := by
  have hne : reader ≠ [] := by
    rintro rfl
    cases h
  rw [readCommand, readLine_eq hne, h, rdropWhile_cons (by decide)]
  rfl

/-- Any other line is a command of its words. -/
theorem readCommand_of_not_star {reader : Bytes} (hne : reader ≠ [])
    (h : (lineOf reader).head? ≠ some 42) :
    readCommand reader =
      .ok (some (wordsOf (lineOf reader)), afterLine reader) := by
  rw [readCommand, readLine_eq hne, ← wordsOf_rdropWhile, wordsOf]
  split
  next heq => cases heq
  next heq =>
    obtain ⟨heq, -⟩ := Prod.mk.inj heq
    exact absurd (head?_of_rdropWhile (Option.some.inj heq)) h
  next heq =>
    obtain ⟨hline, rfl⟩ := Prod.mk.inj heq
    rw [Option.some.inj hline]

end Lsmrs
