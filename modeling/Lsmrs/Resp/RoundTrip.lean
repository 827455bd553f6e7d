import Lsmrs.Resp.Protocol

/-!
# Reading back a pipelined stream

Encodings of commands, and the proof that `readCommand` takes exactly one
encoding off the front of a stream, whatever bytes its arguments hold.
-/

namespace Lsmrs

open ByteString

/-! ## Lines -/

theorem readUntil_append {xs : Bytes} (hxs : lf ∉ xs) (rest : Bytes) :
    readUntil lf (xs ++ lf :: rest) = (xs ++ [lf], rest) := by
  induction xs with
  | nil => simp [readUntil]
  | cons b xs ih =>
      obtain ⟨hb, hxs⟩ := not_or.mp (List.mem_cons.not.mp hxs)
      simp [readUntil, Ne.symm hb, ih hxs]

theorem rdropWhile_of_not_lineEnd {line : Bytes}
    (hline : ∀ b ∈ line, isLineEnd b = false) :
    line.rdropWhile isLineEnd = line := by
  rw [List.rdropWhile_eq_self_iff]
  intro hne
  simp [hline _ (List.getLast_mem hne)]

/-- A line without line ends in it is read up to its CRLF. -/
theorem readLine_append {line : Bytes}
    (hline : ∀ b ∈ line, isLineEnd b = false) (rest : Bytes) :
    readLine (line ++ (crlf ++ rest)) = (some line, rest) := by
  have hlf : lf ∉ line ++ [cr] := by
    intro hmem
    rcases List.mem_append.mp hmem with h | h
    · exact absurd (hline lf h) (by decide)
    · exact absurd (List.mem_singleton.mp h) (by decide)
  have hsplit : line ++ (crlf ++ rest) = (line ++ [cr]) ++ lf :: rest := by
    simp [crlf]
  rw [hsplit, readLine, readUntil_append hlf]
  have hne : line ++ [cr] ++ [lf] ≠ [] := by simp
  simp only [if_neg hne]
  rw [List.rdropWhile_concat_pos _ _ _ (by decide),
    List.rdropWhile_concat_pos _ _ _ (by decide),
    rdropWhile_of_not_lineEnd hline]

theorem isLineEnd_of_isDigit {b : UInt8} (hb : Decimal.isDigit b = true) :
    isLineEnd b = false := by
  rw [Bool.eq_false_iff]
  intro hend
  simp only [isLineEnd, Bool.or_eq_true, decide_eq_true_eq] at hend
  rcases hend with rfl | rfl <;> exact absurd hb (by decide)

theorem isLineEnd_of_mem_ofNat {n : ℕ} {b : UInt8}
    (hb : b ∈ Decimal.ofNat n) : isLineEnd b = false :=
  isLineEnd_of_isDigit (Decimal.isDigit_of_mem_ofNat hb)

/-- A header line: one marker byte and a length. -/
theorem readLine_header {marker : UInt8}
    (hmarker : isLineEnd marker = false) (n : ℕ) (rest : Bytes) :
    readLine (marker :: (Decimal.ofNat n ++ (crlf ++ rest))) =
      (some (marker :: Decimal.ofNat n), rest) := by
  rw [← List.cons_append]
  apply readLine_append
  rintro b (_ | ⟨_, hb⟩)
  · exact hmarker
  · exact isLineEnd_of_mem_ofNat hb

theorem isValid_ofNat (n : ℕ) :
    Utf8.isValid (Decimal.ofNat n) = true := by
  apply Utf8.isValid_of_ascii
  intro b hb
  have hdigit := Decimal.isDigit_of_mem_ofNat hb
  simp only [Decimal.isDigit, Bool.and_eq_true, decide_eq_true_eq] at hdigit
  exact lt_of_le_of_lt hdigit.2 (by decide)

theorem parseLen_ofNat {n : ℕ} {max : ℤ}
    (hmax : (n : ℤ) ≤ max) (hi64 : n ≤ i64Max) :
    parseLen (Decimal.ofNat n) max = .ok (n : ℤ) := by
  simp [parseLen, isValid_ofNat, Decimal.parseSigned_ofNat hi64,
    not_lt.mpr hmax]

/-! ## Encodings -/

/-- `$len` CRLF, the bytes, CRLF. -/
def encodeArg (arg : Bytes) : Bytes :=
  36 :: (Decimal.ofNat arg.length ++ (crlf ++ (arg ++ crlf)))

/-- Words with spaces between them: one, and as many more as `gaps` says. -/
def joinSpaces : List Bytes → List ℕ → Bytes
  | [], _ => []
  | [word], _ => word
  | word :: words, gaps =>
      word ++ (List.replicate (gaps.headD 0 + 1) 32 ++
        joinSpaces words gaps.tail)

/-- A command as a client sends it. -/
inductive WireCommand where
  | array (args : List Bytes)
  | inline (words : List Bytes) (gaps : List ℕ)
  deriving DecidableEq, Repr

/-- The arguments a command carries. -/
def WireCommand.args : WireCommand → List Bytes
  | .array args => args
  | .inline words _ => words

def WireCommand.encode : WireCommand → Bytes
  | .array args =>
      42 :: (Decimal.ofNat args.length ++ (crlf ++ args.flatMap encodeArg))
  | .inline words gaps => joinSpaces words gaps ++ crlf

/-- The protocol's limits on an array; an inline line is made of words
without whitespace and does not look like an array. -/
def WireCommand.Valid : WireCommand → Prop
  | .array args =>
      (args.length : ℤ) ≤ maxArgs ∧
        ∀ arg ∈ args, (arg.length : ℤ) ≤ maxBulkLen
  | .inline words gaps =>
      (∀ word ∈ words, word ≠ [] ∧
        ∀ b ∈ word, isAsciiWhitespace b = false) ∧
      (joinSpaces words gaps).head? ≠ some 42

instance (c : WireCommand) : Decidable c.Valid := by
  cases c <;> unfold WireCommand.Valid <;> infer_instance

def encodeAll (commands : List WireCommand) : Bytes :=
  commands.flatMap WireCommand.encode

/-! ## Arrays -/

theorem readExact_crlf (rest : Bytes) :
    readExact 2 (crlf ++ rest) = .ok (crlf, rest) := by
  have hlen : crlf.length = 2 := rfl
  exact readExact_append hlen rest

theorem readArgs_encode {args : List Bytes}
    (hargs : ∀ arg ∈ args, (arg.length : ℤ) ≤ maxBulkLen)
    (rest : Bytes) :
    readArgs args.length (args.flatMap encodeArg ++ rest) =
      .ok (args, rest) := by
  induction args with
  | nil => rfl
  | cons arg args ih =>
      obtain ⟨harg, hargs⟩ := List.forall_mem_cons.mp hargs
      have hi64 : arg.length ≤ i64Max := by
        simp only [maxBulkLen, i64Max] at harg ⊢
        omega
      have hsplit : (arg :: args).flatMap encodeArg ++ rest =
          36 :: (Decimal.ofNat arg.length ++ (crlf ++ (arg ++ (crlf ++
            (args.flatMap encodeArg ++ rest))))) := by
        simp [encodeArg]
      have hneg : ¬ (arg.length : ℤ) < 0 := by omega
      rw [hsplit, List.length_cons, readArgs, readLine_header (by decide)]
      simp only [parseLen_ofNat harg hi64, ok_bind, if_neg hneg,
        Int.toNat_natCast, readExact_append (rfl : arg.length = arg.length),
        readExact_crlf, ih hargs]

theorem readCommand_array {args : List Bytes}
    (hvalid : (WireCommand.array args).Valid) (rest : Bytes) :
    readCommand ((WireCommand.array args).encode ++ rest) =
      .ok (some args, rest) := by
  obtain ⟨hcount, hargs⟩ := hvalid
  have hi64 : args.length ≤ i64Max := by
    simp only [maxArgs, i64Max] at hcount ⊢
    omega
  have hsplit : (WireCommand.array args).encode ++ rest =
      42 :: (Decimal.ofNat args.length ++ (crlf ++
        (args.flatMap encodeArg ++ rest))) := by
    simp [WireCommand.encode]
  rw [hsplit, readCommand, readLine_header (by decide)]
  simp only [parseLen_ofNat hcount hi64, ok_bind, Int.toNat_natCast,
    readArgs_encode hargs]

/-! ## Inline lines -/

/-- The words of a line. -/
def wordsOf (line : Bytes) : List Bytes :=
  (line.splitOnP isAsciiWhitespace).filter (· ≠ [])

theorem wordsOf_word {word : Bytes} (hne : word ≠ [])
    (hword : ∀ b ∈ word, isAsciiWhitespace b = false) :
    wordsOf word = [word] := by
  simp [wordsOf, List.splitOnP_eq_singleton hword, hne]

theorem wordsOf_space (line : Bytes) : wordsOf (32 :: line) = wordsOf line := by
  have hspace : isAsciiWhitespace 32 = true := by decide
  simp [wordsOf, List.splitOnP_cons_eq_if_modifyHead, hspace]

theorem wordsOf_spaces (n : ℕ) (line : Bytes) :
    wordsOf (List.replicate n 32 ++ line) = wordsOf line := by
  induction n with
  | zero => rfl
  | succ n ih =>
      rw [List.replicate_succ, List.cons_append, wordsOf_space, ih]

theorem wordsOf_append {word : Bytes} (hne : word ≠ [])
    (hword : ∀ b ∈ word, isAsciiWhitespace b = false) (line : Bytes) :
    wordsOf (word ++ 32 :: line) = word :: wordsOf line := by
  rw [wordsOf, List.splitOnP_append_cons_of_forall_mem hword 32 (by decide)]
  simp [wordsOf, hne]

theorem wordsOf_joinSpaces {words : List Bytes}
    (hwords : ∀ word ∈ words, word ≠ [] ∧
      ∀ b ∈ word, isAsciiWhitespace b = false) (gaps : List ℕ) :
    wordsOf (joinSpaces words gaps) = words := by
  induction words generalizing gaps with
  | nil => rfl
  | cons word words ih =>
      obtain ⟨⟨hne, hword⟩, hwords⟩ := List.forall_mem_cons.mp hwords
      cases words with
      | nil => exact wordsOf_word hne hword
      | cons word' words =>
          rw [joinSpaces, List.replicate_succ, List.cons_append,
            wordsOf_append hne hword, wordsOf_spaces, ih hwords]
          simp

theorem not_lineEnd_of_mem_joinSpaces {words : List Bytes}
    (hwords : ∀ word ∈ words, ∀ b ∈ word, isAsciiWhitespace b = false)
    (gaps : List ℕ) :
    ∀ b ∈ joinSpaces words gaps, isLineEnd b = false := by
  have hword : ∀ b : UInt8, isAsciiWhitespace b = false →
      isLineEnd b = false := by
    intro b hb
    rw [Bool.eq_false_iff] at hb ⊢
    intro hend
    apply hb
    simp only [isLineEnd, Bool.or_eq_true, decide_eq_true_eq] at hend
    rcases hend with rfl | rfl <;> decide
  induction words generalizing gaps with
  | nil => simp [joinSpaces]
  | cons word words ih =>
      obtain ⟨hhead, hwords⟩ := List.forall_mem_cons.mp hwords
      cases words with
      | nil => exact fun b hb => hword b (hhead b hb)
      | cons word' words =>
          intro b hb
          rw [joinSpaces, List.mem_append, List.mem_append] at hb
          · rcases hb with hb | hb | hb
            · exact hword b (hhead b hb)
            · rw [List.eq_of_mem_replicate hb]
              decide
            · exact ih hwords gaps.tail b hb
          · simp

theorem readCommand_inline {words : List Bytes} {gaps : List ℕ}
    (hvalid : (WireCommand.inline words gaps).Valid) (rest : Bytes) :
    readCommand ((WireCommand.inline words gaps).encode ++ rest) =
      .ok (some words, rest) := by
  obtain ⟨hwords, hhead⟩ := hvalid
  have hline := readLine_append
    (not_lineEnd_of_mem_joinSpaces (fun w hw => (hwords w hw).2) gaps) rest
  rw [WireCommand.encode, List.append_assoc, readCommand, hline]
  have hparts := wordsOf_joinSpaces hwords gaps
  cases hjoin : joinSpaces words gaps with
  | nil =>
      rw [hjoin] at hparts
      simp only [← hparts, wordsOf]
  | cons b line =>
      have hb : b ≠ 42 := by
        rintro rfl
        exact hhead (by rw [hjoin]; rfl)
      rw [hjoin] at hparts
      split
      next heq => cases heq
      next heq =>
        simp only [Prod.mk.injEq, Option.some.injEq, List.cons.injEq] at heq
        exact absurd heq.1.1 hb
      next heq =>
        simp only [Prod.mk.injEq, Option.some.injEq] at heq
        obtain ⟨rfl, rfl⟩ := heq
        rw [← hparts, wordsOf]

/-! ## The stream -/

/-- One call takes one command's bytes, whatever follows them. -/
theorem readCommand_encode {c : WireCommand} (hc : c.Valid)
    (rest : Bytes) :
    readCommand (c.encode ++ rest) = .ok (some c.args, rest) := by
  cases c with
  | array args => exact readCommand_array hc rest
  | inline words gaps => exact readCommand_inline hc rest

/-- Call `readCommand` `calls` times, noting after each call what it
returned and the bytes it left. -/
def readCalls : ℕ → Bytes → Result (List (Option (List Bytes) × Bytes))
  | 0, _ => .ok []
  | calls + 1, reader => do
    let (command, rest) ← readCommand reader
    let later ← readCalls calls rest
    .ok ((command, rest) :: later)

/-- What the calls on a stream of commands should return and leave. -/
def expectedCalls : List WireCommand → List (Option (List Bytes) × Bytes)
  | [] => [(none, [])]
  | c :: commands => (some c.args, encodeAll commands) ::
      expectedCalls commands

/-- Repeated calls on a pipelined stream return its commands in order, each
call consuming exactly its own command's bytes, and then the end of the
stream. -/
theorem readCalls_encodeAll {commands : List WireCommand}
    (hcommands : ∀ c ∈ commands, c.Valid) :
    readCalls (commands.length + 1) (encodeAll commands) =
      .ok (expectedCalls commands) := by
  induction commands with
  | nil => rfl
  | cons c commands ih =>
      obtain ⟨hc, hcommands⟩ := List.forall_mem_cons.mp hcommands
      have hsplit : encodeAll (c :: commands) =
          c.encode ++ encodeAll commands := by
        simp [encodeAll]
      rw [hsplit, List.length_cons, readCalls, readCommand_encode hc]
      simp only [ok_bind, ih hcommands]
      rfl

/-- An argument full of delimiters, an inline line and an empty array. -/
theorem readCalls_encodeAll_mixed :
    let commands : List WireCommand :=
      [.array [ascii "SET", ascii "k", ascii "\r\n$3\r\n*1\r\n"],
        .inline [ascii "GET", ascii "k"] [1], .array []]
    readCalls 4 (encodeAll commands) = .ok (expectedCalls commands) :=
  readCalls_encodeAll (by decide)

end Lsmrs
