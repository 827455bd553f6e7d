import Lsmrs.Resp.Lines

/-!
# Frames

The bytes that the array branch of `readCommand` takes for its arguments.
The two bytes behind an argument are read but not looked at, so the grammar
is one for any kind of ends.
-/

namespace Lsmrs

open ByteString

/-! ## One argument -/

/-- One turn of the argument loop. -/
def readArg (reader : Bytes) : Result (Bytes × Bytes) := do
  let (some header, reader) := readLine reader | .error connectionClosed
  let (36 :: digits) := header
    | .error (invalid "expected a bulk string argument")
  let len ← parseLen digits maxBulkLen
  if len < 0 then .error (invalid "negative bulk string length")
  let (arg, reader) ← readExact len.toNat reader
  let (_, reader) ← readExact 2 reader
  .ok (arg, reader)

theorem readArgs_succ (count : ℕ) (reader : Bytes) :
    readArgs (count + 1) reader = (do
      let (arg, reader) ← readArg reader
      let (args, reader) ← readArgs count reader
      .ok (arg :: args, reader)) := by
  rw [readArgs, readArg]
  rcases readLine reader with ⟨_ | header, reader⟩
  · rfl
  · dsimp only
    by_cases hdollar : ∃ digits, header = 36 :: digits
    · obtain ⟨digits, rfl⟩ := hdollar
      simp only [bind_assoc]
      congr 1
      funext len
      split_ifs
      · rfl
      · simp only [bind_assoc]
        rfl
    · -- Neither side finds its dollar.
      repeat' split
      all_goals first
        | exact absurd ⟨_, rfl⟩ hdollar
        | rfl

/-! ## The grammar -/

/-- A line that gives a length: a marker, and a number within a limit. -/
def LengthLine (marker : UInt8) (max n : ℤ) (line : Bytes) : Prop :=
  ∃ text, line = marker :: (text ++ [lf]) ∧ lf ∉ text ∧
    parseLen (text.rdropWhile isLineEnd) max = .ok n

/-- Arguments in their frames: a length line, as many bytes, and two that
end them. -/
inductive ArgsFrame (Ends : Bytes → Prop) : List Bytes → Bytes → Prop
  | nil : ArgsFrame Ends [] []
  | cons {arg line ends bytes : Bytes} {args : List Bytes}
      (hline : LengthLine 36 maxBulkLen arg.length line) (hends : Ends ends)
      (hrest : ArgsFrame Ends args bytes) :
      ArgsFrame Ends (arg :: args) (line ++ (arg ++ (ends ++ bytes)))

/-- Any two bytes: what `read_command` asks of the end of an argument. -/
def TwoBytes (ends : Bytes) : Prop :=
  ends.length = 2

/-- The stream begins with a length line. -/
def HeaderAt (marker : UInt8) (max n : ℤ) (reader : Bytes) : Prop :=
  ∃ text, lineOf reader = marker :: text ∧
    parseLen (text.rdropWhile isLineEnd) max = .ok n

theorem LengthLine.headerAt {marker : UInt8} {max n : ℤ} {line : Bytes}
    (h : LengthLine marker max n line) (hmarker : marker ≠ lf)
    (rest : Bytes) :
    HeaderAt marker max n (line ++ rest) ∧ afterLine (line ++ rest) = rest := by
  obtain ⟨text, rfl, hlf, hparse⟩ := h
  have hsplit : marker :: (text ++ [lf]) ++ rest =
      (marker :: text) ++ lf :: rest := by
    simp
  have hnot : lf ∉ marker :: text := by
    simpa using ⟨hmarker.symm, hlf⟩
  obtain ⟨hline, hafter⟩ := lineOf_append hnot rest
  rw [hsplit, HeaderAt, hline, hafter]
  exact ⟨⟨text, rfl, hparse⟩, rfl⟩

/-- A header that something follows is a length line. -/
theorem HeaderAt.lengthLine {marker : UInt8} {max n : ℤ} {reader : Bytes}
    (h : HeaderAt marker max n reader) (hafter : afterLine reader ≠ []) :
    ∃ line, LengthLine marker max n line ∧
      reader = line ++ afterLine reader := by
  obtain ⟨text, hline, hparse⟩ := h
  have hlf := lf_not_mem_lineOf reader
  rcases eq_lineOf_or reader with hsplit | ⟨-, hend⟩
  · rw [hline] at hsplit hlf
    refine ⟨marker :: (text ++ [lf]), ⟨text, rfl, ?_, hparse⟩, ?_⟩
    · exact fun hmem => hlf (List.mem_cons_of_mem _ hmem)
    · simpa using hsplit
  · exact absurd hend hafter

/-! ## One turn of the loop -/

theorem parseLen_error {digits : Bytes} {max : ℤ} {f : Failure}
    (h : parseLen digits max = .error f) :
    ∃ message, f = invalid message := by
  rw [parseLen] at h
  split_ifs at h with hvalid
  · cases hparse : Decimal.parseSigned i64Max digits with
    | none =>
        rw [hparse] at h
        exact ⟨_, (Except.error.inj h).symm⟩
    | some n =>
        rw [hparse] at h
        dsimp only at h
        split_ifs at h with hmax
        exact ⟨_, (Except.error.inj h).symm⟩
  · exact ⟨_, (Except.error.inj h).symm⟩

theorem parseLen_le {digits : Bytes} {max len : ℤ}
    (h : parseLen digits max = .ok len) : len ≤ max := by
  rw [parseLen] at h
  split_ifs at h with hvalid
  cases hparse : Decimal.parseSigned i64Max digits with
  | none =>
      rw [hparse] at h
      cases h
  | some n =>
      rw [hparse] at h
      dsimp only at h
      split_ifs at h with hmax
      obtain rfl := Except.ok.inj h
      exact not_lt.mp hmax

theorem readArg_of_dollar {reader digits : Bytes}
    (h : lineOf reader = 36 :: digits) :
    readArg reader = (do
      let len ← parseLen (digits.rdropWhile isLineEnd) maxBulkLen
      if len < 0 then .error (invalid "negative bulk string length")
      let (arg, rest) ← readExact len.toNat (afterLine reader)
      let (_, rest) ← readExact 2 rest
      .ok (arg, rest)) := by
  have hne : reader ≠ [] := by
    rintro rfl
    cases h
  rw [readArg, readLine_eq hne, h, rdropWhile_cons (by decide)]
  rfl

theorem readArg_of_header {reader : Bytes} {len : ℤ}
    (h : HeaderAt 36 maxBulkLen len reader) :
    readArg reader =
      if len < 0 then .error (invalid "negative bulk string length")
      else (do
        let (arg, rest) ← readExact len.toNat (afterLine reader)
        let (_, rest) ← readExact 2 rest
        .ok (arg, rest)) := by
  obtain ⟨text, hline, hparse⟩ := h
  rw [readArg_of_dollar hline, hparse, ok_bind]
  split_ifs
  · rfl
  · rfl

/-- A line that is no header is refused. -/
theorem readArg_of_not_header {reader : Bytes} (hne : reader ≠ [])
    (h : ∀ len, ¬ HeaderAt 36 maxBulkLen len reader) :
    ∃ message, readArg reader = .error (invalid message) := by
  by_cases hdollar : (lineOf reader).head? = some 36
  · obtain ⟨text, hline⟩ := List.head?_eq_some_iff.mp hdollar
    rw [readArg_of_dollar hline]
    cases hparse : parseLen (text.rdropWhile isLineEnd) maxBulkLen with
    | ok len => exact absurd ⟨text, hline, hparse⟩ (h len)
    | error f =>
        obtain ⟨message, rfl⟩ := parseLen_error hparse
        exact ⟨message, rfl⟩
  · rw [readArg, readLine_eq hne]
    dsimp only
    split
    next digits heq => exact absurd (head?_of_rdropWhile heq) hdollar
    next => exact ⟨_, rfl⟩

/-- What one turn of the loop takes. -/
theorem readArg_eq_ok_iff {reader arg rest : Bytes} :
    readArg reader = .ok (arg, rest) ↔
      ∃ line ends, LengthLine 36 maxBulkLen arg.length line ∧
        TwoBytes ends ∧ reader = line ++ (arg ++ (ends ++ rest)) := by
  constructor
  · intro h
    have hne : reader ≠ [] := by
      rintro rfl
      cases h
    by_cases hheader : ∃ len, HeaderAt 36 maxBulkLen len reader
    · obtain ⟨len, hheader⟩ := hheader
      rw [readArg_of_header hheader] at h
      split_ifs at h with hneg
      obtain ⟨⟨arg', reader₁⟩, harg, h⟩ := bind_eq_ok.mp h
      obtain ⟨⟨ends, reader₂⟩, hends, h⟩ := bind_eq_ok.mp h
      cases h
      obtain ⟨hafter, hlen⟩ := readExact_eq_ok_iff.mp harg
      obtain ⟨rfl, htwo⟩ := readExact_eq_ok_iff.mp hends
      have hmore : afterLine reader ≠ [] := by
        rw [hafter, ← List.length_pos_iff]
        simp only [List.length_append]
        omega
      obtain ⟨line, hline, hreader⟩ := hheader.lengthLine hmore
      have hcast : (arg.length : ℤ) = len := by omega
      exact ⟨line, ends, hcast ▸ hline, htwo, hafter ▸ hreader⟩
    · obtain ⟨message, herror⟩ :=
        readArg_of_not_header hne (not_exists.mp hheader)
      rw [herror] at h
      cases h
  · rintro ⟨line, ends, hline, htwo, rfl⟩
    obtain ⟨hheader, hafter⟩ :=
      hline.headerAt (by decide) (arg ++ (ends ++ rest))
    have hpos : ¬ (arg.length : ℤ) < 0 := by omega
    rw [readArg_of_header hheader, if_neg hpos, hafter, Int.toNat_natCast,
      readExact_append rfl, ok_bind]
    dsimp only
    rw [readExact_append htwo]
    rfl

theorem readArg_framed {arg line ends : Bytes}
    (hline : LengthLine 36 maxBulkLen arg.length line)
    (hends : TwoBytes ends) (bytes rest : Bytes) :
    readArg (line ++ (arg ++ (ends ++ bytes)) ++ rest) =
      .ok (arg, bytes ++ rest) := by
  have hsplit : line ++ (arg ++ (ends ++ bytes)) ++ rest =
      line ++ (arg ++ (ends ++ (bytes ++ rest))) := by
    simp only [List.append_assoc]
  exact readArg_eq_ok_iff.mpr ⟨line, ends, hline, hends, hsplit⟩

/-! ## The whole loop -/

/-- What the loop takes are the frames of the arguments it returns, and it
takes them whatever follows. -/
theorem readArgs_eq_ok_iff {count : ℕ} {reader rest : Bytes}
    {args : List Bytes} :
    readArgs count reader = .ok (args, rest) ↔
      args.length = count ∧
        ∃ bytes, ArgsFrame TwoBytes args bytes ∧ reader = bytes ++ rest := by
  induction count generalizing reader args with
  | zero =>
      constructor
      · intro h
        cases h
        exact ⟨rfl, [], .nil, rfl⟩
      · rintro ⟨hlen, bytes, hframe, rfl⟩
        obtain rfl := List.length_eq_zero_iff.mp hlen
        cases hframe
        rfl
  | succ count ih =>
      rw [readArgs_succ]
      constructor
      · intro h
        obtain ⟨⟨arg, reader₁⟩, harg, h⟩ := bind_eq_ok.mp h
        obtain ⟨⟨args', reader₂⟩, hargs, h⟩ := bind_eq_ok.mp h
        cases h
        obtain ⟨line, ends, hline, hends, rfl⟩ := readArg_eq_ok_iff.mp harg
        obtain ⟨hlen, bytes, hframe, rfl⟩ := ih.mp hargs
        refine ⟨by rw [List.length_cons, hlen],
          line ++ (arg ++ (ends ++ bytes)), .cons hline hends hframe, ?_⟩
        simp
      · rintro ⟨hlen, bytes, hframe, rfl⟩
        cases hframe with
        | nil => cases hlen
        | @cons arg line ends bytes args hline hends hframe =>
            have hargs := ih.mpr ⟨Nat.succ.inj hlen, bytes, hframe, rfl⟩
            rw [readArg_framed hline hends bytes rest, ok_bind]
            dsimp only
            rw [hargs]
            rfl

theorem ArgsFrame.length_le {Ends : Bytes → Prop} {args : List Bytes}
    {bytes : Bytes} (h : ArgsFrame Ends args bytes) :
    ∀ arg ∈ args, (arg.length : ℤ) ≤ maxBulkLen := by
  induction h with
  | nil => simp
  | cons hline hends hrest ih =>
      obtain ⟨text, -, -, hparse⟩ := hline
      exact List.forall_mem_cons.mpr ⟨parseLen_le hparse, ih⟩

/-- An array is its header and the frames of its arguments. -/
theorem readCommand_star_eq_ok_iff {reader digits rest : Bytes}
    {args : List Bytes} (h : lineOf reader = 42 :: digits) :
    readCommand reader = .ok (some args, rest) ↔
      ∃ count, parseLen (digits.rdropWhile isLineEnd) maxArgs = .ok count ∧
        args.length = count.toNat ∧ ∃ bytes, ArgsFrame TwoBytes args bytes ∧
          afterLine reader = bytes ++ rest := by
  rw [readCommand_of_star h, bind_eq_ok]
  constructor
  · rintro ⟨count, hcount, hread⟩
    obtain ⟨⟨args', rest'⟩, hargs, hread⟩ := bind_eq_ok.mp hread
    cases hread
    exact ⟨count, hcount, readArgs_eq_ok_iff.mp hargs⟩
  · rintro ⟨count, hcount, hargs⟩
    refine ⟨count, hcount, ?_⟩
    rw [readArgs_eq_ok_iff.mpr hargs]
    rfl

end Lsmrs
