import Lsmrs.Resp.Desync

/-!
# Commands that are cut off

A stream that ends in the middle of a command.  An array says how much of it
there is to come, so its loss is noticed; an inline line that lost its LF
looks like a shorter command, and is executed.
-/

namespace Lsmrs

open ByteString

/-! ## Whole commands -/

/-- The bytes of a whole command with these arguments: an array with at
least one, or an inline line up to its LF. -/
inductive Sends : List Bytes → Bytes → Prop
  | array {line bytes : Bytes} {args : List Bytes} (hne : args ≠ [])
      (hline : LengthLine 42 maxArgs args.length line)
      (hframe : ArgsFrame IsCrlf args bytes) :
      Sends args (line ++ bytes)
  | inline {line : Bytes} (hline : lf ∉ line)
      (hstar : line.head? ≠ some 42) :
      Sends (wordsOf line) (line ++ [lf])

theorem ArgsFrame.twoBytes {args : List Bytes} {bytes : Bytes}
    (h : ArgsFrame IsCrlf args bytes) : ArgsFrame TwoBytes args bytes := by
  induction h with
  | nil => exact .nil
  | cons hline hends hrest ih =>
      rw [hends]
      exact .cons hline rfl ih

theorem readCommand_sends {args : List Bytes} {bytes : Bytes}
    (h : Sends args bytes) (rest : Bytes) :
    readCommand (bytes ++ rest) = .ok (some args, rest) := by
  cases h with
  | @array line frames args hne hline hframe =>
      obtain ⟨⟨digits, hfirst, hcount⟩, hafter⟩ :=
        hline.headerAt (by decide) (frames ++ rest)
      rw [List.append_assoc, readCommand_star_eq_ok_iff hfirst]
      exact ⟨_, hcount, rfl, frames, hframe.twoBytes, hafter⟩
  | @inline line hline hstar =>
      obtain ⟨hfirst, hafter⟩ := lineOf_append hline rest
      rw [List.append_assoc, List.singleton_append,
        readCommand_of_not_star (by simp) (by rwa [hfirst]), hfirst, hafter]

theorem Sends.ne_nil {args : List Bytes} {bytes : Bytes}
    (h : Sends args bytes) : bytes ≠ [] := by
  rintro rfl
  have hread := readCommand_sends h []
  cases hread

/-! ## Repeated calls -/

/-- `read_command`, called until the stream has ended or is in error: the
commands, and the error. -/
def readCommands : ℕ → Bytes → List (List Bytes) × Option Failure
  | 0, _ => ([], none)
  | turns + 1, reader =>
    match readCommand reader with
    | .ok (none, _) => ([], none)
    | .ok (some args, rest) =>
      let (commands, ended) := readCommands turns rest
      (args :: commands, ended)
    | .error f => ([], some f)

theorem readCommands_sends {commands : List (List Bytes × Bytes)}
    (h : ∀ c ∈ commands, Sends c.1 c.2) (turns : ℕ) (rest : Bytes) :
    readCommands (commands.length + turns)
        (commands.flatMap Prod.snd ++ rest) =
      (commands.map Prod.fst ++ (readCommands turns rest).1,
        (readCommands turns rest).2) := by
  induction commands with
  | nil => simp
  | cons c commands ih =>
      obtain ⟨hc, hcommands⟩ := List.forall_mem_cons.mp h
      have hturns : (c :: commands).length + turns =
          (commands.length + turns) + 1 := by
        rw [List.length_cons]
        omega
      rw [hturns, List.flatMap_cons, List.append_assoc, readCommands,
        readCommand_sends hc]
      dsimp only
      rw [ih hcommands]
      rfl

/-- On whole commands and a part of one more, the calls return the whole
commands and then an error. -/
def CutOffRefused (commands : List (List Bytes × Bytes)) (cut : Bytes) :
    Prop :=
  let stream := commands.flatMap Prod.snd ++ cut
  ∃ e, readCommands (stream.length + 1) stream =
    (commands.map Prod.fst, some (.io e))

theorem length_le_flatMap_sends {commands : List (List Bytes × Bytes)}
    (h : ∀ c ∈ commands, Sends c.1 c.2) :
    commands.length ≤ (commands.flatMap Prod.snd).length := by
  induction commands with
  | nil => simp
  | cons c commands ih =>
      obtain ⟨hc, hcommands⟩ := List.forall_mem_cons.mp h
      have hpos := List.length_pos_iff.mpr hc.ne_nil
      have hle := ih hcommands
      rw [List.flatMap_cons, List.length_append, List.length_cons]
      omega

/-- It is the part that decides. -/
theorem cutOffRefused_iff_error {commands : List (List Bytes × Bytes)}
    (h : ∀ c ∈ commands, Sends c.1 c.2) (cut : Bytes) :
    CutOffRefused commands cut ↔
      ∃ e, readCommand cut = .error (.io e) := by
  have hcount := length_le_flatMap_sends h
  obtain ⟨turns, hturns⟩ : ∃ turns,
      (commands.flatMap Prod.snd ++ cut).length + 1 =
        commands.length + (turns + 1) := by
    refine ⟨(commands.flatMap Prod.snd ++ cut).length - commands.length, ?_⟩
    rw [List.length_append]
    omega
  rw [CutOffRefused, hturns, readCommands_sends h, readCommands]
  cases hread : readCommand cut with
  | error f => simp
  | ok r =>
      obtain ⟨found, rest⟩ := r
      cases found with
      | none => simp
      | some args => simp

/-! ## The part -/

/-- A cut in an array, at a place where what there is of its count is no
number or says that arguments are to come. -/
def ArgumentsToCome (cut : Bytes) : Prop :=
  cut.head? = some 42 ∧ ∀ count, ArrayAt count cut → 0 < count

theorem head?_lineOf {reader : Bytes} :
    (lineOf reader).head? = some 42 ↔ reader.head? = some 42 := by
  cases reader with
  | nil => simp [lineOf]
  | cons b reader =>
      by_cases hb : b = lf
      · subst hb
        simp [lineOf, lf]
      · simp [lineOf, hb]

theorem readArg_error {reader : Bytes} {f : Failure}
    (h : readArg reader = .error f) : ∃ e, f = .io e := by
  by_cases hnil : reader = []
  · subst hnil
    cases h
    exact ⟨_, rfl⟩
  · by_cases hheader : ∃ len, HeaderAt 36 maxBulkLen len reader
    · obtain ⟨len, hheader⟩ := hheader
      rw [readArg_of_header hheader] at h
      split_ifs at h with hneg
      · cases h
        exact ⟨_, rfl⟩
      · rcases bind_eq_error.mp h with h | ⟨⟨arg, reader₁⟩, -, h⟩
        · exact ⟨_, readExact_error h⟩
        · rcases bind_eq_error.mp h with h | ⟨⟨ends, reader₂⟩, -, h⟩
          · exact ⟨_, readExact_error h⟩
          · cases h
    · obtain ⟨message, herror⟩ :=
        readArg_of_not_header hnil (not_exists.mp hheader)
      rw [herror] at h
      cases h
      exact ⟨_, rfl⟩

theorem readArgs_error {count : ℕ} {reader : Bytes} {f : Failure}
    (h : readArgs count reader = .error f) : ∃ e, f = .io e := by
  induction count generalizing reader with
  | zero => cases h
  | succ count ih =>
      rw [readArgs_succ] at h
      rcases bind_eq_error.mp h with h | ⟨⟨arg, reader₁⟩, -, h⟩
      · exact readArg_error h
      · rcases bind_eq_error.mp h with h | ⟨r, -, h⟩
        · exact ih h
        · cases h

/-- An array with arguments that was read whole is read the same whatever
follows it. -/
theorem readCommand_star_append {reader : Bytes} {count : ℤ}
    {args : List Bytes} {rest : Bytes} (harray : ArrayAt count reader)
    (hpos : 0 < count) (h : readCommand reader = .ok (some args, rest))
    (more : Bytes) :
    readCommand (reader ++ more) = .ok (some args, rest ++ more) := by
  obtain ⟨digits, hline, hparse⟩ := harray
  obtain ⟨count', hcount', hlen, bytes, hframe, hafter⟩ :=
    (readCommand_star_eq_ok_iff hline).mp h
  obtain rfl := Except.ok.inj (hparse.symm.trans hcount')
  -- Something follows the header, so it ends with an LF.
  have hne : afterLine reader ≠ [] := by
    rw [hafter]
    cases hframe with
    | nil =>
        rw [List.length_nil] at hlen
        omega
    | cons hheader hends hrest =>
        obtain ⟨text, rfl, -, -⟩ := hheader
        simp
  have hsplit : reader = lineOf reader ++ lf :: afterLine reader := by
    rcases eq_lineOf_or reader with hsplit | ⟨-, hnil⟩
    · exact hsplit
    · exact absurd hnil hne
  obtain ⟨hline', hafter'⟩ := lineOf_append (lf_not_mem_lineOf reader)
    (afterLine reader ++ more)
  have hwhole : reader ++ more =
      lineOf reader ++ lf :: (afterLine reader ++ more) := by
    conv_lhs => rw [hsplit]
    rw [List.append_assoc, List.cons_append]
  rw [← hwhole] at hline' hafter'
  rw [readCommand_star_eq_ok_iff (hline'.trans hline)]
  refine ⟨count, hcount', hlen, bytes, hframe, ?_⟩
  rw [hafter', hafter, List.append_assoc]

/-- Part of an array with arguments to come does not read: it would be the
whole command. -/
theorem Sends.cut_ne_ok {args : List Bytes} {bytes cut : Bytes}
    (h : Sends args bytes) (hcut : cut <+: bytes) (hpart : cut ≠ bytes)
    {count : ℤ} (harray : ArrayAt count cut) (hpos : 0 < count)
    (r : Option (List Bytes) × Bytes) : readCommand cut ≠ .ok r := by
  intro hread
  obtain ⟨more, rfl⟩ := hcut
  obtain ⟨found, rest⟩ := r
  have hloop := hread
  rw [harray.readCommand_eq] at hloop
  obtain ⟨⟨args', rest'⟩, -, hfound⟩ := bind_eq_ok.mp hloop
  cases hfound
  have hwhole := readCommand_star_append harray hpos hread more
  have hsent := readCommand_sends h []
  rw [List.append_nil, hwhole] at hsent
  obtain ⟨-, hmore⟩ := Prod.mk.inj (Except.ok.inj hsent)
  obtain ⟨-, rfl⟩ := List.append_eq_nil_iff.mp hmore
  exact hpart (List.append_nil _).symm

/-- A part of a command is refused exactly when arguments are to come. -/
theorem readCommand_cut_iff {args : List Bytes} {bytes cut : Bytes}
    (h : Sends args bytes) (hcut : cut <+: bytes) (hne : cut ≠ [])
    (hpart : cut ≠ bytes) :
    (∃ e, readCommand cut = .error (.io e)) ↔ ArgumentsToCome cut := by
  by_cases hstar : cut.head? = some 42
  · obtain ⟨digits, hline⟩ := List.head?_eq_some_iff.mp (head?_lineOf.mpr hstar)
    rw [ArgumentsToCome, and_iff_right hstar]
    cases hparse : parseLen (digits.rdropWhile isLineEnd) maxArgs with
    | error f =>
        obtain ⟨message, rfl⟩ := parseLen_error hparse
        have hread : readCommand cut = .error (invalid message) := by
          rw [readCommand_of_star hline, hparse]
          rfl
        refine ⟨fun _ count harray => ?_, fun _ => ⟨_, hread⟩⟩
        obtain ⟨digits', hline', hparse'⟩ := harray
        rw [hline] at hline'
        cases hline'
        rw [hparse] at hparse'
        cases hparse'
    | ok count =>
        have harray : ArrayAt count cut := ⟨digits, hline, hparse⟩
        have hcount : (∀ n, ArrayAt n cut → 0 < n) ↔ 0 < count :=
          ⟨fun hall => hall count harray,
            fun hpos n hn => harray.unique hn ▸ hpos⟩
        rw [hcount]
        constructor
        · rintro ⟨e, herror⟩
          by_contra hzero
          rw [harray.readCommand_eq, Int.toNat_eq_zero.mpr (by omega)] at herror
          cases herror
        · intro hpos
          cases hread : readCommand cut with
          | error f =>
              rw [harray.readCommand_eq] at hread
              rcases bind_eq_error.mp hread with hread | ⟨r, -, hread⟩
              · obtain ⟨e, rfl⟩ := readArgs_error hread
                exact ⟨e, rfl⟩
              · cases hread
          | ok r => exact absurd hread (h.cut_ne_ok hcut hpart harray hpos r)
  · have hread := readCommand_of_not_star hne (mt head?_lineOf.mp hstar)
    constructor
    · rintro ⟨e, herror⟩
      rw [hread] at herror
      cases herror
    · exact fun hcome => absurd hcome.1 hstar

/-- What was cut off is never executed exactly when it is an array with
arguments to come. -/
theorem cutOffRefused_iff {commands : List (List Bytes × Bytes)}
    (hcommands : ∀ c ∈ commands, Sends c.1 c.2) {args : List Bytes}
    {bytes cut : Bytes} (h : Sends args bytes) (hcut : cut <+: bytes)
    (hne : cut ≠ []) (hpart : cut ≠ bytes) :
    CutOffRefused commands cut ↔ ArgumentsToCome cut :=
  (cutOffRefused_iff_error hcommands cut).trans
    (readCommand_cut_iff h hcut hne hpart)

/-! ## What clients send -/

theorem lengthLine_ofNat (marker : UInt8) {n : ℕ} {max : ℤ}
    (hmax : (n : ℤ) ≤ max) (hi64 : n ≤ i64Max) :
    LengthLine marker max n (marker :: (Decimal.ofNat n ++ crlf)) := by
  have hdigit : ∀ b ∈ Decimal.ofNat n, isLineEnd b = false :=
    fun _ => isLineEnd_of_mem_ofNat
  refine ⟨Decimal.ofNat n ++ [cr], by simp [crlf], ?_, ?_⟩
  · intro hmem
    rcases List.mem_append.mp hmem with hmem | hmem
    · exact absurd (hdigit lf hmem) (by decide)
    · exact absurd (List.mem_singleton.mp hmem) (by decide)
  · rw [List.rdropWhile_concat_pos _ _ _ (by decide),
      rdropWhile_of_not_lineEnd hdigit]
    exact parseLen_ofNat hmax hi64

theorem argsFrame_encode {args : List Bytes}
    (h : ∀ arg ∈ args, (arg.length : ℤ) ≤ maxBulkLen) :
    ArgsFrame IsCrlf args (args.flatMap encodeArg) := by
  induction args with
  | nil => exact .nil
  | cons arg args ih =>
      obtain ⟨harg, hargs⟩ := List.forall_mem_cons.mp h
      have hi64 : arg.length ≤ i64Max := by
        simp only [maxBulkLen, i64Max] at harg ⊢
        omega
      have hsplit : (arg :: args).flatMap encodeArg =
          (36 :: (Decimal.ofNat arg.length ++ crlf)) ++
            (arg ++ (crlf ++ args.flatMap encodeArg)) := by
        simp [encodeArg]
      rw [hsplit]
      exact .cons (lengthLine_ofNat 36 harg hi64) rfl (ih hargs)

theorem sends_array {args : List Bytes} (hne : args ≠ [])
    (hvalid : (WireCommand.array args).Valid) :
    Sends args (WireCommand.array args).encode := by
  obtain ⟨hcount, hargs⟩ := hvalid
  have hi64 : args.length ≤ i64Max := by
    simp only [maxArgs, i64Max] at hcount ⊢
    omega
  have hsplit : (WireCommand.array args).encode =
      (42 :: (Decimal.ofNat args.length ++ crlf)) ++
        args.flatMap encodeArg := by
    simp [WireCommand.encode]
  rw [hsplit]
  exact .array hne (lengthLine_ofNat 42 hcount hi64) (argsFrame_encode hargs)

theorem sends_inline (line : Bytes) {args : List Bytes} (hline : lf ∉ line)
    (hstar : line.head? ≠ some 42) (hargs : wordsOf line = args) :
    Sends args (line ++ [lf]) :=
  hargs ▸ .inline hline hstar

/-- Behind a whole inline command, an array loses its last argument. -/
theorem cutOffRefused_array :
    CutOffRefused [([ascii "PING"], ascii "PING\n")]
      (ascii "*2\r\n$3\r\nGET\r\n$3\r\nk") := by
  have hcommands : ∀ c ∈ [([ascii "PING"], ascii "PING\n")],
      Sends c.1 c.2 := by
    intro c hc
    rw [List.mem_singleton.mp hc]
    exact sends_inline (ascii "PING") (by decide) (by decide) (by decide)
  have hsends : Sends [ascii "GET", ascii "key"]
      (WireCommand.array [ascii "GET", ascii "key"]).encode :=
    sends_array (by decide) (by decide)
  have harray : ArrayAt 2 (ascii "*2\r\n$3\r\nGET\r\n$3\r\nk") :=
    ⟨ascii "2\r", by decide, by decide +kernel⟩
  refine (cutOffRefused_iff hcommands hsends (by decide +kernel) (by decide)
    (by decide +kernel)).mpr ⟨rfl, ?_⟩
  intro count hcount
  rw [← harray.unique hcount]
  decide

/-- A value loses its last letters. -/
theorem cut_inline_executed :
    Sends [ascii "SET", ascii "key", ascii "value"]
        (ascii "SET key value\n") ∧
      ascii "SET key val" <+: ascii "SET key value\n" ∧
      readCommand (ascii "SET key val") =
        .ok (some [ascii "SET", ascii "key", ascii "val"], []) ∧
      ¬ CutOffRefused [] (ascii "SET key val") := by
  have hsends : Sends [ascii "SET", ascii "key", ascii "value"]
      (ascii "SET key value\n") :=
    sends_inline (ascii "SET key value") (by decide) (by decide) (by decide)
  have hread : readCommand (ascii "SET key val") =
      .ok (some [ascii "SET", ascii "key", ascii "val"], []) := by
    decide +kernel
  refine ⟨hsends, by decide, hread, ?_⟩
  rw [cutOffRefused_iff_error (by simp), hread]
  simp

end Lsmrs
