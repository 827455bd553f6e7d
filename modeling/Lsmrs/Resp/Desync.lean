import Lsmrs.Resp.Frames

/-!
# Desynchronised frames

The two bytes behind an argument are not compared with CRLF.  A declared
length that does not land on a CRLF is noticed only when a later header
turns out to be none.
-/

namespace Lsmrs

open ByteString

/-- A CRLF: what the protocol has at the end of an argument. -/
def IsCrlf (ends : Bytes) : Prop :=
  ends = crlf

/-- The stream begins with the header of an array of so many arguments. -/
def ArrayAt (count : ℤ) (reader : Bytes) : Prop :=
  HeaderAt 42 maxArgs count reader

/-- Some declared length does not land on a CRLF: behind well-formed frames
stands one that two other bytes end. -/
def Desync (reader : Bytes) : Prop :=
  ∃ count args bytes arg line ends rest,
    ArrayAt count reader ∧ args.length < count.toNat ∧
    ArgsFrame IsCrlf args bytes ∧
    LengthLine 36 maxBulkLen (arg.length : ℤ) line ∧
    TwoBytes ends ∧ ends ≠ crlf ∧
    afterLine reader = bytes ++ (line ++ (arg ++ (ends ++ rest)))

/-- The call fails with `InvalidData`. -/
def Rejects (reader : Bytes) : Prop :=
  ∃ message, readCommand reader = .error (ioError .invalidData message)

/-- An array that is accepted is a count line and well-formed frames, and a
desynchronised one is rejected. -/
def FramesChecked (reader : Bytes) : Prop :=
  (∀ args rest, (lineOf reader).head? = some 42 →
    readCommand reader = .ok (some args, rest) →
      ∃ count, ArrayAt count reader ∧ args.length = count.toNat ∧
        ∃ bytes, ArgsFrame IsCrlf args bytes ∧
          afterLine reader = bytes ++ rest) ∧
  (Desync reader → Rejects reader)

/-- A line that is no header of an argument. -/
def BadHeader (reader : Bytes) : Prop :=
  reader ≠ [] ∧ ∀ len, HeaderAt 36 maxBulkLen len reader → len < 0

/-- Taking any two bytes for the end of an argument, one comes to a line that
is no header, with arguments still to read. -/
def MeetsBadHeader (reader : Bytes) : Prop :=
  ∃ count args bytes rest,
    ArrayAt count reader ∧ args.length < count.toNat ∧
    ArgsFrame TwoBytes args bytes ∧ afterLine reader = bytes ++ rest ∧
    BadHeader rest

/-! ## Rejecting -/

theorem readArg_invalidData_iff {reader : Bytes} :
    (∃ message, readArg reader = .error (ioError .invalidData message)) ↔
      BadHeader reader := by
  constructor
  · rintro ⟨message, h⟩
    have hne : reader ≠ [] := by
      rintro rfl
      cases h
    refine ⟨hne, ?_⟩
    intro len hheader
    rw [readArg_of_header hheader] at h
    split_ifs at h with hneg
    · exact hneg
    · -- Past the header only the end of the stream fails.
      rcases bind_eq_error.mp h with h | ⟨⟨arg, reader₁⟩, -, h⟩
      · cases readExact_error h
      · rcases bind_eq_error.mp h with h | ⟨⟨ends, reader₂⟩, -, h⟩
        · cases readExact_error h
        · cases h
  · rintro ⟨hne, hbad⟩
    by_cases hheader : ∃ len, HeaderAt 36 maxBulkLen len reader
    · obtain ⟨len, hheader⟩ := hheader
      rw [readArg_of_header hheader, if_pos (hbad len hheader)]
      exact ⟨_, rfl⟩
    · obtain ⟨message, herror⟩ :=
        readArg_of_not_header hne (not_exists.mp hheader)
      exact ⟨_, herror⟩

theorem readArgs_invalidData_iff {count : ℕ} {reader : Bytes} :
    (∃ message,
      readArgs count reader = .error (ioError .invalidData message)) ↔
      ∃ args bytes rest, args.length < count ∧
        ArgsFrame TwoBytes args bytes ∧ reader = bytes ++ rest ∧
        BadHeader rest := by
  induction count generalizing reader with
  | zero => simp [readArgs]
  | succ count ih =>
      simp only [readArgs_succ]
      constructor
      · rintro ⟨message, h⟩
        rcases bind_eq_error.mp h with h | ⟨⟨arg, reader₁⟩, harg, h⟩
        · exact ⟨[], [], reader, by simp, .nil, rfl,
            readArg_invalidData_iff.mp ⟨message, h⟩⟩
        · rcases bind_eq_error.mp h with h | ⟨r, -, h⟩
          · obtain ⟨args, bytes, rest, hlen, hframe, rfl, hbad⟩ :=
              ih.mp ⟨message, h⟩
            obtain ⟨line, ends, hline, hends, rfl⟩ :=
              readArg_eq_ok_iff.mp harg
            exact ⟨arg :: args, line ++ (arg ++ (ends ++ bytes)), rest,
              Nat.succ_lt_succ hlen, .cons hline hends hframe, by simp, hbad⟩
          · cases h
      · rintro ⟨args, bytes, rest, hlen, hframe, rfl, hbad⟩
        cases hframe with
        | nil =>
            obtain ⟨message, herror⟩ := readArg_invalidData_iff.mpr hbad
            exact ⟨message, bind_eq_error.mpr (Or.inl herror)⟩
        | @cons arg line ends bytes args hline hends hframe =>
            have harg := readArg_framed hline hends bytes rest
            obtain ⟨message, herror⟩ := ih.mpr
              ⟨args, bytes, rest, Nat.lt_of_succ_lt_succ hlen, hframe, rfl,
                hbad⟩
            refine ⟨message, bind_eq_error.mpr (Or.inr ⟨_, harg, ?_⟩)⟩
            exact bind_eq_error.mpr (Or.inl herror)

theorem ArrayAt.readCommand_eq {reader : Bytes} {count : ℤ}
    (h : ArrayAt count reader) :
    readCommand reader = (do
      let (args, rest) ← readArgs count.toNat (afterLine reader)
      .ok (some args, rest)) := by
  obtain ⟨digits, hline, hparse⟩ := h
  rw [readCommand_of_star hline, hparse, ok_bind]

theorem ArrayAt.unique {reader : Bytes} {count count' : ℤ}
    (h : ArrayAt count reader) (h' : ArrayAt count' reader) :
    count = count' := by
  obtain ⟨digits, hline, hparse⟩ := h
  obtain ⟨digits', hline', hparse'⟩ := h'
  rw [hline] at hline'
  cases hline'
  exact Except.ok.inj (hparse.symm.trans hparse')

/-- An array is rejected for its arguments when a bad header is met. -/
theorem ArrayAt.rejects_iff {reader : Bytes} {count : ℤ}
    (h : ArrayAt count reader) :
    Rejects reader ↔ MeetsBadHeader reader := by
  have hloop : Rejects reader ↔ ∃ message, readArgs count.toNat
      (afterLine reader) = .error (ioError .invalidData message) := by
    rw [Rejects, h.readCommand_eq]
    constructor
    · rintro ⟨message, herror⟩
      rcases bind_eq_error.mp herror with herror | ⟨r, -, herror⟩
      · exact ⟨message, herror⟩
      · cases herror
    · rintro ⟨message, herror⟩
      exact ⟨message, bind_eq_error.mpr (Or.inl herror)⟩
  rw [hloop, readArgs_invalidData_iff]
  constructor
  · rintro ⟨args, bytes, rest, hlen, hframe, hafter, hbad⟩
    exact ⟨count, args, bytes, rest, h, hlen, hframe, hafter, hbad⟩
  · rintro ⟨count', args, bytes, rest, h', hlen, hframe, hafter, hbad⟩
    obtain rfl := h.unique h'
    exact ⟨args, bytes, rest, hlen, hframe, hafter, hbad⟩

/-! ## Accepting -/

/-- Frames whose ends are not looked at are well formed, or one of them,
behind well-formed ones, does not end with a CRLF. -/
theorem ArgsFrame.crlf_or {args : List Bytes} {bytes : Bytes}
    (h : ArgsFrame TwoBytes args bytes) :
    ArgsFrame IsCrlf args bytes ∨
      ∃ before frames arg line ends rest, before.length < args.length ∧
        ArgsFrame IsCrlf before frames ∧
        LengthLine 36 maxBulkLen (arg.length : ℤ) line ∧
        TwoBytes ends ∧ ends ≠ crlf ∧
        bytes = frames ++ (line ++ (arg ++ (ends ++ rest))) := by
  induction h with
  | nil => exact Or.inl .nil
  | @cons arg line ends bytes args hline hends hrest ih =>
      by_cases hcrlf : ends = crlf
      · rcases ih with hframe | ⟨before, frames, arg', line', ends', rest,
          hlen, hframe, hline', hends', hne, rfl⟩
        · exact Or.inl (.cons hline hcrlf hframe)
        · right
          exact ⟨arg :: before, line ++ (arg ++ (ends ++ frames)), arg', line',
            ends', rest, Nat.succ_lt_succ hlen, .cons hline hcrlf hframe,
            hline', hends', hne, by simp⟩
      · exact Or.inr ⟨[], [], arg, line, ends, bytes, Nat.succ_pos _, .nil,
          hline, hends, hcrlf, rfl⟩

/-- Frames are checked exactly when every desynchronised one is followed, as
the frames are taken, by a line that is no header. -/
theorem framesChecked_iff (reader : Bytes) :
    FramesChecked reader ↔ (Desync reader → MeetsBadHeader reader) := by
  constructor
  · rintro ⟨-, hrejects⟩ hdesync
    have hrejected := hrejects hdesync
    obtain ⟨count, -, -, -, -, -, -, harray, -⟩ := hdesync
    exact harray.rejects_iff.mp hrejected
  · intro h
    have hrejects : Desync reader → Rejects reader := by
      intro hdesync
      have hmeets := h hdesync
      obtain ⟨count, -, -, -, -, -, -, harray, -⟩ := hdesync
      exact harray.rejects_iff.mpr hmeets
    refine ⟨?_, hrejects⟩
    intro args rest hstar hread
    obtain ⟨digits, hline⟩ := List.head?_eq_some_iff.mp hstar
    obtain ⟨count, hcount, hlen, bytes, hframe, hafter⟩ :=
      (readCommand_star_eq_ok_iff hline).mp hread
    have harray : ArrayAt count reader := ⟨digits, hline, hcount⟩
    rcases hframe.crlf_or with hcrlf | ⟨before, frames, arg, line, ends, rest',
      hbefore, hframes, harg, hends, hne, rfl⟩
    · exact ⟨count, harray, hlen, bytes, hcrlf, hafter⟩
    · -- It would have been rejected.
      obtain ⟨message, herror⟩ := hrejects ⟨count, before, frames, arg, line,
        ends, rest' ++ rest, harray, hlen ▸ hbefore, hframes, harg, hends, hne,
        by simp [hafter]⟩
      rw [hread] at herror
      cases herror

/-- A length that is two short of the argument, and what is then read as the
next command. -/
def shortLength : Bytes :=
  ascii "*1\r\n$1\r\nabcQUIT\r\n"

theorem shortLength_not_checked :
    ¬ FramesChecked shortLength ∧
      readCommand shortLength =
        .ok (some [ascii "a"], ascii "QUIT\r\n") := by
  have hread : readCommand shortLength =
      .ok (some [ascii "a"], ascii "QUIT\r\n") := by
    decide +kernel
  refine ⟨?_, hread⟩
  rintro ⟨-, hrejects⟩
  have hdesync : Desync shortLength :=
    ⟨1, [], [], ascii "a", ascii "$1\r\n", ascii "bc", ascii "QUIT\r\n",
      ⟨ascii "1\r", by decide, by decide +kernel⟩, by decide, .nil,
      ⟨ascii "1\r", by decide, by decide, by decide +kernel⟩, rfl,
      by decide, by decide⟩
  obtain ⟨message, herror⟩ := hrejects hdesync
  rw [hread] at herror
  cases herror

end Lsmrs
