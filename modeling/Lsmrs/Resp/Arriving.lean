import Lsmrs.Resp.CutOff

/-!
# Commands that arrive in pieces

On a connection the bytes of a command come in pieces, and `read_command`
waits for the rest of them.  Where it does not have to wait, it does what it
would do with everything that is still to come.
-/

namespace Lsmrs

open ByteString

/-! ## Waiting -/

/-- The outcome of a read; nothing, as long as it waits for more bytes. -/
abbrev Arriving (α : Type) := ExceptT Failure Option α

def Arriving.of {α : Type} (r : Result α) : Arriving α :=
  ExceptT.mk (some r)

def Arriving.waits {α : Type} : Arriving α :=
  ExceptT.mk none

/-- `read_line` on what has arrived; `closed` when no more will. -/
def readLineOn (closed : Bool) (reader : Bytes) :
    Arriving (Option Bytes × Bytes) :=
  if closed ∨ lf ∈ reader then .of (.ok (readLine reader)) else .waits

/-- `read_exact` on what has arrived. -/
def readExactOn (closed : Bool) (n : ℕ) (reader : Bytes) :
    Arriving (Bytes × Bytes) :=
  if closed ∨ n ≤ reader.length then .of (readExact n reader) else .waits

/-- The length that the header of an argument gives. -/
def argLength : Option Bytes → Result ℕ
  | none => .error connectionClosed
  | some (36 :: digits) => do
    let len ← parseLen digits maxBulkLen
    if len < 0 then .error (invalid "negative bulk string length")
    .ok len.toNat
  | some _ => .error (invalid "expected a bulk string argument")

/-- One turn of the argument loop of `read_command`. -/
def readArgOn (closed : Bool) (reader : Bytes) :
    Arriving (Bytes × Bytes) := do
  let header ← readLineOn closed reader
  let len ← Arriving.of (argLength header.1)
  let arg ← readExactOn closed len header.2
  let terminator ← readExactOn closed 2 arg.2
  Arriving.of (.ok (arg.1, terminator.2))

def readArgsOn (closed : Bool) : ℕ → Bytes → Arriving (List Bytes × Bytes)
  | 0, reader => Arriving.of (.ok ([], reader))
  | count + 1, reader => do
    let arg ← readArgOn closed reader
    let args ← readArgsOn closed count arg.2
    Arriving.of (.ok (arg.1 :: args.1, args.2))

/-- `read_command` on what has arrived. -/
def readCommandOn (closed : Bool) (reader : Bytes) :
    Arriving (Option (List Bytes) × Bytes) := do
  let line ← readLineOn closed reader
  match line.1 with
  | none => Arriving.of (.ok (none, line.2))
  | some (42 :: digits) => do
    let count ← Arriving.of (parseLen digits maxArgs)
    let args ← readArgsOn closed count.toNat line.2
    Arriving.of (.ok (some args.1, args.2))
  | some words => Arriving.of (.ok (some (wordsOf words), line.2))

/-! ## Nothing more to come -/

@[simp] theorem Arriving.ok_bind {α β : Type} (a : α) (f : α → Arriving β) :
    (Arriving.of (.ok a) >>= f) = f a := rfl

theorem Arriving.of_bind {α β : Type} (r : Result α) {f : α → Arriving β}
    {g : α → Result β} (hfg : ∀ a, f a = Arriving.of (g a)) :
    (Arriving.of r >>= f) = Arriving.of (r >>= g) := by
  cases r with
  | error e => rfl
  | ok a => exact hfg a

theorem readArg_eq (reader : Bytes) :
    readArg reader = (argLength (readLine reader).1 >>= fun len =>
      readExact len (readLine reader).2 >>= fun arg =>
        readExact 2 arg.2 >>= fun terminator =>
          .ok (arg.1, terminator.2)) := by
  rw [readArg]
  rcases readLine reader with ⟨_ | header, rest⟩
  · rfl
  · dsimp only
    by_cases hdollar : ∃ digits, header = 36 :: digits
    · obtain ⟨digits, rfl⟩ := hdollar
      simp only [argLength, bind_assoc]
      congr 1
      funext len
      split_ifs <;> rfl
    · have hlength : argLength (some header) =
          .error (invalid "expected a bulk string argument") := by
        unfold argLength
        split
        next heq => cases heq
        next digits heq => exact absurd ⟨_, Option.some.inj heq⟩ hdollar
        next => rfl
      rw [hlength]
      split
      next => exact absurd ⟨_, rfl⟩ hdollar
      next => rfl

theorem readLineOn_closed (reader : Bytes) :
    readLineOn true reader = .of (.ok (readLine reader)) :=
  if_pos (Or.inl rfl)

theorem readExactOn_closed (n : ℕ) (reader : Bytes) :
    readExactOn true n reader = .of (readExact n reader) :=
  if_pos (Or.inl rfl)

theorem readArgOn_closed (reader : Bytes) :
    readArgOn true reader = .of (readArg reader) := by
  rw [readArg_eq, readArgOn]
  simp only [readLineOn_closed, readExactOn_closed, Arriving.ok_bind]
  exact Arriving.of_bind _ fun len => Arriving.of_bind _ fun arg =>
    Arriving.of_bind _ fun terminator => rfl

theorem readArgsOn_closed (count : ℕ) (reader : Bytes) :
    readArgsOn true count reader = .of (readArgs count reader) := by
  induction count generalizing reader with
  | zero => rfl
  | succ count ih =>
      rw [readArgs_succ, readArgsOn, readArgOn_closed]
      refine Arriving.of_bind _ fun arg => ?_
      rw [ih]
      exact Arriving.of_bind _ fun args => rfl

/-- With the stream's end in sight nothing has to be waited for. -/
theorem readCommandOn_closed (reader : Bytes) :
    readCommandOn true reader = .of (readCommand reader) := by
  rw [readCommandOn, readLineOn_closed, Arriving.ok_bind, readCommand]
  rcases readLine reader with ⟨_ | header, rest⟩
  · rfl
  · by_cases hstar : ∃ digits, header = 42 :: digits
    · obtain ⟨digits, rfl⟩ := hstar
      refine Arriving.of_bind _ fun count => ?_
      rw [readArgsOn_closed]
      exact Arriving.of_bind _ fun args => rfl
    · dsimp only
      split
      next heq => cases heq
      next digits heq => exact absurd ⟨_, Option.some.inj heq⟩ hstar
      next heq =>
        split
        next heq' => cases heq'
        next heq' => exact absurd ⟨_, Option.some.inj (congrArg Prod.fst heq')⟩ hstar
        next heq' =>
          cases heq
          cases heq'
          rfl

/-! ## More to come -/

/-- A read that did not have to wait does the same with more bytes behind
those that are there, and leaves them. -/
def Steady {α : Type} (read : Bool → Bytes → Arriving (α × Bytes)) : Prop :=
  ∀ (reader more : Bytes) (closed : Bool) (r : Result (α × Bytes)),
    read false reader = Arriving.of r →
      read closed (reader ++ more) =
        Arriving.of (r.map fun p => (p.1, p.2 ++ more))

namespace Steady

variable {α β : Type}

theorem done (a : α) :
    Steady fun _ reader => Arriving.of (.ok (a, reader)) := by
  intro reader more closed r h
  obtain rfl := Option.some.inj h
  rfl

theorem check (x : Result α) {g : α → Bool → Bytes → Arriving (β × Bytes)}
    (hg : ∀ a, Steady (g a)) :
    Steady fun closed reader =>
      Arriving.of x >>= fun a => g a closed reader := by
  intro reader more closed r h
  cases x with
  | error e =>
      obtain rfl := Option.some.inj h
      rfl
  | ok a => exact hg a reader more closed r h

theorem bind {f : Bool → Bytes → Arriving (α × Bytes)}
    {g : α → Bool → Bytes → Arriving (β × Bytes)} (hf : Steady f)
    (hg : ∀ a, Steady (g a)) :
    Steady fun closed reader =>
      f closed reader >>= fun p => g p.1 closed p.2 := by
  intro reader more closed r h
  dsimp only at h ⊢
  cases hfirst : (f false reader).run with
  | none =>
      have hwaits : f false reader = Arriving.waits := hfirst
      rw [hwaits] at h
      cases h
  | some first =>
      have hof : f false reader = Arriving.of first := hfirst
      rw [hf reader more closed first hof]
      rw [hof] at h
      cases first with
      | error e =>
          obtain rfl := Option.some.inj h
          rfl
      | ok p => exact hg p.1 p.2 more closed r h

end Steady

theorem readLineOn_steady : Steady readLineOn := by
  intro reader more closed r h
  have hlf : lf ∈ reader := by
    by_contra hnot
    rw [readLineOn, if_neg (by simpa using hnot)] at h
    cases h
  obtain ⟨line, rest, rfl, hline⟩ := List.eq_append_cons_of_mem hlf
  rw [readLineOn, if_pos (Or.inr hlf)] at h
  obtain rfl := Option.some.inj h
  rw [readLineOn, if_pos (Or.inr (List.mem_append_left _ hlf)), readLine,
    List.append_assoc, List.cons_append, readUntil_append hline, readLine,
    readUntil_append hline]
  dsimp only
  rw [if_neg (by simp), if_neg (by simp)]
  rfl

theorem readExactOn_steady (n : ℕ) :
    Steady fun closed reader => readExactOn closed n reader := by
  intro reader more closed r h
  dsimp only at h ⊢
  have hn : n ≤ reader.length := by
    by_contra hnot
    rw [readExactOn, if_neg (by simpa using hnot)] at h
    cases h
  have hlong : n ≤ (reader ++ more).length := by
    rw [List.length_append]
    exact Nat.le_add_right_of_le hn
  rw [readExactOn, if_pos (Or.inr hn), readExact, takeExact,
    if_pos hn] at h
  obtain rfl := Option.some.inj h
  rw [readExactOn, if_pos (Or.inr hlong), readExact, takeExact,
    if_pos hlong, List.take_append_of_le_length hn,
    List.drop_append_of_le_length hn]
  rfl

theorem readArgOn_steady : Steady readArgOn :=
  readLineOn_steady.bind fun header => Steady.check (argLength header)
    fun len => (readExactOn_steady len).bind fun arg =>
      (readExactOn_steady 2).bind fun _ => Steady.done arg

theorem readArgsOn_steady (count : ℕ) :
    Steady fun closed reader => readArgsOn closed count reader := by
  induction count with
  | zero => exact Steady.done []
  | succ count ih =>
      exact readArgOn_steady.bind fun arg => ih.bind fun args =>
        Steady.done (arg :: args)

/-- A command that is read before all of the stream is there is the command
that the whole stream begins with. -/
theorem readCommandOn_steady : Steady readCommandOn := by
  refine readLineOn_steady.bind (g := fun line closed reader =>
    match line with
    | none => Arriving.of (.ok (none, reader))
    | some (42 :: digits) => do
      let count ← Arriving.of (parseLen digits maxArgs)
      let args ← readArgsOn closed count.toNat reader
      Arriving.of (.ok (some args.1, args.2))
    | some words => Arriving.of (.ok (some (wordsOf words), reader))) ?_
  intro line
  split
  · exact Steady.done none
  · exact Steady.check _ fun count => (readArgsOn_steady _).bind fun args =>
      Steady.done (some args)
  · exact Steady.done _

theorem readCommand_error {reader : Bytes} {f : Failure}
    (h : readCommand reader = .error f) : ∃ e, f = .io e := by
  unfold readCommand at h
  split at h
  · cases h
  · rcases bind_eq_error.mp h with h | ⟨count, -, h⟩
    · obtain ⟨message, rfl⟩ := parseLen_error h
      exact ⟨_, rfl⟩
    · rcases bind_eq_error.mp h with h | ⟨args, -, h⟩
      · exact readArgs_error h
      · cases h
  · cases h

/-- `read_command` does not panic. -/
theorem readCommandOn_error {closed : Bool} {reader : Bytes} {f : Failure}
    (h : readCommandOn closed reader = .of (.error f)) : ∃ e, f = .io e := by
  have hclosed : readCommandOn true reader = .of (.error f) := by
    cases closed with
    | true => exact h
    | false =>
        have hsteady := readCommandOn_steady reader [] true _ h
        rwa [List.append_nil] at hsteady
  rw [readCommandOn_closed] at hclosed
  exact readCommand_error (Option.some.inj hclosed)

end Lsmrs
