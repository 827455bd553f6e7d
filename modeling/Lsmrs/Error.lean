import Lsmrs.Support.Bytes

/-!
# Errors, panics and exact reads

A call of the store returns `Ok`, returns an `io::Error`, or panics.  The
last two are kept apart: an error is a value the caller sees, a panic ends
the thread.
-/

namespace Lsmrs

open ByteString

/-- `io::ErrorKind`, as far as the code tells kinds apart. -/
inductive ErrorKind where
  | unexpectedEof
  | invalidData
  | invalidInput
  | alreadyExists
  | other
  deriving DecidableEq, Repr

/-- An `io::Error`: its kind and the bytes it displays as. -/
structure IoError where
  kind : ErrorKind
  message : Bytes
  deriving DecidableEq, Repr

/-- How a call ends that does not return `Ok`. -/
inductive Failure where
  | io (e : IoError)
  | panic
  deriving DecidableEq, Repr

/-- The outcome of a call. -/
abbrev Result (α : Type) := Except Failure α

def ioError (kind : ErrorKind) (message : Bytes) : Failure :=
  .io ⟨kind, message⟩

/-- `read_exact` on a reader with the bytes `reader` left. -/
def readExact (n : ℕ) (reader : Bytes) : Result (Bytes × Bytes) :=
  match takeExact n reader with
  | some r => .ok r
  | none => .error
      (ioError .unexpectedEof (ascii "failed to fill whole buffer"))

/-- `bytes[start..stop]`, which panics out of bounds. -/
def slice (bytes : Bytes) (start stop : ℕ) : Result Bytes :=
  if start ≤ stop ∧ stop ≤ bytes.length then
    .ok ((bytes.drop start).take (stop - start))
  else
    .error .panic

/-- `bytes[i]`, which panics out of bounds. -/
def index (bytes : Bytes) (i : ℕ) : Result UInt8 :=
  match bytes[i]? with
  | some b => .ok b
  | none => .error .panic

/-- A computation that returns `Ok` has steps that all returned `Ok`. -/
theorem bind_eq_ok {α β : Type} {x : Result α} {f : α → Result β} {b : β} :
    (x >>= f) = .ok b ↔ ∃ a, x = .ok a ∧ f a = .ok b := by
  cases x with
  | error e => simp [bind, Except.bind]
  | ok a => simp [bind, Except.bind]

/-- One that fails has a step that did, after steps that returned `Ok`. -/
theorem bind_eq_error {α β : Type} {x : Result α} {f : α → Result β}
    {e : Failure} :
    (x >>= f) = .error e ↔ x = .error e ∨ ∃ a, x = .ok a ∧ f a = .error e := by
  cases x with
  | error e' => simp [bind, Except.bind]
  | ok a => simp [bind, Except.bind]

theorem map_eq_ok {α β : Type} {x : Result α} {f : α → β} {b : β} :
    x.map f = .ok b ↔ ∃ a, x = .ok a ∧ f a = b := by
  cases x with
  | error e => simp [Except.map]
  | ok a => simp [Except.map]

@[simp] theorem ok_bind {α β : Type} (a : α) (f : α → Result β) :
    ((.ok a : Result α) >>= f) = f a := rfl

theorem readExact_append
    {n : ℕ} {xs : Bytes} (hn : xs.length = n) (rest : Bytes) :
    readExact n (xs ++ rest) = .ok (xs, rest) := by
  rw [readExact, takeExact_append_of_length hn]

theorem readExact_eq_ok_iff {n : ℕ} {reader xs rest : Bytes} :
    readExact n reader = .ok (xs, rest) ↔
      reader = xs ++ rest ∧ xs.length = n := by
  rw [← takeExact_eq_some, readExact]
  cases takeExact n reader with
  | none => simp
  | some p => simp

theorem readExact_error {n : ℕ} {reader : Bytes} {f : Failure}
    (h : readExact n reader = .error f) :
    f = ioError .unexpectedEof (ascii "failed to fill whole buffer") := by
  rw [readExact] at h
  cases htake : takeExact n reader with
  | none =>
      rw [htake] at h
      exact (Except.error.inj h).symm
  | some p =>
      rw [htake] at h
      cases h

/-- The middle of three pieces is the slice between their boundaries. -/
theorem slice_append
    {pre mid post : Bytes} {start stop : ℕ}
    (hstart : pre.length = start) (hstop : start + mid.length = stop) :
    slice (pre ++ (mid ++ post)) start stop = .ok mid := by
  subst hstart hstop
  simp [slice]

theorem slice_eq_ok {bytes xs : Bytes} {start stop : ℕ} :
    slice bytes start stop = .ok xs ↔
      (start ≤ stop ∧ stop ≤ bytes.length) ∧
        (bytes.drop start).take (stop - start) = xs := by
  rw [slice]
  split
  next h => simp [h]
  next h => simp [h]

theorem index_eq_ok {bytes : Bytes} {i : ℕ} {b : UInt8} :
    index bytes i = .ok b ↔ bytes[i]? = some b := by
  rw [index]
  cases bytes[i]? with
  | none => simp
  | some b' => simp

theorem index_append {pre post : Bytes} {b : UInt8} {i : ℕ}
    (hi : pre.length = i) :
    index (pre ++ b :: post) i = .ok b := by
  subst hi
  simp [index]

end Lsmrs
