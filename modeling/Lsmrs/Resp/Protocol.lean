import Lsmrs.Error
import Lsmrs.Support.Decimal
import Lsmrs.Support.Utf8
import Mathlib.Data.List.DropRight

/-!
# The wire protocol

Reading commands off a stream and encoding replies, as `resp.rs` does.  A
reader is the bytes it has left; every call returns what it leaves behind.
-/

namespace Lsmrs

open ByteString

def cr : UInt8 := 13
def lf : UInt8 := 10
def crlf : Bytes := [cr, lf]

/-! ## Replies -/

inductive Reply where
  | simple (text : Bytes)
  | error (text : Bytes)
  | integer (n : ℤ)
  | bulk (bytes : Bytes)
  | nil
  | array (items : List Reply)
  deriving Repr

mutual

/-- `Reply::write_to`. -/
def Reply.writeTo : Reply → Bytes
  | .simple text => ascii "+" ++ (text ++ crlf)
  | .error text => ascii "-" ++ (text ++ crlf)
  | .integer n => ascii ":" ++ (Decimal.ofInt n ++ crlf)
  | .nil => ascii "$-1\r\n"
  | .bulk bytes =>
      ascii "$" ++ (Decimal.ofNat bytes.length ++ (crlf ++ (bytes ++ crlf)))
  | .array items =>
      ascii "*" ++ (Decimal.ofNat items.length ++ (crlf ++
        Reply.writeItems items))

def Reply.writeItems : List Reply → Bytes
  | [] => []
  | item :: items => item.writeTo ++ Reply.writeItems items

end

/-! ## Commands -/

/-- `MAX_BULK_LEN`. -/
def maxBulkLen : ℤ := 64 * 1024 * 1024

/-- `MAX_ARGS`. -/
def maxArgs : ℤ := 1024

/-- The largest `i64`. -/
def i64Max : ℕ := 2 ^ 63 - 1

def invalid (message : String) : Failure :=
  ioError .invalidData (ascii message)

/-- The error `unexpected_eof`. -/
def connectionClosed : Failure :=
  ioError .unexpectedEof (ascii "connection closed mid-command")

/-- `read_until`: the bytes up to and with the first `delim`, or all of
them. -/
def readUntil (delim : UInt8) : Bytes → Bytes × Bytes
  | [] => ([], [])
  | b :: reader =>
    if b = delim then ([b], reader)
    else
      let (line, rest) := readUntil delim reader
      (b :: line, rest)

def isLineEnd (b : UInt8) : Bool :=
  b = lf || b = cr

/-- `read_line`. -/
def readLine (reader : Bytes) : Option Bytes × Bytes :=
  let (line, rest) := readUntil lf reader
  if line = [] then (none, rest)
  else (some (line.rdropWhile isLineEnd), rest)

/-- `parse_len`. -/
def parseLen (bytes : Bytes) (max : ℤ) : Result ℤ :=
  if Utf8.isValid bytes then
    match Decimal.parseSigned i64Max bytes with
    | none => .error (invalid "length is not an integer")
    | some len =>
      if max < len then
        .error (invalid "length exceeds the protocol limit")
      else .ok len
  else .error (invalid "length is not valid UTF-8")

/-- The argument loop of `read_command`. -/
def readArgs : ℕ → Bytes → Result (List Bytes × Bytes)
  | 0, reader => .ok ([], reader)
  | count + 1, reader => do
    let (some header, reader) := readLine reader | .error connectionClosed
    let (36 :: digits) := header
      | .error (invalid "expected a bulk string argument")
    let len ← parseLen digits maxBulkLen
    if len < 0 then .error (invalid "negative bulk string length")
    let (arg, reader) ← readExact len.toNat reader
    let (_, reader) ← readExact 2 reader
    let (args, reader) ← readArgs count reader
    .ok (arg :: args, reader)

/-- `u8::is_ascii_whitespace`. -/
def isAsciiWhitespace (b : UInt8) : Bool :=
  b = 32 || b = 9 || b = 10 || b = 12 || b = 13

/-- `read_command`: the next command, if the stream has one, and the bytes
left behind it. -/
def readCommand (reader : Bytes) : Result (Option (List Bytes) × Bytes) :=
  match readLine reader with
  | (none, reader) => .ok (none, reader)
  | (some (42 :: digits), reader) => do
    let count ← parseLen digits maxArgs
    let (args, reader) ← readArgs count.toNat reader
    .ok (some args, reader)
  | (some line, reader) =>
    .ok (some ((line.splitOnP isAsciiWhitespace).filter (· ≠ [])), reader)

end Lsmrs
