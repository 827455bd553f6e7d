import Lsmrs.Error
import Lsmrs.Support.Utf8Text
import Lsmrs.Support.Words

/-!
# Lines of the shell

`parse` of `cli/mod.rs`: a line is a command word and its arguments, with
white space between and around them.
-/

namespace Lsmrs

open ByteString

/-- A `str`, as its characters. -/
abbrev Text := List Char

namespace Text

/-- `char::is_whitespace`: the property `White_Space` of Unicode. -/
def isWhitespace (c : Char) : Bool :=
  let n := c.toNat
  (9 ≤ n && n ≤ 13) || n == 32 || n == 0x85 || n == 0xA0 || n == 0x1680 ||
    (0x2000 ≤ n && n ≤ 0x200A) || n == 0x2028 || n == 0x2029 ||
    n == 0x202F || n == 0x205F || n == 0x3000

def splitWhitespace (line : Text) : List Text :=
  Words.words isWhitespace line

def trim (line : Text) : Text :=
  (line.dropWhile isWhitespace).rdropWhile isWhitespace

end Text

/-! ## Errors -/

inductive DbError where
  | keyNotFound
  | invalidCommand (text : Text)
  | io (e : IoError)
  deriving DecidableEq, Repr

/-- What an error displays as. -/
def DbError.display : DbError → Bytes
  | .keyNotFound => ascii "key not found"
  | .invalidCommand text => ascii "invalid command: " ++ Utf8.encode text
  | .io e => ascii "io error: " ++ e.message

/-! ## Commands -/

inductive Command where
  | get (key : Bytes)
  | put (key value : Bytes)
  | del (key : Bytes)
  | scan
  | exit
  deriving DecidableEq, Repr

def parse (line : Text) : Except DbError Command :=
  match line.splitWhitespace with
  | [] => .error .keyNotFound
  | cmdStr :: parts =>
    if cmdStr = "GET".toList then
      match parts with
      | [] => .error (.invalidCommand "GET requires a key".toList)
      | key :: _ => .ok (.get (Utf8.encode key))
    else if cmdStr = "PUT".toList then
      match parts with
      | [] => .error (.invalidCommand "PUT requires a key".toList)
      | [_] => .error (.invalidCommand "PUT requires a value".toList)
      | key :: value :: _ =>
        .ok (.put (Utf8.encode key) (Utf8.encode value))
    else if cmdStr = "DEL".toList then
      match parts with
      -- The text names `PUT` here too.
      | [] => .error (.invalidCommand "PUT requires a key".toList)
      | key :: _ => .ok (.del (Utf8.encode key))
    else if cmdStr = "SCAN".toList then .ok .scan
    else if cmdStr = "EXIT".toList then .ok .exit
    else .error (.invalidCommand cmdStr)

example : parse "\tPUT  k\u00A0v w\n".toList =
    .ok (.put (ascii "k") (ascii "v")) := by
  decide +kernel

/-- The commands that words are accepted as. -/
inductive Typed : List Text → Command → Prop
  | get {key : Text} {more : List Text} :
    Typed ("GET".toList :: key :: more) (.get (Utf8.encode key))
  | put {key value : Text} {more : List Text} :
    Typed ("PUT".toList :: key :: value :: more)
      (.put (Utf8.encode key) (Utf8.encode value))
  | del {key : Text} {more : List Text} :
    Typed ("DEL".toList :: key :: more) (.del (Utf8.encode key))
  | scan {more : List Text} : Typed ("SCAN".toList :: more) .scan
  | exit {more : List Text} : Typed ("EXIT".toList :: more) .exit

/-- The words that are refused, and the text of the error. -/
inductive Refused : List Text → Text → Prop
  | getKey : Refused ["GET".toList] "GET requires a key".toList
  | putKey : Refused ["PUT".toList] "PUT requires a key".toList
  | putValue {key : Text} :
    Refused ["PUT".toList, key] "PUT requires a value".toList
  | delKey : Refused ["DEL".toList] "PUT requires a key".toList
  | unknown {word : Text} {more : List Text}
      (hword : word ∉ ["GET".toList, "PUT".toList, "DEL".toList,
        "SCAN".toList, "EXIT".toList]) :
    Refused (word :: more) word

/-- What a line with these words comes to. -/
inductive Read : List Text → Except DbError Command → Prop
  | nothing : Read [] (.error .keyNotFound)
  | typed {ws : List Text} {cmd : Command} (h : Typed ws cmd) :
    Read ws (.ok cmd)
  | refused {ws : List Text} {text : Text} (h : Refused ws text) :
    Read ws (.error (.invalidCommand text))

/-- A line is read by its words, in any white space: the command word with
enough arguments is accepted, and further arguments are ignored. -/
theorem parse_read {line : Text} {ws : List Text}
    (hline : Words.Spaced Text.isWhitespace line ws) :
    Read ws (parse line) := by
  have hws : line.splitWhitespace = ws := Words.words_of_spaced hline
  unfold parse
  rw [hws]
  cases ws with
  | nil => exact .nothing
  | cons word more =>
      dsimp only
      split_ifs with hget hput hdel hscan hexit
      · subst hget
        cases more with
        | nil => exact .refused .getKey
        | cons key more => exact .typed .get
      · subst hput
        cases more with
        | nil => exact .refused .putKey
        | cons key more =>
            cases more with
            | nil => exact .refused .putValue
            | cons value more => exact .typed .put
      · subst hdel
        cases more with
        | nil => exact .refused .delKey
        | cons key more => exact .typed .del
      · subst hscan
        exact .typed .scan
      · subst hexit
        exact .typed .exit
      · refine .refused (.unknown ?_)
        simp only [List.mem_cons, List.not_mem_nil, or_false, not_or]
        exact ⟨hget, hput, hdel, hscan, hexit⟩

/-- White space at the ends of a line changes nothing. -/
theorem splitWhitespace_trim (line : Text) :
    line.trim.splitWhitespace = line.splitWhitespace :=
  Words.words_trim line

theorem parse_trim (line : Text) : parse line.trim = parse line := by
  unfold parse
  rw [splitWhitespace_trim]

end Lsmrs
