import Lsmrs.Cli.Command
import Lsmrs.Server.OnMachine

/-!
# The shell

`execute` of `cli/mod.rs` and the loop `repl` of `main.rs`, over the calls
they make on the database.
-/

namespace Lsmrs

open ByteString OrderedMap

/-- The calls the shell makes on a `Db` whose states are `σ`. -/
structure CliOps (σ : Type) extends DbOps σ where
  scan : σ → List (Bytes × Bytes)

section Execute

variable {σ : Type}

/-- A line of `SCAN`. -/
def scanLine (e : Bytes × Bytes) : Bytes :=
  Utf8.lossy e.1 ++ ascii " " ++ Utf8.lossy e.2

/-- What `SCAN` shows. -/
def scanText (entries : List (Bytes × Bytes)) : Bytes :=
  let output := entries.map scanLine
  if output = [] then ascii "(empty)" else (ascii "\n").intercalate output

/-- What `GET` shows. -/
def getText : Option Bytes → Bytes
  | some v => Utf8.lossy v
  | none => ascii "(not found)"

def execute (ops : CliOps σ) (db : σ) :
    Command → Except DbError (Option Bytes) × σ
  | .get key =>
    match ops.get db key with
    | .ok found => (.ok (some (getText found)), db)
    | .error e => (.error (.io e), db)
  | .put key value =>
    match ops.put db key value with
    | (.ok (), db) => (.ok (some (ascii "OK")), db)
    | (.error e, db) => (.error (.io e), db)
  | .del key =>
    match ops.delete db key with
    | (.ok (), db) => (.ok (some (ascii "OK")), db)
    | (.error e, db) => (.error (.io e), db)
  | .scan => (.ok (some (scanText (ops.scan db))), db)
  | .exit => (.ok none, db)

/-! ## The loop -/

/-- What `readline` returns. -/
inductive Input where
  | line (line : Text)
  | interrupted
  | eof
  | failed (message : Bytes)
  deriving DecidableEq, Repr

/-- A line on the standard output or on the standard error. -/
inductive Printed where
  | out (text : Bytes)
  | err (text : Bytes)
  deriving DecidableEq, Repr

/-- What is printed of the result of a command. -/
def said : Except DbError (Option Bytes) → List Printed
  | .ok (some out) => [.out out]
  | .ok none => []
  | .error e => [.err (ascii "error: " ++ e.display)]

/-- One turn of the loop: whether it goes on, what it prints, and the
database. -/
def turn (ops : CliOps σ) (db : σ) : Input → Bool × List Printed × σ
  | .line line =>
    let line := line.trim
    if line = [] then (true, [], db)
    else
      match parse line with
      | .ok .exit => (false, [], db)
      | .ok cmd =>
        let (result, db) := execute ops db cmd
        (true, said result, db)
      | .error e => (true, said (.error e), db)
  | .interrupted => (false, [], db)
  | .eof => (false, [], db)
  | .failed message =>
    (false, [.err (ascii "readline error: " ++ message)], db)

/-- `repl` on what is typed. -/
def repl (ops : CliOps σ) : σ → List Input → List Printed × σ
  | db, [] => ([], db)
  | db, input :: inputs =>
    match turn ops db input with
    | (true, printed, db) =>
      let (later, db) := repl ops db inputs
      (printed ++ later, db)
    | (false, printed, db) => (printed, db)

end Execute

end Lsmrs
