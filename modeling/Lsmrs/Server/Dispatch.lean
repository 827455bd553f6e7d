import Lsmrs.Resp.Protocol

/-!
# The command server

`dispatch` and the connection loop of `server.rs`.  The database is reached
through the three calls `dispatch` makes on it; what the results below need
of these calls and of their errors they say.
-/

namespace Lsmrs

open ByteString

/-- The calls the server makes on a `Db` whose states are `σ`. -/
structure DbOps (σ : Type) where
  get : σ → Bytes → Except IoError (Option Bytes)
  put : σ → Bytes → Bytes → Except IoError Unit × σ
  delete : σ → Bytes → Except IoError Unit × σ

inductive Outcome where
  | nothing
  | reply (r : Reply)
  | quit
  deriving Repr

def toAsciiUppercase (name : Bytes) : Bytes :=
  name.map fun b => if 97 ≤ b && b ≤ 122 then b - 32 else b

def toAsciiLowercase (name : Bytes) : Bytes :=
  name.map fun b => if 65 ≤ b && b ≤ 90 then b + 32 else b

/-- `server_error`. -/
def serverError (e : IoError) : Reply :=
  .error (ascii "ERR " ++ e.message)

/-- The reply to a known command with the wrong number of arguments.  The
names that get here are ASCII, so the lossy conversion leaves them alone and
lowercasing is ASCII lowercasing. -/
def wrongArity (name : Bytes) : Reply :=
  .error (ascii "ERR wrong number of arguments for '" ++
    (toAsciiLowercase name ++ ascii "' command"))

def unknownCommand (arg : Bytes) : Reply :=
  .error (ascii "ERR unknown command '" ++ (Utf8.lossy arg ++ ascii "'"))

variable {σ : Type} (ops : DbOps σ)

/-- The loop of `DEL`: only keys that are there are deleted and counted. -/
def deleteKeys : σ → List Bytes → ℤ → Reply × σ
  | db, [], removed => (.integer removed, db)
  | db, key :: keys, removed =>
    match ops.get db key with
    | .ok (some _) =>
      match ops.delete db key with
      | (.ok (), db) => deleteKeys db keys (removed + 1)
      | (.error e, db) => (serverError e, db)
    | .ok none => deleteKeys db keys removed
    | .error e => (serverError e, db)

/-! The arms of `dispatch`, grouped by command name; `rest` is what follows
the name. -/

def pingReply (name : Bytes) : List Bytes → Reply
  | [] => .simple (ascii "PONG")
  | [message] => .bulk message
  | _ :: _ :: _ => wrongArity name

def echoReply (name : Bytes) : List Bytes → Reply
  | [message] => .bulk message
  | [] | _ :: _ :: _ => wrongArity name

def getReply (db : σ) (name : Bytes) : List Bytes → Reply
  | [key] =>
    match ops.get db key with
    | .ok (some value) => .bulk value
    | .ok none => .nil
    | .error e => serverError e
  | [] | _ :: _ :: _ => wrongArity name

def setReply (db : σ) (name : Bytes) : List Bytes → Reply × σ
  | [key, value] =>
    match ops.put db key value with
    | (.ok (), db) => (.simple (ascii "OK"), db)
    | (.error e, db) => (serverError e, db)
  | [] | [_] | _ :: _ :: _ :: _ => (wrongArity name, db)

def delReply (db : σ) (name : Bytes) : List Bytes → Reply × σ
  | [] => (wrongArity name, db)
  | key :: keys => deleteKeys ops db (key :: keys) 0

/-- `dispatch`. -/
def dispatch (db : σ) (args : List Bytes) : Outcome × σ :=
  match args with
  | [] => (.nothing, db)
  | arg :: rest =>
    let name := toAsciiUppercase arg
    if name = ascii "PING" then (.reply (pingReply name rest), db)
    else if name = ascii "ECHO" then (.reply (echoReply name rest), db)
    else if name = ascii "QUIT" then (.quit, db)
    else if name = ascii "COMMAND" then (.reply (.array []), db)
    else if name = ascii "GET" then
      (.reply (getReply ops db name rest), db)
    else if name = ascii "SET" then
      let (r, db) := setReply ops db name rest
      (.reply r, db)
    else if name = ascii "DEL" then
      let (r, db) := delReply ops db name rest
      (.reply r, db)
    else (.reply (unknownCommand arg), db)

/-- What a connection has sent, the database it leaves, and how it ended. -/
structure Served (σ : Type) where
  output : Bytes
  db : σ
  ended : Result Unit

/-- The loop of `serve_connection`. -/
def serveLoop : ℕ → σ → Bytes → Served σ
  | 0, db, _ => ⟨[], db, .ok ()⟩
  | turns + 1, db, reader =>
    match readCommand reader with
    | .ok (none, _) => ⟨[], db, .ok ()⟩
    | .ok (some args, reader) =>
      match dispatch ops db args with
      | (.nothing, db) => serveLoop turns db reader
      | (.reply r, db) =>
        let served := serveLoop turns db reader
        { served with output := r.writeTo ++ served.output }
      | (.quit, db) => ⟨(Reply.simple (ascii "OK")).writeTo, db, .ok ()⟩
    | .error (.io e) =>
      if e.kind = .invalidData then
        ⟨(Reply.error (ascii "ERR Protocol error: " ++ e.message)).writeTo,
          db, .ok ()⟩
      else ⟨[], db, .error (.io e)⟩
    | .error .panic => ⟨[], db, .error .panic⟩

/-- `serve_connection` on the bytes a client sends before it closes its
side.  Every command takes at least one of them. -/
def serveConnection (db : σ) (input : Bytes) : Served σ :=
  serveLoop ops (input.length + 1) db input

/-- The replies to a sequence of commands, ending with the one that quits. -/
def answers : σ → List (List Bytes) → List Reply
  | _, [] => []
  | db, args :: commands =>
    match dispatch ops db args with
    | (.nothing, db) => answers db commands
    | (.reply r, db) => r :: answers db commands
    | (.quit, _) => [.simple (ascii "OK")]

end Lsmrs
