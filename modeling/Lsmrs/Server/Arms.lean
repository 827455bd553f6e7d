import Lsmrs.Db.Machine
import Lsmrs.Server.Dispatch

/-!
# The arms of `dispatch`

What a connection thread does to answer a command, call by call: the guard it
takes on the database, and the calls it makes behind it.  Run at once, an arm
is what `dispatch` does.
-/

namespace Lsmrs

open ByteString

/-- The guard of `RwLock` that an arm holds. -/
inductive Guard where
  | none
  | read
  | write
  deriving DecidableEq, Repr

/-- The calls of an arm: `get`, and `put` or `delete`, and what it does with
what they return. -/
inductive Program where
  | done (outcome : Outcome)
  | get (key : Bytes) (next : Except IoError (Option Bytes) → Program)
  | mutate (m : Mutation) (next : Except IoError Unit → Program)

/-- `put` or `delete`. -/
def DbOps.mutate {σ : Type} (ops : DbOps σ) (db : σ) :
    Mutation → Except IoError Unit × σ
  | .insert key value => ops.put db key value
  | .delete key => ops.delete db key

/-- The calls, one after the other. -/
def Program.run {σ : Type} (ops : DbOps σ) : Program → σ → Outcome × σ
  | .done outcome, db => (outcome, db)
  | .get key next, db => (next (ops.get db key)).run ops db
  | .mutate m next, db =>
    let (result, db) := ops.mutate db m
    (next result).run ops db

/-- An arm: its guard, and what it does behind it. -/
structure Arm where
  guard : Guard
  body : Program

/-- An arm that leaves the database alone. -/
def Arm.reply (r : Reply) : Arm :=
  ⟨.none, .done (.reply r)⟩

/-- The loop of `DEL`. -/
def delProgram : List Bytes → ℤ → Program
  | [], removed => .done (.reply (.integer removed))
  | key :: keys, removed => .get key fun found =>
    match found with
    | .ok (some _) => .mutate (.delete key) fun result =>
      match result with
      | .ok () => delProgram keys (removed + 1)
      | .error e => .done (.reply (serverError e))
    | .ok none => delProgram keys removed
    | .error e => .done (.reply (serverError e))

def getArm (name : Bytes) : List Bytes → Arm
  | [key] => ⟨.read, .get key fun found =>
    match found with
    | .ok (some value) => .done (.reply (.bulk value))
    | .ok none => .done (.reply .nil)
    | .error e => .done (.reply (serverError e))⟩
  | [] | _ :: _ :: _ => .reply (wrongArity name)

def setArm (name : Bytes) : List Bytes → Arm
  | [key, value] => ⟨.write, .mutate (.insert key value) fun result =>
    match result with
    | .ok () => .done (.reply (.simple (ascii "OK")))
    | .error e => .done (.reply (serverError e))⟩
  | [] | [_] | _ :: _ :: _ :: _ => .reply (wrongArity name)

def delArm (name : Bytes) : List Bytes → Arm
  | [] => .reply (wrongArity name)
  | key :: keys => ⟨.write, delProgram (key :: keys) 0⟩

/-- The arm that `dispatch` takes. -/
def arm : List Bytes → Arm
  | [] => ⟨.none, .done .nothing⟩
  | arg :: rest =>
    let name := toAsciiUppercase arg
    if name = ascii "PING" then .reply (pingReply name rest)
    else if name = ascii "ECHO" then .reply (echoReply name rest)
    else if name = ascii "QUIT" then ⟨.none, .done .quit⟩
    else if name = ascii "COMMAND" then .reply (.array [])
    else if name = ascii "GET" then getArm name rest
    else if name = ascii "SET" then setArm name rest
    else if name = ascii "DEL" then delArm name rest
    else .reply (unknownCommand arg)

theorem arm_del {name : Bytes} (rest : List Bytes)
    (hname : toAsciiUppercase name = ascii "DEL") :
    arm (name :: rest) = delArm (ascii "DEL") rest := by
  unfold arm
  dsimp only
  rw [hname, if_neg (by decide), if_neg (by decide), if_neg (by decide),
    if_neg (by decide), if_neg (by decide), if_neg (by decide),
    if_pos rfl]

/-! ## Run at once -/

section Run

variable {σ : Type} (ops : DbOps σ) (db : σ)

theorem run_delProgram (keys : List Bytes) (removed : ℤ) :
    (delProgram keys removed).run ops db =
      (.reply (deleteKeys ops db keys removed).1,
        (deleteKeys ops db keys removed).2) := by
  induction keys generalizing db removed with
  | nil => rfl
  | cons key keys ih =>
      rw [delProgram, Program.run, deleteKeys]
      rcases ops.get db key with e | _ | value
      · rfl
      · exact ih db removed
      · dsimp only [Program.run, DbOps.mutate]
        rcases ops.delete db key with ⟨e | _, db'⟩
        · rfl
        · exact ih db' (removed + 1)

theorem run_getArm (name : Bytes) (rest : List Bytes) :
    (getArm name rest).body.run ops db =
      (.reply (getReply ops db name rest), db) := by
  match rest with
  | [] | _ :: _ :: _ => rfl
  | [key] =>
      dsimp only [getArm, Program.run, getReply]
      rcases ops.get db key with e | _ | value <;> rfl

theorem run_setArm (name : Bytes) (rest : List Bytes) :
    (setArm name rest).body.run ops db =
      (.reply (setReply ops db name rest).1,
        (setReply ops db name rest).2) := by
  match rest with
  | [] | [_] | _ :: _ :: _ :: _ => rfl
  | [key, value] =>
      dsimp only [setArm, Program.run, setReply, DbOps.mutate]
      rcases ops.put db key value with ⟨e | _, db'⟩ <;> rfl

theorem run_delArm (name : Bytes) (rest : List Bytes) :
    (delArm name rest).body.run ops db =
      (.reply (delReply ops db name rest).1,
        (delReply ops db name rest).2) := by
  cases rest with
  | nil => rfl
  | cons key keys => exact run_delProgram ops db (key :: keys) 0

/-- An arm whose calls follow on one another is `dispatch`. -/
theorem dispatch_eq_run (args : List Bytes) :
    dispatch ops db args = (arm args).body.run ops db := by
  cases args with
  | nil => rfl
  | cons arg rest =>
      rw [dispatch, arm]
      split_ifs
      · rfl
      · rfl
      · rfl
      · rfl
      · exact (run_getArm ops db _ rest).symm
      · exact (run_setArm ops db _ rest).symm
      · exact (run_delArm ops db _ rest).symm
      · rfl

end Run

end Lsmrs
