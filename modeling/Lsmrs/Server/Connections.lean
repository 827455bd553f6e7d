import Lsmrs.Resp.Arriving
import Lsmrs.Server.Arms
import Lsmrs.Support.Atomicity

/-!
# Connections

The server with a thread for every connection, all of them on one database
behind one `RwLock`, and the compactor beside them.  A step is as much as
happens between two points where another thread, or a client, can be seen.
-/

namespace Lsmrs

open ByteString Atomicity

/-! ## Threads -/

/-- Where the thread of a connection stands: in `read_command`; in front of
its guard; between two calls of its arm; in a `get` that looks through the
tables of its snapshot; inside `put` or `delete`; about to reply; or no
more. -/
inductive Stage (F : Format) where
  | reading
  | dispatching (arm : Arm)
  | running (guard : Guard) (rest : Program)
  | searching (guard : Guard) (key : Bytes)
      (tables : List (Listed F.toTableFormat))
      (next : Except IoError (Option Bytes) → Program)
  | mutating (next : Except IoError Unit → Program)
  | replying (outcome : Outcome)
  | ended (how : Result Unit)

/-- The guard that the thread holds. -/
def Stage.guard {F : Format} : Stage F → Guard
  | .running guard _ => guard
  | .searching guard _ _ _ => guard
  | .mutating _ => .write
  | _ => .none

/-- A connection: what the client has sent and the thread has not taken yet,
whether the client has closed its side, the thread, and what it has
written. -/
structure Session (F : Format) where
  unread : Bytes
  hungUp : Bool
  stage : Stage F
  output : Bytes

/-- A connection that has just been accepted. -/
def Session.accepted (F : Format) : Session F :=
  ⟨[], false, .reading, []⟩

structure Server (F : Format) where
  db : State F
  poisoned : Bool
  sessions : List (Session F)

/-- What a client does, or the thread of its connection.  The socket may fail
a thread that reads, or one that writes a reply, of which some bytes may have
gone out. -/
inductive Act (F : Format) where
  | send (bytes : Bytes)
  | hangUp
  | read
  | enter
  | look
  | search
  | searchFails (e : IoError)
  | append
  | appendFails (fault : AppendFault) (e : IoError)
  | work (l : WriteStep F)
  | flushFails (fault : FlushFault F) (e : IoError)
  | leave
  | reply
  | breakOff (written : ℕ) (e : IoError)

inductive Move (F : Format) where
  | accept
  | act (c : ℕ) (a : Act F)
  | compact (l : CompactStep)
  | compactFails (left : Option F.File)

/-- What a client can see of a step. -/
abbrev Shown := List (Event ℕ (List Bytes) Outcome)

variable {F : Format}

/-- The commands of a connection, in order. -/
def callsOf (c : ℕ) (shown : Shown) : List (List Bytes) :=
  shown.filterMap fun e =>
    match e with
    | .call c' args => if c' = c then some args else none
    | _ => none

/-- What became of them, as far as the client knows. -/
def repliesTo (c : ℕ) (shown : Shown) : List Outcome :=
  shown.filterMap fun e =>
    match e with
    | .ret c' outcome => if c' = c then some outcome else none
    | _ => none

/-- What is written for an outcome. -/
def Outcome.bytes : Outcome → Bytes
  | .nothing => []
  | .reply r => r.writeTo
  | .quit => (Reply.simple (ascii "OK")).writeTo

/-- The turn of the loop in `serve_connection` up to `dispatch`. -/
def Session.read (c : ℕ) (x : Session F) : Option (Session F × Shown) :=
  match (readCommandOn x.hungUp x.unread).run with
  | none => none
  | some (.ok (some args, unread)) =>
    some ({ x with unread, stage := .dispatching (arm args) },
      [.call c args])
  | some (.ok (none, unread)) =>
    some ({ x with unread, stage := .ended (.ok ()) }, [])
  | some (.error (.io e)) =>
    if e.kind = .invalidData then
      some ({ x with
        output := x.output ++
          (Reply.error (ascii "ERR Protocol error: " ++ e.message)).writeTo
        stage := .ended (.ok ()) }, [])
    else some ({ x with stage := .ended (.error (.io e)) }, [])
  | some (.error .panic) =>
    some ({ x with stage := .ended (.error .panic) }, [])

/-- The turn behind `dispatch`. -/
def Session.reply (c : ℕ) (x : Session F) (outcome : Outcome) :
    Session F × Shown :=
  ({ x with
    output := x.output ++ outcome.bytes
    stage := match outcome with
      | .quit => .ended (.ok ())
      | _ => .reading }, [.ret c outcome])

/-! ## The server -/

/-- No call of `put` or `delete` is under way. -/
def State.returned (db : State F) : Bool :=
  match db.process with
  | some ⟨_, .idle, _⟩ => true
  | _ => false

namespace Server

/-- The lock lets a thread have the guard. -/
def Admits (s : Server F) : Guard → Prop
  | .none => True
  | .read => ∀ x ∈ s.sessions, x.stage.guard ≠ .write
  | .write => ∀ x ∈ s.sessions, x.stage.guard = .none

instance (s : Server F) (guard : Guard) : Decidable (s.Admits guard) := by
  cases guard <;> unfold Admits <;> infer_instance

/-- The connection comes to stand elsewhere. -/
def update (s : Server F) (c : ℕ) (x : Session F) : Server F :=
  { s with sessions := s.sessions.set c x }

/-- The thread of the connection goes on to another stage. -/
def goOn (s : Server F) (c : ℕ) (x : Session F) (stage : Stage F) :
    Server F :=
  s.update c { x with stage }

/-- The thread panics.  A guard that allows writing poisons its lock. -/
def panics (s : Server F) (c : ℕ) (x : Session F) : Server F :=
  { s.goOn c x (.ended (.error .panic)) with
    poisoned := s.poisoned || x.stage.guard = .write }

/-- Taking the guard; `unwrap` panics if the lock is poisoned. -/
def enter (s : Server F) (c : ℕ) (x : Session F) (arm : Arm) :
    Option (Server F) :=
  if s.Admits arm.guard then
    if arm.guard ≠ .none ∧ s.poisoned then some (s.panics c x)
    else some (s.goOn c x (.running arm.guard arm.body))
  else none

/-- The memtable's part of `get`, and the snapshot of the tables. -/
def look (s : Server F) (c : ℕ) (x : Session F) (guard : Guard)
    (key : Bytes) (next : Except IoError (Option Bytes) → Program) :
    Option (Server F) := do
  let p ← s.db.process
  let stage := match p.db.map.get? key with
    | some entry => .running guard (next (.ok entry))
    | none => .searching guard key p.db.sstableSet.sstables.reverse next
  return s.goOn c x stage

/-- One turn of the loop of `SSTableSet::get`. -/
def search (s : Server F) (c : ℕ) (x : Session F) (guard : Guard)
    (key : Bytes) (next : Except IoError (Option Bytes) → Program) :
    List (Listed F.toTableFormat) → Server F
  | [] => s.goOn c x (.running guard (next (.ok none)))
  | sstable :: older =>
    match F.get sstable.table key with
    | .ok (some (.value value)) =>
      s.goOn c x (.running guard (next (.ok (some value))))
    | .ok (some .tombstone) =>
      s.goOn c x (.running guard (next (.ok none)))
    | .ok none => s.goOn c x (.searching guard key older next)
    | .error (.io e) => s.goOn c x (.running guard (next (.error e)))
    | .error .panic => s.panics c x

/-- A step of the thread that calls `put` or `delete`, after which it is in
another stage. -/
def write (s : Server F) (c : ℕ) (x : Session F) (l : WriteStep F)
    (stage : State F → Stage F) : Option (Server F) := do
  let db ← s.db.step (.write l)
  return { s.goOn c x (stage db) with db }

/-- A step on one connection. -/
def turn (s : Server F) (c : ℕ) (x : Session F) :
    Act F → Option (Server F × Shown)
  | .send bytes =>
    if x.hungUp then none
    else some (s.update c { x with unread := x.unread ++ bytes }, [])
  | .hangUp => some (s.update c { x with hungUp := true }, [])
  | .read =>
    match x.stage with
    | .reading => (x.read c).map fun r => (s.update c r.1, r.2)
    | _ => none
  | .enter =>
    match x.stage with
    | .dispatching arm => (s.enter c x arm).map (·, [])
    | _ => none
  | .look =>
    match x.stage with
    | .running guard (.get key next) =>
      (s.look c x guard key next).map (·, [])
    | _ => none
  | .search =>
    match x.stage with
    | .searching guard key tables next =>
      some (s.search c x guard key next tables, [])
    | _ => none
  | .searchFails e =>
    match x.stage with
    | .searching guard _ (_ :: _) next =>
      some (s.goOn c x (.running guard (next (.error e))), [])
    | _ => none
  | .append =>
    match x.stage with
    | .running .write (.mutate m next) =>
      (s.write c x (.append m) fun _ => .mutating next).map (·, [])
    | _ => none
  | .appendFails fault e =>
    match x.stage with
    | .running .write (.mutate m next) =>
      (s.write c x (.appendFails m fault) fun _ =>
        .running .write (next (.error e))).map (·, [])
    | _ => none
  | .work (.flushFails _) => none
  | .work l =>
    match x.stage with
    | .mutating next =>
      (s.write c x l fun db =>
        if db.returned then .running .write (next (.ok ()))
        else .mutating next).map (·, [])
    | _ => none
  | .flushFails fault e =>
    match x.stage with
    | .mutating next =>
      (s.write c x (.flushFails fault) fun _ =>
        .running .write (next (.error e))).map (·, [])
    | _ => none
  | .leave =>
    match x.stage with
    | .running _ (.done outcome) =>
      some (s.goOn c x (.replying outcome), [])
    | _ => none
  | .reply =>
    match x.stage with
    | .replying outcome =>
      some (s.update c (x.reply c outcome).1, (x.reply c outcome).2)
    | _ => none
  | .breakOff written e =>
    match x.stage with
    | .reading => some (s.goOn c x (.ended (.error (.io e))), [])
    | .replying outcome =>
      some (s.update c { x with
        output := x.output ++ outcome.bytes.take written
        stage := .ended (.error (.io e)) }, [])
    | _ => none

/-- A step of the server, and what is seen of it. -/
def step (s : Server F) : Move F → Option (Server F × Shown)
  | .accept =>
    some ({ s with sessions := s.sessions ++ [Session.accepted F] }, [])
  | .act c a => do
    let x ← s.sessions[c]?
    s.turn c x a
  | .compact l => do
    let db ← s.db.step (.compact l)
    return ({ s with db }, [])
  | .compactFails left => do
    let db ← s.db.step (.compactFails left)
    return ({ s with db }, [])

/-- A server on an open database. -/
def start (db : State F) : Server F :=
  ⟨db, false, []⟩

/-- A run of the server, and its history. -/
def exec (s : Server F) (moves : List (Move F)) :
    Option (Server F × Shown) :=
  runFrom step s moves

/-! ## What a step can do -/

/-- The steps on a connection. -/
inductive Turn (s : Server F) (c : ℕ) (x : Session F) :
    Act F → Server F → Shown → Prop where
  | sent {bytes : Bytes} (hopen : x.hungUp = false) :
    Turn s c x (.send bytes)
      (s.update c { x with unread := x.unread ++ bytes }) []
  | hungUp : Turn s c x .hangUp (s.update c { x with hungUp := true }) []
  | read {r : Session F × Shown} (hat : x.stage = .reading)
      (hread : x.read c = some r) :
    Turn s c x .read (s.update c r.1) r.2
  | entered {arm : Arm} (hat : x.stage = .dispatching arm)
      (hadmits : s.Admits arm.guard)
      (hsound : arm.guard = .none ∨ s.poisoned = false) :
    Turn s c x .enter (s.goOn c x (.running arm.guard arm.body)) []
  | foundPoisoned {arm : Arm} (hat : x.stage = .dispatching arm)
      (hguard : arm.guard ≠ .none) (hpoisoned : s.poisoned = true) :
    Turn s c x .enter (s.panics c x) []
  | inMemory {guard : Guard} {key : Bytes}
      {next : Except IoError (Option Bytes) → Program} {p : Process F}
      {entry : Option Bytes} (hat : x.stage = .running guard (.get key next))
      (hp : s.db.process = some p)
      (hentry : p.db.map.get? key = some entry) :
    Turn s c x .look (s.goOn c x (.running guard (next (.ok entry)))) []
  | cloned {guard : Guard} {key : Bytes}
      {next : Except IoError (Option Bytes) → Program} {p : Process F}
      (hat : x.stage = .running guard (.get key next))
      (hp : s.db.process = some p) (hentry : p.db.map.get? key = none) :
    Turn s c x .look (s.goOn c x
      (.searching guard key p.db.sstableSet.sstables.reverse next)) []
  | searched {guard : Guard} {key : Bytes}
      {tables : List (Listed F.toTableFormat)}
      {next : Except IoError (Option Bytes) → Program}
      (hat : x.stage = .searching guard key tables next) :
    Turn s c x .search (s.search c x guard key next tables) []
  | unreadable {e : IoError} {guard : Guard} {key : Bytes}
      {table : Listed F.toTableFormat}
      {older : List (Listed F.toTableFormat)}
      {next : Except IoError (Option Bytes) → Program}
      (hat : x.stage = .searching guard key (table :: older) next) :
    Turn s c x (.searchFails e)
      (s.goOn c x (.running guard (next (.error e)))) []
  | appended {m : Mutation} {next : Except IoError Unit → Program}
      {db : State F} (hat : x.stage = .running .write (.mutate m next))
      (hdb : s.db.step (.write (.append m)) = some db) :
    Turn s c x .append { s.goOn c x (.mutating next) with db } []
  | appendFailed {fault : AppendFault} {e : IoError} {m : Mutation}
      {next : Except IoError Unit → Program} {db : State F}
      (hat : x.stage = .running .write (.mutate m next))
      (hdb : s.db.step (.write (.appendFails m fault)) = some db) :
    Turn s c x (.appendFails fault e)
      { s.goOn c x (.running .write (next (.error e))) with db } []
  | worked {l : WriteStep F} {next : Except IoError Unit → Program}
      {db : State F} (hat : x.stage = .mutating next)
      (hdb : s.db.step (.write l) = some db) :
    Turn s c x (.work l) { s.goOn c x
      (if db.returned then .running .write (next (.ok ()))
      else .mutating next) with db } []
  | flushFailed {fault : FlushFault F} {e : IoError}
      {next : Except IoError Unit → Program} {db : State F}
      (hat : x.stage = .mutating next)
      (hdb : s.db.step (.write (.flushFails fault)) = some db) :
    Turn s c x (.flushFails fault e)
      { s.goOn c x (.running .write (next (.error e))) with db } []
  | left {guard : Guard} {outcome : Outcome}
      (hat : x.stage = .running guard (.done outcome)) :
    Turn s c x .leave (s.goOn c x (.replying outcome)) []
  | replied {outcome : Outcome} (hat : x.stage = .replying outcome) :
    Turn s c x .reply (s.update c (x.reply c outcome).1)
      (x.reply c outcome).2
  | readFailed {written : ℕ} {e : IoError} (hat : x.stage = .reading) :
    Turn s c x (.breakOff written e)
      (s.goOn c x (.ended (.error (.io e)))) []
  | brokeOff {written : ℕ} {e : IoError} {outcome : Outcome}
      (hat : x.stage = .replying outcome) :
    Turn s c x (.breakOff written e) (s.update c { x with
      output := x.output ++ outcome.bytes.take written
      stage := .ended (.error (.io e)) }) []

theorem enter_turn {s s' : Server F} {c : ℕ} {x : Session F} {arm : Arm}
    (hat : x.stage = .dispatching arm) (h : s.enter c x arm = some s') :
    Turn s c x .enter s' [] := by
  unfold enter at h
  split_ifs at h with hadmits hpoisoned
  · obtain rfl := Option.some.inj h
    exact .foundPoisoned hat hpoisoned.1 hpoisoned.2
  · obtain rfl := Option.some.inj h
    refine .entered hat hadmits ?_
    rw [not_and_or, not_not, Bool.not_eq_true] at hpoisoned
    exact hpoisoned

theorem look_turn {s s' : Server F} {c : ℕ} {x : Session F} {guard : Guard}
    {key : Bytes} {next : Except IoError (Option Bytes) → Program}
    (hat : x.stage = .running guard (.get key next))
    (h : s.look c x guard key next = some s') :
    Turn s c x .look s' [] := by
  obtain ⟨p, hp, h⟩ := Option.bind_eq_some_iff.mp h
  obtain rfl := Option.some.inj h
  cases hentry : p.db.map.get? key with
  | some entry => exact .inMemory hat hp hentry
  | none => exact .cloned hat hp hentry

theorem write_eq_some {s s' : Server F} {c : ℕ} {x : Session F}
    {l : WriteStep F} {stage : State F → Stage F}
    (h : s.write c x l stage = some s') :
    ∃ db, s.db.step (.write l) = some db ∧
      s' = { s.goOn c x (stage db) with db } := by
  obtain ⟨db, hdb, h⟩ := Option.bind_eq_some_iff.mp h
  exact ⟨db, hdb, (Option.some.inj h).symm⟩

theorem turn_cases {s s' : Server F} {c : ℕ} {x : Session F} {a : Act F}
    {shown : Shown} (h : s.turn c x a = some (s', shown)) :
    Turn s c x a s' shown := by
  cases a with
  | send bytes =>
      rw [turn] at h
      split_ifs at h with hopen
      obtain ⟨rfl, rfl⟩ := Prod.mk.inj (Option.some.inj h)
      exact .sent (Bool.not_eq_true _ ▸ hopen)
  | hangUp =>
      obtain ⟨rfl, rfl⟩ := Prod.mk.inj (Option.some.inj h)
      exact .hungUp
  | read =>
      rw [turn] at h
      split at h
      next hat =>
        obtain ⟨r, hread, h⟩ := Option.map_eq_some_iff.mp h
        obtain ⟨rfl, rfl⟩ := Prod.mk.inj h
        exact .read hat hread
      next => cases h
  | enter =>
      rw [turn] at h
      split at h
      next arm hat =>
        obtain ⟨_, henter, h⟩ := Option.map_eq_some_iff.mp h
        obtain ⟨rfl, rfl⟩ := Prod.mk.inj h
        exact enter_turn hat henter
      next => cases h
  | look =>
      rw [turn] at h
      split at h
      next guard key next hat =>
        obtain ⟨_, hlook, h⟩ := Option.map_eq_some_iff.mp h
        obtain ⟨rfl, rfl⟩ := Prod.mk.inj h
        exact look_turn hat hlook
      next => cases h
  | search =>
      rw [turn] at h
      split at h
      next guard key tables next hat =>
        obtain ⟨rfl, rfl⟩ := Prod.mk.inj (Option.some.inj h)
        exact .searched hat
      next => cases h
  | searchFails e =>
      rw [turn] at h
      split at h
      next guard key table older next hat =>
        obtain ⟨rfl, rfl⟩ := Prod.mk.inj (Option.some.inj h)
        exact .unreadable hat
      next => cases h
  | append =>
      rw [turn] at h
      split at h
      next m next hat =>
        obtain ⟨_, hwrite, h⟩ := Option.map_eq_some_iff.mp h
        obtain ⟨rfl, rfl⟩ := Prod.mk.inj h
        obtain ⟨db, hdb, rfl⟩ := write_eq_some hwrite
        exact .appended hat hdb
      next => cases h
  | appendFails fault e =>
      rw [turn] at h
      split at h
      next m next hat =>
        obtain ⟨_, hwrite, h⟩ := Option.map_eq_some_iff.mp h
        obtain ⟨rfl, rfl⟩ := Prod.mk.inj h
        obtain ⟨db, hdb, rfl⟩ := write_eq_some hwrite
        exact .appendFailed hat hdb
      next => cases h
  | work l =>
      have hworked : ∀ {next : Except IoError Unit → Program},
          x.stage = .mutating next →
          (s.write c x l fun db =>
            if db.returned then .running .write (next (.ok ()))
            else .mutating next).map (·, []) = some (s', shown) →
          Turn s c x (.work l) s' shown := by
        intro next hat h
        obtain ⟨_, hwrite, h⟩ := Option.map_eq_some_iff.mp h
        obtain ⟨rfl, rfl⟩ := Prod.mk.inj h
        obtain ⟨db, hdb, rfl⟩ := write_eq_some hwrite
        exact .worked hat hdb
      cases l with
      | flushFails fault => cases h
      | _ =>
          simp only [turn] at h
          split at h
          next next hat => exact hworked hat h
          next => cases h
  | flushFails fault e =>
      rw [turn] at h
      split at h
      next next hat =>
        obtain ⟨_, hwrite, h⟩ := Option.map_eq_some_iff.mp h
        obtain ⟨rfl, rfl⟩ := Prod.mk.inj h
        obtain ⟨db, hdb, rfl⟩ := write_eq_some hwrite
        exact .flushFailed hat hdb
      next => cases h
  | leave =>
      rw [turn] at h
      split at h
      next guard outcome hat =>
        obtain ⟨rfl, rfl⟩ := Prod.mk.inj (Option.some.inj h)
        exact .left hat
      next => cases h
  | reply =>
      rw [turn] at h
      split at h
      next outcome hat =>
        obtain ⟨rfl, rfl⟩ := Prod.mk.inj (Option.some.inj h)
        exact .replied hat
      next => cases h
  | breakOff written e =>
      rw [turn] at h
      split at h
      next hat =>
        obtain ⟨rfl, rfl⟩ := Prod.mk.inj (Option.some.inj h)
        exact .readFailed hat
      next outcome hat =>
        obtain ⟨rfl, rfl⟩ := Prod.mk.inj (Option.some.inj h)
        exact .brokeOff hat
      next => cases h

/-- A step is one of the clients, of a connection's thread, or of the
compactor. -/
theorem step_act {s s' : Server F} {c : ℕ} {a : Act F} {shown : Shown}
    (h : s.step (.act c a) = some (s', shown)) :
    ∃ x, s.sessions[c]? = some x ∧ Turn s c x a s' shown := by
  obtain ⟨x, hx, h⟩ := Option.bind_eq_some_iff.mp h
  exact ⟨x, hx, turn_cases h⟩

theorem step_compact {s s' : Server F} {l : CompactStep} {shown : Shown}
    (h : s.step (.compact l) = some (s', shown)) :
    ∃ db, s.db.step (.compact l) = some db ∧ s' = { s with db } ∧
      shown = [] := by
  obtain ⟨db, hdb, h⟩ := Option.bind_eq_some_iff.mp h
  obtain ⟨rfl, rfl⟩ := Prod.mk.inj (Option.some.inj h)
  exact ⟨db, hdb, rfl, rfl⟩

theorem step_compactFails {s s' : Server F} {left : Option F.File}
    {shown : Shown} (h : s.step (.compactFails left) = some (s', shown)) :
    ∃ db, s.db.step (.compactFails left) = some db ∧ s' = { s with db } ∧
      shown = [] := by
  obtain ⟨db, hdb, h⟩ := Option.bind_eq_some_iff.mp h
  obtain ⟨rfl, rfl⟩ := Prod.mk.inj (Option.some.inj h)
  exact ⟨db, hdb, rfl, rfl⟩

end Server

end Lsmrs
