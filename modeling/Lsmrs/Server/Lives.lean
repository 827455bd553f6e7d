import Lsmrs.Server.Linearizable

/-!
# The service across crashes

A server is killed between any two steps of its run, and another one is
started on what is left of its directory.  The commands of all of them
together could have been carried out at once on one plain map, apart from at
most one for each crash, which the crash cuts off.  An append to the log is
one step: behind one that a crash tears, later records may be lost.
-/

namespace Lsmrs

open ByteString Atomicity

/-- What happens to a server and to its directory. -/
inductive Incident (F : Format) where
  | serve (move : Move F)
  | crash
  | crashInOpen (listing : List Bytes) (removed : ℕ)
  | recover (config : Config) (listing : List Bytes)

variable {F : Format} {Ok : Mutation → Prop} {faulty : Prop}

/-- A server is there while its database is open. -/
def Server.incident (s : Server F) : Incident F → Option (Server F × Shown)
  | .serve move => if s.db.process.isSome then s.step move else none
  | .crash => do
    let db ← s.db.step .crash
    return (Server.start db, [.crash])
  | .crashInOpen listing removed => do
    let db ← s.db.step (.crashInOpen listing removed)
    return (Server.start db, [])
  | .recover config listing => do
    let db ← s.db.step (.recover config listing)
    return (Server.start db, [])

/-- The servers on one directory, one after the other, and what their clients
see. -/
def Server.live (s : Server F) (incidents : List (Incident F)) :
    Option (Server F × Shown) :=
  runFrom Server.incident s incidents

def Incident.Permitted (faulty torn : Prop) : Incident F → Prop
  | .serve move => move.Permitted faulty torn
  | _ => True

instance [Decidable faulty] {torn : Prop} [Decidable torn] :
    (l : Incident F) → Decidable (l.Permitted faulty torn)
  | .serve move => inferInstanceAs (Decidable (move.Permitted faulty torn))
  | .crash => instDecidableTrue
  | .crashInOpen _ _ => instDecidableTrue
  | .recover _ _ => instDecidableTrue

/-! ## The database -/

/-- The state follows the history, and its log is whole. -/
structure Whole (Ok : Mutation → Prop) (hist : List Mutation)
    (s : State F) : Prop where
  inv : Inv Ok hist s
  log : LogWhole Ok s.disk.log

theorem Whole.step (hF : F.Lawful Ok) {hist : List Mutation}
    {s s' : State F} {l : Label F} (h : Whole Ok hist s)
    (hl : l.OnlyFlushFails) (hm : ∀ m ∈ l.logged, Ok m)
    (hstep : s.step l = some s') :
    Whole Ok (hist ++ l.logged.toList) s' :=
  ⟨step_inv hF h.inv
      (stepOk_of_appendSucceeds h.log hl.appendSucceeds hm) hl.compacts hstep,
    step_logWhole h.log hl.appendSucceeds hm hstep⟩

theorem Whole.silent (hF : F.Lawful Ok) {hist : List Mutation}
    {s s' : State F} {l : Label F} (h : Whole Ok hist s)
    (hstep : s.step l = some s') (hl : l.OnlyFlushFails)
    (hsilent : l.logged = none) : Whole Ok hist s' := by
  have hnext := h.step hF hl (by simp [hsilent]) hstep
  rwa [hsilent, Option.toList_none, List.append_nil] at hnext

theorem tracks_whole (hF : F.Lawful Ok) :
    Tracks Ok False (Whole Ok (F := F)) where
  readsAs := fun h => h.inv.readsAs
  step := fun h hstep _ happend hm =>
    h.step hF (happend.resolve_left id) hm hstep

/-! ## What a crash cuts off -/

/-- The writer has got somewhere in its command. -/
theorem Stands.cuts {state : Bytes → Option Bytes} {hist : List Mutation}
    {status : Status (List Bytes) Outcome} {stage : Stage F}
    (h : Stands Ok faulty state hist status stage)
    (hwrite : stage.guard = .write) :
    ∃ args, status = .pending args ∧
      Cuts faulty state args (plainMap hist) := by
  cases h with
  | @running args _ rest h =>
      obtain rfl := hwrite
      exact ⟨args, rfl, rest, h.2⟩
  | @searching args _ _ _ _ h hfrom =>
      obtain rfl := hwrite
      exact ⟨args, rfl, _, h.2⟩
  | @mutating args m before next hhist h =>
      refine ⟨args, rfl, next (.ok ()), ?_⟩
      rw [hhist, plainMap_snoc]
      exact h.mutated.2
  | reading => cases hwrite
  | dispatching hok => cases hwrite
  | replying => cases hwrite
  | ended => cases hwrite

namespace Explains

variable {I : List Mutation → State F → Prop} {s : Server F} {a : Commands}
  {hist : List Mutation}

/-- What the database holds when it crashes. -/
theorem crash (h : Explains Ok faulty I s a hist) :
    Allows (commands faulty) a [.crash]
      (Atomic.start (plainMap hist)) := by
  by_cases hnot : ∀ x ∈ s.sessions, x.stage.guard ≠ .write
  · rw [← h.state hnot]
    exact .crash .done
  · push Not at hnot
    obtain ⟨x, hx, hwrite⟩ := hnot
    obtain ⟨c, hc⟩ := List.mem_iff_getElem?.mp hx
    obtain ⟨args, hstatus, hcuts⟩ := (h.stands hc).cuts hwrite
    exact .cutOff hstatus hcuts .done

end Explains

/-! ## Lives -/

/-- A server explains what is seen, and a directory without one is that of a
plain map. -/
inductive Lives (Ok : Mutation → Prop) (faulty : Prop) (s : Server F)
    (a : Commands) : Prop where
  | serving {hist : List Mutation}
      (h : Explains Ok faulty (Whole Ok) s a hist)
      (hopen : s.db.process.isSome)
  | closed {hist : List Mutation} (h : Whole Ok hist s.db)
      (ha : a = Atomic.start (plainMap hist))
      (hclosed : s.db.process = none)

/-- A search reads the database only. -/
theorem Server.search_db (s : Server F) (c : ℕ) (x : Session F)
    (guard : Guard) (key : Bytes)
    (next : Except IoError (Option Bytes) → Program)
    (tables : List (Listed F.toTableFormat)) :
    (s.search c x guard key next tables).db = s.db := by
  cases tables with
  | nil => rfl
  | cons sstable older =>
      rw [Server.search]
      split <;> rfl

theorem Server.Turn.isSome {s s' : Server F} {c : ℕ} {x : Session F}
    {a : Act F} {shown : Shown} (h : Server.Turn s c x a s' shown)
    (hopen : s.db.process.isSome) : s'.db.process.isSome := by
  cases h with
  | appended _ hdb => exact step_running (l := .write _) trivial hdb
  | appendFailed _ hdb => exact step_running (l := .write _) trivial hdb
  | worked _ hdb => exact step_running (l := .write _) trivial hdb
  | flushFailed _ hdb => exact step_running (l := .write _) trivial hdb
  | searched hat => rwa [Server.search_db]
  | _ => exact hopen

/-- A server keeps its database open. -/
theorem Server.step_isSome {s s' : Server F} {move : Move F} {shown : Shown}
    (hopen : s.db.process.isSome) (h : s.step move = some (s', shown)) :
    s'.db.process.isSome := by
  cases move with
  | accept =>
      obtain ⟨rfl, rfl⟩ := Prod.mk.inj (Option.some.inj h)
      exact hopen
  | act c act =>
      obtain ⟨x, -, hturn⟩ := Server.step_act h
      exact hturn.isSome hopen
  | compact l =>
      obtain ⟨db, hdb, rfl, -⟩ := Server.step_compact h
      exact step_running (l := .compact _) trivial hdb
  | compactFails left =>
      obtain ⟨db, hdb, rfl, -⟩ := Server.step_compactFails h
      exact step_running (l := .compactFails _) trivial hdb

theorem Server.exec_isSome {s s' : Server F} {moves : List (Move F)}
    {shown : Shown} (hopen : s.db.process.isSome)
    (h : s.exec moves = some (s', shown)) : s'.db.process.isSome :=
  @runFrom_keeps _ _ _ Server.step (fun _ => True)
    (fun s => s.db.process.isSome)
    (fun _ hopen hstep => Server.step_isSome hopen hstep) _ _ _ _ hopen
    (fun _ _ => trivial) h

namespace Lives

variable {s s' : Server F} {a : Commands} {shown : Shown}

theorem serve (hF : F.Lawful Ok) (h : Lives Ok faulty s a) {move : Move F}
    (hmove : move.Permitted faulty False) (hasks : ∀ e ∈ shown, Asks Ok e)
    (hopen : s.db.process.isSome)
    (hstep : s.step move = some (s', shown)) :
    ∃ a', Allows (commands faulty) a shown a' ∧ Lives Ok faulty s' a' := by
  cases h with
  | serving h _ =>
      obtain ⟨a', hallows, hist', hnext⟩ :=
        h.step (tracks_whole hF) hmove hasks hstep
      exact ⟨a', hallows, .serving hnext (Server.step_isSome hopen hstep)⟩
  | closed h ha hclosed =>
      rw [hclosed] at hopen
      cases hopen

theorem crash (hF : F.Lawful Ok) (h : Lives Ok faulty s a) {db : State F}
    (hstep : s.db.step .crash = some db) :
    ∃ a', Allows (commands faulty) a [.crash] a' ∧
      Lives Ok faulty (Server.start db) a' := by
  cases h with
  | @serving hist h _ =>
      have hclosed : db.process = none := by
        simp only [State.step] at hstep
        split at hstep <;> cases hstep
        rfl
      exact ⟨_, h.crash,
        .closed (h.db.silent hF hstep trivial rfl) rfl hclosed⟩
  | closed h ha hclosed =>
      simp only [State.step, hclosed] at hstep
      cases hstep

theorem crashInOpen (hF : F.Lawful Ok) (h : Lives Ok faulty s a)
    {listing : List Bytes} {removed : ℕ} {db : State F}
    (hstep : s.db.step (.crashInOpen listing removed) = some db) :
    Lives Ok faulty (Server.start db) a := by
  cases h with
  | serving h hopen =>
      obtain ⟨p, hp⟩ := Option.isSome_iff_exists.mp hopen
      simp only [State.step, hp] at hstep
      cases hstep
  | closed h ha hclosed =>
      refine .closed (h.silent hF hstep trivial rfl) ha ?_
      simp only [State.step] at hstep
      split at hstep
      next => split_ifs at hstep; cases hstep; rfl
      next => cases hstep

theorem recover (hF : F.Lawful Ok) (h : Lives Ok faulty s a)
    {config : Config} {listing : List Bytes} {db : State F}
    (hstep : s.db.step (.recover config listing) = some db) :
    Lives Ok faulty (Server.start db) a := by
  obtain ⟨hp, -, hopened⟩ := State.step_recover hstep
  cases h with
  | serving h hopen =>
      rw [hp] at hopen
      cases hopen
  | @closed hist h ha hclosed =>
      have hnext := h.silent hF hstep trivial rfl
      rcases hopened with ⟨opened, -, hdb⟩ | ⟨e, -, hdb⟩
      · have hexplains : Explains Ok faulty (Whole Ok) (Server.start db) a
            hist := by
          rw [ha]
          exact explains_start hnext ⟨_, hdb, rfl⟩
        refine .serving hexplains ?_
        rw [Server.start, hdb]
        rfl
      · exact .closed hnext ha hdb

theorem incident (hF : F.Lawful Ok) (h : Lives Ok faulty s a)
    {l : Incident F} (hl : l.Permitted faulty False)
    (hasks : ∀ e ∈ shown, Asks Ok e)
    (hstep : s.incident l = some (s', shown)) :
    ∃ a', Allows (commands faulty) a shown a' ∧ Lives Ok faulty s' a' := by
  cases l with
  | serve move =>
      simp only [Server.incident] at hstep
      split_ifs at hstep with hopen
      exact h.serve hF hl hasks hopen hstep
  | crash =>
      obtain ⟨db, hdb, hstep⟩ := Option.bind_eq_some_iff.mp hstep
      obtain ⟨rfl, rfl⟩ := Prod.mk.inj (Option.some.inj hstep)
      exact h.crash hF hdb
  | crashInOpen listing removed =>
      obtain ⟨db, hdb, hstep⟩ := Option.bind_eq_some_iff.mp hstep
      obtain ⟨rfl, rfl⟩ := Prod.mk.inj (Option.some.inj hstep)
      exact ⟨a, .done, h.crashInOpen hF hdb⟩
  | recover config listing =>
      obtain ⟨db, hdb, hstep⟩ := Option.bind_eq_some_iff.mp hstep
      obtain ⟨rfl, rfl⟩ := Prod.mk.inj (Option.some.inj hstep)
      exact ⟨a, .done, h.recover hF hdb⟩

end Lives

/-- An empty directory. -/
theorem lives_initial :
    Lives Ok faulty (Server.start (State.initial F))
      (Atomic.start (plainMap [])) :=
  .closed ⟨initial_inv F Ok, logWhole_nil Ok⟩ rfl rfl

/-- What clients see of all the servers that ever run on a directory is a
history of commands on one plain map. -/
theorem linearizable_of_lives (hF : F.Lawful Ok) {s : Server F}
    {incidents : List (Incident F)} {shown : Shown}
    (hincidents : ∀ l ∈ incidents, l.Permitted faulty False)
    (hasks : ∀ e ∈ shown, Asks Ok e)
    (hrun : (Server.start (State.initial F)).live incidents =
      some (s, shown)) :
    Linearizable (commands faulty) (plainMap []) shown := by
  obtain ⟨a, hallows, -⟩ := runFrom_allows
    (fun hl hasks h hstep => h.incident hF hl hasks hstep)
    lives_initial hincidents hasks hrun
  exact ⟨a, hallows⟩

/-- Servers that nothing fails, one after the other on a directory that was
empty, are one plain map for their clients, in which `dispatch` carries out
the commands at once; a crash may cut a `DEL` short between two keys. -/
theorem linearizable_across_crashes (hash : Bytes → UInt32)
    {incidents : List (Incident (byteFormat hash))}
    (hincidents : ∀ l ∈ incidents, l.Permitted False False)
    {s : Server (byteFormat hash)} {shown : Shown}
    (hshort : ∀ e ∈ shown, Short e)
    (hrun : (Server.start (State.initial (byteFormat hash))).live incidents =
      some (s, shown)) :
    Linearizable plainCommands (fun _ => none) shown :=
  linearizable_plainCommands (linearizable_of_lives (byteFormat_lawful hash)
    hincidents (fun e he => (hshort e he).asks) hrun)

/-- A key is set; its deletion is logged together with that of another one,
and nothing more of it is done. -/
def cutShort : List (Incident (byteFormat crc32)) :=
  [.recover flushEach [], .serve .accept,
    .serve (.act 0 (.send (ascii "SET k v\r\n"))), .serve (.act 0 .read),
    .serve (.act 0 .enter), .serve (.act 0 .append),
    .serve (.act 0 (.work .apply)), .serve (.act 0 (.work .create)),
    .serve (.act 0 (.work .rename)), .serve (.act 0 (.work .register)),
    .serve (.act 0 (.work .truncate)), .serve (.act 0 .leave),
    .serve (.act 0 .reply), .serve .accept,
    .serve (.act 1 (.send (ascii "DEL k l\r\n"))), .serve (.act 1 .read),
    .serve (.act 1 .enter), .serve (.act 1 .look), .serve (.act 1 .search),
    .serve (.act 1 .append), .crash,
    .recover flushEach [tableName ⟨0, 0⟩], .serve .accept,
    .serve (.act 0 (.send (ascii "GET k\r\n"))), .serve (.act 0 .read),
    .serve (.act 0 .enter), .serve (.act 0 .look), .serve (.act 0 .leave),
    .serve (.act 0 .reply)]

theorem linearizable_across_crashes_cutShort :
    ∃ s shown, (Server.start (State.initial (byteFormat crc32))).live
        cutShort = some (s, shown) ∧
      (repliesTo 0 shown).flatMap Outcome.bytes = ascii "+OK\r\n$-1\r\n" ∧
      Linearizable plainCommands (fun _ => none) shown := by
  have hheard : ((Server.start (State.initial (byteFormat crc32))).live
      cutShort).map (fun r => heard r.2) =
        some (ascii "+OK\r\n$-1\r\n", true) := by
    decide +kernel
  obtain ⟨s, shown, hrun, hreplies, hshort⟩ := exists_of_heard hheard
  exact ⟨s, shown, hrun, hreplies, linearizable_across_crashes crc32
    (by decide +kernel) hshort hrun⟩

/-- Where flushes fail at any of their steps, and reads of tables in a `get`,
a command's own calls may fail. -/
theorem linearizable_across_failures (hash : Bytes → UInt32)
    {incidents : List (Incident (byteFormat hash))}
    (hincidents : ∀ l ∈ incidents, l.Permitted True False)
    {s : Server (byteFormat hash)} {shown : Shown}
    (hshort : ∀ e ∈ shown, Short e)
    (hrun : (Server.start (State.initial (byteFormat hash))).live incidents =
      some (s, shown)) :
    Linearizable (commands True) (fun _ => none) shown :=
  linearizable_of_lives (byteFormat_lawful hash) hincidents
    (fun e he => (hshort e he).asks) hrun

/-- A flush fails, and the server is killed behind it. -/
def failedFlush : List (Incident (byteFormat crc32)) :=
  [.recover flushEach [], .serve .accept,
    .serve (.act 0 (.send (ascii "SET k v\r\n"))), .serve (.act 0 .read),
    .serve (.act 0 .enter), .serve (.act 0 .append),
    .serve (.act 0 (.work .apply)), .serve (.act 0 (.work .create)),
    .serve (.act 0 (.flushFails .rename ⟨.other, ascii "disk full"⟩)),
    .crash, .recover flushEach [tmpName ⟨0, 0⟩], .serve .accept,
    .serve (.act 0 (.send (ascii "GET k\r\n"))), .serve (.act 0 .read),
    .serve (.act 0 .enter), .serve (.act 0 .look), .serve (.act 0 .leave),
    .serve (.act 0 .reply)]

theorem linearizable_across_failures_failedFlush :
    ∃ s shown, (Server.start (State.initial (byteFormat crc32))).live
        failedFlush = some (s, shown) ∧
      (repliesTo 0 shown).flatMap Outcome.bytes = ascii "$1\r\nv\r\n" ∧
      Linearizable (commands True) (fun _ => none) shown := by
  have hheard : ((Server.start (State.initial (byteFormat crc32))).live
      failedFlush).map (fun r => heard r.2) =
        some (ascii "$1\r\nv\r\n", true) := by
    decide +kernel
  obtain ⟨s, shown, hrun, hreplies, hshort⟩ := exists_of_heard hheard
  exact ⟨s, shown, hrun, hreplies, linearizable_across_failures crc32
    (by decide +kernel) hshort hrun⟩

end Lsmrs
