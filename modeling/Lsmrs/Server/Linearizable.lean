import Lsmrs.Server.Explains

/-!
# The server is linearizable

Whatever the threads of the connections, the compactor and the clients do and
in whatever order, every command could have been carried out at once on a
plain map, between the read of the command and the reply to it.
-/

namespace Lsmrs

open ByteString Atomicity

variable {F : Format} {Ok : Mutation → Prop} {faulty torn : Prop}

/-- Files fail only if that is allowed, and where something else may be read
after the next opening only if that is, too: if an append or a compaction
fails.  Sockets may always fail. -/
def Act.Permitted (faulty torn : Prop) : Act F → Prop
  | .searchFails _ => faulty
  | .appendFails _ _ => faulty ∧ torn
  | .flushFails _ _ => faulty
  | _ => True

def Move.Permitted (faulty torn : Prop) : Move F → Prop
  | .act _ a => a.Permitted faulty torn
  | .compactFails _ => faulty ∧ torn
  | _ => True

instance [Decidable faulty] [Decidable torn] :
    (act : Act F) → Decidable (act.Permitted faulty torn)
  | .searchFails _ => inferInstanceAs (Decidable faulty)
  | .appendFails _ _ => inferInstanceAs (Decidable (faulty ∧ torn))
  | .flushFails _ _ => inferInstanceAs (Decidable faulty)
  | .send _ => instDecidableTrue
  | .hangUp => instDecidableTrue
  | .read => instDecidableTrue
  | .enter => instDecidableTrue
  | .look => instDecidableTrue
  | .search => instDecidableTrue
  | .append => instDecidableTrue
  | .work _ => instDecidableTrue
  | .leave => instDecidableTrue
  | .reply => instDecidableTrue
  | .breakOff _ _ => instDecidableTrue

instance [Decidable faulty] [Decidable torn] :
    (move : Move F) → Decidable (move.Permitted faulty torn)
  | .accept => instDecidableTrue
  | .act _ act => inferInstanceAs (Decidable (act.Permitted faulty torn))
  | .compact _ => instDecidableTrue
  | .compactFails _ => inferInstanceAs (Decidable (faulty ∧ torn))

/-- The command may ask only for mutations that are allowed. -/
def Asks (Ok : Mutation → Prop) : Event ℕ (List Bytes) Outcome → Prop
  | .call _ args => (arm args).body.Within Ok
  | _ => True

namespace Explains

variable {I : List Mutation → State F → Prop} {s s' : Server F}
  {a : Commands} {hist : List Mutation} {c : ℕ} {x : Session F}

/-! ## The threads, step by step -/

theorem stage_stands (h : Explains Ok faulty I s a hist)
    (hx : s.sessions[c]? = some x) {stage : Stage F}
    (hat : x.stage = stage) :
    Stands Ok faulty a.state hist (a.status c) stage :=
  hat ▸ h.stands hx

/-- The client does something. -/
theorem client (h : Explains Ok faulty I s a hist)
    (hx : s.sessions[c]? = some x) {unread : Bytes} {hungUp : Bool} :
    Explains Ok faulty I (s.update c { x with unread, hungUp }) a hist := by
  have hstands := h.stands hx
  exact h.goOn_silent hx rfl Iff.rfl hstands

/-- Without a guard, the thread goes on in its loop. -/
theorem turned (h : Explains Ok faulty I s a hist)
    (hx : s.sessions[c]? = some x) (hguard : x.stage.guard = .none)
    {x' : Session F} {stage : Stage F} (hx' : x'.stage = stage)
    (hguard' : stage.guard = .none) {status : Status (List Bytes) Outcome}
    (hstands : Stands Ok faulty a.state hist status stage) :
    Explains Ok faulty I (s.update c x') (a.moved c status) hist := by
  subst hx'
  refine h.goOn hx (hguard'.trans hguard.symm) (iff_of_false ?_ ?_) hstands
  · exact fun hmutates => nomatch hguard'.symm.trans hmutates.guard
  · exact fun hmutates => nomatch hguard.symm.trans hmutates.guard

/-- The thread is over. -/
theorem ended (h : Explains Ok faulty I s a hist)
    (hx : s.sessions[c]? = some x) (hguard : x.stage.guard = .none)
    {x' : Session F} {how : Result Unit} (hx' : x'.stage = .ended how)
    (hhow : how ≠ .error .panic) :
    Explains Ok faulty I (s.update c x') a hist := by
  have hstands : Stands Ok faulty a.state hist (a.status c)
      (.ended how : Stage F) := .ended hhow
  have hnext := h.turned hx hguard hx' rfl hstands
  rwa [Atomic.moved_same] at hnext

/-- The thread takes its guard. -/
theorem entered (h : Explains Ok faulty I s a hist)
    (hx : s.sessions[c]? = some x) {arm : Arm}
    (hat : x.stage = .dispatching arm) (hadmits : s.Admits arm.guard) :
    Explains Ok faulty I (s.goOn c x (.running arm.guard arm.body)) a
      hist := by
  obtain ⟨args, hstatus, rfl, hok⟩ := (h.stage_stands hx hat).of_dispatching
  have hunguarded : x.stage.guard = .none := by rw [hat]; rfl
  have hunmutating : ¬ x.stage.Mutates := by rw [hat]; exact id
  have hstate : (Lsmrs.arm args).guard ≠ .none →
      a.state = plainMap hist := by
    intro hguard
    apply h.state
    intro y hy hwrite
    cases hto : (Lsmrs.arm args).guard with
    | none => exact hguard hto
    | read =>
        rw [hto] at hadmits
        exact hadmits y hy hwrite
    | write =>
        rw [hto] at hadmits
        cases (hadmits y hy).symm.trans hwrite
  refine h.change hx rfl rfl h.db (fun _ _ => rfl) (Or.inl ⟨rfl, rfl⟩)
    (Or.inr (Or.inr hadmits)) (Or.inl ⟨rfl, ?_⟩)
    (Or.inr (Or.inr ⟨rfl, rfl, ?_⟩)) ?_
  · exact ⟨fun hmutates => hmutates.elim, fun hmutates =>
      (hunmutating hmutates).elim⟩
  · rw [hunguarded]
    exact Guard.noConfusion
  · rw [hstatus]
    refine .running ?_
    have hbehind : Behind Ok faulty a.state a.state args
        (Lsmrs.arm args).guard (Lsmrs.arm args).body := Behind.arm hok
    cases hto : (Lsmrs.arm args).guard with
    | none =>
        rw [hto] at hbehind
        exact hbehind
    | read =>
        rw [hto] at hbehind hstate
        rwa [← hstate Guard.noConfusion]
    | write =>
        rw [hto] at hbehind hstate
        rwa [← hstate Guard.noConfusion]

/-- Outside of `put` and `delete`, the thread goes on in its arm. -/
theorem goesOn (h : Explains Ok faulty I s a hist)
    (hx : s.sessions[c]? = some x) {stage stage' : Stage F}
    (hat : x.stage = stage) (hguard : stage'.guard = stage.guard)
    (hstill : ¬ stage.Mutates) (hstill' : ¬ stage'.Mutates)
    (hstands : Stands Ok faulty a.state hist (a.status c) stage') :
    Explains Ok faulty I (s.goOn c x stage') a hist := by
  subst hat
  exact h.goOn_silent hx hguard (iff_of_false hstill' hstill) hstands

/-- A thread that is about to look a key up can rely on its guard. -/
theorem get_eq (hI : Tracks Ok torn I) (h : Explains Ok faulty I s a hist)
    (hx : s.sessions[c]? = some x) {guard : Guard} {key : Bytes}
    {next : Except IoError (Option Bytes) → Program} {args : List Bytes}
    {p : Process F} (hat : x.stage = .running guard (.get key next))
    (hbehind : Behind Ok faulty a.state (plainMap hist) args guard
      (.get key next))
    (hp : s.db.process = some p) :
    p.db.get key = .ok (plainMap hist key) := by
  refine (hI.readsAs h.db).get_eq (h.idle_of_guard hx ?_ ?_) hp key
  · rw [hat]
    exact hbehind.guard_ne_none
  · rw [hat]
    exact id

/-- The memtable has the key. -/
theorem inMemory (hI : Tracks Ok torn I) (h : Explains Ok faulty I s a hist)
    (hx : s.sessions[c]? = some x) {guard : Guard} {key : Bytes}
    {next : Except IoError (Option Bytes) → Program} {p : Process F}
    {entry : Option Bytes} (hat : x.stage = .running guard (.get key next))
    (hp : s.db.process = some p)
    (hentry : p.db.map.get? key = some entry) :
    Explains Ok faulty I (s.goOn c x (.running guard (next (.ok entry)))) a
      hist := by
  obtain ⟨args, hstatus, hbehind⟩ := (h.stage_stands hx hat).of_running
  have hget := h.get_eq hI hx hat hbehind hp
  rw [Db.get, hentry] at hget
  obtain rfl := Except.ok.inj hget
  refine h.goesOn hx hat rfl id id ?_
  rw [hstatus]
  exact .running hbehind.found

/-- The memtable does not have it, and the tables of the snapshot are to be
looked through. -/
theorem cloned (hI : Tracks Ok torn I) (h : Explains Ok faulty I s a hist)
    (hx : s.sessions[c]? = some x) {guard : Guard} {key : Bytes}
    {next : Except IoError (Option Bytes) → Program} {p : Process F}
    (hat : x.stage = .running guard (.get key next))
    (hp : s.db.process = some p) (hentry : p.db.map.get? key = none) :
    Explains Ok faulty I (s.goOn c x
      (.searching guard key p.db.sstableSet.sstables.reverse next)) a
        hist := by
  obtain ⟨args, hstatus, hbehind⟩ := (h.stage_stands hx hat).of_running
  have hget := h.get_eq hI hx hat hbehind hp
  rw [Db.get, hentry] at hget
  refine h.goesOn hx hat rfl id id ?_
  rw [hstatus]
  exact .searching hbehind hget

/-- A turn of the search, whatever the compactor has done to the list
since. -/
theorem searched (h : Explains Ok faulty I s a hist)
    (hx : s.sessions[c]? = some x) {guard : Guard} {key : Bytes}
    {tables : List (Listed F.toTableFormat)}
    {next : Except IoError (Option Bytes) → Program}
    (hat : x.stage = .searching guard key tables next) :
    Explains Ok faulty I (s.search c x guard key next tables) a hist := by
  obtain ⟨args, hstatus, hbehind, hfrom⟩ :=
    (h.stage_stands hx hat).of_searching
  have hfound : Explains Ok faulty I (s.goOn c x
      (.running guard (next (.ok (plainMap hist key))))) a hist := by
    refine h.goesOn hx hat rfl id id ?_
    rw [hstatus]
    exact .running hbehind.found
  cases tables with
  | nil =>
      rwa [← Except.ok.inj hfrom] at hfound
  | cons sstable older =>
      rw [getFrom] at hfrom
      rw [Server.search]
      cases hget : F.get sstable.table key with
      | error e =>
          rw [hget] at hfrom
          cases hfrom
      | ok entry =>
          rw [hget, ok_bind] at hfrom
          cases entry with
          | none =>
              refine h.goesOn hx hat rfl id id ?_
              rw [hstatus]
              exact .searching hbehind hfrom
          | some found =>
              cases found with
              | value value => rwa [← Except.ok.inj hfrom] at hfound
              | tombstone => rwa [← Except.ok.inj hfrom] at hfound

/-- A table cannot be read. -/
theorem unreadable (hf : faulty) (h : Explains Ok faulty I s a hist)
    (hx : s.sessions[c]? = some x) {e : IoError} {guard : Guard}
    {key : Bytes} {tables : List (Listed F.toTableFormat)}
    {next : Except IoError (Option Bytes) → Program}
    (hat : x.stage = .searching guard key tables next) :
    Explains Ok faulty I (s.goOn c x (.running guard (next (.error e)))) a
      hist := by
  obtain ⟨args, hstatus, hbehind, -⟩ := (h.stage_stands hx hat).of_searching
  refine h.goesOn hx hat rfl id id ?_
  rw [hstatus]
  exact .running (hbehind.getFails hf e)

/-! ### Mutations -/

/-- A step of the thread behind the write guard, which leaves the operation
where it was. -/
theorem wrote (h : Explains Ok faulty I s a hist)
    (hx : s.sessions[c]? = some x) {stage : Stage F} {db : State F}
    {hist' : List Mutation} (hwrite : x.stage.guard = .write)
    (hwrite' : stage.guard = .write) (hdb : I hist' db)
    (hidle : db.Idle ↔ ¬ stage.Mutates)
    (hstands : Stands Ok faulty a.state hist' (a.status c) stage) :
    Explains Ok faulty I { s.goOn c x stage with db } a hist' :=
  h.change hx rfl rfl hdb (fun _ _ => rfl) (Or.inr hwrite)
    (Or.inr (Or.inl (hwrite'.trans hwrite.symm))) (Or.inr ⟨hwrite, hidle⟩)
    (Or.inl hwrite') hstands

theorem appended (hI : Tracks Ok torn I) (h : Explains Ok faulty I s a hist)
    (hx : s.sessions[c]? = some x) {m : Mutation}
    {next : Except IoError Unit → Program} {db : State F}
    (hat : x.stage = .running .write (.mutate m next))
    (hdb : s.db.step (.write (.append m)) = some db) :
    Explains Ok faulty I { s.goOn c x (.mutating next) with db } a
      (hist ++ [m]) := by
  obtain ⟨args, hstatus, hbehind⟩ := (h.stage_stands hx hat).of_running
  have hnext : I (hist ++ [m]) db := by
    refine hI.step h.db hdb trivial (Or.inr trivial) ?_
    intro m' hm'
    obtain rfl := Option.some.inj hm'
    exact hbehind.1.1
  refine h.wrote hx (by rw [hat]; rfl) rfl hnext ?_ ?_
  · exact iff_of_false (State.not_idle_append hdb) fun hnot => hnot trivial
  · rw [hstatus]
    exact .mutating rfl hbehind

theorem appendFailed (hI : Tracks Ok torn I)
    (h : Explains Ok faulty I s a hist) (hf : faulty) (ht : torn)
    (hx : s.sessions[c]? = some x) {fault : AppendFault} {e : IoError}
    {m : Mutation} {next : Except IoError Unit → Program} {db : State F}
    (hat : x.stage = .running .write (.mutate m next))
    (hdb : s.db.step (.write (.appendFails m fault)) = some db) :
    Explains Ok faulty I
      { s.goOn c x (.running .write (next (.error e))) with db } a hist := by
  obtain ⟨args, hstatus, hbehind⟩ := (h.stage_stands hx hat).of_running
  have hnext : I (hist ++ []) db :=
    hI.step h.db hdb trivial (Or.inl ht) (fun _ hm => nomatch hm)
  rw [List.append_nil] at hnext
  refine h.wrote hx (by rw [hat]; rfl) rfl hnext ?_ ?_
  · exact iff_of_true (State.idle_appendFails hdb) id
  · rw [hstatus]
    exact .running (hbehind.refused hf e)

/-- Inside `put` and `delete`, no step starts another one. -/
theorem step_busy (hI : Tracks Ok torn I) (h : Explains Ok faulty I s a hist)
    (hx : s.sessions[c]? = some x) (hmutates : x.stage.Mutates)
    {l : WriteStep F} {db : State F}
    (hdb : s.db.step (.write l) = some db) : I hist db := by
  have hbusy : ¬ s.db.Idle := fun hidle =>
    h.idle_iff.mp hidle x (List.mem_of_getElem? hx) hmutates
  obtain ⟨hlogged, hsucceeds⟩ := State.step_busy hbusy hdb
  have hnext := hI.step h.db hdb trivial (Or.inr hsucceeds) (by
    rw [hlogged]
    exact fun _ hm => nomatch hm)
  rwa [hlogged, Option.toList_none, List.append_nil] at hnext

theorem worked (hI : Tracks Ok torn I) (h : Explains Ok faulty I s a hist)
    (hx : s.sessions[c]? = some x) {l : WriteStep F}
    {next : Except IoError Unit → Program} {db : State F}
    (hat : x.stage = .mutating next)
    (hdb : s.db.step (.write l) = some db) :
    Explains Ok faulty I { s.goOn c x
      (if db.returned then .running .write (next (.ok ()))
      else .mutating next) with db } a hist := by
  obtain ⟨args, m, before, hstatus, rfl, hbehind⟩ :=
    (h.stage_stands hx hat).of_mutating
  have hnext := h.step_busy hI hx (by rw [hat]; trivial) hdb
  have hwrite : x.stage.guard = .write := by rw [hat]; rfl
  by_cases hreturned : db.returned = true
  · rw [if_pos hreturned]
    refine h.wrote hx hwrite rfl hnext ?_ ?_
    · exact iff_of_true (State.returned_iff.mp hreturned) id
    · rw [hstatus]
      refine .running ?_
      rw [plainMap_snoc]
      exact hbehind.mutated
  · rw [if_neg hreturned]
    refine h.wrote hx hwrite rfl hnext ?_ ?_
    · exact iff_of_false (fun hidle => hreturned (State.returned_iff.mpr hidle))
        fun hnot => hnot trivial
    · rw [hstatus]
      exact .mutating rfl hbehind

theorem flushFailed (hI : Tracks Ok torn I)
    (h : Explains Ok faulty I s a hist) (hf : faulty)
    (hx : s.sessions[c]? = some x) {fault : FlushFault F} {e : IoError}
    {next : Except IoError Unit → Program} {db : State F}
    (hat : x.stage = .mutating next)
    (hdb : s.db.step (.write (.flushFails fault)) = some db) :
    Explains Ok faulty I
      { s.goOn c x (.running .write (next (.error e))) with db } a hist := by
  obtain ⟨args, m, before, hstatus, rfl, hbehind⟩ :=
    (h.stage_stands hx hat).of_mutating
  have hnext := h.step_busy hI hx (by rw [hat]; trivial) hdb
  refine h.wrote hx (by rw [hat]; rfl) rfl hnext ?_ ?_
  · exact iff_of_true (State.idle_flushFails hdb) id
  · rw [hstatus]
    refine .running ?_
    rw [plainMap_snoc]
    exact hbehind.failed hf e

/-! ### The ends of a turn -/

/-- When the guard is given back, the operation takes effect. -/
theorem took (h : Explains Ok faulty I s a hist)
    (hx : s.sessions[c]? = some x) {guard : Guard} {outcome : Outcome}
    (hat : x.stage = .running guard (.done outcome))
    {map : Bytes → Option Bytes}
    (hmap : (map = a.state ∧ guard ≠ .write) ∨
      (map = plainMap hist ∧ guard = .write)) :
    Explains Ok faulty I (s.goOn c x (.replying outcome))
      (a.took c outcome map) hist := by
  have hheld : x.stage.guard = guard := by rw [hat]; rfl
  have hstill : ¬ x.stage.Mutates := by rw [hat]; exact id
  refine h.change hx rfl rfl h.db
    (fun c' hne => a.took_of_ne hne outcome map) ?_ (Or.inl rfl)
    (Or.inl ⟨rfl, iff_of_false id hstill⟩) (Or.inr ?_) ?_
  · rcases hmap with ⟨rfl, -⟩ | ⟨-, hwrite⟩
    · exact Or.inl ⟨rfl, rfl⟩
    · exact Or.inr (hheld.trans hwrite)
  · rcases hmap with ⟨rfl, hnot⟩ | ⟨rfl, -⟩
    · exact Or.inr ⟨rfl, rfl, hheld ▸ hnot⟩
    · exact Or.inl rfl
  · rw [Atomic.took_self]
    exact .replying

theorem left (h : Explains Ok faulty I s a hist)
    (hx : s.sessions[c]? = some x) {guard : Guard} {outcome : Outcome}
    (hat : x.stage = .running guard (.done outcome)) :
    ∃ a', Allows (commands faulty) a [] a' ∧
      Explains Ok faulty I (s.goOn c x (.replying outcome)) a' hist := by
  obtain ⟨args, hstatus, hbehind⟩ := (h.stage_stands hx hat).of_running
  have hheld : x.stage.guard = guard := by rw [hat]; rfl
  cases guard with
  | none =>
      have hserves : Serves faulty a.state args outcome a.state := by
        rw [Serves, hbehind.1]
        exact .refl
      exact ⟨_, .point hstatus hserves .done,
        h.took hx hat (Or.inl ⟨rfl, Guard.noConfusion⟩)⟩
  | read =>
      have hserves : Serves faulty a.state args outcome a.state := by
        have hreaches := hbehind.2
        rwa [← h.state_of_read hx hheld] at hreaches
      exact ⟨_, .point hstatus hserves .done,
        h.took hx hat (Or.inl ⟨rfl, Guard.noConfusion⟩)⟩
  | write =>
      have hserves : Serves faulty a.state args outcome (plainMap hist) :=
        hbehind.2
      exact ⟨_, .point hstatus hserves .done,
        h.took hx hat (Or.inr ⟨rfl, rfl⟩)⟩

theorem replied (h : Explains Ok faulty I s a hist)
    (hx : s.sessions[c]? = some x) {outcome : Outcome}
    (hat : x.stage = .replying outcome) :
    ∃ a', Allows (commands faulty) a (x.reply c outcome).2 a' ∧
      Explains Ok faulty I (s.update c (x.reply c outcome).1) a' hist := by
  have hstatus := (h.stage_stands hx hat).of_replying
  have hheld : x.stage.guard = .none := by rw [hat]; rfl
  refine ⟨a.moved c .free, .ret hstatus .done, ?_⟩
  cases outcome with
  | nothing => exact h.turned hx hheld rfl rfl .reading
  | reply r => exact h.turned hx hheld rfl rfl .reading
  | quit => exact h.turned hx hheld rfl rfl (.ended nofun)

/-- The thread reads a command, or its last one is read. -/
theorem read (h : Explains Ok faulty I s a hist)
    (hx : s.sessions[c]? = some x) {r : Session F × Shown}
    (hat : x.stage = .reading) (hread : x.read c = some r)
    (hasks : ∀ e ∈ r.2, Asks Ok e) :
    ∃ a', Allows (commands faulty) a r.2 a' ∧
      Explains Ok faulty I (s.update c r.1) a' hist := by
  have hstatus := (h.stage_stands hx hat).of_reading
  have hheld : x.stage.guard = .none := by rw [hat]; rfl
  unfold Session.read at hread
  split at hread
  next => cases hread
  next args unread hcommand =>
    obtain rfl := Option.some.inj hread
    refine ⟨a.moved c (.pending args), .call hstatus .done, ?_⟩
    exact h.turned hx hheld rfl rfl
      (.dispatching (hasks _ (List.mem_singleton_self _)))
  next unread hcommand =>
    obtain rfl := Option.some.inj hread
    exact ⟨a, .done, h.ended hx hheld rfl nofun⟩
  next e hcommand =>
    split_ifs at hread with hkind
    · obtain rfl := Option.some.inj hread
      exact ⟨a, .done, h.ended hx hheld rfl nofun⟩
    · obtain rfl := Option.some.inj hread
      exact ⟨a, .done, h.ended hx hheld rfl nofun⟩
  next hcommand =>
    obtain ⟨e, he⟩ := readCommandOn_error hcommand
    cases he

/-! ## The server, step by step -/

theorem turn (hI : Tracks Ok torn I) (h : Explains Ok faulty I s a hist)
    (hx : s.sessions[c]? = some x) {act : Act F} {shown : Shown}
    (hact : act.Permitted faulty torn) (hasks : ∀ e ∈ shown, Asks Ok e)
    (hturn : Server.Turn s c x act s' shown) :
    ∃ a', Allows (commands faulty) a shown a' ∧
      ∃ hist', Explains Ok faulty I s' a' hist' := by
  cases hturn with
  | sent hopen => exact ⟨a, .done, hist, h.client hx⟩
  | hungUp => exact ⟨a, .done, hist, h.client hx⟩
  | read hat hread =>
      obtain ⟨a', hallows, hnext⟩ := h.read hx hat hread hasks
      exact ⟨a', hallows, hist, hnext⟩
  | entered hat hadmits => exact ⟨a, .done, hist, h.entered hx hat hadmits⟩
  | foundPoisoned hat hguard hpoisoned =>
      rw [h.sound] at hpoisoned
      cases hpoisoned
  | inMemory hat hp hentry =>
      exact ⟨a, .done, hist, h.inMemory hI hx hat hp hentry⟩
  | cloned hat hp hentry =>
      exact ⟨a, .done, hist, h.cloned hI hx hat hp hentry⟩
  | searched hat => exact ⟨a, .done, hist, h.searched hx hat⟩
  | unreadable hat => exact ⟨a, .done, hist, h.unreadable hact hx hat⟩
  | appended hat hdb => exact ⟨a, .done, _, h.appended hI hx hat hdb⟩
  | appendFailed hat hdb =>
      exact ⟨a, .done, _, h.appendFailed hI hact.1 hact.2 hx hat hdb⟩
  | worked hat hdb => exact ⟨a, .done, _, h.worked hI hx hat hdb⟩
  | flushFailed hat hdb =>
      exact ⟨a, .done, _, h.flushFailed hI hact hx hat hdb⟩
  | left hat =>
      obtain ⟨a', hallows, hnext⟩ := h.left hx hat
      exact ⟨a', hallows, hist, hnext⟩
  | replied hat =>
      obtain ⟨a', hallows, hnext⟩ := h.replied hx hat
      exact ⟨a', hallows, hist, hnext⟩
  | readFailed hat =>
      exact ⟨a, .done, hist, h.ended hx (by rw [hat]; rfl) rfl nofun⟩
  | brokeOff hat =>
      exact ⟨a, .done, hist, h.ended hx (by rw [hat]; rfl) rfl nofun⟩

/-- A connection is accepted. -/
theorem accepted (h : Explains Ok faulty I s a hist) :
    Explains Ok faulty I
      { s with sessions := s.sessions ++ [Session.accepted F] } a hist := by
  have hcases : ∀ {c : ℕ} {y : Session F},
      (s.sessions ++ [Session.accepted F])[c]? = some y →
        s.sessions[c]? = some y ∨
          y = Session.accepted F ∧ s.sessions.length ≤ c := by
    intro c y hy
    by_cases hlt : c < s.sessions.length
    · rw [List.getElem?_append_left hlt] at hy
      exact Or.inl hy
    · rw [List.getElem?_append_right (Nat.le_of_not_lt hlt)] at hy
      exact Or.inr ⟨List.mem_singleton.mp (List.mem_of_getElem? hy),
        Nat.le_of_not_lt hlt⟩
  constructor
  case db => exact h.db
  case sound => exact h.sound
  case alone =>
    intro c c' x x' hx hx' hwrite hne
    rcases hcases hx' with hx' | ⟨rfl, -⟩
    · rcases hcases hx with hx | ⟨rfl, -⟩
      · exact h.alone hx hx' hwrite hne
      · cases hwrite
    · rfl
  case idle_iff =>
    rw [h.idle_iff, List.forall_mem_append, List.forall_mem_singleton]
    exact (and_iff_left id).symm
  case state =>
    intro hnot
    exact h.state fun x hx => hnot x (List.mem_append_left _ hx)
  case stands =>
    intro c x hx
    rcases hcases hx with hx | ⟨rfl, hlen⟩
    · exact h.stands hx
    · rw [h.fresh c hlen]
      exact .reading
  case fresh =>
    intro c hlen
    rw [List.length_append] at hlen
    exact h.fresh c (by omega)

/-- The compactor works beside all of them. -/
theorem beside (hI : Tracks Ok torn I) (h : Explains Ok faulty I s a hist)
    {l : Label F} {db : State F} (hdb : s.db.step l = some db)
    (hl : l.Running) (hsilent : l.logged = none)
    (hok : torn ∨ l.OnlyFlushFails) (hidle : db.Idle ↔ s.db.Idle) :
    Explains Ok faulty I { s with db } a hist := by
  have hnext : I (hist ++ l.logged.toList) db :=
    hI.step h.db hdb hl hok (by simp [hsilent])
  rw [hsilent, Option.toList_none, List.append_nil] at hnext
  exact {
    db := hnext
    sound := h.sound
    alone := h.alone
    idle_iff := hidle.trans h.idle_iff
    state := h.state
    stands := h.stands
    fresh := h.fresh }

/-- The object follows every step of the server. -/
theorem step (hI : Tracks Ok torn I) (h : Explains Ok faulty I s a hist)
    {move : Move F} {shown : Shown} (hmove : move.Permitted faulty torn)
    (hasks : ∀ e ∈ shown, Asks Ok e)
    (hstep : s.step move = some (s', shown)) :
    ∃ a', Allows (commands faulty) a shown a' ∧
      ∃ hist', Explains Ok faulty I s' a' hist' := by
  cases move with
  | accept =>
      obtain ⟨rfl, rfl⟩ := Prod.mk.inj (Option.some.inj hstep)
      exact ⟨a, .done, hist, h.accepted⟩
  | act c act =>
      obtain ⟨x, hx, hturn⟩ := Server.step_act hstep
      exact h.turn hI hx hmove hasks hturn
  | compact l =>
      obtain ⟨db, hdb, rfl, rfl⟩ := Server.step_compact hstep
      have hl : (Label.compact l : Label F).OnlyFlushFails := trivial
      exact ⟨a, .done, hist, h.beside hI hdb trivial rfl (Or.inr hl)
        (State.idle_compact hdb)⟩
  | compactFails left =>
      obtain ⟨db, hdb, rfl, rfl⟩ := Server.step_compactFails hstep
      exact ⟨a, .done, hist, h.beside hI hdb trivial rfl (Or.inl hmove.2)
        (State.idle_compactFails hdb)⟩

end Explains

/-! ## Runs -/

/-- A server that starts on a database between two calls. -/
theorem explains_start {I : List Mutation → State F → Prop}
    {hist : List Mutation} {db : State F} (hdb : I hist db)
    (hidle : db.Idle) :
    Explains Ok faulty I (Server.start db)
      (Atomic.start (plainMap hist)) hist where
  db := hdb
  sound := rfl
  alone := fun hx => nomatch hx
  idle_iff := iff_of_true hidle fun _ hx => nomatch hx
  state := fun _ => rfl
  stands := fun hx => nomatch hx
  fresh := fun _ _ => rfl

/-- The object follows every run of the server. -/
theorem exec_explains {I : List Mutation → State F → Prop}
    (hI : Tracks Ok torn I) {s s' : Server F} {a : Commands}
    {hist : List Mutation} (h : Explains Ok faulty I s a hist)
    {moves : List (Move F)} {shown : Shown}
    (hmoves : ∀ move ∈ moves, move.Permitted faulty torn)
    (hasks : ∀ e ∈ shown, Asks Ok e)
    (hrun : s.exec moves = some (s', shown)) :
    ∃ a', Allows (commands faulty) a shown a' ∧
      ∃ hist', Explains Ok faulty I s' a' hist' :=
  runFrom_allows (R := fun s a => ∃ hist, Explains Ok faulty I s a hist)
    (fun hmove hasks ⟨_, h⟩ hstep => h.step hI hmove hasks hstep)
    ⟨hist, h⟩ hmoves hasks hrun

/-- A state that follows a history, apart from its log and from other files,
tracks it whatever fails. -/
theorem tracks_follows (hF : F.Lawful Ok) :
    Tracks Ok True (Follows Ok (F := F)) where
  readsAs := Follows.readsAs
  step := fun h hstep hl _ hm => h.step_running hF hstep hl hm

theorem Act.permitted_true (act : Act F) : act.Permitted True True := by
  cases act with
  | searchFails e => exact trivial
  | appendFails fault e => exact ⟨trivial, trivial⟩
  | flushFails fault e => exact trivial
  | _ => exact trivial

theorem Move.permitted_true (move : Move F) : move.Permitted True True := by
  cases move with
  | act c act => exact act.permitted_true
  | compactFails left => exact ⟨trivial, trivial⟩
  | accept => exact trivial
  | compact l => exact trivial

/-- The arguments of a command are within the limit for bulk strings, as those
of an array are. -/
def Short : Event ℕ (List Bytes) Outcome → Prop
  | .call _ args => ∀ arg ∈ args, (arg.length : ℤ) ≤ maxBulkLen
  | _ => True

instance : (e : Event ℕ (List Bytes) Outcome) → Decidable (Short e)
  | .call _ args =>
    inferInstanceAs (Decidable (∀ arg ∈ args, (arg.length : ℤ) ≤ maxBulkLen))
  | .ret _ _ => instDecidableTrue
  | .crash => instDecidableTrue

/-- Short commands ask for what fits into records. -/
theorem Short.asks {e : Event ℕ (List Bytes) Outcome} (h : Short e) :
    Asks (fun m => m.record.Fits) e := by
  cases e with
  | call c args => exact arm_within_fits h
  | _ => exact trivial

/-- The server explains its run from any open database that follows a
history. -/
theorem run_explains (hF : F.Lawful Ok) {hist : List Mutation} {db : State F}
    (hdb : Follows Ok hist db) (hidle : db.Idle) {s : Server F}
    {moves : List (Move F)} {shown : Shown}
    (hasks : ∀ e ∈ shown, Asks Ok e)
    (hrun : (Server.start db).exec moves = some (s, shown)) :
    ∃ a, Allows (commands True) (Atomic.start (plainMap hist)) shown a ∧
      ∃ hist', Explains Ok True (Follows Ok) s a hist' :=
  exec_explains (tracks_follows hF) (explains_start hdb hidle)
    (fun move _ => move.permitted_true) hasks hrun

/-- Whatever happened to a database before, and whatever fails while a
server has it open, its clients see a history of commands on a plain map,
whose own calls may fail. -/
theorem linearizable_from_any_state (hash : Bytes → UInt32)
    {labels : List (Label (byteFormat hash))}
    {db : State (byteFormat hash)} {p : Process (byteFormat hash)}
    (hfits : ∀ m ∈ history labels, m.record.Fits)
    (hreached : (State.initial (byteFormat hash)).exec labels = some db)
    (hp : db.process = some p) (hidle : p.writer = .idle)
    {s : Server (byteFormat hash)} {moves : List (Move (byteFormat hash))}
    {shown : Shown} (hshort : ∀ e ∈ shown, Short e)
    (hrun : (Server.start db).exec moves = some (s, shown)) :
    ∃ map, (∀ key, p.db.get key = .ok (map key)) ∧
      Linearizable (commands True) map shown := by
  have hF := byteFormat_lawful hash
  obtain ⟨hist, hdb⟩ := exec_follows hF (byteFormat_replaysOk hash)
    follows_initial hfits hreached
  obtain ⟨a, hallows, -⟩ := run_explains hF hdb ⟨p, hp, hidle⟩
    (fun e he => (hshort e he).asks) hrun
  exact ⟨plainMap hist, hdb.readsAs p hp hidle, a, hallows⟩

/-- A compaction fails behind its rename, and a record is torn. -/
def brokenRun : List (Label (byteFormat crc32)) :=
  .recover flushEach [] ::
    (flushedCall (.insert (ascii "k") (ascii "old")) ++
      (flushedCall (.insert (ascii "l") (ascii "w")) ++
        [.compact (.begin 0 2), .compact .merge, .compact .create,
          .compact .rename, .compactFails none,
          .write (.appendFails (.delete (ascii "k")) (.writeAll 7))]))

/-- Then a flush and another compaction fail. -/
def brokenFlush : List (Move (byteFormat crc32)) :=
  [.accept, .act 0 (.send (ascii "SET k v\r\nGET k\r\n")), .act 0 .read,
    .act 0 .enter, .compact (.begin 0 2), .act 0 .append,
    .act 0 (.work .apply), .act 0 (.work .create),
    .act 0 (.flushFails .rename ⟨.other, ascii "disk full"⟩), .act 0 .leave,
    .act 0 .reply, .compact .merge, .compactFails none, .act 0 .read,
    .act 0 .enter, .act 0 .look, .act 0 .leave, .act 0 .reply]

/-- What the first client hears, and whether the commands are short. -/
def heard (shown : Shown) : Bytes × Bool :=
  ((repliesTo 0 shown).flatMap Outcome.bytes, decide (∀ e ∈ shown, Short e))

theorem exists_of_heard {result : Option (Server F × Shown)} {bytes : Bytes}
    (h : result.map (fun r => heard r.2) = some (bytes, true)) :
    ∃ s shown, result = some (s, shown) ∧
      (repliesTo 0 shown).flatMap Outcome.bytes = bytes ∧
        ∀ e ∈ shown, Short e := by
  obtain ⟨⟨s, shown⟩, hresult, hheard⟩ := Option.map_eq_some_iff.mp h
  obtain ⟨hbytes, hshort⟩ := Prod.mk.inj hheard
  exact ⟨s, shown, hresult, hbytes, of_decide_eq_true hshort⟩

theorem linearizable_from_any_state_broken :
    ∃ db s shown map,
      (State.initial (byteFormat crc32)).exec brokenRun = some db ∧
      (Server.start db).exec brokenFlush = some (s, shown) ∧
      (repliesTo 0 shown).flatMap Outcome.bytes =
        ascii "-ERR disk full\r\n$1\r\nv\r\n" ∧
      Linearizable (commands True) map shown := by
  have hends : endsIdle ((State.initial (byteFormat crc32)).exec
      brokenRun) = true := by
    decide +kernel
  obtain ⟨db, p, hdb, hp, hidle⟩ := exists_of_endsIdle hends
  have hheard : ((Server.start db).exec brokenFlush).map (fun r =>
      heard r.2) =
        some (ascii "-ERR disk full\r\n$1\r\nv\r\n", true) := by
    refine observed hdb (f := fun db =>
      ((Server.start db).exec brokenFlush).map (fun r => heard r.2)) ?_
    decide +kernel
  obtain ⟨s, shown, hrun, hreplies, hshort⟩ := exists_of_heard hheard
  obtain ⟨map, -, hlin⟩ := linearizable_from_any_state crc32
    (by decide +kernel) hdb hp hidle hshort hrun
  exact ⟨db, s, shown, map, hdb, hrun, hreplies, hlin⟩

end Lsmrs
