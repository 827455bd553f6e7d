import Lsmrs.Server.Connections
import Lsmrs.Db.FailedWrite
import Lsmrs.Server.Del
import Lsmrs.Server.PlainMap

/-!
# A server and the object it stands for

The server fits together with an object whose operations are the commands,
and whose state is a plain map.  A thread that holds the write guard is ahead
of the object, which catches up when the guard is given back.
-/

namespace Lsmrs

open ByteString Atomicity

variable {F : Format} {Ok : Mutation → Prop} {faulty : Prop}

/-! ## Where a thread stands in its command -/

/-- What holds of the rest of an arm behind its guard, when `map` is what the
database reads as and the command is to take effect in `state`. -/
def Behind (Ok : Mutation → Prop) (faulty : Prop)
    (state map : Bytes → Option Bytes) (args : List Bytes) :
    Guard → Program → Prop
  | .none, rest => (arm args).body = rest ∧ Guard.none.Covers rest
  | .read, rest => rest.Within (fun _ => False) ∧
      (arm args).body.Reaches faulty state rest map
  | .write, rest => rest.Within Ok ∧
      (arm args).body.Reaches faulty state rest map

/-- How the thread of a connection and the operation it is about fit
together. -/
inductive Stands (Ok : Mutation → Prop) (faulty : Prop)
    (state : Bytes → Option Bytes) (hist : List Mutation) :
    Status (List Bytes) Outcome → Stage F → Prop
  | reading : Stands Ok faulty state hist .free .reading
  | dispatching {args : List Bytes} (hok : (arm args).body.Within Ok) :
    Stands Ok faulty state hist (.pending args) (.dispatching (arm args))
  | running {args : List Bytes} {guard : Guard} {rest : Program}
      (h : Behind Ok faulty state (plainMap hist) args guard rest) :
    Stands Ok faulty state hist (.pending args) (.running guard rest)
  | searching {args : List Bytes} {guard : Guard} {key : Bytes}
      {tables : List (Listed F.toTableFormat)}
      {next : Except IoError (Option Bytes) → Program}
      (h : Behind Ok faulty state (plainMap hist) args guard (.get key next))
      (hfrom : getFrom key tables = .ok (plainMap hist key)) :
    Stands Ok faulty state hist (.pending args)
      (.searching guard key tables next)
  | mutating {args : List Bytes} {m : Mutation} {before : List Mutation}
      {next : Except IoError Unit → Program} (hhist : hist = before ++ [m])
      (h : Behind Ok faulty state (plainMap before) args .write
        (.mutate m next)) :
    Stands Ok faulty state hist (.pending args) (.mutating next)
  | replying {outcome : Outcome} :
    Stands Ok faulty state hist (.settled outcome) (.replying outcome)
  | ended {status : Status (List Bytes) Outcome} {how : Result Unit}
      (hhow : how ≠ .error .panic) :
    Stands Ok faulty state hist status (.ended how)

section Stands

variable {state state' map : Bytes → Option Bytes}
  {hist hist' : List Mutation} {args : List Bytes} {guard : Guard}
  {status : Status (List Bytes) Outcome} {stage : Stage F}

theorem Stands.of_reading
    (h : Stands Ok faulty state hist status (.reading : Stage F)) :
    status = .free := by
  cases h with
  | reading => rfl

theorem Stands.of_dispatching {arm : Arm}
    (h : Stands Ok faulty state hist status (.dispatching arm : Stage F)) :
    ∃ args, status = .pending args ∧ arm = Lsmrs.arm args ∧
      arm.body.Within Ok := by
  cases h with
  | dispatching hok => exact ⟨_, rfl, rfl, hok⟩

theorem Stands.of_running {rest : Program}
    (h : Stands Ok faulty state hist status (.running guard rest : Stage F)) :
    ∃ args, status = .pending args ∧
      Behind Ok faulty state (plainMap hist) args guard rest := by
  cases h with
  | running h => exact ⟨_, rfl, h⟩

theorem Stands.of_searching {key : Bytes}
    {tables : List (Listed F.toTableFormat)}
    {next : Except IoError (Option Bytes) → Program}
    (h : Stands Ok faulty state hist status
      (.searching guard key tables next)) :
    ∃ args, status = .pending args ∧
      Behind Ok faulty state (plainMap hist) args guard (.get key next) ∧
        getFrom key tables = .ok (plainMap hist key) := by
  cases h with
  | searching h hfrom => exact ⟨_, rfl, h, hfrom⟩

theorem Stands.of_mutating {next : Except IoError Unit → Program}
    (h : Stands Ok faulty state hist status (.mutating next : Stage F)) :
    ∃ args m before, status = .pending args ∧ hist = before ++ [m] ∧
      Behind Ok faulty state (plainMap before) args .write
        (.mutate m next) := by
  cases h with
  | mutating hhist h => exact ⟨_, _, _, rfl, hhist, h⟩

theorem Stands.of_replying {outcome : Outcome}
    (h : Stands Ok faulty state hist status (.replying outcome : Stage F)) :
    status = .settled outcome := by
  cases h with
  | replying => rfl

theorem Stands.of_ended {how : Result Unit}
    (h : Stands Ok faulty state hist status (.ended how : Stage F)) :
    how ≠ .error .panic := by
  cases h with
  | ended hhow => exact hhow

/-- An arm without a guard looks nothing up. -/
theorem Behind.guard_ne_none {key : Bytes}
    {next : Except IoError (Option Bytes) → Program}
    (h : Behind Ok faulty state map args guard (.get key next)) :
    guard ≠ .none := by
  rintro rfl
  obtain ⟨-, _, hdone⟩ := h
  cases hdone

/-- A thread without a guard depends on nothing that guards protect. -/
theorem Stands.unguarded (h : Stands Ok faulty state hist status stage)
    (hguard : stage.guard = .none) :
    Stands Ok faulty state' hist' status stage := by
  cases h with
  | reading => exact .reading
  | dispatching hok => exact .dispatching hok
  | @running _ guard _ h =>
      obtain rfl : guard = .none := hguard
      exact .running h
  | @searching _ guard _ _ _ h _ =>
      obtain rfl : guard = .none := hguard
      exact (h.guard_ne_none rfl).elim
  | mutating hhist h => cases hguard
  | replying => exact .replying
  | ended hhow => exact .ended hhow

theorem Behind.arm (hok : (arm args).body.Within Ok) :
    Behind Ok faulty state state args (arm args).guard (arm args).body := by
  have hcovers := arm_covered args
  cases hguard : (Lsmrs.arm args).guard with
  | none =>
      rw [hguard] at hcovers
      exact ⟨rfl, hcovers⟩
  | read =>
      rw [hguard] at hcovers
      exact ⟨hcovers, .refl⟩
  | write => exact ⟨hok, .refl⟩

/-- A lookup goes on with what is there. -/
theorem Behind.found {key : Bytes}
    {next : Except IoError (Option Bytes) → Program}
    (h : Behind Ok faulty state map args guard (.get key next)) :
    Behind Ok faulty state map args guard (next (.ok (map key))) := by
  cases guard with
  | none => exact (h.guard_ne_none rfl).elim
  | read => exact ⟨h.1 _, h.2.tail .get⟩
  | write => exact ⟨h.1 _, h.2.tail .get⟩

/-- Or it fails. -/
theorem Behind.getFails (hf : faulty) (e : IoError) {key : Bytes}
    {next : Except IoError (Option Bytes) → Program}
    (h : Behind Ok faulty state map args guard (.get key next)) :
    Behind Ok faulty state map args guard (next (.error e)) := by
  cases guard with
  | none => exact (h.guard_ne_none rfl).elim
  | read => exact ⟨h.1 _, h.2.tail (.getFails hf e)⟩
  | write => exact ⟨h.1 _, h.2.tail (.getFails hf e)⟩

section Mutate

variable {m : Mutation} {next : Except IoError Unit → Program}

theorem Behind.mutated
    (h : Behind Ok faulty state map args .write (.mutate m next)) :
    Behind Ok faulty state (m.applyTo map) args .write (next (.ok ())) :=
  ⟨h.1.2 _, h.2.tail .mutate⟩

theorem Behind.refused (hf : faulty) (e : IoError)
    (h : Behind Ok faulty state map args .write (.mutate m next)) :
    Behind Ok faulty state map args .write (next (.error e)) :=
  ⟨h.1.2 _, h.2.tail (.refused hf e)⟩

theorem Behind.failed (hf : faulty) (e : IoError)
    (h : Behind Ok faulty state map args .write (.mutate m next)) :
    Behind Ok faulty state (m.applyTo map) args .write (next (.error e)) :=
  ⟨h.1.2 _, h.2.tail (.failed hf e)⟩

end Mutate

end Stands

/-! ## The invariant -/

/-- An invariant that says what the database reads as, and that the steps of
its threads keep; where a directory may be spoilt for later openings, also
those that fail to append or to compact. -/
structure Tracks (Ok : Mutation → Prop) (torn : Prop)
    (I : List Mutation → State F → Prop) : Prop where
  readsAs : ∀ {hist : List Mutation} {s : State F}, I hist s →
    s.ReadsAs hist
  step : ∀ {hist : List Mutation} {s s' : State F} {l : Label F},
    I hist s → s.step l = some s' → l.Running → torn ∨ l.OnlyFlushFails →
      (∀ m ∈ l.logged, Ok m) → I (hist ++ l.logged.toList) s'

/-- The thread is inside `put` or `delete`. -/
def Stage.Mutates : Stage F → Prop
  | .mutating _ => True
  | _ => False

theorem Stage.Mutates.guard {stage : Stage F} (h : stage.Mutates) :
    stage.guard = .write := by
  cases stage with
  | mutating next => rfl
  | _ => exact h.elim

/-- The object whose operations are the commands, on a plain map. -/
abbrev Commands := Atomic ℕ (List Bytes) Outcome (Bytes → Option Bytes)

/-- The server and the object fit together. -/
structure Explains (Ok : Mutation → Prop) (faulty : Prop)
    (I : List Mutation → State F → Prop) (s : Server F) (a : Commands)
    (hist : List Mutation) : Prop where
  db : I hist s.db
  sound : s.poisoned = false
  alone : ∀ {c c' : ℕ} {x x' : Session F}, s.sessions[c]? = some x →
    s.sessions[c']? = some x' → x.stage.guard = .write → c' ≠ c →
      x'.stage.guard = .none
  idle_iff : s.db.Idle ↔ ∀ x ∈ s.sessions, ¬ x.stage.Mutates
  state : (∀ x ∈ s.sessions, x.stage.guard ≠ .write) →
    a.state = plainMap hist
  stands : ∀ {c : ℕ} {x : Session F}, s.sessions[c]? = some x →
    Stands Ok faulty a.state hist (a.status c) x.stage
  fresh : ∀ c, s.sessions.length ≤ c → a.status c = .free

namespace Explains

variable {I : List Mutation → State F → Prop} {s s' : Server F}
  {a a' : Commands} {hist hist' : List Mutation} {c : ℕ}
  {x x' : Session F}

theorem getElem?_set_cases {xs : List (Session F)} {c' : ℕ}
    {y : Session F} (h : (xs.set c x')[c']? = some y) :
    c' = c ∧ y = x' ∨ c' ≠ c ∧ xs[c']? = some y := by
  rw [List.getElem?_set] at h
  split_ifs at h with hc hlt
  · exact Or.inl ⟨hc.symm, (Option.some.inj h).symm⟩
  · exact Or.inr ⟨Ne.symm hc, h⟩

/-- A step of one thread leaves what is said of all, if it leaves what is said
of that one. -/
theorem forall_set_iff {xs : List (Session F)} {P : Session F → Prop}
    (hx : xs[c]? = some x) (hP : P x ↔ P x') :
    (∀ y ∈ xs, P y) ↔ ∀ y ∈ xs.set c x', P y := by
  constructor
  · intro h y hy
    obtain ⟨c', hc'⟩ := List.mem_iff_getElem?.mp hy
    rcases getElem?_set_cases hc' with ⟨-, rfl⟩ | ⟨-, hold⟩
    · exact hP.mp (h x (List.mem_of_getElem? hx))
    · exact h y (List.mem_of_getElem? hold)
  · intro h y hy
    obtain ⟨c', hc'⟩ := List.mem_iff_getElem?.mp hy
    by_cases hne : c' = c
    · subst hne
      obtain rfl := Option.some.inj (hx.symm.trans hc')
      have hlt := (List.getElem?_eq_some_iff.mp hx).1
      exact hP.mpr (h x' (List.mem_set hlt x'))
    · refine h y (List.mem_of_getElem? (i := c') ?_)
      rw [List.getElem?_set, if_neg (Ne.symm hne), hc']

/-- A step of one thread, which changes what guards protect only behind a
guard that allows it. -/
theorem change (h : Explains Ok faulty I s a hist)
    (hx : s.sessions[c]? = some x)
    (hsessions : s'.sessions = s.sessions.set c x')
    (hpoisoned : s'.poisoned = s.poisoned) (hdb : I hist' s'.db)
    (hstatus : ∀ c', c' ≠ c → a'.status c' = a.status c')
    (hothers : (a'.state = a.state ∧ hist' = hist) ∨
      x.stage.guard = .write)
    (hguard : x'.stage.guard = .none ∨
      x'.stage.guard = x.stage.guard ∨ s.Admits x'.stage.guard)
    (hidle : (s'.db = s.db ∧ (x'.stage.Mutates ↔ x.stage.Mutates)) ∨
      (x.stage.guard = .write ∧ (s'.db.Idle ↔ ¬ x'.stage.Mutates)))
    (hstate : x'.stage.guard = .write ∨ a'.state = plainMap hist' ∨
      (a'.state = a.state ∧ hist' = hist ∧ x.stage.guard ≠ .write))
    (hstands : Stands Ok faulty a'.state hist' (a'.status c) x'.stage) :
    Explains Ok faulty I s' a' hist' := by
  have hlt : c < s.sessions.length := (List.getElem?_eq_some_iff.mp hx).1
  have hmem : x' ∈ s.sessions.set c x' := List.mem_set hlt x'
  constructor
  case db => exact hdb
  case sound => rw [hpoisoned, h.sound]
  case alone =>
    intro c₁ c₂ y₁ y₂ h₁ h₂ hwrite hne
    rw [hsessions] at h₁ h₂
    rcases getElem?_set_cases h₁ with ⟨rfl, rfl⟩ | ⟨hne₁, hold₁⟩
    · rcases getElem?_set_cases h₂ with ⟨rfl, -⟩ | ⟨-, hold₂⟩
      · exact absurd rfl hne
      · rw [hwrite] at hguard
        rcases hguard with hnone | hsame | hadmits
        · cases hnone
        · exact h.alone hx hold₂ hsame.symm hne
        · exact hadmits y₂ (List.mem_of_getElem? hold₂)
    · rcases getElem?_set_cases h₂ with ⟨rfl, rfl⟩ | ⟨-, hold₂⟩
      · have hy₁ := List.mem_of_getElem? hold₁
        rcases hguard with hnone | hsame | hadmits
        · exact hnone
        · rw [hsame]
          exact h.alone hold₁ hx hwrite hne
        · cases hto : y₂.stage.guard with
          | none => rfl
          | read =>
              rw [hto] at hadmits
              exact absurd hwrite (hadmits y₁ hy₁)
          | write =>
              rw [hto] at hadmits
              cases (hadmits y₁ hy₁).symm.trans hwrite
      · exact h.alone hold₁ hold₂ hwrite hne
  case idle_iff =>
    rw [hsessions]
    rcases hidle with ⟨hsame, hmutates⟩ | ⟨hwrite, hidle⟩
    · rw [hsame, h.idle_iff]
      exact forall_set_iff hx (not_congr hmutates).symm
    · rw [hidle]
      constructor
      · intro hnot y hy hmutates
        obtain ⟨c', hc'⟩ := List.mem_iff_getElem?.mp hy
        rcases getElem?_set_cases hc' with ⟨-, rfl⟩ | ⟨hne, hold⟩
        · exact hnot hmutates
        · have hguard := hmutates.guard
          rw [h.alone hx hold hwrite hne] at hguard
          cases hguard
      · exact fun hall => hall x' hmem
  case state =>
    intro hnot
    rw [hsessions] at hnot
    rcases hstate with hwrite | hstate | ⟨hsame, rfl, hstill⟩
    · exact absurd hwrite (hnot x' hmem)
    · exact hstate
    · rw [hsame]
      exact h.state ((forall_set_iff hx ⟨fun _ => hnot x' hmem,
        fun _ => hstill⟩).mpr hnot)
  case stands =>
    intro c' y hy
    rw [hsessions] at hy
    rcases getElem?_set_cases hy with ⟨rfl, rfl⟩ | ⟨hne, hy⟩
    · exact hstands
    · rw [hstatus c' hne]
      rcases hothers with ⟨hsame, rfl⟩ | hwrite
      · rw [hsame]
        exact h.stands hy
      · exact (h.stands hy).unguarded (h.alone hx hy hwrite hne)
  case fresh =>
    intro c' hc'
    rw [hsessions, List.length_set] at hc'
    rw [hstatus c' (by omega), h.fresh c' hc']

/-- A thread goes on behind the guard it has. -/
theorem goOn (h : Explains Ok faulty I s a hist)
    (hx : s.sessions[c]? = some x) (hguard : x'.stage.guard = x.stage.guard)
    (hmutates : x'.stage.Mutates ↔ x.stage.Mutates)
    {status : Status (List Bytes) Outcome}
    (hstands : Stands Ok faulty a.state hist status x'.stage) :
    Explains Ok faulty I (s.update c x') (a.moved c status) hist := by
  have hstate : x'.stage.guard = .write ∨ a.state = plainMap hist ∨
      (a.state = a.state ∧ hist = hist ∧ x.stage.guard ≠ .write) := by
    rw [hguard]
    by_cases hwrite : x.stage.guard = .write
    · exact Or.inl hwrite
    · exact Or.inr (Or.inr ⟨rfl, rfl, hwrite⟩)
  refine h.change hx rfl rfl h.db ?_ (Or.inl ⟨rfl, rfl⟩)
    (Or.inr (Or.inl hguard)) (Or.inl ⟨rfl, hmutates⟩) hstate ?_
  · exact fun c' hne => a.moved_of_ne hne status
  · rw [Atomic.moved_self]
    exact hstands

/-- The step shows nothing, and the operation is where it was. -/
theorem goOn_silent (h : Explains Ok faulty I s a hist)
    (hx : s.sessions[c]? = some x) (hguard : x'.stage.guard = x.stage.guard)
    (hmutates : x'.stage.Mutates ↔ x.stage.Mutates)
    (hstands : Stands Ok faulty a.state hist (a.status c) x'.stage) :
    Explains Ok faulty I (s.update c x') a hist := by
  have hmoved := h.goOn hx hguard hmutates hstands
  rwa [Atomic.moved_same] at hmoved

/-- Behind a guard, no other thread is inside `put` or `delete`. -/
theorem idle_of_guard (h : Explains Ok faulty I s a hist)
    (hx : s.sessions[c]? = some x) (hguard : x.stage.guard ≠ .none)
    (hstill : ¬ x.stage.Mutates) : s.db.Idle := by
  rw [h.idle_iff]
  intro y hy hmutates
  obtain ⟨c', hc'⟩ := List.mem_iff_getElem?.mp hy
  by_cases hne : c' = c
  · subst hne
    obtain rfl := Option.some.inj (hx.symm.trans hc')
    exact hstill hmutates
  · exact hguard (h.alone hc' hx hmutates.guard (Ne.symm hne))

/-- Behind a guard that does not allow writing, the object is up to date. -/
theorem state_of_read (h : Explains Ok faulty I s a hist)
    (hx : s.sessions[c]? = some x) (hguard : x.stage.guard = .read) :
    a.state = plainMap hist := by
  apply h.state
  intro y hy hwrite
  obtain ⟨c', hc'⟩ := List.mem_iff_getElem?.mp hy
  by_cases hne : c' = c
  · subst hne
    obtain rfl := Option.some.inj (hx.symm.trans hc')
    cases hguard.symm.trans hwrite
  · cases hguard.symm.trans (h.alone hc' hx hwrite (Ne.symm hne))

end Explains

/-! ## The steps of the database -/

section Steps

variable {s s' : State F}

/-- Between two calls a database reads as its history says. -/
theorem State.ReadsAs.get_eq {hist : List Mutation} {p : Process F}
    (h : s.ReadsAs hist) (hidle : s.Idle) (hp : s.process = some p)
    (key : Bytes) : p.db.get key = .ok (plainMap hist key) := by
  obtain ⟨q, hq, hwriter⟩ := hidle
  obtain rfl := Option.some.inj (hp.symm.trans hq)
  exact h p hp hwriter key

theorem State.returned_iff : s.returned = true ↔ s.Idle := by
  obtain ⟨disk, process⟩ := s
  cases process with
  | none =>
      constructor
      · exact fun h => absurd h Bool.false_ne_true
      · rintro ⟨p, hp, -⟩
        cases hp
  | some p =>
      obtain ⟨db, writer, compactor⟩ := p
      constructor
      · intro h
        cases writer with
        | idle => exact ⟨_, rfl, rfl⟩
        | _ => exact absurd h Bool.false_ne_true
      · rintro ⟨p, hp, hidle⟩
        cases hp
        obtain rfl : writer = .idle := hidle
        rfl

theorem State.idle_compact {l : CompactStep}
    (hstep : s.step (.compact l) = some s') : s'.Idle ↔ s.Idle := by
  obtain ⟨p, p', hp, hp', hcompact⟩ := State.step_compact hstep
  have hwriter := (compactStep_leaves hcompact).writer
  constructor
  · rintro ⟨q, hq, hidle⟩
    obtain rfl := Option.some.inj (hp'.symm.trans hq)
    exact ⟨p, hp, hwriter.symm.trans hidle⟩
  · rintro ⟨q, hq, hidle⟩
    obtain rfl := Option.some.inj (hp.symm.trans hq)
    exact ⟨p', hp', hwriter.trans hidle⟩

theorem State.idle_compactFails {left : Option F.File}
    (hstep : s.step (.compactFails left) = some s') : s'.Idle ↔ s.Idle := by
  obtain ⟨p, hp, hp', -⟩ := State.step_compactFails hstep
  constructor
  · rintro ⟨q, hq, hidle⟩
    obtain rfl := Option.some.inj (hp'.symm.trans hq)
    exact ⟨p, hp, hidle⟩
  · rintro ⟨q, hq, hidle⟩
    obtain rfl := Option.some.inj (hp.symm.trans hq)
    exact ⟨_, hp', hidle⟩

/-- After an append a call is under way. -/
theorem State.not_idle_append {m : Mutation}
    (hstep : s.step (.write (.append m)) = some s') : ¬ s'.Idle := by
  obtain ⟨p, p', -, hp', hwrite⟩ := State.step_write hstep
  obtain ⟨disk', process'⟩ := s'
  rintro ⟨q, hq, hidle⟩
  obtain rfl := Option.some.inj (hp'.symm.trans hq)
  generalize hdisk : (⟨disk', process'⟩ : State F).disk = disk at hwrite
  cases writeStep_turn hwrite with
  | append _ => cases hidle

/-- After a failure it is over. -/
theorem State.idle_appendFails {m : Mutation} {fault : AppendFault}
    (hstep : s.step (.write (.appendFails m fault)) = some s') :
    s'.Idle := by
  obtain ⟨p, p', -, hp', hwrite⟩ := State.step_write hstep
  exact ⟨p', hp', (writeStep_turn hwrite).idle_of_appendFails⟩

theorem State.idle_flushFails {fault : FlushFault F}
    (hstep : s.step (.write (.flushFails fault)) = some s') : s'.Idle := by
  obtain ⟨p, p', -, hp', hwrite⟩ := State.step_write hstep
  exact ⟨p', hp', (writeStep_turn hwrite).idle_of_flushFails⟩

/-- Once a call is under way, it appends no more. -/
theorem State.step_busy {l : WriteStep F} (hbusy : ¬ s.Idle)
    (hstep : s.step (.write l) = some s') :
    (Label.write l).logged = none ∧ (Label.write l).OnlyFlushFails := by
  obtain ⟨p, p', hp, -, hwrite⟩ := State.step_write hstep
  obtain ⟨disk', process'⟩ := s'
  generalize hdisk : (⟨disk', process'⟩ : State F).disk = disk at hwrite
  cases writeStep_turn hwrite with
  | append hidle => exact absurd ⟨p, hp, hidle⟩ hbusy
  | writeAllFails hidle => exact absurd ⟨p, hp, hidle⟩ hbusy
  | syncDataFails hidle _ => exact absurd ⟨p, hp, hidle⟩ hbusy
  | _ => exact ⟨rfl, trivial⟩

end Steps

end Lsmrs
