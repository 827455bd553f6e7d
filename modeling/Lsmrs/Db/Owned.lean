import Lsmrs.Db.AnyLog
import Lsmrs.Db.CompactorThread

/-!
# A database and its thread

The machine with the thread that `with_config` spawns and the channel
between them.  Flushes ring, the thread picks its own runs, and `drop` takes
the sender away and joins the thread.  This is a run of the machine.
-/

namespace Lsmrs

open ByteString OrderedMap

variable {F : Format}

/-! ## The owner and the thread -/

/-- What `with_config` returns, with the thread it spawned. -/
structure Opened (F : Format) extends Process F where
  thread : Thread
  /-- The messages the channel holds. -/
  bells : ℕ
  /-- `flush_tx` is still there. -/
  sender : Bool
  /-- The thread has run to its end. -/
  returned : Bool

/-- A step of the owner, in a call or at the start of `drop`, or of the
thread. -/
inductive Deed (F : Format) where
  | write (l : WriteStep F)
  | hangUp
  | wake
  | leave
  /-- `pick_run`, with the paths whose `metadata` fails. -/
  | pick (unmeasured : List Bytes)
  | compact (l : CompactStep)
  /-- `compact` returns an error, which may leave part of a file. -/
  | giveUp (left : Option F.File)
  | panic

/-- How often `flush` sends a message after a step. -/
def WriteStep.rings : WriteStep F → ℕ
  | .truncate => 1
  | _ => 0

/-- The sizes that `pick_run` collects. -/
def sizesOf {F : TableFormat} (size : F.Table → ℕ)
    (unmeasured : List Bytes) (tables : List (Listed F)) : List ℕ :=
  tables.map fun t => if t.path ∈ unmeasured then 0 else size t.table

/-- How `pick_run` measures: the size of a table's file, and whether a
largest size is too far from a smallest one for the ratio. -/
structure Gauge (F : TableFormat) where
  size : F.Table → ℕ
  tooFar : ℚ → ℕ → ℕ → Bool

namespace Opened

/-- What `with_config` returns. -/
def spawn (db : Db F) : Opened F :=
  ⟨⟨db, .idle, .idle⟩, .waiting, 0, true, false⟩

/-- `pick_run` as the thread calls it. -/
def picked (gauge : Gauge F.toTableFormat) (o : Opened F)
    (unmeasured : List Bytes) : Option (ℕ × ℕ) :=
  pickRun (gauge.tooFar o.db.config.compactionSizeRatio)
    o.db.config.compactionThreshold
    (sizesOf gauge.size unmeasured o.db.sstableSet.sstables)

/-- One step.  The channel delivers what was sent before the sender went. -/
def step (gauge : Gauge F.toTableFormat) (o : Opened F) (disk : Disk F) :
    Deed F → Option (Disk F × Opened F)
  | .write l =>
    if o.sender then
      (o.toProcess.writeStep disk l).map fun (disk, p) =>
        (disk, { o with toProcess := p, bells := o.bells + l.rings })
    else none
  | .hangUp =>
    match o.writer with
    | .idle => if o.sender then some (disk, { o with sender := false }) else none
    | _ => none
  | .wake =>
    match o.thread, o.bells with
    | .waiting, bells + 1 =>
      some (disk, { o with thread := .choosing, bells })
    | _, _ => none
  | .leave =>
    match o.thread with
    | .waiting =>
      if o.bells = 0 ∧ o.sender = false ∧ o.returned = false then
        some (disk, { o with returned := true })
      else none
    | _ => none
  | .pick unmeasured =>
    match o.thread with
    | .choosing =>
      match o.picked gauge unmeasured with
      | some (start, count) =>
        some (disk, { o with thread := .chosen start count })
      | none => some (disk, { o with thread := .waiting })
    | _ => none
  | .compact l =>
    match o.thread with
    | .chosen start count =>
      if l = .begin start count then
        (o.toProcess.compactStep disk l).map fun (disk, p) =>
          (disk, { o with toProcess := p, thread := .compacting })
      else none
    | .compacting =>
      match o.toProcess.compactStep disk l with
      | some (disk, p) =>
        match p.compactor, l with
        | .idle, .unlink =>
          some (disk, { o with toProcess := p, thread := .choosing })
        | .idle, _ => none
        | _, _ => some (disk, { o with toProcess := p })
      | none => none
    | _ => none
  | .giveUp left =>
    match o.thread with
    | .compacting =>
      (o.toProcess.failed disk left).map fun disk =>
        (disk, { o with compactor := .idle, thread := .waiting })
    | _ => none
  | .panic =>
    match o.thread with
    | .chosen start count =>
      if 2 ≤ count ∧ start + count ≤ o.db.sstableSet.sstables.length then
        none
      else some (disk, { o with thread := .panicked .assertion })
    | .compacting =>
      match o.compactor with
      | .begun run start _ =>
        match mergeRun run start with
        | .error .panic =>
          some (disk, { o with thread := .panicked .decoding })
        | _ => none
      | _ => none
    | _ => none

end Opened

/-- The directory, and the database that somebody has open there. -/
structure Owned (F : Format) where
  disk : Disk F
  opened : Option (Opened F)

inductive OwnerStep (F : Format) where
  | deed (d : Deed F)
  /-- `join` returns, and with it `drop`. -/
  | join
  | crash
  | crashInOpen (listing : List Bytes) (removed : ℕ)
  | recover (config : Config) (listing : List Bytes)

namespace Owned

/-- Nothing has been opened yet. -/
def initial (F : Format) : Owned F := ⟨Disk.empty F, none⟩

/-- The state without the thread. -/
def state (s : Owned F) : State F :=
  ⟨s.disk, s.opened.map Opened.toProcess⟩

def step (gauge : Gauge F.toTableFormat) (s : Owned F) :
    OwnerStep F → Option (Owned F)
  | .deed d => do
    let o ← s.opened
    let (disk, o) ← o.step gauge s.disk d
    return ⟨disk, some o⟩
  | .join => do
    let o ← s.opened
    match o.thread with
    | .panicked _ => if o.sender then none else some ⟨s.disk, none⟩
    | _ => if o.returned then some ⟨s.disk, none⟩ else none
  | .crash => s.opened.map fun _ => ⟨s.disk, none⟩
  | .crashInOpen listing removed =>
    match s.opened, F.replay s.disk.log with
    | none, .ok _ =>
      if listing.Perm s.disk.dir.keys then
        some ⟨{ s.disk with
          dir := removeAll s.disk.dir ((openRemovals listing).take removed) },
          none⟩
      else none
    | _, _ => none
  | .recover config listing =>
    match s.opened with
    | some _ => none
    | none =>
      if listing.Perm s.disk.dir.keys then
        match Db.withConfig config listing s.disk with
        | (.ok db, disk) => some ⟨disk, some (.spawn db)⟩
        | (.error _, disk) => some ⟨disk, none⟩
      else none

/-- A run. -/
def exec (gauge : Gauge F.toTableFormat) (s : Owned F) :
    List (OwnerStep F) → Option (Owned F)
  | [] => some s
  | l :: steps => (s.step gauge l).bind fun s => s.exec gauge steps

end Owned

/-! ## What a step can be -/

/-- The steps with what each needs and does. -/
inductive Opened.Turn (gauge : Gauge F.toTableFormat) (o : Opened F)
    (disk : Disk F) :
    Deed F → Disk F → Opened F → Prop where
  | write {l : WriteStep F} {disk' : Disk F} {p : Process F}
      (hsender : o.sender = true)
      (hstep : o.toProcess.writeStep disk l = some (disk', p)) :
    Turn gauge o disk (.write l) disk'
      { o with toProcess := p, bells := o.bells + l.rings }
  | hangUp (hidle : o.writer = .idle) (hsender : o.sender = true) :
    Turn gauge o disk .hangUp disk { o with sender := false }
  | wake {bells : ℕ} (hat : o.thread = .waiting)
      (hbells : o.bells = bells + 1) :
    Turn gauge o disk .wake disk { o with thread := .choosing, bells }
  | leave (hat : o.thread = .waiting) (hbells : o.bells = 0)
      (hsender : o.sender = false) (hreturned : o.returned = false) :
    Turn gauge o disk .leave disk { o with returned := true }
  | choose {unmeasured : List Bytes} {start count : ℕ}
      (hat : o.thread = .choosing)
      (hpick : o.picked gauge unmeasured = some (start, count)) :
    Turn gauge o disk (.pick unmeasured) disk
      { o with thread := .chosen start count }
  | rest {unmeasured : List Bytes} (hat : o.thread = .choosing)
      (hpick : o.picked gauge unmeasured = none) :
    Turn gauge o disk (.pick unmeasured) disk { o with thread := .waiting }
  | call {start count : ℕ} {disk' : Disk F} {p : Process F}
      (hat : o.thread = .chosen start count)
      (hstep : o.toProcess.compactStep disk (.begin start count) =
        some (disk', p)) :
    Turn gauge o disk (.compact (.begin start count)) disk'
      { o with toProcess := p, thread := .compacting }
  | work {l : CompactStep} {disk' : Disk F} {p : Process F}
      (hat : o.thread = .compacting)
      (hstep : o.toProcess.compactStep disk l = some (disk', p))
      (hbusy : p.compactor ≠ .idle) :
    Turn gauge o disk (.compact l) disk' { o with toProcess := p }
  | finish {disk' : Disk F} {p : Process F} (hat : o.thread = .compacting)
      (hstep : o.toProcess.compactStep disk .unlink = some (disk', p))
      (hdone : p.compactor = .idle) :
    Turn gauge o disk (.compact .unlink) disk'
      { o with toProcess := p, thread := .choosing }
  | giveUp {left : Option F.File} {disk' : Disk F}
      (hat : o.thread = .compacting)
      (hfailed : o.toProcess.failed disk left = some disk') :
    Turn gauge o disk (.giveUp left) disk'
      { o with compactor := .idle, thread := .waiting }
  | assertion {start count : ℕ} (hat : o.thread = .chosen start count)
      (hnot : ¬ o.db.sstableSet.Has start count) :
    Turn gauge o disk .panic disk
      { o with thread := .panicked .assertion }
  | decoding {run : List (Listed F.toTableFormat)} {start count : ℕ}
      (hat : o.thread = .compacting)
      (hrun : o.compactor = .begun run start count)
      (hmerge : mergeRun run start = .error .panic) :
    Turn gauge o disk .panic disk { o with thread := .panicked .decoding }

theorem Opened.step_turn {gauge : Gauge F.toTableFormat} {o o' : Opened F}
    {disk disk' : Disk F} {d : Deed F}
    (h : o.step gauge disk d = some (disk', o')) :
    o.Turn gauge disk d disk' o' := by
  cases d with
  | write l =>
      simp only [Opened.step] at h
      split_ifs at h with hsender
      obtain ⟨⟨disk₁, p⟩, hstep, heq⟩ := Option.map_eq_some_iff.mp h
      cases heq
      exact .write hsender hstep
  | hangUp =>
      simp only [Opened.step] at h
      split at h
      next hidle =>
        split_ifs at h with hsender
        cases h
        exact .hangUp hidle hsender
      next => cases h
  | wake =>
      simp only [Opened.step] at h
      split at h
      next hat hbells => cases h; exact .wake hat hbells
      next => cases h
  | leave =>
      simp only [Opened.step] at h
      split at h
      next hat =>
        split_ifs at h with hguard
        cases h
        exact .leave hat hguard.1 hguard.2.1 hguard.2.2
      next => cases h
  | pick unmeasured =>
      simp only [Opened.step] at h
      split at h
      next hat =>
        split at h
        next hpick => cases h; exact .choose hat hpick
        next hpick => cases h; exact .rest hat hpick
      next => cases h
  | compact l =>
      simp only [Opened.step] at h
      split at h
      next hat =>
        split_ifs at h with hl
        subst hl
        obtain ⟨⟨disk₁, p⟩, hstep, heq⟩ := Option.map_eq_some_iff.mp h
        cases heq
        exact .call hat hstep
      next hat =>
        split at h
        next hstep =>
          split at h
          next hdone => cases h; exact .finish hat hstep hdone
          next => cases h
          next hbusy _ => cases h; exact .work hat hstep hbusy
        next => cases h
      next => cases h
  | giveUp left =>
      simp only [Opened.step] at h
      split at h
      next hat =>
        obtain ⟨disk₁, hfailed, heq⟩ := Option.map_eq_some_iff.mp h
        cases heq
        exact .giveUp hat hfailed
      next => cases h
  | panic =>
      simp only [Opened.step] at h
      split at h
      next hat =>
        split_ifs at h with hguard
        cases h
        exact .assertion hat hguard
      next hat =>
        split at h
        next hrun =>
          split at h
          next hmerge => cases h; exact .decoding hat hrun hmerge
          next => cases h
        next => cases h
      next => cases h

theorem Owned.step_deed {gauge : Gauge F.toTableFormat} {s s' : Owned F} {d : Deed F}
    (h : s.step gauge (.deed d) = some s') :
    ∃ o o', s.opened = some o ∧ s'.opened = some o' ∧
      o.Turn gauge s.disk d s'.disk o' := by
  obtain ⟨o, ho, h⟩ := Option.bind_eq_some_iff.mp h
  obtain ⟨⟨disk, o'⟩, hturn, heq⟩ := Option.bind_eq_some_iff.mp h
  obtain rfl := Option.some.inj heq
  exact ⟨o, o', ho, rfl, Opened.step_turn hturn⟩

/-- `join` returns once the thread has ended. -/
theorem Owned.step_join {gauge : Gauge F.toTableFormat} {s s' : Owned F}
    (h : s.step gauge .join = some s') :
    s'.disk = s.disk ∧ s'.opened = none ∧ s.opened.isSome := by
  obtain ⟨o, ho, h⟩ := Option.bind_eq_some_iff.mp h
  refine ⟨?_, ?_, by rw [ho]; rfl⟩
  all_goals
    split at h
    · split_ifs at h
      cases h
      rfl
    · split_ifs at h
      cases h
      rfl

theorem Owned.exec_cons {gauge : Gauge F.toTableFormat} {s s' : Owned F}
    {l : OwnerStep F} {steps : List (OwnerStep F)} :
    s.exec gauge (l :: steps) = some s' ↔
      ∃ next, s.step gauge l = some next ∧ next.exec gauge steps = some s' :=
  Option.bind_eq_some_iff

theorem Owned.exec_append {gauge : Gauge F.toTableFormat} {s s' : Owned F}
    {steps later : List (OwnerStep F)} :
    s.exec gauge (steps ++ later) = some s' ↔
      ∃ next, s.exec gauge steps = some next ∧
        next.exec gauge later = some s' := by
  induction steps generalizing s with
  | nil => simp [Owned.exec]
  | cons l steps ih =>
      simp only [List.cons_append, Owned.exec_cons, ih]
      constructor
      · rintro ⟨first, hfirst, next, hnext, hlater⟩
        exact ⟨next, ⟨first, hfirst, hnext⟩, hlater⟩
      · rintro ⟨next, ⟨first, hfirst, hnext⟩, hlater⟩
        exact ⟨first, hfirst, next, hnext, hlater⟩

/-! ## A run of the machine -/

/-- What the machine does in a step. -/
def Deed.label : Deed F → Option (Label F)
  | .write l => some (.write l)
  | .compact l => some (.compact l)
  | .giveUp left => some (.compactFails left)
  | _ => none

def OwnerStep.label : OwnerStep F → Option (Label F)
  | .deed d => d.label
  | .join => some .crash
  | .crash => some .crash
  | .crashInOpen listing removed => some (.crashInOpen listing removed)
  | .recover config listing => some (.recover config listing)

def machineRun (steps : List (OwnerStep F)) : List (Label F) :=
  steps.filterMap OwnerStep.label

/-- A step of the machine, or none. -/
theorem State.exec_toList {s s' : State F} {l : Label F}
    (h : s.step l = some s') : s.exec (some l).toList = some s' := by
  rw [Option.toList_some, State.exec, h]
  rfl

theorem Opened.Turn.state {gauge : Gauge F.toTableFormat} {o o' : Opened F}
    {disk disk' : Disk F} {d : Deed F} (h : o.Turn gauge disk d disk' o') :
    (⟨disk, some o.toProcess⟩ : State F).exec d.label.toList =
      some ⟨disk', some o'.toProcess⟩ := by
  have hcompact : ∀ {l : CompactStep} {disk' : Disk F} {p : Process F},
      o.toProcess.compactStep disk l = some (disk', p) →
        (⟨disk, some o.toProcess⟩ : State F).step (.compact l) =
          some ⟨disk', some p⟩ := by
    intro l disk' p hstep
    simp only [State.step, Option.bind_eq_bind, Option.bind_some, hstep]
    rfl
  cases h with
  | write _ hstep =>
      apply State.exec_toList
      simp only [State.step, Option.bind_eq_bind, Option.bind_some, hstep]
      rfl
  | call _ hstep => exact State.exec_toList (hcompact hstep)
  | work _ hstep => exact State.exec_toList (hcompact hstep)
  | finish _ hstep => exact State.exec_toList (hcompact hstep)
  | giveUp _ hfailed =>
      apply State.exec_toList
      simp only [State.step, Option.bind_eq_bind, Option.bind_some, hfailed]
      rfl
  | hangUp => rfl
  | wake => rfl
  | leave => rfl
  | choose => rfl
  | rest => rfl
  | assertion => rfl
  | decoding => rfl

theorem Owned.step_state {gauge : Gauge F.toTableFormat} {s s' : Owned F}
    {l : OwnerStep F} (h : s.step gauge l = some s') :
    s.state.exec l.label.toList = some s'.state := by
  cases l with
  | deed d =>
      obtain ⟨o, o', ho, ho', hturn⟩ := Owned.step_deed h
      rw [Owned.state, Owned.state, ho, ho']
      exact hturn.state
  | join =>
      obtain ⟨hdisk, hnone, hsome⟩ := Owned.step_join h
      obtain ⟨o, ho⟩ := Option.isSome_iff_exists.mp hsome
      apply State.exec_toList
      rw [Owned.state, Owned.state, hdisk, hnone, ho]
      rfl
  | crash =>
      obtain ⟨o, ho, rfl⟩ := Option.map_eq_some_iff.mp h
      apply State.exec_toList
      rw [Owned.state, ho]
      rfl
  | crashInOpen listing removed =>
      apply State.exec_toList
      simp only [Owned.step] at h
      split at h
      next hnone hreplay =>
        split_ifs at h with hperm
        cases h
        simp only [State.step, Owned.state, hnone, Option.map_none, hreplay,
          if_pos hperm]
      next => cases h
  | recover config listing =>
      apply State.exec_toList
      simp only [Owned.step] at h
      split at h
      next => cases h
      next hnone =>
        split_ifs at h with hperm
        simp only [State.step, Owned.state, hnone, Option.map_none,
          if_pos hperm]
        cases hopened : Db.withConfig config listing s.disk with
        | mk result disk =>
            rw [hopened] at h
            cases result with
            | ok db => cases h; rfl
            | error e => cases h; rfl

/-- Whatever the thread picks and whenever it runs, the directory and the
database go through a run of the machine. -/
theorem Owned.exec_state {gauge : Gauge F.toTableFormat} {s s' : Owned F}
    {steps : List (OwnerStep F)} (h : s.exec gauge steps = some s') :
    s.state.exec (machineRun steps) = some s'.state := by
  induction steps generalizing s with
  | nil =>
      obtain rfl := Option.some.inj h
      rfl
  | cons l steps ih =>
      obtain ⟨next, hstep, hexec⟩ := Owned.exec_cons.mp h
      have hcons : machineRun (l :: steps) =
          l.label.toList ++ machineRun steps := by
        rw [machineRun, List.filterMap_cons]
        cases l.label <;> rfl
      rw [hcons, State.exec_append]
      exact ⟨next.state, Owned.step_state hstep, ih hexec⟩

end Lsmrs
