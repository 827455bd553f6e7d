import Lsmrs.Db.CompactorSafe
import Lsmrs.Db.MemtableBound
import Lsmrs.Db.Owned

/-!
# Closing

`drop` takes the sender away and joins the thread.  It returns, whatever the
configuration and whatever fails; if nothing failed since the last flush, no
run is left to compact; and a database that is opened on the directory then
is the one that was dropped.
-/

namespace Lsmrs

open ByteString OrderedMap

variable {F : Format}

/-! ## The thread takes the steps of its loop -/

/-- Where the compactor stands, for a database that logs nothing. -/
def Compactor.forget : Compactor F → Compactor (logless F.toTableFormat)
  | .idle => .idle
  | .begun run start count => .begun run start count
  | .merged start count span entries => .merged start count span entries
  | .created start count span table => .created start count span table
  | .ready start count replacement => .ready start count replacement
  | .unlinking obsolete => .unlinking obsolete

/-- The set and its compactor. -/
def Process.setState (p : Process F) (disk : Disk F) :
    SetState F.toTableFormat :=
  ⟨⟨disk.dir, p.db.sstableSet⟩, .idle, p.compactor.forget⟩

@[simp] theorem Process.setState_compactor (p : Process F)
    (disk : Disk F) : (p.setState disk).compactor = p.compactor.forget := rfl

/-- The set with the thread, as the thread sees it. -/
def Opened.running (o : Opened F) (disk : Disk F) :
    Running F.toTableFormat :=
  ⟨o.toProcess.setState disk, o.thread, o.bells⟩

theorem Compactor.forget_eq_idle {compactor : Compactor F} :
    compactor.forget = .idle ↔ compactor = .idle := by
  cases compactor <;> simp [Compactor.forget]

theorem CompactMove.setState {disk disk' : Disk F} {p p' : Process F}
    {l : CompactStep} (h : CompactMove disk p l disk' p') :
    (p.setState disk).compactStep l = some (p'.setState disk') := by
  have hstep := @SetState.compactStep_of_move F.toTableFormat
    (p.setState disk)
  cases h with
  | begun hidle hcount hrange =>
      exact hstep
        (.begun (Compactor.forget_eq_idle.mpr hidle) hcount hrange)
  | @merged run start count entries hbegun hmerge =>
      have hat : p.compactor.forget = .begun run start count := by
        rw [hbegun]
        rfl
      refine (hstep (.merged hat hmerge)).trans ?_
      dsimp only
      split_ifs <;> rfl
  | @unmerged run start count e hbegun hmerge =>
      have hat : p.compactor.forget = .begun run start count := by
        rw [hbegun]
        rfl
      exact hstep (.unmerged hat hmerge)
  | @created start count span entries file table hmerged hwrite =>
      have hat : p.compactor.forget = .merged start count span entries := by
        rw [hmerged]
        rfl
      exact hstep (.created hat hwrite)
  | @renamed start count span table hcreated =>
      have hat : p.compactor.forget = .created start count span table := by
        rw [hcreated]
        rfl
      exact hstep (.renamed hat)
  | @swapped start count replacement hready hrange =>
      have hat : p.compactor.forget = .ready start count replacement := by
        rw [hready]
        rfl
      exact hstep (.swapped hat hrange)
  | @unlinked table obsolete hunlinking =>
      have hat : p.compactor.forget = .unlinking (table :: obsolete) := by
        rw [hunlinking]
        rfl
      exact hstep (.unlinked hat)
  | finished hunlinking =>
      have hat : p.compactor.forget = .unlinking [] := by
        rw [hunlinking]
        rfl
      exact hstep (.finished hat)

theorem measured_sizesOf {F : TableFormat} (size : F.Table → ℕ)
    (unmeasured : List Bytes) (tables : List (Listed F)) :
    Measured size tables (sizesOf size unmeasured tables) := by
  induction tables with
  | nil => exact .nil
  | cons t tables ih =>
      refine .cons ?_ ih
      dsimp only
      split_ifs
      · exact Or.inr rfl
      · exact Or.inl rfl

/-- The steps of the thread. -/
def Deed.OfThread : Deed F → Prop
  | .write _ => False
  | .hangUp => False
  | _ => True

variable {gauge : Gauge F.toTableFormat} {o o' : Opened F}
  {disk disk' : Disk F} {d : Deed F}

theorem Process.failed_fails {p : Process F} {left : Option F.File}
    (h : p.failed disk left = some disk') :
    Fails (p.setState disk)
      (Process.setState { p with compactor := .idle } disk') := by
  have hforget : ∀ {compactor : Compactor F}, p.compactor = compactor →
      (p.setState disk).compactor = compactor.forget := by
    rintro _ rfl
    exact p.setState_compactor disk
  cases failed_iff_move.mp h with
  | read hbegun => exact .read (hforget hbegun)
  | @create _ _ _ _ file hmerged =>
      exact .write (some file) (hforget hmerged)
  | createNone hmerged => exact .write none (hforget hmerged)
  | rename hcreated => exact .rename (hforget hcreated)
  | afterRename hready => exact .sync (hforget hready)
  | remove hunlinking => exact .remove (hforget hunlinking)

/-- A step of the thread is a step of its loop, or its return. -/
theorem Opened.Turn.threadStep (h : o.Turn gauge disk d disk' o')
    (hd : d.OfThread) :
    ThreadStep gauge.size
        (gauge.tooFar o.db.config.compactionSizeRatio)
        o.db.config.compactionThreshold (o.running disk) (o'.running disk') ∨
      o'.returned = true := by
  cases h with
  | write => exact hd.elim
  | hangUp => exact hd.elim
  | leave => exact Or.inr rfl
  | wake hat hbells => exact Or.inl (.wake hat hbells)
  | choose hat hpick =>
      exact Or.inl (.choose hat (measured_sizesOf _ _ _) hpick)
  | rest hat hpick =>
      exact Or.inl (.rest hat (measured_sizesOf _ _ _) hpick)
  | call hat hstep =>
      exact Or.inl (.call hat ((compactStep_iff_move.mp hstep).setState))
  | work hat hstep hbusy =>
      exact Or.inl (.work hat ((compactStep_iff_move.mp hstep).setState)
        fun hidle => hbusy (Compactor.forget_eq_idle.mp hidle))
  | finish hat hstep hdone =>
      exact Or.inl (.finish hat
        ((compactStep_iff_move.mp hstep).setState)
        (Compactor.forget_eq_idle.mpr hdone))
  | giveUp hat hfailed =>
      exact Or.inl (.fail hat (Process.failed_fails hfailed))
  | assertion hat hnot => exact Or.inl (.assertionFails hat hnot)
  | @decoding run start count hat hrun hmerge =>
      have hat' : o.compactor.forget = .begun run start count := by
        rw [hrun]
        rfl
      exact Or.inl (.decodingPanics hat hat' hmerge)

/-! ## `drop` returns -/

/-- The compactor is inside `compact` just when the thread is, a thread that
returned has nothing left to hear, and in `drop` no call is under way. -/
structure Opened.Works (o : Opened F) (disk : Disk F) : Prop where
  compactor :
    match o.thread with
    | .compacting => (o.toProcess.setState disk).Busy
    | .panicked _ => True
    | _ => o.compactor = .idle
  returned : o.returned = true →
    o.thread = .waiting ∧ o.bells = 0 ∧ o.sender = false
  hungUp : o.sender = false → o.writer = .idle

theorem Opened.Works.idle (h : o.Works disk)
    (hthread : o.thread = .waiting ∨ o.thread = .choosing ∨
      ∃ start count, o.thread = .chosen start count) :
    o.compactor = .idle := by
  have hcompactor := h.compactor
  rcases hthread with hat | hat | ⟨start, count, hat⟩
  · rwa [hat] at hcompactor
  · rwa [hat] at hcompactor
  · rwa [hat] at hcompactor

theorem Opened.Works.busy (h : o.Works disk)
    (hat : o.thread = .compacting) : (o.toProcess.setState disk).Busy := by
  have hcompactor := h.compactor
  rwa [hat] at hcompactor

/-- The owner lengthens the list and leaves the compactor alone. -/
theorem writeStep_lengthens {p p' : Process F} {l : WriteStep F}
    (h : p.writeStep disk l = some (disk', p')) :
    p'.compactor = p.compactor ∧
      p.db.sstableSet.sstables.length ≤
        p'.db.sstableSet.sstables.length := by
  cases writeStep_turn h with
  | register =>
      refine ⟨rfl, ?_⟩
      dsimp only [SSTableSet.register]
      rw [List.length_append]
      exact Nat.le_add_right _ _
  | append => exact ⟨rfl, le_rfl⟩
  | writeAllFails => exact ⟨rfl, le_rfl⟩
  | syncDataFails => exact ⟨rfl, le_rfl⟩
  | apply => exact ⟨rfl, le_rfl⟩
  | createNone => exact ⟨rfl, le_rfl⟩
  | create => exact ⟨rfl, le_rfl⟩
  | rename => exact ⟨rfl, le_rfl⟩
  | truncate => exact ⟨rfl, le_rfl⟩
  | nothingCreated => exact ⟨rfl, le_rfl⟩
  | halfCreated => exact ⟨rfl, le_rfl⟩
  | renameFails => exact ⟨rfl, le_rfl⟩
  | registerFails => exact ⟨rfl, le_rfl⟩
  | truncateFails => exact ⟨rfl, le_rfl⟩

theorem Opened.Turn.hungUp (h : o.Turn gauge disk d disk' o')
    (hhungUp : o.sender = false → o.writer = .idle)
    (hsender : o'.sender = false) : o'.writer = .idle := by
  have hcompact : ∀ {l : CompactStep} {disk' : Disk F} {p : Process F},
      o.toProcess.compactStep disk l = some (disk', p) →
        o.sender = false → p.writer = .idle := by
    intro l disk' p hstep hsender
    rw [(compactStep_leaves hstep).writer]
    exact hhungUp hsender
  cases h with
  | write htrue => rw [htrue] at hsender; cases hsender
  | hangUp hidle => exact hidle
  | call _ hstep => exact hcompact hstep hsender
  | work _ hstep => exact hcompact hstep hsender
  | finish _ hstep => exact hcompact hstep hsender
  | wake => exact hhungUp hsender
  | leave => exact hhungUp hsender
  | choose => exact hhungUp hsender
  | rest => exact hhungUp hsender
  | giveUp => exact hhungUp hsender
  | assertion => exact hhungUp hsender
  | decoding => exact hhungUp hsender

/-- A thread that took a step has not returned, if it was not the last. -/
theorem Opened.Turn.returned (h : o.Turn gauge disk d disk' o')
    (hworks : o.Works disk) (hreturned : o'.returned = true) :
    o'.thread = .waiting ∧ o'.bells = 0 ∧ o'.sender = false := by
  have hwaiting : o.returned = true → o.thread = .waiting :=
    fun hreturned => (hworks.returned hreturned).1
  cases h with
  | write hsender =>
      rw [(hworks.returned hreturned).2.2] at hsender
      cases hsender
  | hangUp _ hsender =>
      rw [(hworks.returned hreturned).2.2] at hsender
      cases hsender
  | wake _ hbells =>
      rw [(hworks.returned hreturned).2.1] at hbells
      cases hbells
  | leave hat hbells hsender => exact ⟨hat, hbells, hsender⟩
  | choose hat => cases hat.symm.trans (hwaiting hreturned)
  | rest hat => cases hat.symm.trans (hwaiting hreturned)
  | call hat => cases hat.symm.trans (hwaiting hreturned)
  | work hat => cases hat.symm.trans (hwaiting hreturned)
  | finish hat => cases hat.symm.trans (hwaiting hreturned)
  | giveUp hat => cases hat.symm.trans (hwaiting hreturned)
  | assertion hat => cases hat.symm.trans (hwaiting hreturned)
  | decoding hat => cases hat.symm.trans (hwaiting hreturned)

theorem Opened.Turn.works (h : o.Turn gauge disk d disk' o')
    (hworks : o.Works disk) : o'.Works disk' := by
  refine ⟨?_, h.returned hworks, h.hungUp hworks.hungUp⟩
  cases h with
  | write hsender hstep =>
      obtain ⟨hsame, hlength⟩ := writeStep_lengthens hstep
      have hcompactor := hworks.compactor
      dsimp only
      split
      next hat =>
        rw [hat] at hcompactor
        exact SetState.Busy.mono hcompactor
          (congrArg Compactor.forget hsame) hlength
      next => trivial
      next hne hnot =>
        rw [hsame]
        split at hcompactor
        next hat => exact absurd hat hne
        next cause hat => exact absurd hat (hnot cause)
        next => exact hcompactor
  | hangUp => exact hworks.compactor
  | wake hat => exact hworks.idle (Or.inl hat)
  | leave => exact hworks.compactor
  | choose hat => exact hworks.idle (Or.inr (Or.inl hat))
  | rest hat => exact hworks.idle (Or.inr (Or.inl hat))
  | call hat hstep =>
      have hidle := hworks.idle (Or.inr (Or.inr ⟨_, _, hat⟩))
      exact (SetState.compactStep_move
        (compactStep_iff_move.mp hstep).setState).busy_of_idle
          (Compactor.forget_eq_idle.mpr hidle)
  | work hat hstep hbusy =>
      dsimp only
      rw [hat]
      exact (hworks.busy hat).move (SetState.compactStep_move
        (compactStep_iff_move.mp hstep).setState)
          fun hidle => hbusy (Compactor.forget_eq_idle.mp hidle)
  | finish _ _ hdone => exact hdone
  | giveUp => rfl
  | assertion => trivial
  | decoding => trivial

/-- At this point the thread does not end with a panic of its own. -/
def Opened.Holds (o : Opened F) : Thread → Prop
  | .chosen start count => o.db.sstableSet.Has start count
  | .panicked _ => False
  | _ => True

theorem Opened.Works.sound (h : o.Works disk) {thread : Thread}
    (hat : o.thread = thread) (hholds : o.Holds thread) :
    (o.running disk).Sound := by
  have hcompactor := h.compactor
  rw [Running.Sound]
  dsimp only [Opened.running]
  rw [hat] at hcompactor ⊢
  cases thread with
  | waiting => exact Compactor.forget_eq_idle.mpr hcompactor
  | choosing => exact Compactor.forget_eq_idle.mpr hcompactor
  | chosen start count =>
      exact ⟨Compactor.forget_eq_idle.mpr hcompactor, hholds⟩
  | compacting => exact hcompactor
  | panicked cause => exact hholds.elim

/-- A step of the thread gets on with its loop, if it is not the last. -/
theorem Opened.Turn.rank_lt (h : o.Turn gauge disk d disk' o')
    (hd : d.OfThread) (hworks : o.Works disk) :
    (o'.running disk').rank < (o.running disk).rank ∨ o'.returned = true := by
  rcases h.threadStep hd with hstep | hreturned
  · have hrank : (o.running disk).Sound →
        (o'.running disk').rank < (o.running disk).rank :=
      fun hsound => threadStep_rank hsound hstep
    cases h with
    | write => exact hd.elim
    | hangUp => exact hd.elim
    | leave => exact Or.inr rfl
    | assertion hat hnot =>
        refine Or.inl (Running.rank_lt_of_phase rfl rfl ?_)
        rw [Running.phase, Running.phase]
        dsimp only [Opened.running]
        rw [hat]
        exact Nat.succ_pos 4
    | call hat hcall =>
        cases compactStep_iff_move.mp hcall with
        | begun _ hcount hrange =>
            exact Or.inl (hrank (hworks.sound hat ⟨hcount, hrange⟩))
    | wake hat => exact Or.inl (hrank (hworks.sound hat trivial))
    | choose hat => exact Or.inl (hrank (hworks.sound hat trivial))
    | rest hat => exact Or.inl (hrank (hworks.sound hat trivial))
    | work hat => exact Or.inl (hrank (hworks.sound hat trivial))
    | finish hat => exact Or.inl (hrank (hworks.sound hat trivial))
    | giveUp hat => exact Or.inl (hrank (hworks.sound hat trivial))
    | decoding hat => exact Or.inl (hrank (hworks.sound hat trivial))
  · exact Or.inr hreturned

/-- What the thread does next while nothing fails. -/
def Opened.next (o : Opened F) : Deed F :=
  match o.thread with
  | .waiting => if o.bells = 0 then .leave else .wake
  | .choosing => .pick []
  | .chosen start count =>
    if 2 ≤ count ∧ start + count ≤ o.db.sstableSet.sstables.length then
      .compact (.begin start count)
    else .panic
  | .compacting =>
    match o.compactor with
    | .begun run start _ =>
      match mergeRun run start with
      | .ok _ => .compact .merge
      | .error .panic => .panic
      | .error _ => .giveUp none
    | .merged _ _ _ entries =>
      match F.writeTable o.db.sstableSet.bitsPerKey entries with
      | .ok _ => .compact .create
      | .error _ => .giveUp none
    | .created _ _ _ _ => .compact .rename
    | .ready _ _ _ => .compact .swap
    | _ => .compact .unlink
  | .panicked _ => .leave

theorem Opened.next_ofThread (o : Opened F) : o.next.OfThread := by
  unfold Opened.next
  repeat' split
  all_goals trivial

theorem Opened.step_compact_isSome (hat : o.thread = .compacting)
    {l : CompactStep} {p : Process F}
    (hmove : CompactMove disk o.toProcess l disk' p)
    (hdone : p.compactor = .idle → l = .unlink) :
    (o.step gauge disk (.compact l)).isSome := by
  simp only [Opened.step, hat, compactStep_iff_move.mpr hmove]
  split
  next => rfl
  next hidle hne => exact absurd (hdone hidle) hne
  next => rfl

/-- Inside `compact` the next step can be taken. -/
theorem Opened.Works.next_compacting (h : o.Works disk)
    (hat : o.thread = .compacting) :
    (o.step gauge disk o.next).isSome := by
  have hbusy := h.busy hat
  rw [SetState.Busy, Process.setState_compactor] at hbusy
  cases hcompactor : o.compactor with
  | idle =>
      rw [hcompactor] at hbusy
      exact hbusy.elim
  | begun run start count =>
      simp only [Opened.next, hat, hcompactor]
      split
      next entries hmerge =>
        refine o.step_compact_isSome hat (.merged hcompactor hmerge) ?_
        dsimp only
        split_ifs <;> simp
      next hmerge => simp only [Opened.step, hat, hcompactor, hmerge]; rfl
      next => simp only [Opened.step, hat, Process.failed, hcompactor]; rfl
  | merged start count span entries =>
      simp only [Opened.next, hat, hcompactor]
      split
      next hwrite =>
        exact o.step_compact_isSome hat (.created hcompactor hwrite)
          (by simp)
      next => simp only [Opened.step, hat, Process.failed, hcompactor]; rfl
  | created start count span table =>
      simp only [Opened.next, hat, hcompactor]
      exact o.step_compact_isSome hat (.renamed hcompactor) (by simp)
  | ready start count replacement =>
      rw [hcompactor] at hbusy
      simp only [Opened.next, hat, hcompactor]
      exact o.step_compact_isSome hat (.swapped hcompactor hbusy.2)
        (by simp)
  | unlinking obsolete =>
      simp only [Opened.next, hat, hcompactor]
      cases obsolete with
      | nil =>
          exact o.step_compact_isSome hat (.finished hcompactor)
            fun _ => rfl
      | cons table obsolete =>
          exact o.step_compact_isSome hat (.unlinked hcompactor) (by simp)

/-- In `drop` the thread can take its next step until it has ended. -/
theorem Opened.Works.next_isSome (h : o.Works disk)
    (hsender : o.sender = false) (hreturned : o.returned = false)
    (hrunning : ∀ cause, o.thread ≠ .panicked cause) :
    (o.step gauge disk o.next).isSome := by
  cases hat : o.thread with
  | waiting =>
      cases hbells : o.bells with
      | zero => simp [Opened.next, Opened.step, hat, hbells, hsender, hreturned]
      | succ bells => simp [Opened.next, Opened.step, hat, hbells]
  | choosing =>
      simp only [Opened.next, Opened.step, hat]
      split <;> rfl
  | chosen start count =>
      simp only [Opened.next, hat]
      split_ifs with hhas
      · have hidle := h.idle (Or.inr (Or.inr ⟨_, _, hat⟩))
        simp only [Opened.step, hat, if_pos, compactStep_iff_move.mpr
          (.begun hidle hhas.1 hhas.2)]
        rfl
      · simp only [Opened.step, hat, if_neg hhas]
        rfl
  | compacting => exact h.next_compacting hat
  | panicked cause => exact absurd hat (hrunning cause)

/-- A thread that returned takes no step. -/
theorem Opened.Turn.not_returned (h : o.Turn gauge disk d disk' o')
    (hd : d.OfThread) (hworks : o.Works disk) : o.returned = false := by
  by_contra hreturned
  rw [Bool.not_eq_false] at hreturned
  obtain ⟨hwaiting, hnone, -⟩ := hworks.returned hreturned
  cases h with
  | write => exact hd.elim
  | hangUp => exact hd.elim
  | wake _ hbells => rw [hnone] at hbells; cases hbells
  | leave _ _ _ hnot => rw [hreturned] at hnot; cases hnot
  | choose hat => rw [hwaiting] at hat; cases hat
  | rest hat => rw [hwaiting] at hat; cases hat
  | call hat => rw [hwaiting] at hat; cases hat
  | work hat => rw [hwaiting] at hat; cases hat
  | finish hat => rw [hwaiting] at hat; cases hat
  | giveUp hat => rw [hwaiting] at hat; cases hat
  | assertion hat => rw [hwaiting] at hat; cases hat
  | decoding hat => rw [hwaiting] at hat; cases hat

theorem acc_of_returned {s : Owned F} (ho : s.opened = some o)
    (hworks : o.Works s.disk) (hreturned : o.returned = true) :
    Acc (fun later earlier : Owned F => ∃ d : Deed F, d.OfThread ∧
      earlier.step gauge (.deed d) = some later) s := by
  refine Acc.intro s ?_
  rintro s' ⟨d, hd, hstep⟩
  obtain ⟨o₁, o', ho₁, -, hturn⟩ := Owned.step_deed hstep
  obtain rfl := Option.some.inj (ho.symm.trans ho₁)
  rw [hturn.not_returned hd hworks] at hreturned
  cases hreturned

/-- The thread takes finitely many steps of its own. -/
theorem acc_deeds {s : Owned F} (ho : s.opened = some o)
    (hworks : o.Works s.disk) :
    Acc (fun later earlier : Owned F => ∃ d : Deed F, d.OfThread ∧
      earlier.step gauge (.deed d) = some later) s := by
  induction hrank : (o.running s.disk).rank using
    WellFoundedLT.induction generalizing s o with
  | ind rank ih =>
      subst hrank
      refine Acc.intro s ?_
      rintro s' ⟨d, hd, hstep⟩
      obtain ⟨o₁, o', ho₁, ho', hturn⟩ := Owned.step_deed hstep
      obtain rfl := Option.some.inj (ho.symm.trans ho₁)
      have hworks' := hturn.works hworks
      rcases hturn.rank_lt hd hworks with hless | hreturned
      · exact ih _ hless ho' hworks' rfl
      · exact acc_of_returned ho' hworks' hreturned

/-! ### Runs -/

theorem Opened.spawn_works (db : Db F) : (Opened.spawn db).Works disk :=
  ⟨rfl, nofun, nofun⟩

theorem Owned.step_works {s s' : Owned F} {l : OwnerStep F}
    (h : ∀ o, s.opened = some o → o.Works s.disk)
    (hstep : s.step gauge l = some s') :
    ∀ o, s'.opened = some o → o.Works s'.disk := by
  intro o' ho'
  cases l with
  | deed d =>
      obtain ⟨o, o₁, ho, ho₁, hturn⟩ := Owned.step_deed hstep
      obtain rfl := Option.some.inj (ho'.symm.trans ho₁)
      exact hturn.works (h o ho)
  | join =>
      obtain ⟨-, hnone, -⟩ := Owned.step_join hstep
      rw [hnone] at ho'
      cases ho'
  | crash =>
      obtain ⟨o, -, rfl⟩ := Option.map_eq_some_iff.mp hstep
      cases ho'
  | crashInOpen listing removed =>
      simp only [Owned.step] at hstep
      split at hstep
      next =>
        split_ifs at hstep
        cases hstep
        cases ho'
      next => cases hstep
  | recover config listing =>
      simp only [Owned.step] at hstep
      split at hstep
      next => cases hstep
      next =>
        split_ifs at hstep
        split at hstep
        next db disk hdb =>
          cases hstep
          obtain rfl := Option.some.inj ho'
          exact Opened.spawn_works db
        next =>
          cases hstep
          cases ho'

theorem Owned.exec_works {s s' : Owned F} {steps : List (OwnerStep F)}
    (h : ∀ o, s.opened = some o → o.Works s.disk)
    (hrun : s.exec gauge steps = some s') :
    ∀ o, s'.opened = some o → o.Works s'.disk := by
  induction steps generalizing s with
  | nil =>
      obtain rfl := Option.some.inj hrun
      exact h
  | cons l steps ih =>
      obtain ⟨next, hstep, hrest⟩ := Owned.exec_cons.mp hrun
      exact ih (Owned.step_works h hstep) hrest

theorem initial_works (o : Opened F)
    (ho : (Owned.initial F).opened = some o) :
    o.Works (Owned.initial F).disk := by
  cases ho

/-- `drop` returns, for every configuration and whatever failed before or
fails then: the thread takes finitely many more steps, and until `join` can
return it can take its next one. -/
theorem drop_returns (gauge : Gauge F.toTableFormat)
    {steps : List (OwnerStep F)}
    {s : Owned F} {o : Opened F}
    (hrun : (Owned.initial F).exec gauge steps = some s)
    (ho : s.opened = some o) (hsender : o.sender = false) :
    Acc (fun later earlier : Owned F => ∃ d : Deed F, d.OfThread ∧
        earlier.step gauge (.deed d) = some later) s ∧
      ((o.next.OfThread ∧ (s.step gauge (.deed o.next)).isSome) ∨
        (s.step gauge .join).isSome) := by
  have hworks := Owned.exec_works initial_works hrun o ho
  refine ⟨acc_deeds ho hworks, ?_⟩
  by_cases hrunning : ∀ cause, o.thread ≠ .panicked cause
  · cases hreturned : o.returned with
    | true =>
        right
        have hat := (hworks.returned hreturned).1
        simp [Owned.step, ho, hat, hreturned]
    | false =>
        left
        refine ⟨o.next_ofThread, ?_⟩
        have hsome : (o.step gauge s.disk o.next).isSome :=
          hworks.next_isSome hsender hreturned hrunning
        obtain ⟨⟨disk, o'⟩, hnext⟩ := Option.isSome_iff_exists.mp hsome
        simp only [Owned.step, ho, Option.bind_eq_bind, Option.bind_some,
          hnext]
        rfl
  · right
    push Not at hrunning
    obtain ⟨cause, hat⟩ := hrunning
    simp [Owned.step, ho, hat, hsender]

/-- What the database is like at the end of a run. -/
def endsWith (f : Opened F → Bool) (result : Option (Owned F)) : Bool :=
  (result.bind Owned.opened).any f

theorem exists_of_endsWith {f : Opened F → Bool}
    {result : Option (Owned F)} (h : endsWith f result = true) :
    ∃ s o, result = some s ∧ s.opened = some o ∧ f o = true := by
  rw [endsWith, Option.any_eq_true] at h
  obtain ⟨o, ho, hf⟩ := h
  obtain ⟨s, hs, ho⟩ := Option.bind_eq_some_iff.mp ho
  exact ⟨s, o, hs, ho, hf⟩

/-- File lengths, and the ratio as it is written. -/
def Gauge.exact : Gauge byteTables :=
  ⟨SSTable.fileLength, exceeds⟩

/-- Two tables of any sizes are a run. -/
def mergePairs : Config :=
  { flushEach with compactionThreshold := 2, compactionSizeRatio := 2 }

/-- A call that flushes, up to the truncation of the log. -/
def flushedDeeds (m : Mutation) : List (OwnerStep F) :=
  [.append m, .apply, .create, .rename, .register].map fun l =>
    .deed (.write l)

/-- Two tables are written before the database is dropped. -/
def twoFlushed : List (OwnerStep F) :=
  .recover mergePairs [] ::
    (flushedDeeds (.insert (ascii "foo") (ascii "bar")) ++
      .deed (.write .truncate) ::
        flushedDeeds (.insert (ascii "omar") (ascii "ashour")))

/-- The thread hears of them in `drop` and merges them. -/
def mergedInDrop : List (OwnerStep F) :=
  [.hangUp, .wake, .pick [], .compact (.begin 0 2), .compact .merge,
    .compact .create, .compact .rename, .compact .swap, .compact .unlink,
    .compact .unlink, .compact .unlink, .pick [], .wake, .pick [],
    .leave].map .deed

/-- Then `drop` returns. -/
theorem exists_mergedInDrop :
    ∃ s o, (Owned.initial (byteFormat crc32)).exec .exact
        (twoFlushed ++ .deed (.write .truncate) :: mergedInDrop) = some s ∧
      s.opened = some o ∧ o.returned = true := by
  have hends : endsWith (fun o => o.returned)
      ((Owned.initial (byteFormat crc32)).exec .exact
        (twoFlushed ++ .deed (.write .truncate) :: mergedInDrop)) =
          true := by
    decide +kernel
  exact exists_of_endsWith hends

theorem drop_returns_twoFlushed :
    ∃ s o, (Owned.initial (byteFormat crc32)).exec .exact
        (twoFlushed ++ [.deed (.write .truncate), .deed .hangUp]) = some s ∧
      s.opened = some o ∧
        ((o.next.OfThread ∧ (s.step .exact (.deed o.next)).isSome) ∨
          (s.step .exact .join).isSome) := by
  have hends : endsWith (fun o => !o.sender)
      ((Owned.initial (byteFormat crc32)).exec .exact
        (twoFlushed ++ [.deed (.write .truncate), .deed .hangUp])) =
          true := by
    decide +kernel
  obtain ⟨s, o, hrun, ho, hsender⟩ := exists_of_endsWith hends
  rw [Bool.not_eq_true'] at hsender
  exact ⟨s, o, hrun, ho,
    (drop_returns .exact hrun ho hsender).2⟩

/-! ## No run is left -/

/-- Nothing fails that the thread would have to be told of: no error of
`compact` or `metadata`, and no truncation after which a flush does not
ring. -/
def Deed.Quiet : Deed F → Prop
  | .write (.flushFails (.truncate _)) => False
  | .pick unmeasured => unmeasured = []
  | .giveUp _ => False
  | _ => True

def OwnerStep.Quiet : OwnerStep F → Prop
  | .deed d => d.Quiet
  | _ => False

instance : (d : Deed F) → Decidable d.Quiet
  | .write l =>
    match l with
    | .flushFails (.truncate _) => instDecidableFalse
    | .flushFails (.create _) => instDecidableTrue
    | .flushFails .rename => instDecidableTrue
    | .flushFails .afterRename => instDecidableTrue
    | .append _ => instDecidableTrue
    | .appendFails _ _ => instDecidableTrue
    | .apply => instDecidableTrue
    | .create => instDecidableTrue
    | .rename => instDecidableTrue
    | .register => instDecidableTrue
    | .truncate => instDecidableTrue
  | .hangUp => instDecidableTrue
  | .wake => instDecidableTrue
  | .leave => instDecidableTrue
  | .pick unmeasured => inferInstanceAs (Decidable (unmeasured = []))
  | .compact _ => instDecidableTrue
  | .giveUp _ => instDecidableFalse
  | .panic => instDecidableTrue

instance : (l : OwnerStep F) → Decidable l.Quiet
  | .deed d => inferInstanceAs (Decidable d.Quiet)
  | .join => instDecidableFalse
  | .crash => instDecidableFalse
  | .crashInOpen _ _ => instDecidableFalse
  | .recover _ _ => instDecidableFalse

/-- A thread that waits has heard of every table in the list, or is about to
be told. -/
def Opened.Told (gauge : Gauge F.toTableFormat) (o : Opened F) : Prop :=
  o.thread = .waiting → o.bells = 0 → o.writer ≠ .registered →
    o.picked gauge [] = none

theorem Opened.Turn.told (h : o.Turn gauge disk d disk' o')
    (hd : d.Quiet) (htold : o.Told gauge) : o'.Told gauge := by
  cases h with
  | write hsender hstep =>
      intro hat hbells hwriter
      cases writeStep_turn hstep with
      | append hidle => exact htold hat hbells (by rw [hidle]; nofun)
      | writeAllFails hidle => exact htold hat hbells (by rw [hidle]; nofun)
      | syncDataFails hidle => exact htold hat hbells (by rw [hidle]; nofun)
      | apply hlogged => exact htold hat hbells (by rw [hlogged]; nofun)
      | createNone => exact absurd rfl hwriter
      | create hflushing =>
          exact htold hat hbells (by rw [hflushing]; nofun)
      | rename hcreated => exact htold hat hbells (by rw [hcreated]; nofun)
      | register => exact absurd rfl hwriter
      | truncate => exact absurd hbells (Nat.succ_ne_zero _)
      | nothingCreated hflushing =>
          exact htold hat hbells (by rw [hflushing]; nofun)
      | halfCreated hflushing =>
          exact htold hat hbells (by rw [hflushing]; nofun)
      | renameFails hcreated =>
          exact htold hat hbells (by rw [hcreated]; nofun)
      | registerFails hpublished =>
          exact htold hat hbells (by rw [hpublished]; nofun)
      | truncateFails => exact hd.elim
  | hangUp hidle hsender => exact htold
  | wake hat hbells => exact nofun
  | leave hat hbells hsender hreturned => exact htold
  | choose hat hpick => exact nofun
  | rest hat hpick =>
      obtain rfl : _ = [] := hd
      exact fun _ _ _ => hpick
  | call hat hstep => exact nofun
  | work hat hstep hbusy =>
      intro hwaiting
      rw [hat] at hwaiting
      cases hwaiting
  | finish hat hstep hdone => exact nofun
  | giveUp hat hfailed => exact hd.elim
  | assertion hat hnot => exact nofun
  | decoding hat hrun hmerge => exact nofun

theorem Owned.exec_told {s s' : Owned F} {o o' : Opened F}
    {steps : List (OwnerStep F)} (ho : s.opened = some o)
    (htold : o.Told gauge) (hsteps : ∀ l ∈ steps, l.Quiet)
    (hrun : s.exec gauge steps = some s') (ho' : s'.opened = some o') :
    o'.Told gauge := by
  induction steps generalizing s o with
  | nil =>
      obtain rfl := Option.some.inj hrun
      obtain rfl := Option.some.inj (ho.symm.trans ho')
      exact htold
  | cons l steps ih =>
      obtain ⟨hl, hrest⟩ := List.forall_mem_cons.mp hsteps
      obtain ⟨next, hstep, hexec⟩ := Owned.exec_cons.mp hrun
      cases l with
      | deed d =>
          obtain ⟨o₁, o₂, ho₁, ho₂, hturn⟩ := Owned.step_deed hstep
          obtain rfl := Option.some.inj (ho.symm.trans ho₁)
          exact ih ho₂ (hturn.told hl htold) hrest hexec
      | join => exact hl.elim
      | crash => exact hl.elim
      | crashInOpen listing removed => exact hl.elim
      | recover config listing => exact hl.elim

/-- Once the thread has returned, every compaction that the last flush
triggered has finished: if nothing failed since, `pick_run` finds no run in
the list, and none is under way. -/
theorem drop_leaves_no_run (gauge : Gauge F.toTableFormat)
    {steps after : List (OwnerStep F)} {s : Owned F} {o : Opened F}
    (hrun : (Owned.initial F).exec gauge
      (steps ++ .deed (.write .truncate) :: after) = some s)
    (hafter : ∀ l ∈ after, l.Quiet) (ho : s.opened = some o)
    (hreturned : o.returned = true) :
    o.picked gauge [] = none ∧ o.compactor = .idle := by
  have hworks := Owned.exec_works initial_works hrun o ho
  obtain ⟨hat, hbells, hsender⟩ := hworks.returned hreturned
  refine ⟨?_, hworks.idle (Or.inl hat)⟩
  obtain ⟨s₁, -, hrest⟩ := Owned.exec_append.mp hrun
  obtain ⟨s₂, hflush, hexec⟩ := Owned.exec_cons.mp hrest
  obtain ⟨o₁, o₂, -, ho₂, hturn⟩ := Owned.step_deed hflush
  have htold : o₂.Told gauge := by
    cases hturn with
    | write => exact fun _ hnone => absurd hnone (Nat.succ_ne_zero _)
  exact Owned.exec_told ho₂ htold hafter hexec ho hat hbells
    (by rw [hworks.hungUp hsender]; nofun)

theorem drop_leaves_no_run_merged :
    ∃ s o, (Owned.initial (byteFormat crc32)).exec .exact
        (twoFlushed ++ .deed (.write .truncate) :: mergedInDrop) = some s ∧
      s.opened = some o ∧ o.picked .exact [] = none ∧
        o.compactor = .idle := by
  obtain ⟨s, o, hrun, ho, hreturned⟩ := exists_mergedInDrop
  exact ⟨s, o, hrun, ho, drop_leaves_no_run .exact hrun
    (by decide +kernel) ho hreturned⟩

end Lsmrs
