import Lsmrs.Db.TableList
import Lsmrs.Sstable.PickRun

/-!
# The compactor thread

The loop that `with_config` spawns: wait for a flush to ring, and compact for
as long as `pick_run` finds a run.  Flushes push tables at any point of it.
Each step of the thread lowers a rank, and keeps the run that was picked
within the list as long as the threshold is at least two.
-/

namespace Lsmrs

open ByteString OrderedMap

variable {F : TableFormat}

/-! ## The loop -/

/-- What ends the thread: an assertion of `compact`, or a table that cannot
be decoded without a panic. -/
inductive Panic where
  | assertion
  | decoding
  deriving DecidableEq, Repr

/-- Where the thread stands: at `recv`, at `pick_run`, between `pick_run` and
`compact`, inside `compact`, or no more. -/
inductive Thread where
  | waiting
  | choosing
  | chosen (start count : ℕ)
  | compacting
  | panicked (cause : Panic)
  deriving DecidableEq, Repr

/-- A set with its compactor thread, and how often the bell has rung that
the thread did not hear yet. -/
structure Running (F : TableFormat) extends SetState F where
  thread : Thread
  bells : ℕ

/-- What the thread that flushes does: the steps of `write`, which may give
up between them, and then `tx.send(())`. -/
inductive FlushStep : Running F → Running F → Prop where
  | create {s : Running F} {set : SetState F}
      (memtable : OrderedMap Bytes (Option Bytes))
      (hstep : s.toSetState.step (.create memtable) = some set) :
    FlushStep s { s with toSetState := set }
  | rename {s : Running F} {set : SetState F}
      (hstep : s.toSetState.step .rename = some set) :
    FlushStep s { s with toSetState := set }
  | register {s : Running F} {set : SetState F}
      (hstep : s.toSetState.step .register = some set) :
    FlushStep s { s with toSetState := set }
  | fail {s : Running F} : FlushStep s { s with flush := .idle }
  | ring {s : Running F} : FlushStep s { s with bells := s.bells + 1 }

/-- The sizes that `pick_run` collects.  Where `metadata` fails it takes
zero. -/
def Measured (size : F.Table → ℕ) (tables : List (Listed F))
    (sizes : List ℕ) : Prop :=
  List.Forall₂ (fun t n => n = size t.table ∨ n = 0) tables sizes

/-- Both assertions of `compact` hold. -/
def SSTableSet.Has (set : SSTableSet F) (start count : ℕ) : Prop :=
  2 ≤ count ∧ start + count ≤ set.sstables.length

/-- What an error inside `compact` leaves behind. -/
inductive Fails (s : SetState F) : SetState F → Prop where
  | read {run : List (Listed F)} {start count : ℕ}
      (hat : s.compactor = .begun run start count) :
    Fails s { s with compactor := .idle }
  | write {start count : ℕ} {span : Span} {entries : List Entry}
      (left : Option F.File)
      (hat : s.compactor = .merged start count span entries) :
    Fails s { s with
      dir := match left with
        | some file => createTmp s.dir span file
        | none => s.dir
      compactor := .idle }
  | rename {start count : ℕ} {span : Span} {table : F.Table}
      (hat : s.compactor = .created start count span table) :
    Fails s { s with compactor := .idle }
  | sync {start count : ℕ} {replacement : Listed F}
      (hat : s.compactor = .ready start count (some replacement)) :
    Fails s { s with compactor := .idle }
  | remove {table : Listed F} {obsolete : List (Listed F)}
      (hat : s.compactor = .unlinking (table :: obsolete)) :
    Fails s { s with compactor := .idle }

/-- What the compactor thread does. -/
inductive ThreadStep (size : F.Table → ℕ) (tooFar : ℕ → ℕ → Bool)
    (minRun : ℕ) (s : Running F) : Running F → Prop where
  | wake {bells : ℕ} (hat : s.thread = .waiting)
      (hbells : s.bells = bells + 1) :
    ThreadStep size tooFar minRun s
      { s with thread := .choosing, bells }
  | choose {sizes : List ℕ} {start count : ℕ} (hat : s.thread = .choosing)
      (hsizes : Measured size s.set.sstables sizes)
      (hpick : pickRun tooFar minRun sizes = some (start, count)) :
    ThreadStep size tooFar minRun s
      { s with thread := .chosen start count }
  | rest {sizes : List ℕ} (hat : s.thread = .choosing)
      (hsizes : Measured size s.set.sstables sizes)
      (hpick : pickRun tooFar minRun sizes = none) :
    ThreadStep size tooFar minRun s { s with thread := .waiting }
  | call {start count : ℕ} {set : SetState F}
      (hat : s.thread = .chosen start count)
      (hstep : s.compactStep (.begin start count) = some set) :
    ThreadStep size tooFar minRun s
      { s with toSetState := set, thread := .compacting }
  | assertionFails {start count : ℕ} (hat : s.thread = .chosen start count)
      (hnot : ¬ s.set.Has start count) :
    ThreadStep size tooFar minRun s
      { s with thread := .panicked .assertion }
  | work {l : CompactStep} {set : SetState F} (hat : s.thread = .compacting)
      (hstep : s.compactStep l = some set) (hbusy : set.compactor ≠ .idle) :
    ThreadStep size tooFar minRun s { s with toSetState := set }
  | finish {set : SetState F} (hat : s.thread = .compacting)
      (hstep : s.compactStep .unlink = some set)
      (hdone : set.compactor = .idle) :
    ThreadStep size tooFar minRun s
      { s with toSetState := set, thread := .choosing }
  | fail {set : SetState F} (hat : s.thread = .compacting)
      (hfails : Fails s.toSetState set) :
    ThreadStep size tooFar minRun s
      { s with toSetState := set, thread := .waiting }
  | decodingPanics {run : List (Listed F)} {start count : ℕ}
      (hat : s.thread = .compacting)
      (hrun : s.compactor = .begun run start count)
      (hmerge : mergeRun run start = .error .panic) :
    ThreadStep size tooFar minRun s
      { s with thread := .panicked .decoding }

namespace Running

/-- The thread has just been spawned, or is back at `recv`, and no flush is
in progress. -/
structure Starts (s : Running F) : Prop where
  thread : s.thread = .waiting
  flush : s.flush = .idle
  compactor : s.compactor = .idle

/-- The thread and the flushes in any order. -/
def Reaches (size : F.Table → ℕ) (tooFar : ℕ → ℕ → Bool) (minRun : ℕ) :
    Running F → Running F → Prop :=
  Relation.ReflTransGen fun s s' =>
    FlushStep s s' ∨ ThreadStep size tooFar minRun s s'

namespace Reaches

variable {size : F.Table → ℕ} {tooFar : ℕ → ℕ → Bool} {minRun : ℕ}
  {s s' later : Running F}

theorem flush (h : Reaches size tooFar minRun s s')
    (hstep : FlushStep s' later) : Reaches size tooFar minRun s later :=
  Relation.ReflTransGen.tail h (Or.inl hstep)

theorem thread (h : Reaches size tooFar minRun s s')
    (hstep : ThreadStep size tooFar minRun s' later) :
    Reaches size tooFar minRun s later :=
  Relation.ReflTransGen.tail h (Or.inr hstep)

end Reaches

end Running

/-! ## What a step does -/

/-- The steps of `compact` on the set. -/
inductive SetMove (s : SetState F) :
    CompactStep → SetState F → Prop where
  | begun {start count : ℕ} (hat : s.compactor = .idle)
      (hhas : s.set.Has start count) :
    SetMove s (.begin start count) { s with
      compactor := .begun (runOf s.set.sstables start count) start count }
  | merged {run : List (Listed F)} {start count : ℕ} {span : Span}
      {entries : List Entry} (hat : s.compactor = .begun run start count) :
    SetMove s .merge { s with compactor := .merged start count span entries }
  | mergedAway {run : List (Listed F)} {start count : ℕ}
      (hat : s.compactor = .begun run start count) :
    SetMove s .merge { s with compactor := .ready start count none }
  | unmerged {run : List (Listed F)} {start count : ℕ}
      (hat : s.compactor = .begun run start count) :
    SetMove s .merge { s with compactor := .idle }
  | created {start count : ℕ} {span : Span} {entries : List Entry}
      {file : F.File} {table : F.Table}
      (hat : s.compactor = .merged start count span entries)
      (hwrite : F.writeTable s.set.bitsPerKey entries = .ok (file, table)) :
    SetMove s .create { s with
      dir := createTmp s.dir span file
      compactor := .created start count span table }
  | renamed {start count : ℕ} {span : Span} {table : F.Table}
      (hat : s.compactor = .created start count span table) :
    SetMove s .rename { s with
      dir := publish s.dir span
      compactor := .ready start count (some (listedAt span table)) }
  | swapped {start count : ℕ} {replacement : Option (Listed F)}
      (hat : s.compactor = .ready start count replacement) :
    SetMove s .swap { s with
      set := { s.set with
        sstables := spliced s.set.sstables start count replacement }
      compactor := .unlinking (runOf s.set.sstables start count) }
  | unlinked {table : Listed F} {obsolete : List (Listed F)}
      (hat : s.compactor = .unlinking (table :: obsolete)) :
    SetMove s .unlink { s with
      dir := s.dir.erase table.path
      compactor := .unlinking obsolete }
  | finished (hat : s.compactor = .unlinking []) :
    SetMove s .unlink { s with compactor := .idle }

theorem SetState.compactStep_move {s s' : SetState F} {l : CompactStep}
    (h : s.compactStep l = some s') : SetMove s l s' := by
  obtain ⟨⟨disk, p⟩, hstep, rfl⟩ := Option.map_eq_some_iff.mp h
  cases compactStep_iff_move.mp hstep with
  | begun hidle hcount hrange => exact .begun hidle ⟨hcount, hrange⟩
  | @merged _ _ _ entries hbegun hmerge =>
      by_cases hnil : entries = []
      · rw [if_pos hnil]
        exact .mergedAway hbegun
      · rw [if_neg hnil]
        exact .merged hbegun
  | unmerged hbegun => exact .unmerged hbegun
  | created hmerged hwrite => exact .created hmerged hwrite
  | renamed hcreated => exact .renamed hcreated
  | swapped hready => exact .swapped hready
  | unlinked hunlinking => exact .unlinked hunlinking
  | finished hunlinking => exact .finished hunlinking

theorem SetState.compactStep_of_move {s : SetState F} {l : CompactStep}
    {disk : Disk (logless F)} {p : Process (logless F)}
    (h : CompactMove ⟨(), s.dir⟩ s.process l disk p) :
    s.compactStep l =
      some ⟨⟨disk.dir, p.db.sstableSet⟩, s.flush, p.compactor⟩ :=
  Option.map_eq_some_iff.mpr ⟨_, compactStep_iff_move.mpr h, rfl⟩

/-- A flush leaves the thread alone, and the list only grows. -/
structure FlushLeaves (s s' : Running F) : Prop where
  thread : s'.thread = s.thread
  compactor : s'.compactor = s.compactor
  grows : s.set.sstables.length ≤ s'.set.sstables.length

theorem flushStep_leaves {s s' : Running F} (h : FlushStep s s') :
    FlushLeaves s s' := by
  cases h with
  | create memtable hstep =>
      cases SetState.step_turn hstep with
      | createNone => exact ⟨rfl, rfl, le_rfl⟩
      | create => exact ⟨rfl, rfl, le_rfl⟩
  | rename hstep =>
      cases SetState.step_turn hstep with
      | rename => exact ⟨rfl, rfl, le_rfl⟩
  | register hstep =>
      cases SetState.step_turn hstep with
      | register =>
          refine ⟨rfl, rfl, ?_⟩
          dsimp only [SSTableSet.register]
          rw [List.length_append]
          exact Nat.le_add_right _ _
  | fail => exact ⟨rfl, rfl, le_rfl⟩
  | ring => exact ⟨rfl, rfl, le_rfl⟩

/-! ## The assertions of `compact` hold -/

/-- A call of `compact` is in progress, and the run it has yet to replace is
in the list. -/
def SetState.Busy (s : SetState F) : Prop :=
  match s.compactor with
  | .idle => False
  | .begun _ start count => s.set.Has start count
  | .merged start count _ _ => s.set.Has start count
  | .created start count _ _ => s.set.Has start count
  | .ready start count _ => s.set.Has start count
  | .unlinking _ => True

namespace Running

/-- Whatever `pick_run` chose is still there for `compact`. -/
def Sound (s : Running F) : Prop :=
  match s.thread with
  | .waiting => s.compactor = .idle
  | .choosing => s.compactor = .idle
  | .chosen start count => s.compactor = .idle ∧ s.set.Has start count
  | .compacting => s.Busy
  | .panicked cause => cause = .decoding

theorem Starts.sound {s : Running F} (h : s.Starts) : s.Sound := by
  rw [Sound, h.thread]
  exact h.compactor

end Running

theorem SSTableSet.Has.mono {set set' : SSTableSet F} {start count : ℕ}
    (h : set.Has start count)
    (hle : set.sstables.length ≤ set'.sstables.length) :
    set'.Has start count :=
  ⟨h.1, h.2.trans hle⟩

theorem SetState.Busy.mono {s s' : SetState F} (h : s.Busy)
    (hcompactor : s'.compactor = s.compactor)
    (hle : s.set.sstables.length ≤ s'.set.sstables.length) : s'.Busy := by
  rw [Busy, hcompactor]
  rw [Busy] at h
  split at h
  · exact h
  · exact h.mono hle
  · exact h.mono hle
  · exact h.mono hle
  · exact h.mono hle
  · trivial

theorem SetState.Busy.move {s s' : SetState F} {l : CompactStep}
    (h : s.Busy) (hmove : SetMove s l s') (hbusy : s'.compactor ≠ .idle) :
    s'.Busy := by
  rw [Busy] at h
  cases hmove with
  | begun hat => rw [hat] at h; exact h.elim
  | merged hat => rw [hat] at h; exact h
  | mergedAway hat => rw [hat] at h; exact h
  | unmerged => exact absurd rfl hbusy
  | created hat => rw [hat] at h; exact h
  | renamed hat => rw [hat] at h; exact h
  | swapped => trivial
  | unlinked => trivial
  | finished => exact absurd rfl hbusy

/-- From `idle` a call can only begin. -/
theorem SetMove.busy_of_idle {s s' : SetState F} {l : CompactStep}
    (hmove : SetMove s l s') (hidle : s.compactor = .idle) : s'.Busy := by
  cases hmove with
  | begun _ hhas => exact hhas
  | merged hat => rw [hidle] at hat; cases hat
  | mergedAway hat => rw [hidle] at hat; cases hat
  | unmerged hat => rw [hidle] at hat; cases hat
  | created hat => rw [hidle] at hat; cases hat
  | renamed hat => rw [hidle] at hat; cases hat
  | swapped => trivial
  | unlinked => trivial
  | finished hat => rw [hidle] at hat; cases hat

theorem Fails.idle {s s' : SetState F} (h : Fails s s') :
    s'.compactor = .idle := by
  cases h <;> rfl

section Thread

variable {size : F.Table → ℕ} {tooFar : ℕ → ℕ → Bool} {minRun : ℕ}
  {s s' : Running F}

theorem flushStep_sound (h : s.Sound) (hstep : FlushStep s s') :
    s'.Sound := by
  obtain ⟨hthread, hcompactor, hgrows⟩ := flushStep_leaves hstep
  rw [Running.Sound] at h ⊢
  rw [hthread]
  cases hat : s.thread with
  | waiting => rw [hat] at h; exact hcompactor.trans h
  | choosing => rw [hat] at h; exact hcompactor.trans h
  | chosen start count =>
      rw [hat] at h
      exact ⟨hcompactor.trans h.1, h.2.mono hgrows⟩
  | compacting => rw [hat] at h; exact h.mono hcompactor hgrows
  | panicked cause => rw [hat] at h; exact h

/-- A step of the thread keeps the range of `compact` in the list, if the
threshold asks for two tables. -/
theorem threadStep_sound (hmin : 2 ≤ minRun) (h : s.Sound)
    (hstep : ThreadStep size tooFar minRun s s') : s'.Sound := by
  rw [Running.Sound] at h
  cases hstep with
  | wake hat => rw [hat] at h; exact h
  | choose hat hsizes hpick =>
      rw [hat] at h
      obtain ⟨-, hcount, hrange⟩ := pickRun_bounds hpick
      rw [← hsizes.length_eq] at hrange
      exact ⟨h, hmin.trans hcount, hrange⟩
  | rest hat => rw [hat] at h; exact h
  | call hat hcall =>
      rw [hat] at h
      exact (SetState.compactStep_move hcall).busy_of_idle h.1
  | assertionFails hat hnot =>
      rw [hat] at h
      exact absurd h.2 hnot
  | work hat hwork hbusy =>
      rw [hat] at h
      rw [Running.Sound, hat]
      exact h.move (SetState.compactStep_move hwork) hbusy
  | finish hat _ hdone => exact hdone
  | fail hat hfails => exact hfails.idle
  | decodingPanics => rfl

end Thread

/-! ## The loop comes to rest -/

/-- How far a call of `compact` is from its next change of the list, or from
its return behind that. -/
def Compactor.phase : Compactor (logless F) → ℕ
  | .idle => 0
  | .ready _ _ _ => 1
  | .created _ _ _ _ => 2
  | .merged _ _ _ _ => 3
  | .begun _ _ _ => 4
  | .unlinking obsolete => 7 + obsolete.length

namespace Running

def phase (s : Running F) : ℕ :=
  match s.thread with
  | .waiting => 0
  | .choosing => 6
  | .chosen _ _ => 5
  | .compacting => s.compactor.phase
  | .panicked _ => 0

/-- What every step of the thread makes smaller: the list, then the bells
left to hear, then the way through the loop. -/
def rank (s : Running F) : ℕ ×ₗ (ℕ ×ₗ ℕ) :=
  toLex (s.set.sstables.length, toLex (s.bells, s.phase))

variable {s s' : Running F}

theorem rank_lt_of_length
    (h : s'.set.sstables.length < s.set.sstables.length) :
    s'.rank < s.rank :=
  Prod.Lex.toLex_lt_toLex.mpr (Or.inl h)

theorem rank_lt_of_bells
    (hlength : s'.set.sstables.length = s.set.sstables.length)
    (h : s'.bells < s.bells) : s'.rank < s.rank :=
  Prod.Lex.toLex_lt_toLex.mpr
    (Or.inr ⟨hlength, Prod.Lex.toLex_lt_toLex.mpr (Or.inl h)⟩)

theorem rank_lt_of_phase
    (hlength : s'.set.sstables.length = s.set.sstables.length)
    (hbells : s'.bells = s.bells) (h : s'.phase < s.phase) :
    s'.rank < s.rank :=
  Prod.Lex.toLex_lt_toLex.mpr
    (Or.inr ⟨hlength, Prod.Lex.toLex_lt_toLex.mpr (Or.inr ⟨hbells, h⟩)⟩)

end Running

/-- A compaction makes the list shorter, whether it leaves a table or not. -/
theorem length_spliced_lt {set : SSTableSet F} {start count : ℕ}
    (h : set.Has start count) (replacement : Option (Listed F)) :
    (spliced set.sstables start count replacement).length <
      set.sstables.length := by
  obtain ⟨hcount, hrange⟩ := h
  have hone : replacement.toList.length ≤ 1 := by
    cases replacement <;> simp
  rw [spliced, List.length_append, List.length_append, List.length_take,
    List.length_drop]
  omega

/-- Inside `compact` the list gets shorter, or the call gets on. -/
theorem SetMove.phase_lt {s s' : SetState F} {l : CompactStep}
    (h : SetMove s l s') (hbusy : s.Busy) :
    s'.set.sstables.length < s.set.sstables.length ∨
      s'.set.sstables.length = s.set.sstables.length ∧
        s'.compactor.phase < s.compactor.phase := by
  rw [SetState.Busy] at hbusy
  cases h with
  | begun hat => rw [hat] at hbusy; exact hbusy.elim
  | merged hat => rw [hat]; exact Or.inr ⟨rfl, Nat.lt_succ_self 3⟩
  | mergedAway hat =>
      rw [hat]
      exact Or.inr ⟨rfl, Nat.succ_lt_succ (Nat.succ_pos 2)⟩
  | unmerged hat => rw [hat]; exact Or.inr ⟨rfl, Nat.succ_pos 3⟩
  | created hat => rw [hat]; exact Or.inr ⟨rfl, Nat.lt_succ_self 2⟩
  | renamed hat => rw [hat]; exact Or.inr ⟨rfl, Nat.lt_succ_self 1⟩
  | swapped hat =>
      rw [hat] at hbusy
      exact Or.inl (length_spliced_lt hbusy _)
  | unlinked hat => rw [hat]; exact Or.inr ⟨rfl, Nat.lt_succ_self _⟩
  | finished hat => rw [hat]; exact Or.inr ⟨rfl, Nat.succ_pos 6⟩

theorem Fails.phase_pos {s s' : SetState F} (h : Fails s s') :
    0 < s.compactor.phase ∧ s'.set = s.set := by
  cases h with
  | read hat => rw [hat]; exact ⟨Nat.succ_pos _, rfl⟩
  | write _ hat => rw [hat]; exact ⟨Nat.succ_pos _, rfl⟩
  | rename hat => rw [hat]; exact ⟨Nat.succ_pos _, rfl⟩
  | sync hat => rw [hat]; exact ⟨Nat.succ_pos _, rfl⟩
  | remove hat => rw [hat]; exact ⟨Nat.succ_pos _, rfl⟩

section Ends

variable {size : F.Table → ℕ} {tooFar : ℕ → ℕ → Bool} {minRun : ℕ}
  {s s' : Running F}

theorem threadStep_rank (h : s.Sound)
    (hstep : ThreadStep size tooFar minRun s s') : s'.rank < s.rank := by
  rw [Running.Sound] at h
  cases hstep with
  | wake hat hbells =>
      refine Running.rank_lt_of_bells rfl ?_
      rw [hbells]
      exact Nat.lt_succ_self _
  | choose hat =>
      refine Running.rank_lt_of_phase rfl rfl ?_
      rw [Running.phase, Running.phase, hat]
      exact Nat.lt_succ_self 5
  | rest hat =>
      refine Running.rank_lt_of_phase rfl rfl ?_
      rw [Running.phase, Running.phase, hat]
      exact Nat.succ_pos 5
  | call hat hcall =>
      rw [hat] at h
      cases SetState.compactStep_move hcall with
      | begun =>
          refine Running.rank_lt_of_phase rfl rfl ?_
          rw [Running.phase, Running.phase, hat]
          exact Nat.lt_succ_self 4
  | assertionFails hat =>
      refine Running.rank_lt_of_phase rfl rfl ?_
      rw [Running.phase, Running.phase, hat]
      exact Nat.succ_pos 4
  | work hat hwork =>
      rw [hat] at h
      rcases (SetState.compactStep_move hwork).phase_lt h with
        hlt | ⟨hlength, hlt⟩
      · exact Running.rank_lt_of_length hlt
      · refine Running.rank_lt_of_phase hlength rfl ?_
        rw [Running.phase, Running.phase, hat]
        exact hlt
  | finish hat hwork hdone =>
      cases SetState.compactStep_move hwork with
      | unlinked => cases hdone
      | finished hunlinking =>
          refine Running.rank_lt_of_phase rfl rfl ?_
          rw [Running.phase, Running.phase, hat, hunlinking]
          exact Nat.lt_succ_self 6
  | fail hat hfails =>
      obtain ⟨hpos, hset⟩ := hfails.phase_pos
      refine Running.rank_lt_of_phase
        (congrArg (fun set => set.sstables.length) hset) rfl ?_
      rw [Running.phase, Running.phase, hat]
      exact hpos
  | decodingPanics hat hrun =>
      refine Running.rank_lt_of_phase rfl rfl ?_
      rw [Running.phase, Running.phase, hat, hrun]
      exact Nat.succ_pos 3

theorem reaches_sound (hmin : 2 ≤ minRun) (h : s.Sound)
    (hreaches : Running.Reaches size tooFar minRun s s') : s'.Sound := by
  induction hreaches with
  | refl => exact h
  | tail _ hstep ih =>
      exact hstep.elim (flushStep_sound ih) (threadStep_sound hmin ih)

/-- Once nothing is flushed any more, the thread takes finitely many
steps. -/
theorem acc_threadStep (hmin : 2 ≤ minRun) (h : s.Sound) :
    Acc (fun later earlier => ThreadStep size tooFar minRun earlier later)
      s := by
  induction hrank : s.rank using WellFoundedLT.induction generalizing s with
  | ind rank ih =>
      subst hrank
      exact Acc.intro s fun s' hstep =>
        ih _ (threadStep_rank h hstep) (threadStep_sound hmin h hstep) rfl

theorem measured_self (size : F.Table → ℕ) (tables : List (Listed F)) :
    Measured size tables (tables.map fun t => size t.table) := by
  induction tables with
  | nil => exact .nil
  | cons t tables ih => exact .cons (Or.inl rfl) ih

/-- The thread is stuck nowhere but at `recv`. -/
theorem exists_threadStep (h : s.Sound)
    (hrunning : ∀ cause, s.thread ≠ .panicked cause)
    (hbell : s.thread = .waiting → s.bells ≠ 0) :
    ∃ s', ThreadStep size tooFar minRun s s' := by
  rw [Running.Sound] at h
  cases hat : s.thread with
  | waiting =>
      obtain ⟨bells, hbells⟩ := Nat.exists_eq_succ_of_ne_zero (hbell hat)
      exact ⟨_, .wake hat hbells⟩
  | choosing =>
      have hsizes := measured_self size s.set.sstables
      cases hpick : pickRun tooFar minRun
          (s.set.sstables.map fun t => size t.table) with
      | none => exact ⟨_, .rest hat hsizes hpick⟩
      | some run => exact ⟨_, .choose hat hsizes hpick⟩
  | chosen start count =>
      rw [hat] at h
      obtain ⟨hidle, hhas⟩ := h
      exact ⟨_, .call hat
        (SetState.compactStep_of_move (.begun hidle hhas.1 hhas.2))⟩
  | compacting =>
      rw [hat, SetState.Busy] at h
      cases hcompactor : s.compactor with
      | idle => rw [hcompactor] at h; exact h.elim
      | begun run start count => exact ⟨_, .fail hat (.read hcompactor)⟩
      | merged start count span entries =>
          exact ⟨_, .fail hat (.write none hcompactor)⟩
      | created start count span table =>
          exact ⟨_, .fail hat (.rename hcompactor)⟩
      | ready start count replacement =>
          rw [hcompactor] at h
          refine ⟨_, .work hat
            (SetState.compactStep_of_move (.swapped hcompactor h.2)) ?_⟩
          simp
      | unlinking obsolete =>
          cases obsolete with
          | nil =>
              exact ⟨_, .finish hat
                (SetState.compactStep_of_move (.finished hcompactor)) rfl⟩
          | cons table obsolete =>
              exact ⟨_, .fail hat (.remove hcompactor)⟩
  | panicked cause => exact absurd hat (hrunning cause)

end Ends

end Lsmrs
