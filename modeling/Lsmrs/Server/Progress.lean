import Lsmrs.Server.Lives
import Lsmrs.Server.OnMachine

/-!
# No thread is stuck

A thread that cannot take its next step waits for its client, or for a guard
that another thread holds, which can take its own.
-/

namespace Lsmrs

open ByteString Atomicity

variable {F : Format} {Ok : Mutation → Prop} {hist : List Mutation}

/-! ## The steps of a thread -/

/-- What the thread of a connection does while nothing fails. -/
def Act.Own : Act F → Prop
  | .read | .enter | .look | .search | .append | .work _ | .leave
  | .reply => True
  | _ => False

/-- The thread of the connection can take a step. -/
def Server.CanGo (s : Server F) (c : ℕ) : Prop :=
  ∃ act : Act F, act.Own ∧ (s.step (.act c act)).isSome

/-- What a thread waits for that cannot take a step. -/
inductive Server.Waits (s : Server F) (c : ℕ) (x : Session F) : Prop where
  | through {how : Result Unit} (hat : x.stage = .ended how)
      (hhow : how ≠ .error .panic)
  | client (hat : x.stage = .reading) (hopen : x.hungUp = false)
      (hread : readCommandOn false x.unread = .waits)
  | guard {arm : Arm} {c' : ℕ} {y : Session F}
      (hat : x.stage = .dispatching arm) (hne : c' ≠ c)
      (hy : s.sessions[c']? = some y) (hheld : y.stage.guard ≠ .none)
      (hgo : s.CanGo c')

/-- The memtable can be flushed: there is a sequence number left for its
table, and the table can be written. -/
def State.CanFlush (s : State F) : Prop :=
  ∀ p, s.process = some p → p.db.sstableSet.nextSeq < u64Max ∧
    (p.db.map.entries = [] ∨ ∃ file table, F.writeTable
      p.db.sstableSet.bitsPerKey p.db.map.entries = .ok (file, table))

/-- The writer's next step can be taken. -/
theorem Follows.next_step {s : State F} {p : Process F}
    (h : Follows Ok hist s) (hp : s.process = some p)
    (hflush : s.CanFlush) {l : WriteStep F} (hnext : p.writer.next = some l) :
    (s.step (.write l)).isSome := by
  obtain ⟨hseq, hwrite⟩ := hflush p hp
  obtain ⟨disk, process⟩ := s
  obtain rfl : process = some p := hp
  have hturn : ∀ {l : WriteStep F} {disk' : Disk F} {p' : Process F},
      WriteTurn disk p l disk' p' →
        ((⟨disk, some p⟩ : State F).step (.write l)).isSome := by
    intro l disk' p' hturn
    rw [hturn.step_eq]
    rfl
  cases hwriter : p.writer with
  | idle =>
      rw [hwriter] at hnext
      cases hnext
  | logged m =>
      rw [hwriter] at hnext
      obtain rfl := Option.some.inj hnext
      exact hturn (.apply hwriter)
  | flushing =>
      rw [hwriter] at hnext
      obtain rfl := Option.some.inj hnext
      by_cases hnil : p.db.map.entries = []
      · exact hturn (.createNone hwriter hnil)
      · obtain ⟨file, table, hfile⟩ := hwrite.resolve_left hnil
        exact hturn (.create hwriter hnil hfile)
  | created seq table =>
      rw [hwriter] at hnext
      obtain rfl := Option.some.inj hnext
      exact hturn (.rename hwriter)
  | published seq table =>
      rw [hwriter] at hnext
      obtain rfl := Option.some.inj hnext
      obtain ⟨own, applied, ms, segs, extra, orphan, hprocess⟩ :=
        h.process rfl
      have hat := hprocess.flush
      rw [FlushInv, hwriter] at hat
      exact hturn (.register hwriter (hat.1 ▸ hseq))
  | registered =>
      rw [hwriter] at hnext
      obtain rfl := Option.some.inj hnext
      exact hturn (.truncate hwriter)

theorem State.Idle.append_step {s : State F} (h : s.Idle) (m : Mutation) :
    (s.step (.write (.append m))).isSome := by
  obtain ⟨disk, process⟩ := s
  obtain ⟨p, hp, hidle⟩ := h
  obtain rfl : process = some p := hp
  have hturn : WriteTurn disk p (.append m) _ _ := .append hidle
  rw [hturn.step_eq]
  rfl

namespace Explains

variable {faulty : Prop} {I : List Mutation → State F → Prop}
  {s : Server F} {a : Commands} {c : ℕ} {x : Session F}

theorem canGo_of_turn (hx : s.sessions[c]? = some x) (act : Act F)
    (hown : act.Own) (hturn : (s.turn c x act).isSome) : s.CanGo c := by
  refine ⟨act, hown, ?_⟩
  simp only [Server.step, hx, Option.bind_eq_bind, Option.bind_some]
  exact hturn

/-- Behind its guard a thread can take its next step. -/
theorem canGo_of_guard (h : Explains Ok faulty I s a hist)
    (hnext : ∀ {p : Process F} {l : WriteStep F}, s.db.process = some p →
      p.writer.next = some l → (s.db.step (.write l)).isSome)
    (hopen : s.db.process.isSome) (hx : s.sessions[c]? = some x)
    (hguard : x.stage.guard ≠ .none) : s.CanGo c := by
  obtain ⟨p, hp⟩ := Option.isSome_iff_exists.mp hopen
  cases hat : x.stage with
  | running guard rest =>
      obtain ⟨args, hstatus, hbehind⟩ := (h.stage_stands hx hat).of_running
      cases rest with
      | done outcome =>
          refine canGo_of_turn hx .leave trivial ?_
          simp only [Server.turn, hat]
          rfl
      | get key next =>
          refine canGo_of_turn hx .look trivial ?_
          simp only [Server.turn, hat, Server.look, hp]
          rfl
      | mutate m next =>
          have hwrite : guard = .write := by
            cases guard with
            | none =>
                obtain ⟨-, _, hdone⟩ := hbehind
                cases hdone
            | read => exact hbehind.1.1.elim
            | write => rfl
          subst hwrite
          have hidle : s.db.Idle := by
            refine h.idle_of_guard hx hguard ?_
            rw [hat]
            exact id
          obtain ⟨db, hdb⟩ :=
            Option.isSome_iff_exists.mp (hidle.append_step m)
          refine canGo_of_turn hx .append trivial ?_
          simp only [Server.turn, hat, Server.write, hdb]
          rfl
  | searching guard key tables next =>
      refine canGo_of_turn hx .search trivial ?_
      simp only [Server.turn, hat]
      rfl
  | mutating next =>
      have hbusy : ¬ s.db.Idle := by
        intro hidle
        refine h.idle_iff.mp hidle x (List.mem_of_getElem? hx) ?_
        rw [hat]
        exact trivial
      cases hwriter : p.writer.next with
      | none => exact absurd ⟨p, hp, Writer.next_eq_none hwriter⟩ hbusy
      | some l =>
          obtain ⟨db, hdb⟩ := Option.isSome_iff_exists.mp (hnext hp hwriter)
          refine canGo_of_turn hx (.work l) trivial ?_
          have hl : ∀ fault, l ≠ .flushFails fault := by
            rintro fault rfl
            cases hw : p.writer <;> rw [hw] at hwriter <;> cases hwriter
          rw [Server.turn]
          · simp only [hat, Server.write, hdb]
            rfl
          · exact hl
  | reading => exact absurd (by rw [hat]; rfl) hguard
  | dispatching arm => exact absurd (by rw [hat]; rfl) hguard
  | replying outcome => exact absurd (by rw [hat]; rfl) hguard
  | ended how => exact absurd (by rw [hat]; rfl) hguard

/-- The guard a thread is refused is held by another one, or the other way
round. -/
theorem held_of_refused (hx : s.sessions[c]? = some x) (hfree : x.stage.guard = .none)
    {guard : Guard} (hrefused : ¬ s.Admits guard) :
    ∃ c' y, c' ≠ c ∧ s.sessions[c']? = some y ∧ y.stage.guard ≠ .none := by
  have hheld : ∃ y ∈ s.sessions, y.stage.guard ≠ .none := by
    cases guard with
    | none => exact absurd trivial hrefused
    | read =>
        simp only [Server.Admits] at hrefused
        push Not at hrefused
        obtain ⟨y, hy, hwrite⟩ := hrefused
        exact ⟨y, hy, by rw [hwrite]; exact Guard.noConfusion⟩
    | write =>
        simp only [Server.Admits] at hrefused
        push Not at hrefused
        exact hrefused
  obtain ⟨y, hy, hheld⟩ := hheld
  obtain ⟨c', hc'⟩ := List.mem_iff_getElem?.mp hy
  refine ⟨c', y, ?_, hc', hheld⟩
  rintro rfl
  obtain rfl := Option.some.inj (hx.symm.trans hc')
  exact hheld hfree

theorem canGo_or_waits (h : Explains Ok faulty I s a hist)
    (hnext : ∀ {p : Process F} {l : WriteStep F}, s.db.process = some p →
      p.writer.next = some l → (s.db.step (.write l)).isSome)
    (hopen : s.db.process.isSome) (hx : s.sessions[c]? = some x) :
    s.CanGo c ∨ s.Waits c x := by
  cases hat : x.stage with
  | reading =>
      cases hread : (readCommandOn x.hungUp x.unread).run with
      | some r =>
          left
          refine canGo_of_turn hx .read trivial ?_
          simp only [Server.turn, hat, Option.isSome_map, Session.read, hread]
          split
          next hnone => cases hnone
          next => rfl
          next => rfl
          next => split_ifs <;> rfl
          next => rfl
      | none =>
          right
          have hstill : x.hungUp = false := by
            by_contra hhung
            rw [Bool.not_eq_false] at hhung
            rw [hhung, readCommandOn_closed] at hread
            cases hread
          rw [hstill] at hread
          exact .client hat hstill hread
  | dispatching arm =>
      have hfree : x.stage.guard = .none := by rw [hat]; rfl
      by_cases hadmits : s.Admits arm.guard
      · left
        refine canGo_of_turn hx .enter trivial ?_
        have hsound : ¬ (arm.guard ≠ .none ∧ s.poisoned = true) := by
          rw [h.sound]
          exact fun hpoisoned => Bool.false_ne_true hpoisoned.2
        simp only [Server.turn, hat, Server.enter, if_pos hadmits,
          if_neg hsound]
        rfl
      · right
        obtain ⟨c', y, hne, hy, hheld⟩ := held_of_refused hx hfree hadmits
        exact .guard hat hne hy hheld
          (h.canGo_of_guard hnext hopen hy hheld)
  | running guard rest =>
      by_cases hguard : guard = .none
      · subst hguard
        obtain ⟨args, -, -, outcome, rfl⟩ := (h.stage_stands hx hat).of_running
        left
        refine canGo_of_turn hx .leave trivial ?_
        simp only [Server.turn, hat]
        rfl
      · exact Or.inl (h.canGo_of_guard hnext hopen hx (by rwa [hat]))
  | searching guard key tables next =>
      left
      refine canGo_of_turn hx .search trivial ?_
      simp only [Server.turn, hat]
      rfl
  | mutating next =>
      refine Or.inl (h.canGo_of_guard hnext hopen hx ?_)
      rw [hat]
      exact Guard.noConfusion
  | replying outcome =>
      left
      refine canGo_of_turn hx .reply trivial ?_
      simp only [Server.turn, hat]
      rfl
  | ended how =>
      right
      exact .through hat (h.stage_stands hx hat).of_ended

end Explains

/-- Whatever happened to a database before, and whatever fails while a
server has it open: no thread panics, and as long as the memtable can be
flushed, none is stuck. -/
theorem threads_go_on (hash : Bytes → UInt32)
    {labels : List (Label (byteFormat hash))}
    {db : State (byteFormat hash)} {p : Process (byteFormat hash)}
    (hfits : ∀ m ∈ history labels, m.record.Fits)
    (hreached : (State.initial (byteFormat hash)).exec labels = some db)
    (hp : db.process = some p) (hidle : p.writer = .idle)
    {s : Server (byteFormat hash)} {moves : List (Move (byteFormat hash))}
    {shown : Shown} (hshort : ∀ e ∈ shown, Short e)
    (hrun : (Server.start db).exec moves = some (s, shown))
    (hflush : s.db.CanFlush) {c : ℕ} {x : Session (byteFormat hash)}
    (hx : s.sessions[c]? = some x) :
    s.CanGo c ∨ s.Waits c x := by
  have hF := byteFormat_lawful hash
  obtain ⟨hist, hdb⟩ := exec_follows hF (byteFormat_replaysOk hash)
    follows_initial hfits hreached
  obtain ⟨a, -, hist', h⟩ := run_explains hF hdb ⟨p, hp, hidle⟩
    (fun e he => (hshort e he).asks) hrun
  have hopen := Server.exec_isSome (by rw [Server.start, hp]; rfl) hrun
  exact h.canGo_or_waits (fun hp hnext => h.db.next_step hp hflush hnext)
    hopen hx

def State.canFlush (s : State F) : Bool :=
  match s.process with
  | none => true
  | some p => p.db.sstableSet.nextSeq < u64Max &&
    match F.writeTable p.db.sstableSet.bitsPerKey p.db.map.entries with
    | .ok _ => true
    | .error _ => false

theorem State.canFlush_eq_true {s : State F} (h : s.canFlush = true) :
    s.CanFlush := by
  intro p hp
  rw [State.canFlush, hp] at h
  dsimp only at h
  rw [Bool.and_eq_true] at h
  obtain ⟨hseq, hwrite⟩ := h
  refine ⟨of_decide_eq_true hseq, Or.inr ?_⟩
  split at hwrite
  next r hr => exact ⟨r.1, r.2, hr⟩
  next => cases hwrite

/-- One client's key is logged, and another one asks for it. -/
def heldUp : List (Move (byteFormat crc32)) :=
  [.accept, .act 0 (.send (ascii "SET k v\r\n")), .act 0 .read,
    .act 0 .enter, .act 0 .append, .act 0 (.work .apply), .accept,
    .act 1 (.send (ascii "GET k\r\n")), .act 1 .read]

theorem threads_go_on_heldUp :
    ∃ db s shown x, (State.initial (byteFormat crc32)).exec
        [.recover flushEach []] = some db ∧
      (Server.start db).exec heldUp = some (s, shown) ∧
      s.sessions[1]? = some x ∧ (s.CanGo 1 ∨ s.Waits 1 x) := by
  have hends : endsIdle ((State.initial (byteFormat crc32)).exec
      [.recover flushEach []]) = true := by
    decide +kernel
  obtain ⟨db, p, hdb, hp, hidle⟩ := exists_of_endsIdle hends
  have hseen : ((Server.start db).exec heldUp).map (fun r =>
      (decide (∀ e ∈ r.2, Short e), r.1.db.canFlush,
        r.1.sessions.length)) = some (true, true, 2) := by
    refine observed hdb (f := fun db => ((Server.start db).exec heldUp).map
      (fun r => (decide (∀ e ∈ r.2, Short e), r.1.db.canFlush,
        r.1.sessions.length))) ?_
    decide +kernel
  obtain ⟨⟨s, shown⟩, hrun, hseen⟩ := Option.map_eq_some_iff.mp hseen
  simp only [Prod.mk.injEq, decide_eq_true_eq] at hseen
  obtain ⟨hshort, hflush, hlength⟩ := hseen
  obtain ⟨x, hx⟩ : ∃ x, s.sessions[1]? = some x :=
    ⟨_, List.getElem?_eq_getElem (by omega)⟩
  exact ⟨db, s, shown, x, hdb, hrun, hx, threads_go_on crc32
    (by decide +kernel) hdb hp hidle hshort hrun
    (State.canFlush_eq_true hflush) hx⟩

end Lsmrs
