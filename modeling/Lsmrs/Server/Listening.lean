import Lsmrs.Server.Linearizable

/-!
# Accepting connections

The loop of `Server::run` and the calls of `ShutdownHandle::shutdown`, among
the clients that connect and the threads of the connections that are served
already.
-/

namespace Lsmrs

open ByteString Atomicity

/-- A connection that nobody has accepted yet, with what was sent on it.  It
is a client's, or the one that `shutdown` makes and drops. -/
structure Pending where
  unread : Bytes
  hungUp : Bool
  knock : Bool

def Pending.client : Pending := ⟨[], false, false⟩

def Pending.knocked : Pending := ⟨[], true, true⟩

/-- Where the loop stands: in `accept`, behind it with a stream or an error,
behind the look at the flag, or no more. -/
inductive Accepting where
  | accepting
  | accepted (stream : Option Pending)
  | checked (stream : Option Pending)
  | returned

/-- The server with its listener and its flag, and the calls of `shutdown`
that have set the flag and not connected yet. -/
structure Listening (F : Format) where
  server : Server F
  flag : Bool
  knocking : ℕ
  backlog : List Pending
  loop : Accepting

/-- What clients, calls of `shutdown`, the loop and the threads of the
connections do. -/
inductive Doing (F : Format) where
  | connect
  | send (i : ℕ) (bytes : Bytes)
  | hangUp (i : ℕ)
  | store
  | knock
  | knockFails
  | accept
  | acceptFails
  | check
  | spawn
  | act (c : ℕ) (a : Act F)
  | compact (l : CompactStep)
  | compactFails (left : Option F.File)

variable {F : Format}

/-- The connection gets a thread. -/
def Server.takeIn (s : Server F) (p : Pending) : Server F :=
  { s with sessions := s.sessions ++
      [⟨p.unread, p.hungUp, .reading, []⟩] }

namespace Listening

def start (db : State F) : Listening F :=
  ⟨Server.start db, false, 0, [], .accepting⟩

/-- A step of a thread of the server. -/
def serve (s : Listening F) (move : Move F) :
    Option (Listening F × Shown) :=
  (s.server.step move).map fun r => ({ s with server := r.1 }, r.2)

def step (s : Listening F) : Doing F → Option (Listening F × Shown)
  | .connect =>
    some ({ s with backlog := s.backlog ++ [.client] }, [])
  | .send i bytes => do
    let p ← s.backlog[i]?
    if p.hungUp then none
    else some ({ s with
      backlog := s.backlog.set i { p with unread := p.unread ++ bytes } },
      [])
  | .hangUp i => do
    let p ← s.backlog[i]?
    some ({ s with backlog := s.backlog.set i { p with hungUp := true } },
      [])
  | .store => some ({ s with flag := true, knocking := s.knocking + 1 }, [])
  | .knock =>
    match s.knocking with
    | knocking + 1 =>
      some ({ s with knocking, backlog := s.backlog ++ [.knocked] }, [])
    | 0 => none
  | .knockFails =>
    match s.knocking with
    | knocking + 1 => some ({ s with knocking }, [])
    | 0 => none
  | .accept =>
    match s.loop, s.backlog with
    | .accepting, p :: backlog =>
      some ({ s with backlog, loop := .accepted (some p) }, [])
    | _, _ => none
  | .acceptFails =>
    match s.loop with
    | .accepting => some ({ s with loop := .accepted none }, [])
    | _ => none
  | .check =>
    match s.loop with
    | .accepted stream =>
      some ({ s with
        loop := if s.flag then .returned else .checked stream }, [])
    | _ => none
  | .spawn =>
    match s.loop with
    | .checked (some p) =>
      some ({ s with server := s.server.takeIn p, loop := .accepting }, [])
    | .checked none => some ({ s with loop := .accepting }, [])
    | _ => none
  | .act c a => s.serve (.act c a)
  | .compact l => s.serve (.compact l)
  | .compactFails left => s.serve (.compactFails left)

def exec (s : Listening F) (doings : List (Doing F)) :
    Option (Listening F × Shown) :=
  runFrom step s doings

end Listening

/-- The steps of the loop itself. -/
def Doing.own : Doing F → Bool
  | .accept | .acceptFails | .check | .spawn => true
  | _ => false

/-- A connection gets a thread, or an error its message. -/
def Doing.spawns : Doing F → Bool
  | .spawn => true
  | _ => false

/-! ## What a step can do -/

namespace Listening

/-- A step of the loop, or one beside it. -/
inductive Turn (s : Listening F) : Doing F → Listening F → Shown → Prop where
  | connected : Turn s .connect
      { s with backlog := s.backlog ++ [.client] } []
  | sent {i : ℕ} {bytes : Bytes} {p : Pending} (hp : s.backlog[i]? = some p)
      (hopen : p.hungUp = false) :
    Turn s (.send i bytes) { s with
      backlog := s.backlog.set i { p with unread := p.unread ++ bytes } } []
  | hungUp {i : ℕ} {p : Pending} (hp : s.backlog[i]? = some p) :
    Turn s (.hangUp i)
      { s with backlog := s.backlog.set i { p with hungUp := true } } []
  | stored : Turn s .store
      { s with flag := true, knocking := s.knocking + 1 } []
  | knocked {knocking : ℕ} (hcalls : s.knocking = knocking + 1) :
    Turn s .knock
      { s with knocking, backlog := s.backlog ++ [.knocked] } []
  | unheard {knocking : ℕ} (hcalls : s.knocking = knocking + 1) :
    Turn s .knockFails { s with knocking } []
  | accepted {p : Pending} {backlog : List Pending}
      (hat : s.loop = .accepting) (hp : s.backlog = p :: backlog) :
    Turn s .accept { s with backlog, loop := .accepted (some p) } []
  | unaccepted (hat : s.loop = .accepting) :
    Turn s .acceptFails { s with loop := .accepted none } []
  | returned {stream : Option Pending} (hat : s.loop = .accepted stream)
      (hflag : s.flag = true) :
    Turn s .check { s with loop := .returned } []
  | checked {stream : Option Pending} (hat : s.loop = .accepted stream)
      (hflag : s.flag = false) :
    Turn s .check { s with loop := .checked stream } []
  | spawned {p : Pending} (hat : s.loop = .checked (some p)) :
    Turn s .spawn
      { s with server := s.server.takeIn p, loop := .accepting } []
  | reported (hat : s.loop = .checked none) :
    Turn s .spawn { s with loop := .accepting } []
  | acted {c : ℕ} {a : Act F} {server : Server F} {shown : Shown}
      (hstep : s.server.step (.act c a) = some (server, shown)) :
    Turn s (.act c a) { s with server } shown
  | compacted {l : CompactStep} {server : Server F} {shown : Shown}
      (hstep : s.server.step (.compact l) = some (server, shown)) :
    Turn s (.compact l) { s with server } shown
  | gaveUp {left : Option F.File} {server : Server F} {shown : Shown}
      (hstep : s.server.step (.compactFails left) = some (server, shown)) :
    Turn s (.compactFails left) { s with server } shown

theorem step_turn {s s' : Listening F} {l : Doing F} {shown : Shown}
    (h : s.step l = some (s', shown)) : s.Turn l s' shown := by
  cases l with
  | connect =>
      cases h
      exact .connected
  | send i bytes =>
      obtain ⟨p, hp, h⟩ := Option.bind_eq_some_iff.mp h
      split_ifs at h with hopen
      cases h
      exact .sent hp (Bool.eq_false_iff.mpr hopen)
  | hangUp i =>
      obtain ⟨p, hp, h⟩ := Option.bind_eq_some_iff.mp h
      cases h
      exact .hungUp hp
  | store =>
      cases h
      exact .stored
  | knock =>
      simp only [step] at h
      split at h
      next hcalls =>
        cases h
        exact .knocked hcalls
      next => cases h
  | knockFails =>
      simp only [step] at h
      split at h
      next hcalls =>
        cases h
        exact .unheard hcalls
      next => cases h
  | accept =>
      simp only [step] at h
      split at h
      next hat hp =>
        cases h
        exact .accepted hat hp
      next => cases h
  | acceptFails =>
      simp only [step] at h
      split at h
      next hat =>
        cases h
        exact .unaccepted hat
      next => cases h
  | check =>
      simp only [step] at h
      split at h
      next stream hat =>
        cases h
        by_cases hflag : s.flag = true
        · rw [if_pos hflag]
          exact .returned hat hflag
        · rw [if_neg hflag]
          exact .checked hat (Bool.eq_false_iff.mpr hflag)
      next => cases h
  | spawn =>
      simp only [step] at h
      split at h
      next p hat =>
        cases h
        exact .spawned hat
      next hat =>
        cases h
        exact .reported hat
      next => cases h
  | act c a =>
      obtain ⟨⟨server, shown⟩, hstep, h⟩ := Option.map_eq_some_iff.mp h
      cases h
      exact .acted hstep
  | compact l =>
      obtain ⟨⟨server, shown⟩, hstep, h⟩ := Option.map_eq_some_iff.mp h
      cases h
      exact .compacted hstep
  | compactFails left =>
      obtain ⟨⟨server, shown⟩, hstep, h⟩ := Option.map_eq_some_iff.mp h
      cases h
      exact .gaveUp hstep

/-- What every turn keeps, a run keeps. -/
theorem exec_keeps {I : Listening F → Prop}
    (hkeeps : ∀ {s s' : Listening F} {l : Doing F} {shown : Shown},
      s.Turn l s' shown → I s → I s')
    {s s' : Listening F} {doings : List (Doing F)} {shown : Shown}
    (hs : I s) (hexec : s.exec doings = some (s', shown)) : I s' := by
  have hall : ∀ l ∈ doings, (fun _ : Doing F => True) l :=
    fun _ _ => trivial
  exact runFrom_keeps (fun _ hs hstep => hkeeps (step_turn hstep) hs) hs
    hall hexec

/-! ## The flag -/

/-- The flag stays set, and only `shutdown` sets it. -/
theorem Turn.flag {s s' : Listening F} {l : Doing F} {shown : Shown}
    (h : s.Turn l s' shown) :
    s'.flag = true ↔ s.flag = true ∨ l = .store := by
  cases h <;> simp

/-- What the loop has in its hands, where it stands. -/
def InHand (s : Listening F) : Prop :=
  match s.loop with
  | .accepting => True
  | .accepted stream => ∀ p ∈ stream, p.knock = true → s.flag = true
  | .checked stream => ∀ p ∈ stream, p.knock = false
  | .returned => s.flag = true

/-- Whoever knocks has set the flag before, and the loop has seen it before
it serves a knock. -/
structure Heeds (s : Listening F) : Prop where
  calls : 0 < s.knocking → s.flag = true
  backlog : ∀ p ∈ s.backlog, p.knock = true → s.flag = true
  loop : s.InHand

theorem heeds_start (db : State F) : (start db).Heeds where
  calls := fun h => absurd h (lt_irrefl 0)
  backlog := fun _ hp => absurd hp List.not_mem_nil
  loop := trivial

/-- A change of the backlog keeps the order of things, if a knock that it
brings comes behind the flag. -/
theorem Heeds.of_backlog {s : Listening F} (h : s.Heeds) {knocking : ℕ}
    {backlog : List Pending} (hcalls : knocking ≤ s.knocking)
    (hbacklog : ∀ p ∈ backlog, p.knock = true → s.flag = true) :
    Heeds { s with knocking, backlog } where
  calls := fun hpos => h.calls (hpos.trans_le hcalls)
  backlog := hbacklog
  loop := h.loop

/-- What is known of a connection that waits is known when more was sent on
it. -/
theorem Heeds.set {s : Listening F} (h : s.Heeds) {i : ℕ} {p p' : Pending}
    (hp : s.backlog[i]? = some p) (hknock : p'.knock = p.knock) :
    Heeds { s with backlog := s.backlog.set i p' } := by
  refine h.of_backlog le_rfl ?_
  intro q hq
  rcases List.mem_or_eq_of_mem_set hq with hq | rfl
  · exact h.backlog q hq
  · rw [hknock]
    exact h.backlog p (List.mem_of_getElem? hp)

theorem Turn.heeds {s s' : Listening F} {l : Doing F} {shown : Shown}
    (hturn : s.Turn l s' shown) (h : s.Heeds) : s'.Heeds := by
  cases hturn with
  | connected =>
      refine h.of_backlog le_rfl ?_
      intro p hp
      rcases List.mem_append.mp hp with hp | hp
      · exact h.backlog p hp
      · obtain rfl := List.mem_singleton.mp hp
        exact fun hknock => absurd hknock Bool.false_ne_true
  | sent hp => exact h.set hp rfl
  | hungUp hp => exact h.set hp rfl
  | stored =>
      refine ⟨fun _ => rfl, fun _ _ _ => rfl, ?_⟩
      have hloop := h.loop
      unfold InHand at hloop ⊢
      cases hat : s.loop with
      | accepting => trivial
      | accepted stream => exact fun _ _ _ => rfl
      | checked stream =>
          rw [hat] at hloop
          exact hloop
      | returned => rfl
  | knocked hcalls =>
      have hflag : s.flag = true := h.calls (by omega)
      exact h.of_backlog (by omega) fun _ _ _ => hflag
  | unheard hcalls => exact h.of_backlog (by omega) h.backlog
  | accepted hat hp =>
      refine ⟨h.calls, ?_, ?_⟩
      · exact fun q hq => h.backlog q (hp ▸ List.mem_cons_of_mem _ hq)
      · rintro q hq
        obtain rfl := Option.some.inj hq
        exact h.backlog _ (hp ▸ List.mem_cons_self)
  | unaccepted =>
      exact ⟨h.calls, h.backlog,
        fun q hq => absurd hq (Option.not_mem_none q)⟩
  | returned hat hflag => exact ⟨h.calls, h.backlog, hflag⟩
  | @checked stream hat hflag =>
      refine ⟨h.calls, h.backlog, ?_⟩
      have hloop := h.loop
      unfold InHand at hloop
      rw [hat] at hloop
      intro p hp
      refine Bool.eq_false_iff.mpr fun hknock => ?_
      exact absurd (hloop p hp hknock) (by simp [hflag])
  | spawned => exact ⟨h.calls, h.backlog, trivial⟩
  | reported => exact ⟨h.calls, h.backlog, trivial⟩
  | acted => exact ⟨h.calls, h.backlog, h.loop⟩
  | compacted => exact ⟨h.calls, h.backlog, h.loop⟩
  | gaveUp => exact ⟨h.calls, h.backlog, h.loop⟩

end Listening

/-! ## Behind the flag -/

/-- The loop may still serve what it has in its hands. -/
def Accepting.left : Accepting → ℕ
  | .checked _ => 1
  | _ => 0

/-- Steps of the loop before it returns, once the flag is set. -/
def Accepting.rank : Accepting → ℕ
  | .accepting => 2
  | .accepted _ => 1
  | .checked _ => 3
  | .returned => 0

theorem Accepting.left_le (loop : Accepting) : loop.left ≤ 1 := by
  cases loop <;> simp [left]

theorem Accepting.rank_le (loop : Accepting) : loop.rank ≤ 3 := by
  cases loop <;> simp [rank]

theorem Accepting.rank_eq_zero {loop : Accepting} :
    loop.rank = 0 ↔ loop = .returned := by
  cases loop <;> simp [rank]

namespace Listening

/-- Behind the flag every step of the loop brings it nearer to its return,
and only what was in its hands is served. -/
theorem Turn.counts {s s' : Listening F} {l : Doing F} {shown : Shown}
    (h : s.Turn l s' shown) (hflag : s.flag = true) :
    s'.loop.left + (if l.spawns then 1 else 0) ≤ s.loop.left ∧
      s'.loop.rank + (if l.own then 1 else 0) ≤ s.loop.rank := by
  have hbeside : ∀ loop : Accepting,
      loop.left + 0 ≤ loop.left ∧ loop.rank + 0 ≤ loop.rank :=
    fun _ => ⟨le_rfl, le_rfl⟩
  cases h with
  | connected => exact hbeside _
  | sent => exact hbeside _
  | hungUp => exact hbeside _
  | stored => exact hbeside _
  | knocked => exact hbeside _
  | unheard => exact hbeside _
  | acted => exact hbeside _
  | compacted => exact hbeside _
  | gaveUp => exact hbeside _
  | accepted hat =>
      rw [hat]
      exact ⟨le_rfl, le_rfl⟩
  | unaccepted hat =>
      rw [hat]
      exact ⟨le_rfl, le_rfl⟩
  | returned hat =>
      rw [hat]
      exact ⟨le_rfl, le_rfl⟩
  | checked _ hunset => exact absurd hflag (by simp [hunset])
  | spawned hat =>
      rw [hat]
      exact ⟨le_rfl, le_rfl⟩
  | reported hat =>
      rw [hat]
      exact ⟨le_rfl, le_rfl⟩

theorem exec_counts {s s' : Listening F} {doings : List (Doing F)}
    {shown : Shown} (hflag : s.flag = true)
    (hexec : s.exec doings = some (s', shown)) :
    doings.countP Doing.spawns + s'.loop.left ≤ s.loop.left ∧
      doings.countP Doing.own + s'.loop.rank ≤ s.loop.rank := by
  induction doings generalizing s shown with
  | nil =>
      obtain ⟨rfl, -⟩ := Prod.mk.inj (Option.some.inj hexec)
      exact ⟨(Nat.zero_add _).le, (Nat.zero_add _).le⟩
  | cons l doings ih =>
      obtain ⟨next, _, _, hstep, hrest, -⟩ := runFrom_cons.mp hexec
      have hturn := step_turn hstep
      obtain ⟨hspawns, hown⟩ := hturn.counts hflag
      obtain ⟨hspawns', hown'⟩ := ih (hturn.flag.mpr (Or.inl hflag)) hrest
      rw [List.countP_cons, List.countP_cons]
      constructor <;> omega

theorem Heeds.exec {s s' : Listening F} {doings : List (Doing F)}
    {shown : Shown} (h : s.Heeds)
    (hexec : s.exec doings = some (s', shown)) : s'.Heeds :=
  exec_keeps Turn.heeds h hexec

/-- The flag is set just if a call of `shutdown` has set it. -/
theorem exec_flag {s s' : Listening F} {doings : List (Doing F)}
    {shown : Shown} (hexec : s.exec doings = some (s', shown)) :
    s'.flag = true ↔ s.flag = true ∨ .store ∈ doings := by
  induction doings generalizing s shown with
  | nil =>
      obtain ⟨rfl, -⟩ := Prod.mk.inj (Option.some.inj hexec)
      simp
  | cons l doings ih =>
      obtain ⟨next, _, _, hstep, hrest, -⟩ := runFrom_cons.mp hexec
      rw [ih hrest, (step_turn hstep).flag, List.mem_cons, or_assoc,
        eq_comm (a := l)]

/-! ## A knock is heard -/

/-- A knock waits for the loop, unless the loop has no need of it any
more. -/
structure Heard (s : Listening F) : Prop where
  flag : s.flag = true
  waits : s.loop = .accepting ∨ (∃ stream, s.loop = .checked stream) →
    ∃ p ∈ s.backlog, p.knock = true

theorem Heard.of_backlog {s : Listening F} (h : s.Heard) {knocking : ℕ}
    {backlog : List Pending}
    (hkeeps : ∀ p ∈ s.backlog, p.knock = true →
      ∃ p' ∈ backlog, p'.knock = true) :
    Heard { s with knocking, backlog } where
  flag := h.flag
  waits := by
    intro hat
    obtain ⟨p, hp, hknock⟩ := h.waits hat
    exact hkeeps p hp hknock

theorem Heard.set {s : Listening F} (h : s.Heard) {i : ℕ} {p p' : Pending}
    (hp : s.backlog[i]? = some p) (hknock : p'.knock = p.knock) :
    Heard { s with backlog := s.backlog.set i p' } := by
  refine h.of_backlog ?_
  intro q hq hknocks
  obtain ⟨j, hj⟩ := List.getElem?_of_mem hq
  by_cases hij : i = j
  · subst hij
    obtain rfl := Option.some.inj (hp.symm.trans hj)
    obtain ⟨hlt, -⟩ := List.getElem?_eq_some_iff.mp hj
    exact ⟨p', List.mem_of_getElem? (List.getElem?_set_self hlt),
      hknock.trans hknocks⟩
  · refine ⟨q, List.mem_of_getElem? (i := j) ?_, hknocks⟩
    rw [List.getElem?_set_ne hij, hj]

theorem Turn.heard {s s' : Listening F} {l : Doing F} {shown : Shown}
    (hturn : s.Turn l s' shown) (h : s.Heard) : s'.Heard := by
  have hgone : ∀ {loop : Accepting}, loop.rank ≤ 1 →
      ¬ (loop = .accepting ∨ ∃ stream, loop = .checked stream) := by
    rintro loop hrank (rfl | ⟨stream, rfl⟩)
    · exact absurd hrank (by decide)
    · exact absurd hrank (by decide : ¬ 3 ≤ 1)
  cases hturn with
  | connected =>
      exact h.of_backlog fun p hp hknock =>
        ⟨p, List.mem_append_left _ hp, hknock⟩
  | sent hp => exact h.set hp rfl
  | hungUp hp => exact h.set hp rfl
  | stored => exact ⟨rfl, h.waits⟩
  | knocked =>
      exact h.of_backlog fun p hp hknock =>
        ⟨p, List.mem_append_left _ hp, hknock⟩
  | unheard => exact h.of_backlog fun p hp hknock => ⟨p, hp, hknock⟩
  | accepted => exact ⟨h.flag, fun hat => absurd hat (hgone le_rfl)⟩
  | unaccepted => exact ⟨h.flag, fun hat => absurd hat (hgone le_rfl)⟩
  | returned => exact ⟨h.flag, fun hat => absurd hat (hgone (Nat.zero_le 1))⟩
  | checked _ hunset => exact absurd h.flag (by simp [hunset])
  | spawned hat => exact ⟨h.flag, fun _ => h.waits (Or.inr ⟨_, hat⟩)⟩
  | reported hat => exact ⟨h.flag, fun _ => h.waits (Or.inr ⟨_, hat⟩)⟩
  | acted => exact ⟨h.flag, h.waits⟩
  | compacted => exact ⟨h.flag, h.waits⟩
  | gaveUp => exact ⟨h.flag, h.waits⟩

/-- A call of `shutdown` that connects is heard. -/
theorem Heeds.heard {s s' : Listening F} {shown : Shown} (h : s.Heeds)
    (hstep : s.step .knock = some (s', shown)) : s'.Heard := by
  cases step_turn hstep with
  | knocked hcalls =>
      refine ⟨h.calls (by omega), fun _ => ⟨.knocked, ?_, rfl⟩⟩
      exact List.mem_append_right _ (List.mem_singleton_self _)

/-- The loop is over, or it can go on. -/
theorem Heard.goes {s : Listening F} (h : s.Heard) :
    s.loop = .returned ∨
      ∃ l ∈ [Doing.accept, .check, .spawn], (s.step l).isSome := by
  cases hat : s.loop with
  | accepting =>
      obtain ⟨p, hp, -⟩ := h.waits (Or.inl hat)
      obtain ⟨q, backlog, hbacklog⟩ :=
        List.exists_cons_of_ne_nil (List.ne_nil_of_mem hp)
      exact Or.inr ⟨.accept, by simp, by simp [step, hat, hbacklog]⟩
  | accepted stream => exact Or.inr ⟨.check, by simp, by simp [step, hat]⟩
  | checked stream =>
      refine Or.inr ⟨.spawn, by simp, ?_⟩
      cases stream <;> simp [step, hat]
  | returned => exact Or.inl rfl

/-! ## The threads of the connections -/

/-- A connection that was accepted late is one on which everything was sent
behind the `accept`. -/
theorem exec_takeIn (s : Server F) (p : Pending) :
    ∃ moves, s.exec moves = some (s.takeIn p, []) := by
  have hset : ∀ x y : Session F,
      (s.sessions ++ [x]).set s.sessions.length y = s.sessions ++ [y] := by
    intro x y
    rw [List.set_append_right _ _ le_rfl, Nat.sub_self, List.set_cons_zero]
  have hsend : s.exec [.accept, .act s.sessions.length (.send p.unread)] =
      some (s.takeIn ⟨p.unread, false, p.knock⟩, []) := by
    simp [Server.exec, runFrom, Server.step, Server.turn, Server.update,
      Server.takeIn, Session.accepted, hset]
  obtain ⟨unread, hungUp, knock⟩ := p
  cases hungUp with
  | false => exact ⟨_, hsend⟩
  | true =>
      refine ⟨_ ++ [.act s.sessions.length .hangUp],
        runFrom_append.mpr ⟨_, [], [], hsend, ?_, rfl⟩⟩
      simp [runFrom, Server.step, Server.turn, Server.update, Server.takeIn,
        hset]

/-- The connections go as on a server that has accepted them itself. -/
theorem exec_server {s s' : Listening F} {doings : List (Doing F)}
    {shown : Shown} (hexec : s.exec doings = some (s', shown)) :
    ∃ moves, s.server.exec moves = some (s'.server, shown) := by
  induction doings generalizing s shown with
  | nil =>
      obtain ⟨rfl, rfl⟩ := Prod.mk.inj (Option.some.inj hexec)
      exact ⟨[], rfl⟩
  | cons l doings ih =>
      obtain ⟨next, first, later, hstep, hrest, rfl⟩ :=
        runFrom_cons.mp hexec
      obtain ⟨moves, hmoves⟩ := ih hrest
      suffices hfirst : ∃ moves, s.server.exec moves =
          some (next.server, first) by
        obtain ⟨before, hbefore⟩ := hfirst
        exact ⟨before ++ moves, runFrom_append.mpr
          ⟨next.server, first, later, hbefore, hmoves, rfl⟩⟩
      have hserved : ∀ {move : Move F} {server : Server F},
          s.server.step move = some (server, first) →
            ∃ moves, s.server.exec moves = some (server, first) :=
        fun hmove => ⟨[_], runFrom_cons.mpr
          ⟨_, first, [], hmove, rfl, (List.append_nil first).symm⟩⟩
      cases step_turn hstep with
      | connected => exact ⟨[], rfl⟩
      | sent => exact ⟨[], rfl⟩
      | hungUp => exact ⟨[], rfl⟩
      | stored => exact ⟨[], rfl⟩
      | knocked => exact ⟨[], rfl⟩
      | unheard => exact ⟨[], rfl⟩
      | accepted => exact ⟨[], rfl⟩
      | unaccepted => exact ⟨[], rfl⟩
      | returned => exact ⟨[], rfl⟩
      | checked => exact ⟨[], rfl⟩
      | spawned => exact exec_takeIn s.server _
      | reported => exact ⟨[], rfl⟩
      | acted hmove => exact hserved hmove
      | compacted hmove => exact hserved hmove
      | gaveUp hmove => exact hserved hmove

end Listening

/-! ## The loop and its end -/

/-- The loop has looked at the flag already. -/
def untilKnock : List (Doing (byteFormat crc32)) :=
  [.connect, .send 0 (ascii "SET k v\r\n"), .accept, .check, .store]

/-- It serves the connection, and returns with the next one; a client that
connects later is not served. -/
def behindKnock : List (Doing (byteFormat crc32)) :=
  [.spawn, .act 0 .read, .act 0 .enter, .act 0 .append,
    .act 0 (.work .apply), .connect, .accept, .act 0 .leave, .check,
    .act 0 .reply]

theorem untilKnock_runs :
    ∃ db p s shown, (State.initial (byteFormat crc32)).exec
        [.recover Config.default []] = some db ∧
      db.process = some p ∧ p.writer = .idle ∧
      (Listening.start db).exec (untilKnock ++ .knock :: behindKnock) =
        some (s, shown) ∧
      (repliesTo 0 shown).flatMap Outcome.bytes = ascii "+OK\r\n" ∧
      ∀ e ∈ shown, Short e := by
  have hends : endsIdle ((State.initial (byteFormat crc32)).exec
      [.recover Config.default []]) = true := by
    decide +kernel
  obtain ⟨db, p, hdb, hp, hidle⟩ := exists_of_endsIdle hends
  have hheard : ((((Listening.start db).exec
      (untilKnock ++ .knock :: behindKnock)).map fun r =>
        (r.1.server, r.2)).map fun r => heard r.2) =
      some (ascii "+OK\r\n", true) := by
    refine observed hdb (f := fun db => (((Listening.start db).exec
      (untilKnock ++ .knock :: behindKnock)).map fun r =>
        (r.1.server, r.2)).map fun r => heard r.2) ?_
    decide +kernel
  obtain ⟨server, shown, hrun, hreplies, hshort⟩ := exists_of_heard hheard
  obtain ⟨⟨s, shown'⟩, hexec, hsame⟩ := Option.map_eq_some_iff.mp hrun
  obtain ⟨-, rfl⟩ := Prod.mk.inj hsame
  exact ⟨db, p, s, shown', hdb, hp, hidle, hexec, hreplies, hshort⟩

/-- Clients that connect while the loop runs, is told to stop, or has
stopped, see the commands of one plain map: their connections wait, are
dropped or served, and whatever fails. -/
theorem listening_linearizable (hash : Bytes → UInt32)
    {labels : List (Label (byteFormat hash))}
    {db : State (byteFormat hash)} {p : Process (byteFormat hash)}
    (hfits : ∀ m ∈ history labels, m.record.Fits)
    (hreached : (State.initial (byteFormat hash)).exec labels = some db)
    (hp : db.process = some p) (hidle : p.writer = .idle)
    {s : Listening (byteFormat hash)}
    {doings : List (Doing (byteFormat hash))} {shown : Shown}
    (hshort : ∀ e ∈ shown, Short e)
    (hexec : (Listening.start db).exec doings = some (s, shown)) :
    ∃ map, (∀ key, p.db.get key = .ok (map key)) ∧
      Linearizable (commands True) map shown := by
  have hF := byteFormat_lawful hash
  obtain ⟨hist, hdb⟩ := exec_follows hF (byteFormat_replaysOk hash)
    follows_initial hfits hreached
  obtain ⟨moves, hrun⟩ := Listening.exec_server hexec
  obtain ⟨a, hallows, -⟩ := run_explains hF hdb ⟨p, hp, hidle⟩
    (fun e he => (hshort e he).asks) hrun
  exact ⟨plainMap hist, hdb.readsAs p hp hidle, a, hallows⟩

theorem listening_linearizable_untilKnock :
    ∃ db s shown map, (State.initial (byteFormat crc32)).exec
        [.recover Config.default []] = some db ∧
      (Listening.start db).exec (untilKnock ++ .knock :: behindKnock) =
        some (s, shown) ∧
      (repliesTo 0 shown).flatMap Outcome.bytes = ascii "+OK\r\n" ∧
      Linearizable (commands True) map shown := by
  obtain ⟨db, p, s, shown, hdb, hp, hidle, hexec, hreplies, hshort⟩ :=
    untilKnock_runs
  obtain ⟨map, -, hlin⟩ := listening_linearizable crc32
    (by decide +kernel) hdb hp hidle hshort hexec
  exact ⟨db, s, shown, map, hdb, hexec, hreplies, hlin⟩

/-- The loop never returns before a call of `shutdown` has set the flag, no
connection of `shutdown` itself is served, and behind the flag at most one
connection is. -/
theorem shutdown_stops_accepting {db : State F} {s : Listening F}
    {doings : List (Doing F)} {shown : Shown}
    (hexec : (Listening.start db).exec doings = some (s, shown)) :
    (s.loop = .returned → .store ∈ doings) ∧
    (∀ p, s.loop = .checked (some p) → p.knock = false) ∧
    ∀ before after, doings = before ++ .store :: after →
      after.countP Doing.spawns ≤ 1 := by
  have hheeds := (Listening.heeds_start db).exec hexec
  have hloop := hheeds.loop
  unfold Listening.InHand at hloop
  refine ⟨?_, ?_, ?_⟩
  · intro hat
    rw [hat] at hloop
    exact ((Listening.exec_flag hexec).mp hloop).resolve_left
      Bool.false_ne_true
  · intro p hat
    rw [hat] at hloop
    exact hloop p rfl
  · rintro before after rfl
    obtain ⟨mid, _, _, -, hrest, -⟩ := runFrom_append.mp hexec
    obtain ⟨next, _, _, hstep, hafter, -⟩ := runFrom_cons.mp hrest
    have hflag := (Listening.step_turn hstep).flag.mpr (Or.inr rfl)
    exact (Nat.le_add_right _ _).trans
      ((Listening.exec_counts hflag hafter).1.trans (Accepting.left_le _))

theorem shutdown_stops_accepting_untilKnock :
    ∃ db s shown, (Listening.start db).exec
        (untilKnock ++ .knock :: behindKnock) = some (s, shown) ∧
      (s.loop = .returned → .store ∈ untilKnock ++ .knock :: behindKnock) ∧
      (∀ p, s.loop = .checked (some p) → p.knock = false) ∧
      (Doing.knock :: behindKnock).countP Doing.spawns ≤ 1 := by
  obtain ⟨db, -, s, shown, -, -, -, hexec, -, -⟩ := untilKnock_runs
  obtain ⟨hreturned, hknock, hspawns⟩ := shutdown_stops_accepting hexec
  exact ⟨db, s, shown, hexec, hreturned, hknock,
    hspawns (untilKnock.dropLast) (.knock :: behindKnock) rfl⟩

/-- Once a call of `shutdown` has connected the loop is never blocked again,
and it has returned as soon as it has taken three more steps, whatever
clients and other calls do meanwhile. -/
theorem shutdown_ends_run {db : State F} {s : Listening F}
    {before after : List (Doing F)} {shown : Shown}
    (hexec : (Listening.start db).exec (before ++ .knock :: after) =
      some (s, shown)) :
    (s.loop = .returned ∨
      ∃ l ∈ [Doing.accept, .check, .spawn], (s.step l).isSome) ∧
    (3 ≤ after.countP Doing.own → s.loop = .returned) := by
  obtain ⟨mid, _, _, hbefore, hrest, -⟩ := runFrom_append.mp hexec
  obtain ⟨next, _, _, hstep, hafter, -⟩ := runFrom_cons.mp hrest
  have hheard := ((Listening.heeds_start db).exec hbefore).heard hstep
  have hlater := Listening.exec_keeps Listening.Turn.heard hheard hafter
  refine ⟨hlater.goes, ?_⟩
  intro hsteps
  have hcount := (Listening.exec_counts hheard.flag hafter).2
  have hrank := next.loop.rank_le
  exact Accepting.rank_eq_zero.mp (by omega)

theorem shutdown_ends_run_untilKnock :
    ∃ db s shown, (Listening.start db).exec
        (untilKnock ++ .knock :: behindKnock) = some (s, shown) ∧
      s.loop = .returned := by
  obtain ⟨db, -, s, shown, -, -, -, hexec, -, -⟩ := untilKnock_runs
  exact ⟨db, s, shown, hexec,
    (shutdown_ends_run hexec).2 (by decide : 3 ≤ 3)⟩

end Lsmrs
