import Lsmrs.Db.Recovery
import Lsmrs.Server.Connections

/-!
# Pipelining

What one client sees, whatever the others do and however its bytes come in
packets: its commands are carried out in the order it sent them, and the
replies come back in that order, each of them whole before the next.
-/

namespace Lsmrs

open ByteString Atomicity

variable {F : Format}

/-! ## The commands of a stream -/

/-- Reading these commands off a stream leaves the rest. -/
inductive ReadsTo : Bytes → List (List Bytes) → Bytes → Prop
  | nil {reader : Bytes} : ReadsTo reader [] reader
  | cons {reader rest last : Bytes} {args : List Bytes}
      {calls : List (List Bytes)}
      (hread : readCommand reader = .ok (some args, rest))
      (hrest : ReadsTo rest calls last) :
    ReadsTo reader (args :: calls) last

theorem ReadsTo.snoc {reader rest last : Bytes} {args : List Bytes}
    {calls : List (List Bytes)} (h : ReadsTo reader calls rest)
    (hread : readCommand rest = .ok (some args, last)) :
    ReadsTo reader (calls ++ [args]) last := by
  induction h with
  | nil => exact .cons hread .nil
  | cons hfirst _ ih => exact .cons hfirst (ih hread)

/-- Of whole commands, the first ones are read. -/
theorem ReadsTo.eq_take {commands : List (List Bytes × Bytes)}
    (hcommands : ∀ c ∈ commands, Sends c.1 c.2) {calls : List (List Bytes)}
    {rest : Bytes}
    (h : ReadsTo (commands.flatMap Prod.snd) calls rest) :
    calls = (commands.take calls.length).map Prod.fst ∧
      rest = (commands.drop calls.length).flatMap Prod.snd := by
  generalize hstream : commands.flatMap Prod.snd = stream at h
  induction h generalizing commands with
  | nil => exact ⟨rfl, hstream.symm⟩
  | @cons reader rest last args calls hread hrest ih =>
      cases commands with
      | nil =>
          obtain rfl : [] = reader := hstream
          cases hread
      | cons c commands =>
          obtain ⟨hc, hcommands⟩ := List.forall_mem_cons.mp hcommands
          rw [List.flatMap_cons] at hstream
          rw [← hstream, readCommand_sends hc] at hread
          obtain ⟨hargs, hlater⟩ := Prod.mk.inj (Except.ok.inj hread)
          obtain rfl := Option.some.inj hargs
          obtain ⟨hcalls, hlast⟩ := ih hcommands hlater
          refine ⟨?_, hlast⟩
          rw [List.length_cons, List.take_succ_cons, List.map_cons,
            ← hcalls]

/-- What a thread reads of its stream, it reads whatever comes behind. -/
theorem readCommand_of_on {closed : Bool} {reader more : Bytes}
    {r : Result (Option (List Bytes) × Bytes)}
    (h : readCommandOn closed reader = .of r)
    (hmore : closed = true → more = []) :
    readCommand (reader ++ more) = r.map fun p => (p.1, p.2 ++ more) := by
  cases closed with
  | true =>
      obtain rfl := hmore rfl
      rw [readCommandOn_closed] at h
      obtain rfl := Option.some.inj h
      rw [List.append_nil]
      cases readCommand reader with
      | error e => rfl
      | ok p =>
          change _ = Except.ok (p.1, p.2 ++ [])
          rw [List.append_nil]
  | false =>
      have hclosed := readCommandOn_steady reader more true r h
      rw [readCommandOn_closed] at hclosed
      exact Option.some.inj hclosed

/-- Only where the stream ends there is no command. -/
theorem readCommand_none {reader rest : Bytes}
    (h : readCommand reader = .ok (none, rest)) :
    reader = [] ∧ rest = [] := by
  cases reader with
  | nil => exact ⟨rfl, (Prod.mk.inj (Except.ok.inj h)).2.symm⟩
  | cons b reader =>
      by_cases hstar : (lineOf (b :: reader)).head? = some 42
      · obtain ⟨digits, hline⟩ := List.head?_eq_some_iff.mp hstar
        rw [readCommand_of_star hline] at h
        obtain ⟨count, -, h⟩ := bind_eq_ok.mp h
        obtain ⟨args, -, h⟩ := bind_eq_ok.mp h
        cases h
      · rw [readCommand_of_not_star (List.cons_ne_nil _ _) hstar] at h
        cases h

/-! ## One connection -/

/-- What the client of a connection has sent. -/
def sentOn (c : ℕ) (moves : List (Move F)) : Bytes :=
  moves.flatMap fun move =>
    match move with
    | .act c' (.send bytes) => if c' = c then bytes else []
    | _ => []

/-- What the client has got: the replies to its commands, perhaps a part of
one more, or an error that ends the connection. -/
inductive Answered (calls : List (List Bytes)) (replies : List Outcome)
    (x : Session F) : Prop where
  | reading (hat : x.stage = .reading)
      (hcount : calls.length = replies.length)
      (hout : x.output = replies.flatMap Outcome.bytes)
  | busy (hat : x.stage ≠ .reading)
      (hcount : calls.length = replies.length + 1)
      (hout : x.output = replies.flatMap Outcome.bytes)
  | through {how : Result Unit} (hat : x.stage = .ended how)
      (hcount : calls.length = replies.length)
      (hout : x.output = replies.flatMap Outcome.bytes)
  | refused {how : Result Unit} {message : Bytes} (hat : x.stage = .ended how)
      (hcount : calls.length = replies.length)
      (hout : x.output = replies.flatMap Outcome.bytes ++
        (Reply.error message).writeTo)
      (hrest : ∀ more, (x.hungUp = true → more = []) →
        ∃ e, readCommand (x.unread ++ more) = .error e)
  | brokenOff {how : Result Unit} (outcome : Outcome) (written : ℕ)
      (hat : x.stage = .ended how)
      (hcount : calls.length = replies.length + 1)
      (hout : x.output = replies.flatMap Outcome.bytes ++
        outcome.bytes.take written)

/-- The commands are those of the stream, and the answers are theirs. -/
structure InOrder (sent : Bytes) (calls : List (List Bytes))
    (replies : List Outcome) (x : Session F) : Prop where
  reads : ∀ more, (x.hungUp = true → more = []) →
    ReadsTo (sent ++ more) calls (x.unread ++ more)
  answers : Answered calls replies x

namespace InOrder

variable {sent : Bytes} {calls : List (List Bytes)} {replies : List Outcome}
  {x : Session F}

theorem accepted : InOrder [] [] [] (Session.accepted F) where
  reads _ _ := .nil
  answers := .reading rfl rfl rfl

theorem sends (h : InOrder sent calls replies x) (hopen : x.hungUp = false)
    (bytes : Bytes) :
    InOrder (sent ++ bytes) calls replies
      { x with unread := x.unread ++ bytes } := by
  have hmore : ∀ more : Bytes, x.hungUp = true → bytes ++ more = [] := by
    intro more hhung
    rw [hopen] at hhung
    cases hhung
  constructor
  · intro more _
    rw [List.append_assoc, List.append_assoc]
    exact h.reads (bytes ++ more) (hmore more)
  · cases h.answers with
    | reading hat hcount hout => exact .reading hat hcount hout
    | busy hat hcount hout => exact .busy hat hcount hout
    | through hat hcount hout => exact .through hat hcount hout
    | refused hat hcount hout hrest =>
        refine .refused hat hcount hout fun more _ => ?_
        rw [List.append_assoc]
        exact hrest (bytes ++ more) (hmore more)
    | brokenOff outcome written hat hcount hout =>
        exact .brokenOff outcome written hat hcount hout

theorem hangsUp (h : InOrder sent calls replies x) :
    InOrder sent calls replies { x with hungUp := true } := by
  constructor
  · exact fun more hmore => h.reads more fun _ => hmore rfl
  · cases h.answers with
    | reading hat hcount hout => exact .reading hat hcount hout
    | busy hat hcount hout => exact .busy hat hcount hout
    | through hat hcount hout => exact .through hat hcount hout
    | refused hat hcount hout hrest =>
        exact .refused hat hcount hout fun more hmore =>
          hrest more fun _ => hmore rfl
    | brokenOff outcome written hat hcount hout =>
        exact .brokenOff outcome written hat hcount hout

/-- Between the read of a command and the reply to it. -/
theorem isBusy (h : InOrder sent calls replies x) (hat : x.stage ≠ .reading)
    (hat' : ∀ how, x.stage ≠ .ended how) :
    calls.length = replies.length + 1 ∧
      x.output = replies.flatMap Outcome.bytes := by
  cases h.answers with
  | reading hreading => exact absurd hreading hat
  | busy _ hcount hout => exact ⟨hcount, hout⟩
  | through hthrough => exact absurd hthrough (hat' _)
  | refused hrefused => exact absurd hrefused (hat' _)
  | brokenOff _ _ hbroken => exact absurd hbroken (hat' _)

theorem isReading (h : InOrder sent calls replies x)
    (hat : x.stage = .reading) :
    calls.length = replies.length ∧
      x.output = replies.flatMap Outcome.bytes := by
  cases h.answers with
  | reading _ hcount hout => exact ⟨hcount, hout⟩
  | busy hbusy => exact absurd hat hbusy
  | through hthrough => cases hat.symm.trans hthrough
  | refused hrefused => cases hat.symm.trans hrefused
  | brokenOff _ _ hbroken => cases hat.symm.trans hbroken

/-- The thread goes on in its arm, or panics in it. -/
theorem goesOn (h : InOrder sent calls replies x) {stage stage' : Stage F}
    (hat : x.stage = stage) (hne : stage ≠ .reading)
    (hne' : ∀ how, stage ≠ .ended how) (hnext : stage' ≠ .reading) :
    InOrder sent calls replies { x with stage := stage' } := by
  subst hat
  obtain ⟨hcount, hout⟩ := h.isBusy hne hne'
  exact ⟨h.reads, .busy hnext hcount hout⟩

/-- The socket fails the thread that reads. -/
theorem readFailed (h : InOrder sent calls replies x)
    (hat : x.stage = .reading) (how : Result Unit) :
    InOrder sent calls replies { x with stage := (.ended how : Stage F) } := by
  obtain ⟨hcount, hout⟩ := h.isReading hat
  exact ⟨h.reads, .through rfl hcount hout⟩

/-- Or the one that writes. -/
theorem brokeOff (h : InOrder sent calls replies x) {outcome : Outcome}
    (hat : x.stage = .replying outcome) (written : ℕ) (how : Result Unit) :
    InOrder sent calls replies { x with
      output := x.output ++ outcome.bytes.take written
      stage := (.ended how : Stage F) } := by
  obtain ⟨hcount, hout⟩ := h.isBusy (by rw [hat]; nofun) (by rw [hat]; nofun)
  refine ⟨h.reads, .brokenOff outcome written rfl hcount ?_⟩
  rw [hout]

theorem replied (h : InOrder sent calls replies x) {outcome : Outcome}
    (hat : x.stage = .replying outcome) (c : ℕ) :
    InOrder sent calls (replies ++ [outcome]) (x.reply c outcome).1 := by
  obtain ⟨hcount, hout⟩ := h.isBusy (by rw [hat]; nofun) (by rw [hat]; nofun)
  have hcount' : calls.length = (replies ++ [outcome]).length := by
    rw [hcount, List.length_append, List.length_singleton]
  have hout' : x.output ++ outcome.bytes =
      (replies ++ [outcome]).flatMap Outcome.bytes := by
    rw [hout, List.flatMap_append, List.flatMap_singleton]
  refine ⟨h.reads, ?_⟩
  cases outcome with
  | nothing => exact .reading rfl hcount' hout'
  | reply r => exact .reading rfl hcount' hout'
  | quit => exact .through rfl hcount' hout'

/-- The thread reads a command, or its last one is read. -/
theorem read (h : InOrder sent calls replies x) (hat : x.stage = .reading)
    {c : ℕ} {r : Session F × Shown} (hread : x.read c = some r) :
    InOrder sent (calls ++ callsOf c r.2) (replies ++ repliesTo c r.2)
      r.1 := by
  obtain ⟨hcount, hout⟩ := h.isReading hat
  have hcommand : ∀ {outcome}, (readCommandOn x.hungUp x.unread).run =
      some outcome → ∀ more, (x.hungUp = true → more = []) →
        readCommand (x.unread ++ more) =
          outcome.map fun p => (p.1, p.2 ++ more) :=
    fun hon more hmore => readCommand_of_on hon hmore
  unfold Session.read at hread
  split at hread
  next => cases hread
  next args unread hon =>
    obtain rfl := Option.some.inj hread
    have hcalls : callsOf c [.call c args] = [args] := by simp [callsOf]
    have hreplies : repliesTo c [.call c args] = [] := rfl
    rw [hcalls, hreplies, List.append_nil]
    constructor
    · exact fun more hmore => (h.reads more hmore).snoc
        (hcommand hon more hmore)
    · refine .busy nofun ?_ hout
      rw [List.length_append, List.length_singleton, hcount]
  next unread hon =>
    obtain rfl := Option.some.inj hread
    have hcalls : callsOf c [] = [] := rfl
    have hreplies : repliesTo c [] = [] := rfl
    rw [hcalls, hreplies, List.append_nil, List.append_nil]
    -- The stream has ended, and nothing is left of it.
    obtain ⟨hbefore, hafter⟩ :=
      readCommand_none (hcommand hon [] fun _ => rfl)
    rw [List.append_nil] at hbefore hafter
    have hsame : unread = x.unread := hafter.trans hbefore.symm
    rw [hsame]
    exact ⟨h.reads, .through rfl hcount hout⟩
  next e hon =>
    have hcalls : callsOf c [] = [] := rfl
    have hreplies : repliesTo c [] = [] := rfl
    split_ifs at hread with hkind
    · obtain rfl := Option.some.inj hread
      rw [hcalls, hreplies, List.append_nil, List.append_nil]
      refine ⟨h.reads, .refused rfl hcount (by rw [hout]) ?_⟩
      exact fun more hmore => ⟨_, hcommand hon more hmore⟩
    · obtain rfl := Option.some.inj hread
      rw [hcalls, hreplies, List.append_nil, List.append_nil]
      exact ⟨h.reads, .through rfl hcount hout⟩
  next hon =>
    obtain ⟨e, he⟩ := readCommandOn_error hon
    cases he

end InOrder

/-! ## All of them -/

theorem sentOn_append (c : ℕ) (moves moves' : List (Move F)) :
    sentOn c (moves ++ moves') = sentOn c moves ++ sentOn c moves' :=
  List.flatMap_append

theorem callsOf_append (c : ℕ) (shown shown' : Shown) :
    callsOf c (shown ++ shown') = callsOf c shown ++ callsOf c shown' :=
  List.filterMap_append

theorem repliesTo_append (c : ℕ) (shown shown' : Shown) :
    repliesTo c (shown ++ shown') = repliesTo c shown ++ repliesTo c shown' :=
  List.filterMap_append

theorem InOrder.silent {c : ℕ} {act : Act F} {sent : Bytes}
    {calls : List (List Bytes)} {replies : List Outcome} {x : Session F}
    (h : InOrder sent calls replies x) (hsent : sentOn c [.act c act] = []) :
    InOrder (sent ++ sentOn c [.act c act]) (calls ++ callsOf c [])
      (replies ++ repliesTo c []) x := by
  have hcalls : callsOf c [] = [] := rfl
  have hreplies : repliesTo c [] = [] := rfl
  rw [hsent, hcalls, hreplies, List.append_nil, List.append_nil,
    List.append_nil]
  exact h

/-- A step between the read of a command and the reply to it. -/
theorem InOrder.inArm {s s' : Server F} {c : ℕ} {act : Act F} {sent : Bytes}
    {calls : List (List Bytes)} {replies : List Outcome} {x : Session F}
    (h : InOrder sent calls replies x) {stage stage' : Stage F}
    (hat : x.stage = stage)
    (hsessions : s'.sessions = s.sessions.set c { x with stage := stage' })
    (hsent : sentOn c [.act c act] = []) (hne : stage ≠ .reading)
    (hne' : ∀ how, stage ≠ .ended how) (hnext : stage' ≠ .reading) :
    ∃ x', s'.sessions = s.sessions.set c x' ∧
      InOrder (sent ++ sentOn c [.act c act]) (calls ++ callsOf c [])
        (replies ++ repliesTo c []) x' :=
  ⟨_, hsessions, (h.goesOn hat hne hne' hnext).silent hsent⟩

/-- A step on a connection keeps it in order. -/
theorem Server.Turn.inOrder {s s' : Server F} {c : ℕ} {x : Session F}
    {act : Act F} {shown : Shown} (h : Server.Turn s c x act s' shown)
    {sent : Bytes} {calls : List (List Bytes)} {replies : List Outcome}
    (hx : InOrder sent calls replies x) :
    ∃ x', s'.sessions = s.sessions.set c x' ∧
      InOrder (sent ++ sentOn c [.act c act]) (calls ++ callsOf c shown)
        (replies ++ repliesTo c shown) x' := by
  cases h with
  | @sent bytes hopen =>
      have hsent : sentOn c [(.act c (.send bytes) : Move F)] = bytes := by
        simp [sentOn]
      have hcalls : callsOf c [] = [] := rfl
      have hreplies : repliesTo c [] = [] := rfl
      refine ⟨_, rfl, ?_⟩
      rw [hsent, hcalls, hreplies, List.append_nil, List.append_nil]
      exact hx.sends hopen bytes
  | hungUp => exact ⟨_, rfl, hx.hangsUp.silent rfl⟩
  | read hat hread =>
      have hsent : sentOn c [(.act c .read : Move F)] = [] := rfl
      refine ⟨_, rfl, ?_⟩
      rw [hsent, List.append_nil]
      exact hx.read hat hread
  | entered hat => exact hx.inArm hat rfl rfl nofun nofun nofun
  | foundPoisoned hat =>
      exact hx.inArm hat rfl rfl nofun nofun nofun
  | inMemory hat =>
      exact hx.inArm hat rfl rfl nofun nofun nofun
  | cloned hat => exact hx.inArm hat rfl rfl nofun nofun nofun
  | @searched guard key tables next hat =>
      cases tables with
      | nil => exact hx.inArm hat rfl rfl nofun nofun nofun
      | cons sstable older =>
          rw [Server.search]
          split
          · exact hx.inArm hat rfl rfl nofun nofun nofun
          · exact hx.inArm hat rfl rfl nofun nofun nofun
          · exact hx.inArm hat rfl rfl nofun nofun nofun
          · exact hx.inArm hat rfl rfl nofun nofun nofun
          · exact hx.inArm hat rfl rfl nofun nofun nofun
  | unreadable hat =>
      exact hx.inArm hat rfl rfl nofun nofun nofun
  | appended hat =>
      exact hx.inArm hat rfl rfl nofun nofun nofun
  | appendFailed hat =>
      exact hx.inArm hat rfl rfl nofun nofun nofun
  | worked hat =>
      refine hx.inArm hat rfl rfl nofun nofun ?_
      split <;> nofun
  | flushFailed hat =>
      exact hx.inArm hat rfl rfl nofun nofun nofun
  | left hat => exact hx.inArm hat rfl rfl nofun nofun nofun
  | @replied outcome hat =>
      have hsent : sentOn c [(.act c .reply : Move F)] = [] := rfl
      have hcalls : callsOf c (x.reply c outcome).2 = [] := rfl
      have hreplies : repliesTo c (x.reply c outcome).2 = [outcome] := by
        simp [repliesTo, Session.reply]
      refine ⟨_, rfl, ?_⟩
      rw [hsent, hcalls, hreplies, List.append_nil, List.append_nil]
      exact hx.replied hat c
  | readFailed hat => exact ⟨_, rfl, (hx.readFailed hat _).silent rfl⟩
  | brokeOff hat => exact ⟨_, rfl, (hx.brokeOff hat _ _).silent rfl⟩

/-- And it is not seen on the other ones. -/
theorem Server.Turn.elsewhere {s s' : Server F} {c c' : ℕ} {x : Session F}
    {act : Act F} {shown : Shown} (h : Server.Turn s c x act s' shown)
    (hne : c ≠ c') :
    sentOn c' [.act c act] = [] ∧ callsOf c' shown = [] ∧
      repliesTo c' shown = [] := by
  refine ⟨?_, ?_⟩
  · cases act with
    | send bytes => simp [sentOn, hne]
    | _ => rfl
  · cases h with
    | read hat hread =>
        unfold Session.read at hread
        split at hread
        next => cases hread
        next =>
          obtain rfl := Option.some.inj hread
          simp [callsOf, repliesTo, hne]
        next =>
          obtain rfl := Option.some.inj hread
          exact ⟨rfl, rfl⟩
        next =>
          split_ifs at hread
          · obtain rfl := Option.some.inj hread
            exact ⟨rfl, rfl⟩
          · obtain rfl := Option.some.inj hread
            exact ⟨rfl, rfl⟩
        next =>
          obtain rfl := Option.some.inj hread
          exact ⟨rfl, rfl⟩
    | replied hat => simp [callsOf, repliesTo, Session.reply, hne]
    | _ => exact ⟨rfl, rfl⟩

/-- Every connection is in order, and nothing is known of those to come. -/
def AllInOrder (moves : List (Move F)) (shown : Shown) (s : Server F) :
    Prop :=
  ∀ c, match s.sessions[c]? with
    | some x =>
      InOrder (sentOn c moves) (callsOf c shown) (repliesTo c shown) x
    | none =>
      sentOn c moves = [] ∧ callsOf c shown = [] ∧ repliesTo c shown = []

/-- The compactor shows and is sent nothing. -/
theorem AllInOrder.silent {moves : List (Move F)} {before : Shown}
    {s s' : Server F} (h : AllInOrder moves before s) {move : Move F}
    (hsent : ∀ c, sentOn c [move] = []) (hsame : s'.sessions = s.sessions) :
    AllInOrder (moves ++ [move]) (before ++ []) s' := by
  intro c
  rw [sentOn_append, hsent, List.append_nil, List.append_nil, hsame]
  exact h c

theorem AllInOrder.step {moves : List (Move F)} {before shown : Shown}
    {s s' : Server F} {move : Move F} (h : AllInOrder moves before s)
    (hstep : s.step move = some (s', shown)) :
    AllInOrder (moves ++ [move]) (before ++ shown) s' := by
  cases move with
  | compact l =>
      obtain ⟨db, -, rfl, rfl⟩ := Server.step_compact hstep
      exact h.silent (fun _ => rfl) rfl
  | compactFails left =>
      obtain ⟨db, -, rfl, rfl⟩ := Server.step_compactFails hstep
      exact h.silent (fun _ => rfl) rfl
  | accept =>
      intro c
      rw [sentOn_append, callsOf_append, repliesTo_append]
      have hc := h c
      obtain ⟨rfl, rfl⟩ := Prod.mk.inj (Option.some.inj hstep)
      have hsent : sentOn c [(.accept : Move F)] = [] := rfl
      have hcalls : callsOf c [] = [] := rfl
      have hreplies : repliesTo c [] = [] := rfl
      rw [hsent, hcalls, hreplies, List.append_nil, List.append_nil,
        List.append_nil]
      dsimp only
      by_cases hlt : c < s.sessions.length
      · rw [List.getElem?_append_left hlt]
        exact hc
      · rw [List.getElem?_eq_none (Nat.le_of_not_lt hlt)] at hc
        rw [List.getElem?_append_right (Nat.le_of_not_lt hlt)]
        obtain ⟨hsent, hcalls, hreplies⟩ := hc
        rw [hsent, hcalls, hreplies]
        cases c - s.sessions.length with
        | zero => exact InOrder.accepted
        | succ n => exact ⟨rfl, rfl, rfl⟩
  | act c' act =>
      intro c
      rw [sentOn_append, callsOf_append, repliesTo_append]
      have hc := h c
      obtain ⟨x, hx, hturn⟩ := Server.step_act hstep
      have hc' := h c'
      rw [hx] at hc'
      obtain ⟨x', hsessions, hnext⟩ := hturn.inOrder hc'
      rw [hsessions]
      by_cases hne : c' = c
      · subst hne
        have hlt := (List.getElem?_eq_some_iff.mp hx).1
        rw [List.getElem?_set_self hlt]
        exact hnext
      · obtain ⟨hsent, hcalls, hreplies⟩ := hturn.elsewhere hne
        rw [List.getElem?_set_ne hne, hsent, hcalls, hreplies,
          List.append_nil, List.append_nil, List.append_nil]
        exact hc

theorem exec_inOrder {db : State F} {s : Server F} {moves : List (Move F)}
    {shown : Shown} (hrun : (Server.start db).exec moves = some (s, shown)) :
    AllInOrder moves shown s := by
  have hstart : AllInOrder [] [] (Server.start db) :=
    fun c => ⟨rfl, rfl, rfl⟩
  have hall := runFrom_traces (fun h hstep => AllInOrder.step h hstep) hstart
    hrun
  rwa [List.nil_append, List.nil_append] at hall

/-- Where whole commands are left, reading goes on. -/
theorem readCommand_ne_error {commands : List (List Bytes × Bytes)}
    (hcommands : ∀ c ∈ commands, Sends c.1 c.2) (e : Failure) :
    readCommand (commands.flatMap Prod.snd) ≠ .error e := by
  cases commands with
  | nil => nofun
  | cons c commands =>
      obtain ⟨hc, -⟩ := List.forall_mem_cons.mp hcommands
      rw [List.flatMap_cons, readCommand_sends hc]
      nofun

/-- A client sends whole commands, of which the first bytes may have arrived
in any pieces.  Whatever the state of the database and the other threads:
the first commands are carried out in the order they were sent, all of them
but the last are answered for sure, and the client has got the answers in
that order and nothing else; only if the connection broke off behind them,
a part of one more. -/
theorem pipelined_in_order {db : State F} {s : Server F}
    {moves : List (Move F)} {shown : Shown}
    (hrun : (Server.start db).exec moves = some (s, shown)) {c : ℕ}
    {x : Session F} (hx : s.sessions[c]? = some x)
    {commands : List (List Bytes × Bytes)}
    (hcommands : ∀ c ∈ commands, Sends c.1 c.2) {more : Bytes}
    (hsent : sentOn c moves ++ more = commands.flatMap Prod.snd)
    (hmore : x.hungUp = true → more = []) :
    callsOf c shown =
        (commands.take (callsOf c shown).length).map Prod.fst ∧
      (repliesTo c shown).length ≤ (callsOf c shown).length ∧
      (callsOf c shown).length ≤ (repliesTo c shown).length + 1 ∧
      ∃ (outcome : Outcome) (written : ℕ), x.output =
          (repliesTo c shown).flatMap Outcome.bytes ++
            outcome.bytes.take written ∧
        (written = 0 ∨ ∃ how, x.stage = .ended how) := by
  have hall := exec_inOrder hrun c
  rw [hx] at hall
  obtain ⟨hreads, hanswers⟩ := hall
  have hread := hreads more hmore
  rw [hsent] at hread
  obtain ⟨hcalls, hrest⟩ := hread.eq_take hcommands
  refine ⟨hcalls, ?_⟩
  cases hanswers with
  | reading hat hcount hout =>
      exact ⟨hcount.ge, by omega, .nothing, 0, by rw [hout, List.take_zero,
        List.append_nil], Or.inl rfl⟩
  | busy hat hcount hout =>
      exact ⟨by omega, hcount.le, .nothing, 0, by rw [hout, List.take_zero,
        List.append_nil], Or.inl rfl⟩
  | through hat hcount hout =>
      exact ⟨hcount.ge, by omega, .nothing, 0, by rw [hout, List.take_zero,
        List.append_nil], Or.inl rfl⟩
  | refused hat hcount hout hinvalid =>
      obtain ⟨e, he⟩ := hinvalid more hmore
      rw [hrest] at he
      exact absurd he (readCommand_ne_error
        (fun c hc => hcommands c (List.mem_of_mem_drop hc)) e)
  | brokenOff outcome written hat hcount hout =>
      exact ⟨by omega, hcount.le, outcome, written, hout, Or.inr ⟨_, hat⟩⟩

/-- The bytes of two commands come in two pieces, while another client holds
the write guard. -/
def inPieces : List (Move (byteFormat crc32)) :=
  [.accept, .act 0 (.send (ascii "SET k v\r\n")), .act 0 .read,
    .act 0 .enter, .act 0 .append, .accept,
    .act 1 (.send (ascii "*1\r\n$4\r\nPING\r\nEC")), .act 1 .read,
    .act 1 .enter, .act 1 .leave, .act 1 .reply,
    .act 1 (.send (ascii "HO hi\r\n")), .act 1 .read, .act 1 .enter,
    .act 1 .leave, .act 1 .reply]

/-- The commands of the second client, each with its bytes. -/
def pingThenEcho : List (List Bytes × Bytes) :=
  [([ascii "PING"], (WireCommand.array [ascii "PING"]).encode),
    ([ascii "ECHO", ascii "hi"], ascii "ECHO hi\r" ++ [lf])]

theorem pipelined_in_order_inPieces :
    ∃ db s shown x, (State.initial (byteFormat crc32)).exec
        [.recover flushEach []] = some db ∧
      (Server.start db).exec inPieces = some (s, shown) ∧
      s.sessions[1]? = some x ∧ x.output = ascii "+PONG\r\n$2\r\nhi\r\n" ∧
      callsOf 1 shown =
        (pingThenEcho.take (callsOf 1 shown).length).map Prod.fst := by
  have hcommands : ∀ c ∈ pingThenEcho, Sends c.1 c.2 := by
    refine List.forall_mem_cons.mpr ⟨sends_array (by decide) (by decide),
      List.forall_mem_singleton.mpr ?_⟩
    exact sends_inline (ascii "ECHO hi\r") (by decide) (by decide)
      (by decide +kernel)
  have hends : endsIdle ((State.initial (byteFormat crc32)).exec
      [.recover flushEach []]) = true := by
    decide +kernel
  obtain ⟨db, p, hdb, -, -⟩ := exists_of_endsIdle hends
  have hseen : ((Server.start db).exec inPieces).map (fun r =>
      r.1.sessions[1]?.map Session.output) =
        some (some (ascii "+PONG\r\n$2\r\nhi\r\n")) := by
    refine observed hdb (f := fun db => ((Server.start db).exec inPieces).map
      (fun r => r.1.sessions[1]?.map Session.output)) ?_
    decide +kernel
  obtain ⟨⟨s, shown⟩, hrun, hseen⟩ := Option.map_eq_some_iff.mp hseen
  obtain ⟨x, hx, houtput⟩ := Option.map_eq_some_iff.mp hseen
  have hsent : sentOn 1 inPieces ++ [] = pingThenEcho.flatMap Prod.snd := by
    decide +kernel
  obtain ⟨hcalls, -⟩ := pipelined_in_order hrun hx hcommands hsent
    fun _ => rfl
  exact ⟨db, s, shown, x, hdb, hrun, hx, houtput, hcalls⟩

end Lsmrs
