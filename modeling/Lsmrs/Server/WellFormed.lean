import Lsmrs.Resp.Client
import Lsmrs.Server.OnMachine

/-!
# Which replies stay in step

A client reads one reply for each command as long as no reply line carries a
CRLF of its own.  The only client bytes that reach a reply line are the name
of an unknown command, so that name decides.
-/

namespace Lsmrs

open ByteString

/-! ## The texts of `get` -/

/-- If the call fails, the error displays without a CRLF. -/
def OneLine {α : Type} (x : Result α) : Prop :=
  ∀ e, x = .error (.io e) → ¬ crlf <:+: e.message

namespace OneLine

variable {α β : Type}

theorem ok (a : α) : OneLine (.ok a) :=
  fun _ h => nomatch h

theorem panic : OneLine (.error .panic : Result α) :=
  fun _ h => nomatch h

theorem literal {kind : ErrorKind} {message : Bytes}
    (h : ¬ crlf <:+: message) :
    OneLine (.error (ioError kind message) : Result α) := by
  intro e he
  cases he
  exact h

theorem bind {x : Result α} {f : α → Result β} (hx : OneLine x)
    (hf : ∀ a, OneLine (f a)) : OneLine (x >>= f) := by
  intro e h
  rcases bind_eq_error.mp h with h | ⟨a, -, h⟩
  · exact hx e h
  · exact hf a e h

end OneLine

theorem readExact_oneLine (n : ℕ) (reader : Bytes) :
    OneLine (readExact n reader) := by
  unfold readExact
  split
  · exact .ok _
  · exact .literal (by decide)

theorem seekStart_oneLine (file : Bytes) (offset : ℕ) :
    OneLine (seekStart file offset) := by
  unfold seekStart
  split_ifs
  · exact .ok _
  · exact .literal (by decide)

theorem BloomFilter.contains_oneLine (f : BloomFilter) (hash : UInt64) :
    OneLine (f.contains hash) := by
  rw [contains]
  induction List.range f.numProbes with
  | nil => exact .ok _
  | cons i probes ih =>
      refine .bind ?_ fun bit => .bind ?_ fun b => ?_
      · unfold probe
        split_ifs
        · exact .panic
        · exact .ok _
      · unfold hasBit
        split
        · exact .ok _
        · exact .panic
      · split_ifs
        · exact ih
        · exact .ok _

namespace SSTable

theorem readFields_oneLine (reader : Bytes) :
    OneLine (readFields reader) :=
  have hprefixed : ∀ reader, OneLine (readPrefixed reader) := fun _ =>
    .bind (readExact_oneLine _ _) fun _ => readExact_oneLine _ _
  .bind (hprefixed _) fun _ => .bind (hprefixed _) fun _ =>
    .bind (readExact_oneLine _ _) fun _ => .ok _

theorem readBlock_oneLine (t : SSTable) (blockStart blockEnd : ℕ) :
    OneLine (t.readBlock blockStart blockEnd) := by
  unfold readBlock
  dsimp only
  split_ifs
  · exact .panic
  · exact .ok _
  · exact .bind (seekStart_oneLine _ _) fun _ =>
      .bind (readExact_oneLine _ _) fun _ => .ok _

theorem scanBlock_oneLine (key : Bytes) (blockEnd turns pos : ℕ)
    (reader : Bytes) : OneLine (scanBlock key blockEnd turns pos reader) := by
  induction turns generalizing pos reader with
  | zero => exact .ok _
  | succ turns ih =>
      rw [scanBlock]
      split_ifs with hpos
      · refine .bind (readFields_oneLine reader) fun fields => ?_
        dsimp only
        split_ifs
        · exact ih _ _
        · exact .ok _
        · exact .ok _
        · exact .ok _
        · exact .literal (by decide)
      · exact .ok _

/-- Every text that `SSTable::get` fails with is one line. -/
theorem get_oneLine (t : SSTable) (key : Bytes) (hash : UInt64) :
    OneLine (t.get key hash) := by
  unfold get
  split_ifs
  · exact .ok _
  · refine .bind (t.filter.contains_oneLine hash) fun contained => ?_
    split_ifs
    · exact .ok _
    · dsimp only
      split
      · exact .ok _
      · split
        · exact .panic
        · exact .bind (t.readBlock_oneLine _ _) fun _ =>
            scanBlock_oneLine _ _ _ _ _

end SSTable

/-- So is every text that `Db::get` fails with. -/
theorem Db.get_oneLine {hash : Bytes → UInt32} (db : Db (byteFormat hash))
    (key : Bytes) : OneLine (db.get key) := by
  unfold Db.get
  split
  · exact .ok _
  · rw [SSTableSet.get]
    induction db.sstableSet.sstables.reverse with
    | nil => exact .ok _
    | cons t older ih =>
        refine .bind (t.table.get_oneLine key _) fun found => ?_
        rcases found with _ | ⟨value⟩ | _
        · exact ih
        · exact .ok _
        · exact .ok _

variable {σ : Type} {ops : DbOps σ}

/-- The command names `dispatch` knows. -/
def knownNames : List Bytes :=
  ["PING", "ECHO", "QUIT", "COMMAND", "GET", "SET", "DEL"].map ascii

/-- An unknown command whose name, which the reply repeats, contains a
CRLF. -/
def EchoesCrlf (args : List Bytes) : Prop :=
  ∃ arg rest, args = arg :: rest ∧ toAsciiUppercase arg ∉ knownNames ∧
    crlf <:+: arg

/-- A call of `get` fails as `Db::get` does, or like any other with an error
of the operating system, which displays without a CRLF. -/
structure DbOps.FailsAsDb (ops : DbOps σ) : Prop where
  get : ∀ s key e, ops.get s key = .error e →
    (∃ (hash : Bytes → UInt32) (db : Db (byteFormat hash)),
      db.get key = .error (.io e)) ∨ ¬ crlf <:+: e.message
  put : ∀ s key value e, (ops.put s key value).1 = .error e →
    ¬ crlf <:+: e.message
  delete : ∀ s key e, (ops.delete s key).1 = .error e →
    ¬ crlf <:+: e.message

/-- The errors of the calls display without a CRLF. -/
structure DbOps.OneLineErrors (ops : DbOps σ) : Prop where
  get : ∀ db key e, ops.get db key = .error e → ¬ crlf <:+: e.message
  put : ∀ db key value e, (ops.put db key value).1 = .error e →
    ¬ crlf <:+: e.message
  delete : ∀ db key e, (ops.delete db key).1 = .error e →
    ¬ crlf <:+: e.message

theorem DbOps.FailsAsDb.oneLine (h : ops.FailsAsDb) :
    ops.OneLineErrors where
  get := by
    intro s key e hget
    rcases h.get s key e hget with ⟨hash, db, hdb⟩ | hline
    · exact db.get_oneLine key e hdb
    · exact hline
  put := h.put
  delete := h.delete

/-- The database on the machine does, if the error of a call that cannot be
carried out is one line. -/
theorem stepwise_failsAsDb (hash : Bytes → UInt32) {refused : IoError}
    (hrefused : ¬ crlf <:+: refused.message) :
    (stepwise (byteFormat hash) refused).FailsAsDb := by
  have hanswer : ∀ (s : State (byteFormat hash)) m e,
      (s.answer refused m).1 = .error e → ¬ crlf <:+: e.message := by
    intro s m e h
    unfold State.answer at h
    split at h
    · cases h
    · cases h
      exact hrefused
  constructor
  · intro s key e h
    simp only [stepwise] at h
    split at h
    · cases h
      exact Or.inr hrefused
    · next p hp =>
      split at h
      · cases h
      · next e' he =>
        cases h
        exact Or.inl ⟨hash, p.db, he⟩
      · cases h
        exact Or.inr hrefused
  · exact fun s key value e h => hanswer s _ e h
  · exact fun s key e h => hanswer s _ e h

/-! ## The text of error replies -/

/-- A CRLF in a text between two fixed texts is in the text itself, unless
one of the fixed texts brings part of it. -/
theorem crlf_infix_append_left {pre text : Bytes}
    (hpre : cr ∉ pre) : crlf <:+: pre ++ text ↔ crlf <:+: text :=
  Utf8.infix_pair_append hpre text

theorem crlf_infix_append_right {text post : Bytes}
    (hpost : cr ∉ post) (hhead : post.head? ≠ some lf) :
    crlf <:+: text ++ post ↔ crlf <:+: text := by
  induction text with
  | nil =>
      have hleft : ¬ crlf <:+: post :=
        fun h => hpost (h.subset (by simp [crlf]))
      exact iff_of_false hleft (by decide)
  | cons b text ih =>
      rw [List.cons_append, crlf_infix_cons, crlf_infix_cons, ih]
      cases text with
      | nil => simp [hhead]
      | cons c text => simp

theorem serverError_lineSafe {e : IoError} (he : ¬ crlf <:+: e.message) :
    (serverError e).LineSafe :=
  (crlf_infix_append_left (by decide)).not.mpr he

theorem unknownCommand_lineSafe_iff (arg : Bytes) :
    (unknownCommand arg).LineSafe ↔ ¬ crlf <:+: arg := by
  rw [unknownCommand, Reply.LineSafe, crlf_infix_append_left (by decide),
    crlf_infix_append_right (by decide) (by decide), crlf,
    Utf8.infix_lossy_iff (by decide) (by decide)]

theorem wrongArity_lineSafe {name : Bytes} (hname : name ∈ knownNames) :
    (wrongArity name).LineSafe := by
  have hall : ∀ name ∈ knownNames,
      ¬ crlf <:+: ascii "ERR wrong number of arguments for '" ++
        (toAsciiLowercase name ++ ascii "' command") := by
    decide
  exact hall name hname

theorem deleteKeys_lineSafe (hops : ops.OneLineErrors)
    (keys : List Bytes) (db : σ) (removed : ℤ) :
    (deleteKeys ops db keys removed).1.LineSafe := by
  induction keys generalizing db removed with
  | nil => trivial
  | cons key keys ih =>
      have hget := hops.get db key
      have hdelete := hops.delete db key
      rw [deleteKeys]
      cases hfound : ops.get db key with
      | error e => exact serverError_lineSafe (hget e hfound)
      | ok found =>
          cases found with
          | none => exact ih db removed
          | some value =>
              cases hres : ops.delete db key with
              | mk result db' =>
                  rw [hres] at hdelete
                  cases result with
                  | error e => exact serverError_lineSafe (hdelete e rfl)
                  | ok _ => exact ih db' (removed + 1)

theorem pingReply_lineSafe {name : Bytes} (hname : name ∈ knownNames)
    (rest : List Bytes) : (pingReply name rest).LineSafe := by
  match rest with
  | [] => exact fun hc => absurd hc (by decide)
  | [_] => trivial
  | _ :: _ :: _ => exact wrongArity_lineSafe hname

theorem echoReply_lineSafe {name : Bytes} (hname : name ∈ knownNames)
    (rest : List Bytes) : (echoReply name rest).LineSafe := by
  match rest with
  | [_] => trivial
  | [] | _ :: _ :: _ => exact wrongArity_lineSafe hname

theorem getReply_lineSafe (hops : ops.OneLineErrors) (db : σ)
    {name : Bytes} (hname : name ∈ knownNames) (rest : List Bytes) :
    (getReply ops db name rest).LineSafe := by
  match rest with
  | [key] =>
      rw [getReply]
      cases hget : ops.get db key with
      | error e => exact serverError_lineSafe (hops.get db key e hget)
      | ok found => cases found <;> trivial
  | [] | _ :: _ :: _ => exact wrongArity_lineSafe hname

theorem setReply_lineSafe (hops : ops.OneLineErrors) (db : σ)
    {name : Bytes} (hname : name ∈ knownNames) (rest : List Bytes) :
    (setReply ops db name rest).1.LineSafe := by
  match rest with
  | [key, value] =>
      have hput := hops.put db key value
      rw [setReply]
      cases hres : ops.put db key value with
      | mk result db' =>
          rw [hres] at hput
          cases result with
          | error e => exact serverError_lineSafe (hput e rfl)
          | ok _ => exact fun hc => absurd hc (by decide)
  | [] | [_] | _ :: _ :: _ :: _ => exact wrongArity_lineSafe hname

theorem delReply_lineSafe (hops : ops.OneLineErrors) (db : σ)
    {name : Bytes} (hname : name ∈ knownNames) (rest : List Bytes) :
    (delReply ops db name rest).1.LineSafe := by
  match rest with
  | [] => exact wrongArity_lineSafe hname
  | key :: keys => exact deleteKeys_lineSafe hops (key :: keys) db 0

/-! ## Every reply of `dispatch` -/

theorem mem_knownNames_iff (name : Bytes) :
    name ∈ knownNames ↔ name = ascii "PING" ∨ name = ascii "ECHO" ∨
      name = ascii "QUIT" ∨ name = ascii "COMMAND" ∨ name = ascii "GET" ∨
      name = ascii "SET" ∨ name = ascii "DEL" := by
  simp [knownNames]

theorem dispatch_known_lineSafe (hops : ops.OneLineErrors)
    {db db' : σ} {arg : Bytes} {rest : List Bytes} {r : Reply}
    (hknown : toAsciiUppercase arg ∈ knownNames)
    (h : dispatch ops db (arg :: rest) = (.reply r, db')) :
    r.LineSafe := by
  simp only [dispatch] at h
  split_ifs at h with h₁ h₂ h₃ h₄ h₅ h₆ h₇
  · cases h
    exact pingReply_lineSafe hknown rest
  · cases h
    exact echoReply_lineSafe hknown rest
  · cases h
  · cases h
    trivial
  · cases h
    exact getReply_lineSafe hops db hknown rest
  · cases h
    exact setReply_lineSafe hops db hknown rest
  · cases h
    exact delReply_lineSafe hops db hknown rest
  · -- The name is none of the seven.
    rw [mem_knownNames_iff] at hknown
    simp only [h₁, h₂, h₃, h₄, h₅, h₆, h₇, or_self] at hknown

theorem dispatch_unknown {db : σ} {arg : Bytes} {rest : List Bytes}
    (hunknown : toAsciiUppercase arg ∉ knownNames) :
    dispatch ops db (arg :: rest) = (.reply (unknownCommand arg), db) := by
  rw [mem_knownNames_iff] at hunknown
  simp only [not_or] at hunknown
  obtain ⟨h₁, h₂, h₃, h₄, h₅, h₆, h₇⟩ := hunknown
  simp only [dispatch, if_neg h₁, if_neg h₂, if_neg h₃, if_neg h₄,
    if_neg h₅, if_neg h₆, if_neg h₇]

/-- Every reply has safe lines, except the one to an unknown command whose
name contains a CRLF. -/
theorem dispatch_reply_cases (hops : ops.OneLineErrors)
    {db db' : σ} {args : List Bytes} {r : Reply}
    (h : dispatch ops db args = (.reply r, db')) :
    (r.LineSafe ∧ ¬ EchoesCrlf args) ∨
      (EchoesCrlf args ∧ ∃ text, r = .error text ∧ crlf <:+: text) := by
  cases args with
  | nil => cases h
  | cons arg rest =>
      by_cases hknown : toAsciiUppercase arg ∈ knownNames
      · left
        refine ⟨dispatch_known_lineSafe hops hknown h, ?_⟩
        rintro ⟨arg', rest', heq, hunknown, -⟩
        obtain ⟨rfl, rfl⟩ := List.cons.inj heq
        exact hunknown hknown
      · rw [dispatch_unknown hknown] at h
        cases h
        have hiff := unknownCommand_lineSafe_iff arg
        by_cases hcrlf : crlf <:+: arg
        · right
          refine ⟨⟨arg, rest, rfl, hknown, hcrlf⟩, _, rfl, ?_⟩
          exact not_not.mp (hiff.not.mpr (not_not.mpr hcrlf))
        · left
          refine ⟨hiff.mpr hcrlf, ?_⟩
          rintro ⟨arg', rest', heq, -, h'⟩
          obtain ⟨rfl, rfl⟩ := List.cons.inj heq
          exact hcrlf h'

theorem dispatch_ne_nothing {db db' : σ} {args : List Bytes}
    (hargs : args ≠ []) : dispatch ops db args ≠ (.nothing, db') := by
  cases args with
  | nil => exact absurd rfl hargs
  | cons arg rest =>
      simp only [dispatch]
      split_ifs <;> simp

/-! ## One reply -/

/-- The bytes are exactly one reply of the grammar. -/
def IsOneReply (out : Bytes) : Prop :=
  ∃ r, readReply out = some (r, [])

theorem isOneReply_writeTo {r : Reply} (hr : r.LineSafe) :
    IsOneReply r.writeTo := by
  have hdepth := r.depth_lt_length
  have hread := readReplyWith_writeTo r hr
    (show r.depth < r.writeTo.length + 1 by omega) []
  rw [List.append_nil] at hread
  exact ⟨r, hread⟩

theorem not_isOneReply_error {text : Bytes} (htext : crlf <:+: text) :
    ¬ IsOneReply (Reply.error text).writeTo := by
  rintro ⟨r, hr⟩
  obtain ⟨before, after, -, hread⟩ := readReplyWith_error_of_infix htext
    (Reply.error text).writeTo.length []
  rw [List.append_nil] at hread
  rw [readReply, hread] at hr
  have hrest := congrArg (fun p => p.2.length) (Option.some.inj hr)
  simp [crlf] at hrest

/-! ## A connection -/

/-- The bytes sent on a connection are the replies, one after the other. -/
theorem serveLoop_output {commands : List WireCommand}
    (hcommands : ∀ c ∈ commands, c.Valid ∧ c.args ≠ [])
    {turns : ℕ} (hturns : commands.length < turns) (db : σ) :
    (serveLoop ops turns db (encodeAll commands)).output =
      Reply.writeItems
        (answers ops db (commands.map WireCommand.args)) := by
  induction commands generalizing turns db with
  | nil =>
      obtain ⟨turns, rfl⟩ : ∃ n, turns = n + 1 := ⟨turns - 1, by omega⟩
      rfl
  | cons c commands ih =>
      obtain ⟨turns, rfl⟩ : ∃ n, turns = n + 1 := ⟨turns - 1, by omega⟩
      obtain ⟨⟨hc, hargs⟩, hcommands⟩ := List.forall_mem_cons.mp hcommands
      have hsplit : encodeAll (c :: commands) =
          c.encode ++ encodeAll commands := by
        simp [encodeAll]
      have hlater := fun db => ih hcommands
        (Nat.lt_of_succ_lt_succ hturns) db
      rw [hsplit, serveLoop, readCommand_encode hc, List.map_cons, answers]
      dsimp only
      cases hres : dispatch ops db c.args with
      | mk outcome db' =>
          cases outcome with
          | nothing => exact absurd hres (dispatch_ne_nothing hargs)
          | quit => simp [Reply.writeItems]
          | reply r =>
              dsimp only
              rw [hlater db', Reply.writeItems]

theorem encode_length_pos (c : WireCommand) : 0 < c.encode.length := by
  cases c <;> simp [WireCommand.encode, crlf]

theorem length_le_encodeAll (commands : List WireCommand) :
    commands.length ≤ (encodeAll commands).length := by
  induction commands with
  | nil => simp
  | cons c commands ih =>
      have hc := encode_length_pos c
      simp only [encodeAll, List.flatMap_cons, List.length_append,
        List.length_cons] at ih ⊢
      omega

theorem readReplyWith_ok (fuel : ℕ) :
    readReplyWith (fuel + 1) (Reply.simple (ascii "OK")).writeTo =
      some (.simple (ascii "OK"), []) := by
  have hread := readReplyWith_writeTo (.simple (ascii "OK"))
    (fun hc => absurd hc (by decide)) (Nat.succ_pos fuel) []
  rwa [List.append_nil] at hread

/-- An error that contains a CRLF is not what the client reads. -/
theorem readReplyWith_error_ne {text : Bytes} (htext : crlf <:+: text)
    {fuel : ℕ} {rest : Bytes} {p : Reply × Bytes}
    (h : readReplyWith (fuel + 1) ((Reply.error text).writeTo ++ rest) =
      some p) : p.1 ≠ .error text := by
  obtain ⟨before, after, heq, hread⟩ :=
    readReplyWith_error_of_infix htext fuel rest
  rw [hread] at h
  rw [← Option.some.inj h]
  intro hsame
  have hlen := congrArg List.length ((Reply.error.inj hsame).trans heq)
  simp [crlf] at hlen

/-- A client that reads as many replies as were sent gets the replies that
were sent, up to the first command whose echo ends its own line. -/
theorem readItems_answers_iff (hops : ops.OneLineErrors)
    {commands : List (List Bytes)} (hne : ∀ args ∈ commands, args ≠ [])
    (db : σ) {fuel : ℕ}
    (hfuel : Reply.itemsDepth (answers ops db commands) < fuel) :
    readItems (readReplyWith fuel) (answers ops db commands).length
        (Reply.writeItems (answers ops db commands)) =
      some (answers ops db commands, []) ↔
    ∀ args ∈ commands.take (answers ops db commands).length,
      ¬ EchoesCrlf args := by
  obtain ⟨fuel, rfl⟩ : ∃ n, fuel = n + 1 := ⟨fuel - 1, by omega⟩
  induction commands generalizing db with
  | nil => simp [answers, readItems, Reply.writeItems]
  | cons args commands ih =>
      obtain ⟨hargs, hne⟩ := List.forall_mem_cons.mp hne
      rw [answers] at hfuel ⊢
      cases hres : dispatch ops db args with
      | mk outcome db' =>
          rw [hres] at hfuel
          cases outcome with
          | nothing => exact absurd hres (dispatch_ne_nothing hargs)
          | quit =>
              have hknown : ¬ EchoesCrlf args := by
                rintro ⟨arg, rest, rfl, hunknown, -⟩
                rw [dispatch_unknown hunknown] at hres
                cases hres
              simp [Reply.writeItems, readItems, readReplyWith_ok, hknown]
          | reply r =>
              simp only [Reply.itemsDepth] at hfuel
              have hhead : r.depth < fuel + 1 := by omega
              have htail : Reply.itemsDepth (answers ops db' commands) <
                  fuel + 1 := by omega
              have hlater := ih hne db' htail
              simp only [List.length_cons, List.take_succ_cons,
                List.forall_mem_cons, Reply.writeItems, readItems]
              rcases dispatch_reply_cases hops hres with
                ⟨hsafe, hquiet⟩ | ⟨hecho, text, rfl, htext⟩
              · rw [readReplyWith_writeTo r hsafe hhead]
                simp only [hquiet, not_false_iff, true_and, ← hlater,
                  Option.bind_eq_bind, Option.bind_some]
                cases readItems (readReplyWith (fuel + 1))
                    (answers ops db' commands).length
                    (Reply.writeItems (answers ops db' commands)) with
                | none => simp
                | some p => simp [Prod.ext_iff]
              · -- The client reads a shorter error in place of this one.
                refine iff_of_false ?_ (fun h => h.1 hecho)
                intro h
                obtain ⟨p, hp, hrest⟩ := Option.bind_eq_some_iff.mp h
                obtain ⟨q, -, hq⟩ := Option.bind_eq_some_iff.mp hrest
                have hitems := congrArg Prod.fst (Option.some.inj hq)
                exact readReplyWith_error_ne htext hp (List.cons.inj hitems).1

/-- The replies a client reads off a connection are the ones sent on it, and
each is one reply of the grammar, exactly when no command echoes a CRLF. -/
theorem replies_wellFormed_iff (ops : DbOps σ) (hfails : ops.FailsAsDb)
    (db : σ) :
    (∀ args r db', dispatch ops db args = (.reply r, db') →
      (IsOneReply r.writeTo ↔ ¬ EchoesCrlf args)) ∧
    (∀ commands : List WireCommand,
      (∀ c ∈ commands, c.Valid ∧ c.args ≠ []) →
      let sent := answers ops db (commands.map WireCommand.args)
      readReplies sent.length
          (serveConnection ops db (encodeAll commands)).output =
        some (sent, []) ↔
      ∀ args ∈ (commands.map WireCommand.args).take sent.length,
        ¬ EchoesCrlf args) := by
  constructor
  · intro args r db' h
    rcases dispatch_reply_cases hfails.oneLine h with
      ⟨hsafe, hquiet⟩ | ⟨hecho, text, rfl, htext⟩
    · exact iff_of_true (isOneReply_writeTo hsafe) hquiet
    · exact iff_of_false (not_isOneReply_error htext) (not_not.mpr hecho)
  · intro commands hcommands sent
    have hturns := Nat.lt_succ_of_le (length_le_encodeAll commands)
    have hne : ∀ args ∈ commands.map WireCommand.args, args ≠ [] := by
      intro args hargs
      obtain ⟨c, hc, rfl⟩ := List.mem_map.mp hargs
      exact (hcommands c hc).2
    have hdepth := Reply.itemsDepth_le_length sent
    rw [serveConnection, serveLoop_output hcommands hturns, readReplies]
    exact readItems_answers_iff hfails.oneLine hne db
      (Nat.lt_succ_of_le hdepth)

/-- Binary data, and an unknown command. -/
def setGetFoo : List WireCommand :=
  [.array [ascii "SET", ascii "k", crlf], .array [ascii "get", ascii "k"],
    .array [ascii "FOO"], .array [ascii "QUIT"]]

theorem replies_wellFormed_pipeline :
    let ops := stepwise (byteFormat crc32) ⟨.other, ascii "disk full"⟩
    ∃ s, (State.initial (byteFormat crc32)).exec
        [.recover Config.default []] = some s ∧
      let sent := answers ops s (setGetFoo.map WireCommand.args)
      sent.length = 4 ∧
        readReplies sent.length
            (serveConnection ops s (encodeAll setGetFoo)).output =
          some (sent, []) := by
  intro ops
  have hends : endsIdle ((State.initial (byteFormat crc32)).exec
      [.recover Config.default []]) = true := by
    decide +kernel
  obtain ⟨s, p, hrun, -, -⟩ := exists_of_endsIdle hends
  refine ⟨s, hrun, ?_, ?_⟩
  · refine observed hrun (f := fun s =>
      (answers ops s (setGetFoo.map WireCommand.args)).length) ?_
    decide +kernel
  · have hfails : ops.FailsAsDb := stepwise_failsAsDb crc32 (by decide)
    apply ((replies_wellFormed_iff ops hfails s).2 setGetFoo
      (by decide)).mpr
    have hquiet : ∀ args ∈ setGetFoo.map WireCommand.args,
        ∀ arg ∈ args.head?, ¬ crlf <:+: arg := by
      decide
    rintro args hargs ⟨arg, rest, rfl, -, hcrlf⟩
    exact hquiet _ (List.mem_of_mem_take hargs) arg rfl hcrlf

/-- A database with one key, whose calls never fail. -/
def singleKeyOps : DbOps (Option Bytes) where
  get db key := .ok (if key = ascii "k" then db else none)
  put db key value :=
    (.ok (), if key = ascii "k" then some value else db)
  delete db key := (.ok (), if key = ascii "k" then none else db)

/-- The reply to a command named `FOO\r\nBAR` is not one reply: the client
reads an error that stops at the echoed CRLF, with bytes left over. -/
theorem unknown_command_splits_reply :
    let name := ascii "FOO" ++ (crlf ++ ascii "BAR")
    dispatch singleKeyOps none [name] = (.reply (unknownCommand name), none) ∧
      ¬ IsOneReply (unknownCommand name).writeTo ∧
      readReply (unknownCommand name).writeTo =
        some (.error (ascii "ERR unknown command 'FOO"),
          ascii "BAR'" ++ crlf) := by
  refine ⟨rfl, ?_, rfl⟩
  exact not_isOneReply_error (by decide)

end Lsmrs
