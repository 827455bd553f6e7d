import Lsmrs.Server.Del

/-!
# The server on the machine

The calls that `dispatch` makes on its database, as runs of the machine, and
what `DEL` replies over them.
-/

namespace Lsmrs

open ByteString OrderedMap

variable {F : Format} {Ok : Mutation → Prop} {hist : List Mutation}

/-- The calls on an open database: a lookup gives what `get` reads, and a
`put` or `delete` that returns `Ok` is a call among steps of the
compactor. -/
structure DbOps.OnMachine (ops : DbOps (State F)) : Prop where
  get : ∀ {s : State F} {p : Process F} {key : Bytes} {found : Option Bytes},
    s.process = some p → p.db.get key = .ok found → ops.get s key = .ok found
  put : ∀ {s s' : State F} {key value : Bytes}, s.Idle →
    ops.put s key value = (.ok (), s') →
      ∃ labels, Call s (.insert key value) labels s'
  delete : ∀ {s s' : State F} {key : Bytes}, s.Idle →
    ops.delete s key = (.ok (), s') →
      ∃ labels, Call s (.delete key) labels s'

/-! ## Calls that nothing interrupts -/

/-- The step that a call without errors takes next. -/
def Writer.next : Writer F → Option (WriteStep F)
  | .idle => none
  | .logged _ => some .apply
  | .flushing => some .create
  | .created _ _ => some .rename
  | .published _ _ => some .register
  | .registered => some .truncate

/-- The rest of a call, without errors and without steps of the
compactor. -/
def State.finish : ℕ → State F → Option (State F)
  | 0, _ => none
  | turns + 1, s => do
    let p ← s.process
    match p.writer.next with
    | none => return s
    | some l =>
      let s ← s.step (.write l)
      finish turns s

/-- A call whose steps follow on one another; a flush takes five. -/
def State.call (s : State F) (m : Mutation) : Option (State F) := do
  let s ← s.step (.write (.append m))
  s.finish 6

/-- What a call returns, where one that cannot return is refused. -/
def State.answer (s : State F) (refused : IoError) (m : Mutation) :
    Except IoError Unit × State F :=
  match s.call m with
  | some s' => (.ok (), s')
  | none => (.error refused, s)

/-- A database whose compactor waits for the end of each call. -/
def stepwise (F : Format) (refused : IoError) : DbOps (State F) where
  get s key :=
    match s.process with
    | none => .error refused
    | some p =>
      match p.db.get key with
      | .ok found => .ok found
      | .error (.io e) => .error e
      | .error .panic => .error refused
  put s key value := s.answer refused (.insert key value)
  delete s key := s.answer refused (.delete key)

theorem Writer.next_running {w : Writer F} {l : WriteStep F}
    (h : w.next = some l) : (Label.write l).Running ∧
      (Label.write l).Faultless ∧ (Label.write l).logged = none := by
  cases w with
  | idle => cases h
  | _ =>
      obtain rfl := Option.some.inj h
      exact ⟨trivial, trivial, rfl⟩

theorem Writer.next_eq_none {w : Writer F} (h : w.next = none) :
    w = .idle := by
  cases w with
  | idle => rfl
  | _ => cases h

theorem State.finish_exec {turns : ℕ} {s s' : State F}
    (h : s.finish turns = some s') :
    ∃ labels, s.exec labels = some s' ∧
      (∀ l ∈ labels, l.Running ∧ l.Faultless) ∧ history labels = [] ∧
        s'.Idle := by
  induction turns generalizing s with
  | zero => cases h
  | succ turns ih =>
      obtain ⟨disk, process⟩ := s
      cases process with
      | none => cases h
      | some p =>
          simp only [State.finish, Option.bind_eq_bind,
            Option.bind_some] at h
          cases hnext : p.writer.next with
          | none =>
              rw [hnext] at h
              obtain rfl := Option.some.inj h
              exact ⟨[], rfl, List.forall_mem_nil _, rfl, p, rfl,
                Writer.next_eq_none hnext⟩
          | some l =>
              rw [hnext] at h
              obtain ⟨mid, hstep, hrest⟩ := Option.bind_eq_some_iff.mp h
              obtain ⟨labels, hexec, hthreads, hnone, hidle⟩ := ih hrest
              obtain ⟨hrunning, hfaultless, hlogged⟩ :=
                Writer.next_running hnext
              refine ⟨.write l :: labels,
                State.exec_cons.mpr ⟨mid, hstep, hexec⟩,
                List.forall_mem_cons.mpr ⟨⟨hrunning, hfaultless⟩, hthreads⟩,
                ?_, hidle⟩
              rw [history_cons, hlogged, hnone]
              rfl

theorem State.call_runs {s s' : State F} {m : Mutation}
    (h : s.call m = some s') : ∃ labels, Call s m labels s' := by
  obtain ⟨mid, hstep, hrest⟩ := Option.bind_eq_some_iff.mp h
  obtain ⟨labels, hexec, hthreads, hnone, hidle⟩ := State.finish_exec hrest
  refine ⟨.write (.append m) :: labels, ?_⟩
  constructor
  case runs => exact State.exec_cons.mpr ⟨mid, hstep, hexec⟩
  case threads =>
    exact List.forall_mem_cons.mpr ⟨⟨trivial, trivial⟩, hthreads⟩
  case logs =>
    rw [history_cons, hnone]
    rfl
  case returns => exact hidle

theorem State.answer_runs {s s' : State F} {refused : IoError}
    {m : Mutation} (h : s.answer refused m = (.ok (), s')) :
    ∃ labels, Call s m labels s' := by
  unfold State.answer at h
  split at h
  next next hcall =>
    obtain ⟨-, rfl⟩ := Prod.mk.inj h
    exact State.call_runs hcall
  next => cases h

theorem stepwise_onMachine (refused : IoError) :
    (stepwise F refused).OnMachine where
  get := by
    intro s p key found hp hget
    simp only [stepwise, hp, hget]
  put := fun _ h => State.answer_runs h
  delete := fun _ h => State.answer_runs h

theorem State.finish_next {disk disk' : Disk F} {p p' : Process F}
    {l : WriteStep F} (hnext : p.writer.next = some l)
    (h : WriteTurn disk p l disk' p') (turns : ℕ) :
    State.finish (turns + 1) ⟨disk, some p⟩ =
      State.finish turns ⟨disk', some p'⟩ := by
  simp only [State.finish, Option.bind_eq_bind, Option.bind_some, hnext,
    h.step_eq]

theorem State.finish_idle {disk : Disk F} {p : Process F}
    (hidle : p.writer = .idle) (turns : ℕ) :
    State.finish (turns + 1) ⟨disk, some p⟩ = some ⟨disk, some p⟩ := by
  have hnext : p.writer.next = none := by rw [hidle]; rfl
  simp only [State.finish, Option.bind_eq_bind, Option.bind_some, hnext]
  rfl

/-- The flush that a call may come to has a number left and can write its
table. -/
def Process.CanFlush (p : Process F) (m : Mutation) : Prop :=
  p.db.config.tableSize < (p.db.apply m).size →
    p.db.sstableSet.nextSeq < u64Max ∧
      ∃ file table, F.writeTable p.db.sstableSet.bitsPerKey
        (p.db.apply m).map.entries = .ok (file, table)

theorem State.call_returns {s : State F} {p : Process F}
    (hp : s.process = some p) (hidle : p.writer = .idle) {m : Mutation}
    (hflush : p.CanFlush m) : ∃ s', s.call m = some s' := by
  obtain ⟨disk, process⟩ := s
  obtain rfl : process = some p := hp
  have happend : WriteTurn disk p (.append m) _ _ := .append hidle
  have hcall : State.call ⟨disk, some p⟩ m = State.finish 6
      ⟨{ disk with log := F.append disk.log m },
        some { p with writer := .logged m }⟩ := by
    simp only [State.call, Option.bind_eq_bind, happend.step_eq,
      Option.bind_some]
  rw [hcall, State.finish_next rfl (.apply rfl)]
  dsimp only
  by_cases hsize : (p.db.apply m).config.tableSize < (p.db.apply m).size
  · obtain ⟨hseq, file, table, hwrite⟩ := hflush hsize
    have hne : (p.db.apply m).map.entries ≠ [] := by
      intro hnil
      have hself : (p.db.apply m).map.get? m.key = some m.value := by
        rw [get?_apply, if_pos rfl]
      have hmem := mem_entries_iff.mpr hself
      rw [hnil] at hmem
      cases hmem
    rw [if_pos hsize, State.finish_next rfl (.create rfl hne hwrite),
      State.finish_next rfl (.rename rfl),
      State.finish_next rfl (.register rfl hseq),
      State.finish_next rfl (.truncate rfl), State.finish_idle rfl]
    exact ⟨_, rfl⟩
  · rw [if_neg hsize, State.finish_idle rfl]
    exact ⟨_, rfl⟩

/-! ## What `DEL` replies -/

/-- The reply of `DEL`: the count of a run of its loop, or the error of the
deletion that stopped it. -/
inductive DelAnswers (ops : DbOps (State F)) (s : State F) (removed : ℤ) :
    List Bytes → Reply → State F → Prop
  | counted {s' : State F} {keys : List Bytes} {n : ℤ}
      {labels : List (Label F)}
      (hrun : DelRuns s keys removed labels n s') :
    DelAnswers ops s removed keys (.integer n) s'
  | failed {s₁ s' : State F} {p₁ : Process F} {keys later : List Bytes}
      {key value : Bytes} {n : ℤ} {labels : List (Label F)} {e : IoError}
      (hrun : DelRuns s keys removed labels n s₁)
      (hp : s₁.process = some p₁) (hget : p₁.db.get key = .ok (some value))
      (hdelete : ops.delete s₁ key = (.error e, s')) :
    DelAnswers ops s removed (keys ++ key :: later) (serverError e) s'

theorem DelAnswers.absent {ops : DbOps (State F)} {s s' : State F}
    {p : Process F} {removed : ℤ} {key : Bytes} {keys : List Bytes}
    {r : Reply} (h : DelAnswers ops s removed keys r s')
    (hp : s.process = some p) (hget : p.db.get key = .ok none) :
    DelAnswers ops s removed (key :: keys) r s' := by
  cases h with
  | counted hrun => exact .counted (.absent hp hget hrun)
  | failed hrun hp₁ hget₁ hdelete =>
      exact .failed (.absent hp hget hrun) hp₁ hget₁ hdelete

theorem DelAnswers.found {ops : DbOps (State F)} {s s₁ s' : State F}
    {p : Process F} {removed : ℤ} {key value : Bytes} {keys : List Bytes}
    {called : List (Label F)} {r : Reply}
    (h : DelAnswers ops s₁ (removed + 1) keys r s')
    (hp : s.process = some p) (hget : p.db.get key = .ok (some value))
    (hcall : Call s (.delete key) called s₁) :
    DelAnswers ops s removed (key :: keys) r s' := by
  cases h with
  | counted hrun => exact .counted (.found hp hget hcall hrun)
  | failed hrun hp₁ hget₁ hdelete =>
      exact .failed (.found hp hget hcall hrun) hp₁ hget₁ hdelete

/-- A count is that of a run. -/
theorem DelAnswers.exists_run {ops : DbOps (State F)} {s s' : State F}
    {removed n : ℤ} {keys : List Bytes}
    (h : DelAnswers ops s removed keys (.integer n) s') :
    ∃ labels, DelRuns s keys removed labels n s' := by
  cases h with
  | counted hrun => exact ⟨_, hrun⟩

theorem deleteKeys_answers (hF : F.Lawful Ok) (hreplays : F.ReplaysOk Ok)
    {ops : DbOps (State F)} (hops : ops.OnMachine) {s : State F}
    (h : Follows Ok hist s) (hs : s.Idle) (keys : List Bytes)
    (removed : ℤ) :
    DelAnswers ops s removed keys (deleteKeys ops s keys removed).1
      (deleteKeys ops s keys removed).2 := by
  induction keys generalizing s hist removed with
  | nil => exact .counted .done
  | cons key keys ih =>
      obtain ⟨p, hp, -⟩ := id hs
      have hget := h.get_eq hs hp key
      rw [deleteKeys, hops.get hp hget]
      cases hvalue : plainMap hist key with
      | none =>
          rw [hvalue] at hget
          exact (ih h hs removed).absent hp hget
      | some value =>
          rw [hvalue] at hget
          dsimp only
          cases hdelete : ops.delete s key with
          | mk result s₁ =>
              cases result with
              | error e => exact .failed .done hp hget hdelete
              | ok =>
                  obtain ⟨called, hcall⟩ := hops.delete hs hdelete
                  have hlogs := hcall.logs
                  have hnext : Follows Ok (hist ++ history called) s₁ := by
                    refine h.exec_running hF
                      (fun l hl => (hcall.threads l hl).1) ?_ hcall.runs
                    rw [hlogs]
                    exact List.forall_mem_singleton.mpr
                      (h.delete_ok hreplays hvalue)
                  exact (ih hnext hcall.returns (removed + 1)).found hp hget
                    hcall

theorem dispatch_del {σ : Type} (ops : DbOps σ) (db : σ) {name key : Bytes}
    {keys : List Bytes} (hname : toAsciiUppercase name = ascii "DEL") :
    dispatch ops db (name :: key :: keys) =
      (.reply (deleteKeys ops db (key :: keys) 0).1,
        (deleteKeys ops db (key :: keys) 0).2) := by
  unfold dispatch
  dsimp only
  rw [hname, if_neg (by decide), if_neg (by decide), if_neg (by decide),
    if_neg (by decide), if_neg (by decide), if_neg (by decide),
    if_pos rfl]
  rfl

/-- Whenever `DEL` comes to a key that is there, the flush for it can be
made. -/
def State.CanDelete (s : State F) (keys : List Bytes) : Prop :=
  ∀ (before later : List Bytes) (key value : Bytes) (run : List (Label F))
    (n : ℤ) (s₁ : State F) (p₁ : Process F), keys = before ++ key :: later →
      DelRuns s before 0 run n s₁ → s₁.process = some p₁ →
        p₁.db.get key = .ok (some value) → p₁.CanFlush (.delete key)

/-- A deletion of `stepwise` fails only at a flush. -/
theorem DelAnswers.eq_integer {refused : IoError} {s s' : State F}
    {keys : List Bytes} {r : Reply}
    (h : DelAnswers (stepwise F refused) s 0 keys r s') (hs : s.Idle)
    (hflush : s.CanDelete keys) : ∃ n, r = .integer n := by
  cases h with
  | counted hrun => exact ⟨_, rfl⟩
  | @failed s₁ s' p₁ before later key value n labels e hrun hp₁ hget
      hdelete =>
      obtain ⟨q, hq, hidle⟩ := hrun.idle hs
      obtain rfl := Option.some.inj (hp₁.symm.trans hq)
      have hcan := hflush _ _ key value labels n s₁ p₁ rfl hrun hp₁ hget
      obtain ⟨s₂, hcall⟩ := State.call_returns hp₁ hidle hcan
      have hanswer : (stepwise F refused).delete s₁ key = (.ok (), s₂) := by
        simp only [stepwise, State.answer, hcall]
      cases hanswer.symm.trans hdelete

/-- In every state that a run reaches between two calls, `DEL` replies with
the number of the listed keys that are there, deletes these and leaves the
rest, or stops at a deletion that fails; left alone, it stops at no other
than a flush that cannot be made. -/
def DelExact (F : Format) (Ok : Mutation → Prop) : Prop :=
  ∀ (labels : List (Label F)) (s : State F) (p : Process F)
    (keys : List Bytes), (∀ m ∈ history labels, Ok m) →
      (State.initial F).exec labels = some s → s.process = some p →
        p.writer = .idle →
    (∀ run n s', DelRuns s keys 0 run n s' →
      ∃ p' live, s'.process = some p' ∧ p'.writer = .idle ∧
        DelDeletes p p' keys live run n) ∧
    (∀ ops : DbOps (State F), ops.OnMachine → ∀ name,
      toAsciiUppercase name = ascii "DEL" → keys ≠ [] →
        ∃ r s', dispatch ops s (name :: keys) = (.reply r, s') ∧
          DelAnswers ops s 0 keys r s') ∧
    ∀ refused name, toAsciiUppercase name = ascii "DEL" → keys ≠ [] →
      s.CanDelete keys → ∃ n s',
        dispatch (stepwise F refused) s (name :: keys) =
          (.reply (.integer n), s')

theorem delExact_of_lawful (hF : F.Lawful Ok) (hreplays : F.ReplaysOk Ok) :
    DelExact F Ok := by
  intro labels s p keys hok hexec hp hidle
  obtain ⟨hist, h⟩ := exec_follows hF hreplays follows_initial hok hexec
  have hs : s.Idle := ⟨p, hp, hidle⟩
  refine ⟨?_, ?_, ?_⟩
  · intro run n s' hrun
    exact hrun.deletes hF hreplays h hp hidle
  · intro ops hops name hname hne
    obtain ⟨key, keys, rfl⟩ := List.exists_cons_of_ne_nil hne
    exact ⟨_, _, dispatch_del ops s hname,
      deleteKeys_answers hF hreplays hops h hs _ 0⟩
  · intro refused name hname hne hflush
    obtain ⟨key, keys, rfl⟩ := List.exists_cons_of_ne_nil hne
    obtain ⟨n, hn⟩ := DelAnswers.eq_integer (deleteKeys_answers hF hreplays
      (stepwise_onMachine refused) h hs (key :: keys) 0) hs hflush
    have hreply := @dispatch_del _ (stepwise F refused) s name key keys hname
    rw [hn] at hreply
    exact ⟨n, _, hreply⟩

theorem del_exact (hash : Bytes → UInt32) :
    DelExact listFormat (fun _ => True) ∧
      DelExact (byteFormat hash) fun m => m.record.Fits :=
  ⟨delExact_of_lawful listFormat_lawful listFormat_replaysOk,
    delExact_of_lawful (byteFormat_lawful hash) (byteFormat_replaysOk hash)⟩

/-- Three keys, one of which is deleted, each call with its flush. -/
def oneDeleted : List (Label F) :=
  .recover flushEach [] ::
    (flushedCall (.insert (ascii "foo") (ascii "bar")) ++
      (flushedCall (.insert (ascii "omar") (ascii "ashour")) ++
        (flushedCall (.insert (ascii "gone") (ascii "x")) ++
          flushedCall (.delete (ascii "gone")))))

def Outcome.count : Outcome → Option ℤ
  | .reply (.integer n) => some n
  | _ => none

theorem Outcome.eq_of_count {o : Outcome} {n : ℤ} (h : o.count = some n) :
    o = .reply (.integer n) := by
  unfold Outcome.count at h
  split at h
  next => rw [Option.some.inj h]
  next => cases h

theorem del_exact_oneDeleted :
    ∃ s p run live s' p',
      (State.initial (byteFormat crc32)).exec oneDeleted = some s ∧
      dispatch (stepwise _ ⟨.other, []⟩) s
        ([ascii "del", ascii "foo", ascii "gone", ascii "foo",
          ascii "absent", ascii "omar"]) = (.reply (.integer 2), s') ∧
      s'.process = some p' ∧
      DelDeletes p p' [ascii "foo", ascii "gone", ascii "foo",
        ascii "absent", ascii "omar"] live run 2 := by
  have hends : endsIdle ((State.initial (byteFormat crc32)).exec
      oneDeleted) = true := by
    decide +kernel
  obtain ⟨s, p, hrun, hp, hidle⟩ := exists_of_endsIdle hends
  obtain ⟨hruns, hreplies, -⟩ := (del_exact crc32).2 oneDeleted s p
    [ascii "foo", ascii "gone", ascii "foo", ascii "absent", ascii "omar"]
    (by decide +kernel) hrun hp hidle
  obtain ⟨r, s', hreply, hanswers⟩ := hreplies _
    (stepwise_onMachine ⟨.other, []⟩) (ascii "del") (by decide)
    (List.cons_ne_nil _ _)
  have hcount : (dispatch (stepwise _ ⟨.other, []⟩) s
      [ascii "del", ascii "foo", ascii "gone", ascii "foo", ascii "absent",
        ascii "omar"]).1.count = some 2 := by
    refine observed hrun (f := fun s =>
      (dispatch (stepwise _ ⟨.other, []⟩) s
        [ascii "del", ascii "foo", ascii "gone", ascii "foo",
          ascii "absent", ascii "omar"]).1.count) ?_
    decide +kernel
  have hreply' := Outcome.eq_of_count hcount
  rw [hreply] at hreply'
  obtain rfl := Outcome.reply.inj hreply'
  obtain ⟨run, hrun'⟩ := hanswers.exists_run
  obtain ⟨p', live, hp', -, hdeletes⟩ := hruns _ _ _ hrun'
  exact ⟨s, p, run, live, s', p', hrun, hreply, hp', hdeletes⟩

end Lsmrs
