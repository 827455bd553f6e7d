import Lsmrs.Cli.Attempts
import Lsmrs.Cli.Dialogue
import Lsmrs.Db.Scan

/-!
# Sessions of the shell

A session of the shell over a database whose compactor works between and
within its calls is a dialogue about the texts that are typed.
-/

namespace Lsmrs

open ByteString OrderedMap

variable {F : Format} {Ok : Mutation → Prop} {hist : List Mutation}

/-- The calls on an open database: a lookup gives what `get` reads or fails,
a scan what is in the memtable, and a `put` or `delete` is a call among steps
of the compactor. -/
structure CliOps.OnMachine (ops : CliOps (State F)) : Prop where
  get : ∀ {s : State F} {p : Process F} {key : Bytes}
    {found answer : Option Bytes}, s.process = some p →
      p.db.get key = .ok found → ops.get s key = .ok answer → answer = found
  scan : ∀ {s : State F} {p : Process F}, s.process = some p →
    ops.scan s = p.db.scan
  put : ∀ {s : State F} (key value : Bytes), s.Idle →
    ∃ labels, Attempt s (.insert key value) (ops.put s key value).1 labels
      (ops.put s key value).2
  delete : ∀ {s : State F} (key : Bytes), s.Idle →
    ∃ labels, Attempt s (.delete key) (ops.delete s key).1 labels
      (ops.delete s key).2

/-! ## Between two inputs -/

/-- The database is open, no call is under way, and it holds the notes. -/
structure Rests (Ok : Mutation → Prop) (s : State F) (n : Notes) : Prop where
  follows : ∃ hist, Follows Ok hist s
  isOpen : ∃ p, s.process = some p ∧ p.writer = .idle ∧ p.Holds n

theorem Process.Holds.encodes {s : State F} {p : Process F} {n : Notes}
    (h : p.Holds n) (hfollows : Follows Ok hist s)
    (hp : s.process = some p) (hidle : p.writer = .idle) :
    Encodes (plainMap hist) n.text := by
  obtain ⟨map, hmap, hencodes⟩ := h.reads
  have heq : map = plainMap hist := by
    funext key
    have hget := hfollows.readsAs p hp hidle key
    rw [hmap key] at hget
    exact Except.ok.inj hget
  rwa [heq] at hencodes

/-- What a call leaves of the notes. -/
theorem Rests.attempt (hF : F.Lawful Ok) {s s' : State F} {n : Notes}
    (h : Rests Ok s n) {m : Mutation} (hm : Ok m)
    {result : Except IoError Unit} {labels : List (Label F)}
    (hcall : Attempt s m result labels s') (key : Text)
    (value : Option Text) (hkey : m.key = Utf8.encode key)
    (hvalue : m.value = value.map Utf8.encode) :
    ∃ n', Rests Ok s' n' ∧ n.MayWrite key value n' ∧
      (result = .ok () → n.Writes key value n') := by
  obtain ⟨⟨hist, hfollows⟩, p, hp, hidle, hholds⟩ := h
  have hencodes := hholds.encodes hfollows hp hidle
  obtain ⟨p', hp', hidle'⟩ := hcall.returns
  have hlogs : history labels <+: [m] := by
    rcases hcall.logs with hlogs | ⟨hlogs, -⟩
    · rw [hlogs]
    · rw [hlogs]
      exact List.nil_prefix
  have hok : ∀ m' ∈ history labels, Ok m' := by
    intro m' hm'
    rwa [List.mem_singleton.mp (hlogs.subset hm')]
  have hnext := hfollows.exec_running hF hcall.threads hok hcall.runs
  have hreads := hnext.readsAs p' hp' hidle'
  have hstart : Entering p.db.map m [] p.writer p.db.map := by
    rw [hidle]
    exact .before
  obtain ⟨q, hq, hentering⟩ :=
    hstart.exec hp hcall.threads hlogs hcall.runs
  obtain rfl := Option.some.inj (hp'.symm.trans hq)
  rw [List.nil_append, hidle'] at hentering
  rcases hentering.of_idle with ⟨hnone, hmap⟩ | ⟨hone, hmap⟩
  · -- The record was not logged, and nothing happened.
    rw [hnone, List.append_nil] at hreads
    refine ⟨n, ⟨⟨_, hnext⟩, p', hp', hidle', ⟨_, hreads, hencodes⟩, ?_⟩,
      Or.inl rfl, ?_⟩
    · rw [hmap]
      exact hholds.recent
    · rintro rfl
      rcases hcall.logs with hlogs | ⟨-, hfails⟩
      · rw [hnone] at hlogs
        cases hlogs
      · exact absurd rfl hfails
  · have hencodes' := hencodes.update key value
    rw [hone, plainMap_snoc, Mutation.applyTo, hkey, hvalue] at hreads
    rcases hmap with hmap | hmap
    · refine ⟨_, ⟨⟨_, hnext⟩, p', hp', hidle', ⟨_, hreads, hencodes'⟩, ?_⟩,
        Or.inr .kept, fun _ => .kept⟩
      rw [hmap, hkey]
      exact hholds.recent.insert key _
    · refine ⟨_, ⟨⟨_, hnext⟩, p', hp', hidle', ⟨_, hreads, hencodes'⟩, ?_⟩,
        Or.inr .flushed, fun _ => .flushed⟩
      rw [hmap]
      exact recent_empty

/-- The compactor leaves the notes as they are. -/
theorem Rests.compact (hF : F.Lawful Ok) {s s' : State F} {n : Notes}
    {l : CompactStep} (h : Rests Ok s n)
    (hstep : s.step (.compact l) = some s') : Rests Ok s' n := by
  obtain ⟨⟨hist, hfollows⟩, p, hp, hidle, hholds⟩ := h
  have hnext := hfollows.compact hF hstep
  obtain ⟨q, p', hq, hp', hcompact⟩ := State.step_compact hstep
  obtain rfl := Option.some.inj (hp.symm.trans hq)
  have hleaves := compactStep_leaves hcompact
  have hidle' : p'.writer = .idle := hleaves.writer.trans hidle
  refine ⟨⟨hist, hnext⟩, p', hp', hidle', ⟨_, hnext.readsAs p' hp' hidle',
    hholds.encodes hfollows hp hidle⟩, ?_⟩
  rw [hleaves.map]
  exact hholds.recent

/-- So does one of its calls that fails. -/
theorem Rests.compactFails {s s' : State F} {n : Notes}
    {left : Option F.File} (h : Rests Ok s n)
    (hstep : s.step (.compactFails left) = some s') : Rests Ok s' n := by
  obtain ⟨⟨hist, hfollows⟩, p, hp, hidle, hholds⟩ := h
  have hnext := hfollows.compactFails hstep
  obtain ⟨q, hq, hp', -⟩ := State.step_compactFails hstep
  obtain rfl := Option.some.inj (hp.symm.trans hq)
  exact ⟨⟨hist, hnext⟩, _, hp', hidle, ⟨_, hnext.readsAs _ hp' hidle,
    hholds.encodes hfollows hp hidle⟩, hholds.recent⟩

/-! ## One input -/

/-- The mutation a command asks for. -/
def Command.mutation : Command → Option Mutation
  | .put key value => some (.insert key value)
  | .del key => some (.delete key)
  | _ => none

/-- The bytes of what is kept under a text, and of the text. -/
def encodedEntry (e : Text × Text) : Bytes × Bytes :=
  (Utf8.encode e.1, Utf8.encode e.2)

theorem encodedEntry_injective : Function.Injective encodedEntry := by
  intro e e' h
  obtain ⟨hkey, hvalue⟩ := Prod.mk.inj h
  exact Prod.ext (Utf8.encode_injective hkey) (Utf8.encode_injective hvalue)

theorem scanLine_encodedEntry (e : Text × Text) :
    scanLine (encodedEntry e) = Utf8.encode (e.1 ++ ' ' :: e.2) := by
  rw [scanLine, encodedEntry, Utf8.lossy_encode, Utf8.lossy_encode,
    List.append_assoc, Utf8.encode_append, Utf8.encode_cons]
  rfl

theorem scanText_map_encodedEntry (entries : List (Text × Text)) :
    scanText (entries.map encodedEntry) =
      Utf8.encode (Notes.listing entries) := by
  have hlines : (entries.map encodedEntry).map scanLine =
      (entries.map fun e => e.1 ++ ' ' :: e.2).map Utf8.encode := by
    rw [List.map_map, List.map_map]
    exact List.map_congr_left fun e _ => scanLine_encodedEntry e
  simp only [scanText, Notes.listing, hlines, List.map_eq_nil_iff]
  split_ifs
  · rfl
  · rw [Utf8.encode_intercalate]
    rfl

/-- What is scanned are the recent texts, in the order of their bytes. -/
theorem Rests.scan {s : State F} {n : Notes} (h : Rests Ok s n)
    {p : Process F} (hp : s.process = some p) :
    ∃ entries : List (Text × Text), p.db.scan = entries.map encodedEntry ∧
      (∀ key value, (key, value) ∈ entries ↔
        key ∈ n.recent ∧ n.text key = some value) ∧
      entries.Pairwise fun e e' => Utf8.encode e.1 < Utf8.encode e'.1 := by
  obtain ⟨⟨hist, hfollows⟩, q, hq, hidle, hholds⟩ := h
  obtain rfl := Option.some.inj (hp.symm.trans hq)
  have hencodes := hholds.encodes hfollows hp hidle
  have hget : ∀ {key entry}, p.db.map.get? key = some entry →
      entry = plainMap hist key := by
    intro key entry hentry
    have hreads := hfollows.readsAs p hp hidle key
    rw [Db.get, hentry] at hreads
    exact Except.ok.inj hreads
  have htexts : p.db.scan ∈ Set.range (List.map encodedEntry) := by
    rw [Set.range_list_map]
    rintro ⟨key, value⟩ hmem
    have hlive := hget (mem_scan_iff.mp hmem)
    obtain ⟨t, v, rfl, rfl, -⟩ := hencodes.eq_some.mp hlive.symm
    exact ⟨(t, v), rfl⟩
  obtain ⟨entries, hentries⟩ := htexts
  refine ⟨entries, hentries.symm, ?_, ?_⟩
  · intro key value
    rw [← List.mem_map_of_injective encodedEntry_injective, hentries,
      hholds.recent key]
    change (Utf8.encode key, Utf8.encode value) ∈ p.db.scan ↔ _
    rw [mem_scan_iff]
    have hvalues := hencodes.values key
    constructor
    · intro hentry
      have hlive := hget hentry
      rw [hvalues] at hlive
      obtain ⟨v, hv, heq⟩ := Option.map_eq_some_iff.mp hlive.symm
      rw [Utf8.encode_injective heq] at hv
      exact ⟨by rw [hentry]; rfl, hv⟩
    · rintro ⟨hsome, hv⟩
      obtain ⟨entry, hentry⟩ := Option.isSome_iff_exists.mp hsome
      rw [hv] at hvalues
      rw [hentry, hget hentry, hvalues]
      rfl
  · have hascending := scan_ascending p.db
    rw [← hentries, List.map_map, List.pairwise_map] at hascending
    exact hascending

theorem execute_speaks (hF : F.Lawful Ok) {ops : CliOps (State F)}
    (hops : ops.OnMachine) {s : State F} {n : Notes} (h : Rests Ok s n)
    {ws : List Text} {cmd : Command} (htyped : Typed ws cmd)
    (hok : ∀ m ∈ cmd.mutation, Ok m) (hexit : cmd ≠ .exit) :
    ∃ out n', said (execute ops s cmd).1 = [out] ∧ Says n ws out n' ∧
      Rests Ok (execute ops s cmd).2 n' := by
  obtain ⟨⟨hist, hfollows⟩, p, hp, hidle, hholds⟩ := id h
  cases htyped with
  | @get key more =>
      have hread := hfollows.readsAs p hp hidle (Utf8.encode key)
      rw [(hholds.encodes hfollows hp hidle).values] at hread
      rw [execute]
      cases hget : ops.get s (Utf8.encode key) with
      | error e => exact ⟨_, n, rfl, .getFails e, h⟩
      | ok answer =>
          obtain rfl := hops.get hp hread hget
          cases hvalue : n.text key with
          | none => exact ⟨_, n, rfl, .notFound hvalue, h⟩
          | some value =>
              refine ⟨_, n, rfl, ?_, h⟩
              change Says n _ (.out (Utf8.lossy (Utf8.encode value))) n
              rw [Utf8.lossy_encode]
              exact .found hvalue
  | @put key value more =>
      obtain ⟨labels, hcall⟩ := hops.put (Utf8.encode key)
        (Utf8.encode value) ⟨p, hp, hidle⟩
      obtain ⟨n', hrests, hmay, hwrites⟩ := h.attempt hF (hok _ rfl) hcall key
        (some value) rfl rfl
      rw [execute]
      cases hput : ops.put s (Utf8.encode key) (Utf8.encode value) with
      | mk result s₁ =>
          rw [hput] at hrests hwrites
          cases result with
          | error e => exact ⟨_, n', rfl, .putFails e hmay, hrests⟩
          | ok => exact ⟨_, n', rfl, .put (hwrites rfl), hrests⟩
  | @del key more =>
      obtain ⟨labels, hcall⟩ := hops.delete (Utf8.encode key) ⟨p, hp, hidle⟩
      obtain ⟨n', hrests, hmay, hwrites⟩ := h.attempt hF (hok _ rfl) hcall key
        none rfl rfl
      rw [execute]
      cases hdelete : ops.delete s (Utf8.encode key) with
      | mk result s₁ =>
          rw [hdelete] at hrests hwrites
          cases result with
          | error e => exact ⟨_, n', rfl, .delFails e hmay, hrests⟩
          | ok => exact ⟨_, n', rfl, .del (hwrites rfl), hrests⟩
  | scan =>
      obtain ⟨entries, hscan, hentries, hascending⟩ := h.scan hp
      refine ⟨_, n, rfl, ?_, h⟩
      rw [hops.scan hp, hscan, scanText_map_encodedEntry]
      exact .scan hentries hascending
  | exit => exact absurd rfl hexit

/-- A line asks only for mutations that are allowed. -/
def Input.Within (Ok : Mutation → Prop) : Input → Prop
  | .line typed =>
    ∀ cmd, parse typed = .ok cmd → ∀ m ∈ cmd.mutation, Ok m
  | _ => True

/-- A line that is neither blank nor asks for the end. -/
theorem turn_line (ops : CliOps (State F)) (s : State F) {line : Text}
    {cmd : Command} (hline : line.trim ≠ []) (hparse : parse line = .ok cmd)
    (hexit : cmd ≠ .exit) :
    turn ops s (.line line) =
      (true, said (execute ops s cmd).1, (execute ops s cmd).2) := by
  rw [turn]
  dsimp only
  rw [parse_trim, if_neg hline, hparse]
  cases cmd with
  | exit => exact absurd rfl hexit
  | _ => rfl

theorem turn_responds (hF : F.Lawful Ok) {ops : CliOps (State F)}
    (hops : ops.OnMachine) {s : State F} {n : Notes} (h : Rests Ok s n)
    {input : Input} (hinput : input.Within Ok) :
    ∃ n', Responds n input (turn ops s input).1 (turn ops s input).2.1 n' ∧
      Rests Ok (turn ops s input).2.2 n' := by
  cases input with
  | interrupted => exact ⟨n, .interrupted, h⟩
  | eof => exact ⟨n, .eof, h⟩
  | failed message => exact ⟨n, .failed, h⟩
  | line line =>
      obtain ⟨ws, hline⟩ := Words.exists_spaced Text.isWhitespace line
      have hblank : line.trim = [] ↔ ws = [] := by
        rw [← Words.words_of_spaced hline]
        exact Words.trim_eq_nil_iff line
      by_cases hnil : line.trim = []
      · obtain rfl := hblank.mp hnil
        rw [turn]
        dsimp only
        rw [if_pos hnil]
        exact ⟨n, .blank hline, h⟩
      · have hread := parse_read hline
        cases hparse : parse line with
        | error e =>
            have hturn : turn ops s (.line line) =
                (true, said (.error e), s) := by
              rw [turn]
              dsimp only
              rw [parse_trim, if_neg hnil, hparse]
            rw [hparse] at hread
            rw [hturn]
            cases hread with
            | nothing => exact absurd (hblank.mpr rfl) hnil
            | refused hrefused => exact ⟨n, .refused hline hrefused, h⟩
        | ok cmd =>
            rw [hparse] at hread
            cases hread with
            | typed htyped =>
                by_cases hexit : cmd = .exit
                · subst hexit
                  rw [turn]
                  dsimp only
                  rw [parse_trim, if_neg hnil, hparse]
                  cases htyped with
                  | exit => exact ⟨n, .exit hline, h⟩
                · rw [turn_line ops s hnil hparse hexit]
                  obtain ⟨out, n', hsaid, hspoken, hrests⟩ :=
                    execute_speaks hF hops h htyped (hinput cmd hparse) hexit
                  rw [hsaid]
                  exact ⟨n', .said hline hspoken, hrests⟩

/-! ## Sessions -/

/-- A session of the shell, with steps of the compactor, failing ones
included, before each input and at the end. -/
inductive ShellRuns (ops : CliOps (State F)) :
    State F → List Input → List Printed → State F → Prop
  | waits {s : State F} : ShellRuns ops s [] [] s
  | compact {s s₁ s' : State F} {inputs : List Input}
      {printed : List Printed} {l : CompactStep}
      (hstep : s.step (.compact l) = some s₁)
      (hrest : ShellRuns ops s₁ inputs printed s') :
    ShellRuns ops s inputs printed s'
  | compactFails {s s₁ s' : State F} {inputs : List Input}
      {printed : List Printed} {left : Option F.File}
      (hstep : s.step (.compactFails left) = some s₁)
      (hrest : ShellRuns ops s₁ inputs printed s') :
    ShellRuns ops s inputs printed s'
  | goesOn {s s₁ s' : State F} {input : Input} {inputs : List Input}
      {printed later : List Printed}
      (hturn : turn ops s input = (true, printed, s₁))
      (hrest : ShellRuns ops s₁ inputs later s') :
    ShellRuns ops s (input :: inputs) (printed ++ later) s'
  | stops {s s' : State F} {input : Input} {inputs : List Input}
      {printed : List Printed}
      (hturn : turn ops s input = (false, printed, s')) :
    ShellRuns ops s (input :: inputs) printed s'

/-- The loop, when the compactor has nothing to do. -/
theorem repl_runs (ops : CliOps (State F)) (s : State F)
    (inputs : List Input) :
    ShellRuns ops s inputs (repl ops s inputs).1 (repl ops s inputs).2 := by
  induction inputs generalizing s with
  | nil => exact .waits
  | cons input inputs ih =>
      rw [repl]
      cases hturn : turn ops s input with
      | mk more rest =>
          cases more with
          | true => exact .goesOn hturn (ih rest.2)
          | false => exact .stops hturn

theorem ShellRuns.dialogue (hF : F.Lawful Ok) {ops : CliOps (State F)}
    (hops : ops.OnMachine) {s s' : State F} {inputs : List Input}
    {printed : List Printed} (hrun : ShellRuns ops s inputs printed s')
    {n : Notes} (h : Rests Ok s n)
    (hinputs : ∀ input ∈ inputs, input.Within Ok) :
    ∃ n', Dialogue n inputs printed n' ∧ Rests Ok s' n' := by
  induction hrun generalizing n with
  | waits => exact ⟨n, .waits, h⟩
  | compact hstep _ ih => exact ih (h.compact hF hstep) hinputs
  | compactFails hstep _ ih => exact ih (h.compactFails hstep) hinputs
  | goesOn hturn _ ih =>
      obtain ⟨hinput, hinputs⟩ := List.forall_mem_cons.mp hinputs
      obtain ⟨n₁, hresponds, hrests⟩ := turn_responds hF hops h hinput
      rw [hturn] at hresponds hrests
      obtain ⟨n', hdialogue, hrests'⟩ := ih hrests hinputs
      exact ⟨n', .goesOn hresponds hdialogue, hrests'⟩
  | stops hturn =>
      obtain ⟨hinput, -⟩ := List.forall_mem_cons.mp hinputs
      obtain ⟨n', hresponds, hrests⟩ := turn_responds hF hops h hinput
      rw [hturn] at hresponds hrests
      exact ⟨n', .stops hresponds, hrests⟩

/-- A call that is left alone. -/
theorem State.answer_attempt {s : State F} (hs : s.Idle) (refused : IoError)
    (m : Mutation) :
    ∃ labels, Attempt s m (s.answer refused m).1 labels
      (s.answer refused m).2 := by
  unfold State.answer
  cases hcall : s.call m with
  | none =>
      exact ⟨[], rfl, List.forall_mem_nil _, Or.inr ⟨rfl, nofun⟩, hs⟩
  | some s' =>
      obtain ⟨labels, hcalled⟩ := State.call_runs hcall
      exact ⟨labels, hcalled.runs, fun l hl => (hcalled.threads l hl).1,
        Or.inl hcalled.logs, hcalled.returns⟩

/-! ## Records of lines -/

/-- A line is short enough for its words to fit into a record. -/
def Input.Short : Input → Prop
  | .line typed => (Utf8.encode typed).length + 64 < 2 ^ 32
  | _ => True

instance Input.decidableShort : (input : Input) → Decidable input.Short
  | .line typed =>
    inferInstanceAs (Decidable ((Utf8.encode typed).length + 64 < 2 ^ 32))
  | .interrupted => instDecidableTrue
  | .eof => instDecidableTrue
  | .failed _ => instDecidableTrue

theorem Input.Short.within {input : Input} (h : input.Short) :
    input.Within fun m => m.record.Fits := by
  cases input with
  | line typed =>
      intro cmd hparse m hm
      obtain ⟨ws, hline⟩ := Words.exists_spaced Text.isWhitespace typed
      have hread := parse_read hline
      rw [hparse] at hread
      have hle := Utf8.encode_length_le hline.flatten_sublist
      simp only [Input.Short] at h
      cases hread with
      | typed htyped =>
          cases htyped with
          | put =>
              obtain rfl := Option.some.inj hm
              simp only [List.flatten_cons, Utf8.encode_append,
                List.length_append] at hle
              simp only [Record.Fits, Mutation.record, payload_length,
                crcSize]
              omega
          | del =>
              obtain rfl := Option.some.inj hm
              simp only [List.flatten_cons, Utf8.encode_append,
                List.length_append] at hle
              simp only [Record.Fits, Mutation.record, payload_length,
                crcSize, List.length_nil]
              omega
          | _ => cases hm
  | _ => trivial

/-- A shell that is alone with its database. -/
def shellAlone (F : Format) (refused : IoError) : CliOps (State F) where
  toDbOps := stepwise F refused
  scan s :=
    match s.process with
    | none => []
    | some p => p.db.scan

theorem shellAlone_onMachine (F : Format) (refused : IoError) :
    (shellAlone F refused).OnMachine where
  get := by
    intro s p key found answer hp hget hanswer
    have hfound := (stepwise_onMachine refused).get hp hget
    exact Except.ok.inj (hanswer.symm.trans hfound)
  scan := by
    intro s p hp
    simp only [shellAlone, hp]
  put := fun _ _ hs => State.answer_attempt hs refused _
  delete := fun _ hs => State.answer_attempt hs refused _

/-- Whatever happened to a database of texts before, and whatever fails while
a shell has it open, what the shell prints is a dialogue about the texts that
were typed, and in the end the database holds what the dialogue leaves. -/
theorem shell_speaks (hash : Bytes → UInt32)
    {labels : List (Label (byteFormat hash))}
    {s s' : State (byteFormat hash)} {p : Process (byteFormat hash)}
    {n : Notes} (hfits : ∀ m ∈ history labels, m.record.Fits)
    (hreached : (State.initial (byteFormat hash)).exec labels = some s)
    (hp : s.process = some p) (hidle : p.writer = .idle) (hholds : p.Holds n)
    {ops : CliOps (State (byteFormat hash))} (hops : ops.OnMachine)
    {inputs : List Input} {printed : List Printed}
    (hshort : ∀ input ∈ inputs, input.Short)
    (hrun : ShellRuns ops s inputs printed s') :
    ∃ n' p', Dialogue n inputs printed n' ∧ s'.process = some p' ∧
      p'.writer = .idle ∧ p'.Holds n' := by
  have hF := byteFormat_lawful hash
  have hfollows := exec_follows hF (byteFormat_replaysOk hash)
    follows_initial hfits hreached
  obtain ⟨n', hdialogue, -, p', hp', hidle', hholds'⟩ :=
    hrun.dialogue hF hops ⟨hfollows, p, hp, hidle, hholds⟩
      fun input hmem => (hshort input hmem).within
  exact ⟨n', p', hdialogue, hp', hidle', hholds'⟩

/-- A database that flushes once more than nine bytes were written. -/
def flushSoon : Config := { Config.default with tableSize := 9 }

def typedLines : List Input :=
  [.line " PUT omar\tashour".toList, .line "PUT k v w".toList,
    .line "SCAN".toList, .line "GET omar".toList, .line "  ".toList,
    .line "DEL".toList, .line "frob x".toList, .line "DEL omar".toList,
    .line "GET omar".toList, .line "EXIT now".toList, .line "GET k".toList]

theorem shell_speaks_typedLines :
    ∃ s s' n' p',
      (State.initial (byteFormat crc32)).exec [.recover flushSoon []] =
        some s ∧
      ShellRuns (shellAlone _ ⟨.other, []⟩) s typedLines
        [.out (ascii "OK"), .out (ascii "OK"), .out (ascii "k v"),
          .out (ascii "ashour"),
          .err (ascii "error: invalid command: PUT requires a key"),
          .err (ascii "error: invalid command: frob"), .out (ascii "OK"),
          .out (ascii "(not found)")] s' ∧
      Dialogue .blank typedLines
        [.out (ascii "OK"), .out (ascii "OK"), .out (ascii "k v"),
          .out (ascii "ashour"),
          .err (ascii "error: invalid command: PUT requires a key"),
          .err (ascii "error: invalid command: frob"), .out (ascii "OK"),
          .out (ascii "(not found)")] n' ∧
      s'.process = some p' ∧ p'.Holds n' := by
  have hends : endsIdle ((State.initial (byteFormat crc32)).exec
      [.recover flushSoon []]) = true := by
    decide +kernel
  obtain ⟨s, p, hrun, hp, hidle⟩ := exists_of_endsIdle hends
  have hopened : (Label.recover flushSoon [] :
      Label (byteFormat crc32)).OnlyFlushFails := trivial
  have hinv := inv_of_run (byteFormat_lawful crc32)
    (List.forall_mem_singleton.mpr hopened) (List.forall_mem_nil _) hrun
  have hmap : p.db.map = OrderedMap.empty := by
    refine observedProcess hrun hp (f := fun p => p.db.map) ?_
    decide +kernel
  have hholds : p.Holds .blank := by
    refine ⟨⟨_, hinv.readsAs p hp hidle, encodes_none⟩, ?_⟩
    rw [hmap]
    exact recent_empty
  have hspoken := repl_runs (shellAlone _ ⟨.other, []⟩) s typedLines
  have hprinted : (repl (shellAlone _ ⟨.other, []⟩) s typedLines).1 =
      [.out (ascii "OK"), .out (ascii "OK"), .out (ascii "k v"),
        .out (ascii "ashour"),
        .err (ascii "error: invalid command: PUT requires a key"),
        .err (ascii "error: invalid command: frob"), .out (ascii "OK"),
        .out (ascii "(not found)")] := by
    refine observed hrun (f := fun s =>
      (repl (shellAlone _ ⟨.other, []⟩) s typedLines).1) ?_
    decide +kernel
  rw [hprinted] at hspoken
  obtain ⟨n', p', hdialogue, hp', -, hholds'⟩ := shell_speaks crc32
    (List.forall_mem_nil _) hrun hp hidle hholds
    (shellAlone_onMachine _ ⟨.other, []⟩) (by decide +kernel) hspoken
  exact ⟨s, _, n', p', hrun, hspoken, hdialogue, hp', hholds'⟩

end Lsmrs
