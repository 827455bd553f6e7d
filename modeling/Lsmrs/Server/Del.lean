import Lsmrs.Db.AnyLog
import Lsmrs.Server.Dispatch

/-!
# Deleting a list of keys

`DEL` looks its keys up one after the other and deletes those it finds, while
the compactor goes on.  Each deletion may flush, so the next lookup reads
tables that were not there when the command began.
-/

namespace Lsmrs

open ByteString OrderedMap

variable {F : Format} {Ok : Mutation → Prop} {hist : List Mutation}

/-! ## One call -/

/-- The database is open, and no call is under way. -/
def State.Idle (s : State F) : Prop :=
  ∃ p, s.process = some p ∧ p.writer = .idle

/-- One call of `put` or `delete` that returns `Ok`, among steps of the
compactor. -/
structure Call (s : State F) (m : Mutation) (labels : List (Label F))
    (s' : State F) : Prop where
  runs : s.exec labels = some s'
  threads : ∀ l ∈ labels, l.Running ∧ l.Faultless
  logs : history labels = [m]
  returns : s'.Idle

/-- The step of the writer that a step is. -/
def Label.written : Label F → Option (WriteStep F)
  | .write l => some l
  | _ => none

/-- The steps of one `delete`: its record is logged, and no other. -/
def DeleteCall (key : Bytes) (steps : List (WriteStep F)) : Prop :=
  ∃ rest, steps = .append (.delete key) :: rest ∧ ∀ m, .append m ∉ rest

/-! ## The command -/

/-- The loop of `DEL` without I/O errors, among steps of the compactor: the
keys that are left and the count so far, the steps taken, and the count and
the state at the end. -/
inductive DelRuns : State F → List Bytes → ℤ → List (Label F) → ℤ →
    State F → Prop
  | done {s : State F} {removed : ℤ} : DelRuns s [] removed [] removed s
  | compact {s s₁ s' : State F} {keys : List Bytes} {removed n : ℤ}
      {l : CompactStep} {labels : List (Label F)}
      (hstep : s.step (.compact l) = some s₁)
      (hrest : DelRuns s₁ keys removed labels n s') :
    DelRuns s keys removed (.compact l :: labels) n s'
  | absent {s s' : State F} {p : Process F} {key : Bytes}
      {keys : List Bytes} {removed n : ℤ} {labels : List (Label F)}
      (hp : s.process = some p) (hget : p.db.get key = .ok none)
      (hrest : DelRuns s keys removed labels n s') :
    DelRuns s (key :: keys) removed labels n s'
  | found {s s₁ s' : State F} {p : Process F} {key value : Bytes}
      {keys : List Bytes} {removed n : ℤ} {called labels : List (Label F)}
      (hp : s.process = some p) (hget : p.db.get key = .ok (some value))
      (hcall : Call s (.delete key) called s₁)
      (hrest : DelRuns s₁ keys (removed + 1) labels n s') :
    DelRuns s (key :: keys) removed (called ++ labels) n s'

/-- What `DEL` does: `live` are the listed keys that were there. -/
structure DelDeletes (p p' : Process F) (keys live : List Bytes)
    (labels : List (Label F)) (n : ℤ) : Prop where
  distinct : live.Nodup
  found : ∀ k, k ∈ live ↔ k ∈ keys ∧ ∃ value, p.db.get k = .ok (some value)
  counted : n = live.length
  deleted : ∀ k ∈ keys, p'.db.get k = .ok none
  others : ∀ k, k ∉ keys → p'.db.get k = p.db.get k
  logged : history labels = live.map Mutation.delete
  calls : ∃ calls, List.Forall₂ DeleteCall live calls ∧
    labels.filterMap Label.written = calls.flatten
  entries : ∀ k, k ∉ live → p.db.map.get? k = none →
    p'.db.map.get? k = none

/-! ## What a call does -/

theorem State.Idle.compact {s s' : State F} {l : CompactStep}
    (h : s.Idle) (hstep : s.step (.compact l) = some s') : s'.Idle := by
  obtain ⟨p, hp, hidle⟩ := h
  obtain ⟨q, p', hq, hp', hcompact⟩ := State.step_compact hstep
  obtain rfl := Option.some.inj (hp.symm.trans hq)
  exact ⟨p', hp', (compactStep_leaves hcompact).writer.trans hidle⟩

/-- From between two calls, only an append can come first. -/
theorem State.Idle.append_of_write {s s' : State F} {l : WriteStep F}
    (h : s.Idle) (hstep : s.step (.write l) = some s')
    (hl : (Label.write l).Faultless) : ∃ m, l = .append m := by
  obtain ⟨p, hp, hidle⟩ := h
  obtain ⟨disk', process'⟩ := s'
  obtain ⟨q, p', hq, -, hwrite⟩ := State.step_write hstep
  obtain rfl := Option.some.inj (hp.symm.trans hq)
  cases writeStep_turn hwrite with
  | append _ => exact ⟨_, rfl⟩
  | writeAllFails _ => exact hl.elim
  | syncDataFails _ _ => exact hl.elim
  | apply hat => cases hidle.symm.trans hat
  | createNone hat _ => cases hidle.symm.trans hat
  | create hat _ _ => cases hidle.symm.trans hat
  | rename hat => cases hidle.symm.trans hat
  | register hat _ => cases hidle.symm.trans hat
  | truncate hat => cases hidle.symm.trans hat
  | nothingCreated hat => cases hidle.symm.trans hat
  | halfCreated hat => cases hidle.symm.trans hat
  | renameFails hat => cases hidle.symm.trans hat
  | registerFails hat => cases hidle.symm.trans hat
  | truncateFails hat => cases hidle.symm.trans hat

theorem append_not_mem_written {labels : List (Label F)}
    (h : history labels = []) (m : Mutation) :
    .append m ∉ labels.filterMap Label.written := by
  intro hmem
  obtain ⟨l, hl, hwritten⟩ := List.mem_filterMap.mp hmem
  have hlogged : m ∈ history labels := by
    refine List.mem_filterMap.mpr ⟨l, hl, ?_⟩
    cases l with
    | write l =>
        obtain rfl := Option.some.inj hwritten
        rfl
    | _ => cases hwritten
  rw [h] at hlogged
  cases hlogged

/-- The writer's steps of a call begin with the append of its record. -/
theorem written_of_history {s s' : State F} {labels : List (Label F)}
    {m : Mutation} (hs : s.Idle) (hrun : s.exec labels = some s')
    (hl : ∀ l ∈ labels, l.Running ∧ l.Faultless)
    (hm : history labels = [m]) :
    ∃ rest, labels.filterMap Label.written = .append m :: rest ∧
      ∀ m, .append m ∉ rest := by
  induction labels generalizing s with
  | nil => cases hm
  | cons l labels ih =>
      obtain ⟨⟨hrunning, hfaultless⟩, hlabels⟩ := List.forall_mem_cons.mp hl
      obtain ⟨next, hstep, hrest⟩ := State.exec_cons.mp hrun
      cases l with
      | write l =>
          obtain ⟨m', rfl⟩ := hs.append_of_write hstep hfaultless
          obtain ⟨rfl, hnone⟩ := List.cons.inj hm
          exact ⟨_, rfl, append_not_mem_written hnone⟩
      | compact l => exact ih (hs.compact hstep) hrest hlabels hm
      | compactFails left => exact hfaultless.elim
      | crash => exact hrunning.elim
      | crashInOpen listing removed => exact hrunning.elim
      | recover config listing => exact hrunning.elim

/-- The memtable says nothing of the key, and nothing is about to be put
there. -/
def State.Unentered (s : State F) (k : Bytes) : Prop :=
  ∀ p, s.process = some p →
    p.db.map.get? k = none ∧ ∀ m ∈ p.writer.pending, m.key ≠ k

theorem State.Idle.unentered_iff {s : State F} (h : s.Idle) {k : Bytes}
    {p : Process F} (hp : s.process = some p) :
    s.Unentered k ↔ p.db.map.get? k = none := by
  obtain ⟨q, hq, hidle⟩ := h
  obtain rfl := Option.some.inj (hp.symm.trans hq)
  constructor
  · exact fun hun => (hun p hp).1
  · intro hnone q hq
    obtain rfl := Option.some.inj (hp.symm.trans hq)
    refine ⟨hnone, ?_⟩
    rw [hidle]
    exact List.forall_mem_nil _

theorem writeTurn_unentered {disk disk' : Disk F} {p p' : Process F}
    {l : WriteStep F} {k : Bytes} (h : WriteTurn disk p l disk' p')
    (hnone : p.db.map.get? k = none)
    (hpending : ∀ m ∈ p.writer.pending, m.key ≠ k)
    (hl : ∀ m ∈ (Label.write l).logged, m.key ≠ k) :
    p'.db.map.get? k = none ∧ ∀ m ∈ p'.writer.pending, m.key ≠ k := by
  cases h with
  | append hidle =>
      refine ⟨hnone, ?_⟩
      intro m hm
      rw [List.mem_singleton.mp hm]
      exact hl _ rfl
  | writeAllFails hidle => exact ⟨hnone, hpending⟩
  | syncDataFails hidle hsync => exact ⟨hnone, hpending⟩
  | @apply m hlogged =>
      have hne : m.key ≠ k := by
        apply hpending
        rw [hlogged]
        exact List.mem_singleton_self m
      refine ⟨?_, ?_⟩
      · dsimp only
        rw [get?_apply, if_neg hne, hnone]
      · dsimp only
        split_ifs
        · exact List.forall_mem_nil _
        · exact List.forall_mem_nil _
  | register hpublished hseq => exact ⟨rfl, List.forall_mem_nil _⟩
  | createNone hflushing hnil => exact ⟨hnone, List.forall_mem_nil _⟩
  | create hflushing hne hwrite => exact ⟨hnone, List.forall_mem_nil _⟩
  | rename hcreated => exact ⟨hnone, List.forall_mem_nil _⟩
  | truncate hregistered => exact ⟨hnone, List.forall_mem_nil _⟩
  | nothingCreated hflushing => exact ⟨hnone, List.forall_mem_nil _⟩
  | halfCreated hflushing => exact ⟨hnone, List.forall_mem_nil _⟩
  | renameFails hcreated => exact ⟨hnone, List.forall_mem_nil _⟩
  | registerFails hpublished => exact ⟨hnone, List.forall_mem_nil _⟩
  | truncateFails hregistered => exact ⟨hnone, List.forall_mem_nil _⟩

theorem step_unentered {s s' : State F} {l : Label F} {k : Bytes}
    (h : s.Unentered k) (hrunning : l.Running)
    (hl : ∀ m ∈ l.logged, m.key ≠ k) (hstep : s.step l = some s') :
    s'.Unentered k := by
  intro p' hp'
  cases l with
  | write l =>
      obtain ⟨p, q, hp, hq, hwrite⟩ := State.step_write hstep
      obtain rfl := Option.some.inj (hp'.symm.trans hq)
      obtain ⟨hnone, hpending⟩ := h p hp
      exact writeTurn_unentered (writeStep_turn hwrite) hnone hpending hl
  | compact l =>
      obtain ⟨p, q, hp, hq, hcompact⟩ := State.step_compact hstep
      obtain rfl := Option.some.inj (hp'.symm.trans hq)
      have hleaves := compactStep_leaves hcompact
      rw [hleaves.map, hleaves.writer]
      exact h p hp
  | compactFails left =>
      obtain ⟨p, hp, hq, -⟩ := State.step_compactFails hstep
      obtain rfl := Option.some.inj (hp'.symm.trans hq)
      exact h p hp
  | crash => exact hrunning.elim
  | crashInOpen listing removed => exact hrunning.elim
  | recover config listing => exact hrunning.elim

/-- A key that no record of the run is about does not get into the
memtable. -/
theorem exec_unentered {s s' : State F} {labels : List (Label F)}
    {k : Bytes} (h : s.Unentered k)
    (hl : ∀ l ∈ labels, l.Running ∧ l.Faultless)
    (hm : ∀ m ∈ history labels, m.key ≠ k)
    (hrun : s.exec labels = some s') : s'.Unentered k :=
  State.exec_keeps (fun s => s.Unentered k)
    (fun h hl hm hstep => step_unentered h hl.1 hm hstep) h hl hm hrun

/-! ## What a run of the command does -/

theorem DelRuns.exec {s s' : State F} {keys : List Bytes} {removed n : ℤ}
    {labels : List (Label F)} (h : DelRuns s keys removed labels n s') :
    s.exec labels = some s' ∧ ∀ l ∈ labels, l.Running ∧ l.Faultless := by
  induction h with
  | done => exact ⟨rfl, List.forall_mem_nil _⟩
  | compact hstep _ ih =>
      exact ⟨State.exec_cons.mpr ⟨_, hstep, ih.1⟩,
        List.forall_mem_cons.mpr ⟨⟨trivial, trivial⟩, ih.2⟩⟩
  | absent _ _ _ ih => exact ih
  | found _ _ hcall _ ih =>
      exact ⟨State.exec_append.mpr ⟨_, hcall.runs, ih.1⟩,
        List.forall_mem_append.mpr ⟨hcall.threads, ih.2⟩⟩

theorem DelRuns.idle {s s' : State F} {keys : List Bytes} {removed n : ℤ}
    {labels : List (Label F)} (h : DelRuns s keys removed labels n s')
    (hs : s.Idle) : s'.Idle := by
  induction h with
  | done => exact hs
  | compact hstep _ ih => exact ih (hs.compact hstep)
  | absent _ _ _ ih => exact ih hs
  | found _ _ hcall _ ih => exact ih hcall.returns

theorem plainMap_concat_delete (hist : List Mutation) (key k : Bytes) :
    plainMap (hist ++ [.delete key]) k =
      if k = key then none else plainMap hist k := by
  rw [plainMap, List.foldl_append]
  exact Function.update_apply _ key none k

/-- Between two calls, a database that follows a history reads as it. -/
theorem Follows.get_eq {s : State F} (h : Follows Ok hist s) (hs : s.Idle)
    {p : Process F} (hp : s.process = some p) (k : Bytes) :
    p.db.get k = .ok (plainMap hist k) := by
  obtain ⟨q, hq, hidle⟩ := hs
  obtain rfl := Option.some.inj (hp.symm.trans hq)
  exact h.readsAs p hp hidle k

/-- A key that is there can be deleted. -/
theorem Follows.delete_ok (hreplays : F.ReplaysOk Ok) {s : State F}
    (h : Follows Ok hist s) {key value : Bytes}
    (hlive : plainMap hist key = some value) : Ok (.delete key) := by
  rw [plainMap_eq] at hlive
  obtain ⟨m, hm, rfl⟩ := List.mem_map.mp (mem_keys_of_live
    (Option.isSome_iff_exists.mpr ⟨value, hlive⟩))
  exact hreplays.deleted m (h.hist_ok m hm)

/-- The listed keys that are live in the history are counted and deleted. -/
structure Counts (hist : List Mutation) (keys live : List Bytes)
    (labels : List (Label F)) (removed n : ℤ) : Prop where
  distinct : live.Nodup
  found : ∀ k, k ∈ live ↔ k ∈ keys ∧ (plainMap hist k).isSome
  counted : n = removed + live.length
  logged : history labels = live.map Mutation.delete
  calls : ∃ calls, List.Forall₂ DeleteCall live calls ∧
    labels.filterMap Label.written = calls.flatten

namespace Counts

variable {keys live : List Bytes} {labels : List (Label F)}
  {removed n : ℤ}

theorem compact (h : Counts hist keys live labels removed n)
    (l : CompactStep) :
    Counts hist keys live (.compact l :: labels) removed n :=
  ⟨h.distinct, h.found, h.counted, h.logged, h.calls⟩

theorem absent (h : Counts hist keys live labels removed n) {key : Bytes}
    (hkey : plainMap hist key = none) :
    Counts hist (key :: keys) live labels removed n := by
  refine ⟨h.distinct, ?_, h.counted, h.logged, h.calls⟩
  intro k
  rw [h.found, List.mem_cons]
  constructor
  · exact fun hk => ⟨Or.inr hk.1, hk.2⟩
  · rintro ⟨rfl | hk, hlive⟩
    · rw [hkey] at hlive
      cases hlive
    · exact ⟨hk, hlive⟩

/-- What follows the deletion of a key does not count it again. -/
theorem cons {key : Bytes} {called : List (Label F)}
    (h : Counts (hist ++ [.delete key]) keys live labels (removed + 1) n)
    (hkey : (plainMap hist key).isSome)
    (hlogs : history called = [.delete key])
    (hcall : DeleteCall key (called.filterMap Label.written)) :
    Counts hist (key :: keys) (key :: live) (called ++ labels) removed
      n := by
  have hfound := h.found
  simp only [plainMap_concat_delete] at hfound
  have hnot : key ∉ live := by
    intro hmem
    have hsome := ((hfound key).mp hmem).2
    rw [if_pos rfl] at hsome
    cases hsome
  obtain ⟨calls, hcalls, hwritten⟩ := h.calls
  constructor
  case distinct => exact List.nodup_cons.mpr ⟨hnot, h.distinct⟩
  case found =>
    intro k
    rw [List.mem_cons, List.mem_cons, hfound]
    by_cases heq : k = key
    · subst heq
      simp [hkey]
    · simp [heq]
  case counted =>
    rw [h.counted, List.length_cons]
    push_cast
    ring
  case logged =>
    rw [history, List.filterMap_append, List.map_cons]
    exact congrArg₂ (· ++ ·) hlogs h.logged
  case calls =>
    exact ⟨_ :: calls, .cons hcall hcalls, by
      rw [List.filterMap_append, hwritten, List.flatten_cons]⟩

end Counts

theorem DelRuns.counts (hF : F.Lawful Ok) (hreplays : F.ReplaysOk Ok)
    {s s' : State F} {keys : List Bytes} {removed n : ℤ}
    {labels : List (Label F)} (hrun : DelRuns s keys removed labels n s')
    (h : Follows Ok hist s) (hs : s.Idle) :
    ∃ live, Counts hist keys live labels removed n := by
  induction hrun generalizing hist with
  | done =>
      exact ⟨[], List.nodup_nil, by simp, by simp, rfl, [], .nil, rfl⟩
  | compact hstep _ ih =>
      obtain ⟨live, hlive⟩ := ih (h.compact hF hstep) (hs.compact hstep)
      exact ⟨live, hlive.compact _⟩
  | absent hp hget _ ih =>
      obtain ⟨live, hlive⟩ := ih h hs
      rw [h.get_eq hs hp] at hget
      exact ⟨live, hlive.absent (Except.ok.inj hget)⟩
  | @found s s₁ s' p key value keys removed n called labels hp hget hcall _
      ih =>
      rw [h.get_eq hs hp] at hget
      have hvalue := Except.ok.inj hget
      have hlogs := hcall.logs
      have hnext : Follows Ok (hist ++ history called) s₁ := by
        refine h.exec_running hF (fun l hl => (hcall.threads l hl).1) ?_
          hcall.runs
        rw [hlogs]
        exact List.forall_mem_singleton.mpr (h.delete_ok hreplays hvalue)
      rw [hlogs] at hnext
      obtain ⟨live, hlive⟩ := ih hnext hcall.returns
      exact ⟨key :: live, hlive.cons (by rw [hvalue]; rfl) hlogs
        (written_of_history hs hcall.runs hcall.threads hlogs)⟩

theorem plainMap_append_deletes (hist : List Mutation) (live : List Bytes)
    (k : Bytes) : plainMap (hist ++ live.map Mutation.delete) k =
      if k ∈ live then none else plainMap hist k := by
  induction live generalizing hist with
  | nil =>
      rw [List.map_nil, List.append_nil, if_neg List.not_mem_nil]
  | cons key live ih =>
      rw [List.map_cons, List.append_cons, ih, plainMap_concat_delete]
      by_cases hlive : k ∈ live
      · rw [if_pos hlive, if_pos (List.mem_cons_of_mem key hlive)]
      · rw [if_neg hlive]
        simp [hlive]

theorem DelRuns.deletes (hF : F.Lawful Ok) (hreplays : F.ReplaysOk Ok)
    {s s' : State F} {p : Process F} {keys : List Bytes} {n : ℤ}
    {labels : List (Label F)} (hrun : DelRuns s keys 0 labels n s')
    (h : Follows Ok hist s) (hp : s.process = some p)
    (hidle : p.writer = .idle) :
    ∃ p' live, s'.process = some p' ∧ p'.writer = .idle ∧
      DelDeletes p p' keys live labels n := by
  have hs : s.Idle := ⟨p, hp, hidle⟩
  obtain ⟨live, hcounts⟩ := hrun.counts hF hreplays h hs
  obtain ⟨hexec, hthreads⟩ := hrun.exec
  have hs' := hrun.idle hs
  obtain ⟨p', hp', hidle'⟩ := id hs'
  have hlogged : ∀ m ∈ history labels, Ok m := by
    rw [hcounts.logged]
    intro m hm
    obtain ⟨k, hk, rfl⟩ := List.mem_map.mp hm
    obtain ⟨value, hvalue⟩ :=
      Option.isSome_iff_exists.mp ((hcounts.found k).mp hk).2
    exact h.delete_ok hreplays hvalue
  have hafter := h.exec_running hF (fun l hl => (hthreads l hl).1) hlogged
    hexec
  rw [hcounts.logged] at hafter
  have hget := h.get_eq hs hp
  have hget' := hafter.get_eq hs' hp'
  simp only [plainMap_append_deletes] at hget'
  refine ⟨p', live, hp', hidle', ?_⟩
  constructor
  case distinct => exact hcounts.distinct
  case found =>
    intro k
    rw [hcounts.found, hget, Option.isSome_iff_exists]
    simp only [Except.ok.injEq]
  case counted => rw [hcounts.counted, zero_add]
  case deleted =>
    intro k hk
    rw [hget']
    split_ifs with hlive
    · rfl
    · -- A listed key that is not live was not there.
      have hnone := mt (hcounts.found k).mpr hlive
      rw [not_and, Option.not_isSome_iff_eq_none] at hnone
      rw [hnone hk]
  case others =>
    intro k hk
    have hlive : k ∉ live := fun hmem => hk ((hcounts.found k).mp hmem).1
    rw [hget', hget, if_neg hlive]
  case logged => exact hcounts.logged
  case calls => exact hcounts.calls
  case entries =>
    intro k hk hnone
    refine (hs'.unentered_iff hp').mp (exec_unentered
      ((hs.unentered_iff hp).mpr hnone) hthreads ?_ hexec)
    rw [hcounts.logged]
    intro m hm
    obtain ⟨key, hkey, rfl⟩ := List.mem_map.mp hm
    rintro rfl
    exact hk hkey

end Lsmrs
