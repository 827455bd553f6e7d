import Lsmrs.Db.AnyFiles
import Lsmrs.Sstable.FailedCalls

/-!
# Calls that fail

A `put` or `delete` that returns an error is to leave no trace.  The steps of
the call run beside any steps of the compactor.  Whether a trace is left
depends on where the call fails: what reached the log is read after the next
reopening, and what reached the memtable is read at once.  Of the other keys
a reopening reads what the files say, and compactions that failed may have
left some that say what was overwritten.
-/

namespace Lsmrs

open ByteString OrderedMap Layers

variable {F : Format} {Ok : Mutation → Prop} {hist : List Mutation}

/-! ## Calls among the compactor's steps -/

/-- Where a call of `put` or `delete` fails. -/
inductive CallFault (F : Format) where
  | append (fault : AppendFault)
  | flush (fault : FlushFault F)

namespace CallFault

/-- The steps of a call up to the one that fails. -/
def stepsBefore (m : Mutation) : CallFault F → List (WriteStep F)
  | .append _ => []
  | .flush (.create _) => [.append m, .apply]
  | .flush .rename => [.append m, .apply, .create]
  | .flush .afterRename => [.append m, .apply, .create, .rename]
  | .flush (.truncate _) => [.append m, .apply, .create, .rename, .register]

/-- The step that fails. -/
def step (m : Mutation) : CallFault F → WriteStep F
  | .append fault => .appendFails m fault
  | .flush fault => .flushFails fault

end CallFault

def Label.writeStep? : Label F → Option (WriteStep F)
  | .write l => some l
  | _ => none

/-- The writer makes these steps, the compactor any number of its own. -/
structure Interleaves (steps : List (WriteStep F))
    (labels : List (Label F)) : Prop where
  running : ∀ l ∈ labels, l.Running
  steps : labels.filterMap Label.writeStep? = steps

namespace Interleaves

variable {steps : List (WriteStep F)} {labels : List (Label F)}

theorem mem_steps (h : Interleaves steps labels) {l : WriteStep F}
    (hl : .write l ∈ labels) : l ∈ steps := by
  rw [← h.steps]
  exact List.mem_filterMap.mpr ⟨.write l, hl, rfl⟩

/-- Before the step that fails no append has failed. -/
theorem appendSucceeds {m : Mutation} {fault : CallFault F}
    (h : Interleaves (fault.stepsBefore m) labels) :
    ∀ l ∈ labels, l.AppendSucceeds := by
  intro l hl
  unfold Label.AppendSucceeds
  split
  next m' fault' =>
    have hmem := h.mem_steps hl
    unfold CallFault.stepsBefore at hmem
    split at hmem <;> simp at hmem
  next => trivial

end Interleaves

section Turns

variable {disk disk' : Disk F} {p p' : Process F}

theorem WriteTurn.idle_of_flushFails {fault : FlushFault F}
    (h : WriteTurn disk p (.flushFails fault) disk' p') :
    p'.writer = .idle := by
  cases h <;> rfl

theorem WriteTurn.idle_of_appendFails {m : Mutation} {fault : AppendFault}
    (h : WriteTurn disk p (.appendFails m fault) disk' p') :
    p'.writer = .idle := by
  cases h with
  | writeAllFails hidle => exact hidle
  | syncDataFails hidle _ => exact hidle

end Turns

/-! ## What the files say -/

section Files

variable {T : TableFormat} {EntryOk : Entry → Prop}

/-- Of the files that are in the span of no other, the latest that has the
key says this of it. -/
structure FilesSay (files : Listed T → Prop) (key : Bytes)
    (value : Option Bytes) : Prop where
  latest : ∀ t, Answers files key t →
    (∀ t', Answers files key t' → t'.span.last ≤ t.span.last) →
      t.finds key = some (.ofValue value)
  found : value ≠ none → ∃ t, Answers files key t

theorem FilesSay.congr {files files' : Listed T → Prop} {key : Bytes}
    {value : Option Bytes} (hiff : ∀ t, files t ↔ files' t) :
    FilesSay files key value ↔ FilesSay files' key value := by
  obtain rfl : files = files' := funext fun t => propext (hiff t)
  exact Iff.rfl

end Files

/-! ## What is read after a reopening -/

/-- The replayed log has no record of the key. -/
def NotInLog (log : F.Log) (key : Bytes) : Prop :=
  ∀ records, F.replay log = .ok records → ∀ r ∈ records, r.key ≠ key

/-- Of the keys that the log does not name, the files say what `get`
answers. -/
def FilesAgree (db : Db F) (log : F.Log) (dir : Dir F.toTableFormat) :
    Prop :=
  ∀ key value, NotInLog log key → db.get key = .ok value →
    FilesSay (OnDisk db.sstableSet.dirPath dir) key value

theorem FilesAgree.congr {db : Db F} {log : F.Log}
    {dir dir' : Dir F.toTableFormat}
    (hsame : ∀ name, IsSst name → dir'.get? name = dir.get? name) :
    FilesAgree db log dir ↔ FilesAgree db log dir' := by
  have hiff : ∀ dirPath t, OnDisk dirPath dir t ↔ OnDisk dirPath dir' t := by
    intro dirPath t
    refine ⟨fun ht => ⟨ht.sst, ht.span, ?_⟩, fun ht => ⟨ht.sst, ht.span, ?_⟩⟩
    · rw [hsame _ ht.sst]
      exact ht.opens
    · rw [← hsame _ ht.sst]
      exact ht.opens
  refine forall₂_congr fun key value => ?_
  rw [FilesSay.congr (hiff _)]

theorem plainMap_told (kept : List (Segment (Writable Ok)))
    (ms : List Mutation) (key : Bytes) :
    plainMap (told kept ++ ms) key =
      (effect ms key).getD (shown kept key) := by
  rw [plainMap_eq, visible, effect_append, effect_told]
  cases effect ms key <;> rfl

section Reopening

variable {s : State F} {ms : List Mutation}
  {all kept : List (Segment (Writable Ok))}

theorem ClosedAmid.reopens (hF : F.Lawful Ok)
    (h : ClosedAmid Ok hist ms all s.disk) (hseq : ¬ s.Exhausted)
    {listing : List Bytes} (hperm : listing.Perm s.disk.dir.keys)
    (config : Config) :
    ∃ db disk kept, Db.withConfig config listing s.disk = (.ok db, disk) ∧
      Shows s.disk.dir all kept ∧
        ∀ key, db.get key = .ok ((effect ms key).getD (shown kept key)) := by
  obtain ⟨kept, hshows, ⟨db, hdb, hinv⟩ | ⟨⟨d, hd, hlast⟩, -⟩⟩ :=
    h.recover hF hperm config
  · refine ⟨db, _, kept, hdb, hshows, fun key => ?_⟩
    rw [← plainMap_told]
    exact hinv.readsAs _ rfl rfl key
  · exact absurd (exhausted_of_mem h.files.files hd hlast) hseq

end Reopening

/-! ## When a failing call leaves no trace -/

section Reads

variable {before : Db F} {after : State F} {p : Process F}
  {live ms : List Mutation} {all : List (Segment (Writable Ok))}
  {hist' : List Mutation}

end Reads

section Calls

variable {s s' : State F} {p : Process F} {m : Mutation}

theorem Amid.onDisk (h : Amid Ok hist s) (hp : s.process = some p) :
    ∃ ms all, ms <:+ hist ∧ p.writer.pending <:+ ms ∧
      ClosedAmid Ok hist ms all s.disk := by
  obtain ⟨all, own, hopen⟩ := h.opened hp
  obtain ⟨ms, hms, hpending, hclosed⟩ := hopen.crash
  exact ⟨ms, all, hms, hpending, hclosed⟩

end Calls

end Lsmrs
