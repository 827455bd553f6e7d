import Lsmrs.Db.Snapshots
import Lsmrs.Sstable.Covered

/-!
# Killed and opened again

A process is killed at any moment, with whatever it has half written, and the
directory is opened again.  Temporary files are all that is different from a
directory of whole files, and opening does not look into them.
-/

namespace Lsmrs

open ByteString OrderedMap Inodes

/-! ## Opening does not look into temporary files -/

/-- The directories are the same but for temporary files. -/
def SameTables {F : TableFormat} (dir dir' : Dir F) : Prop :=
  ∀ name, ¬ IsTmp name → dir.get? name = dir'.get? name

theorem not_isTmp_of_isSst {name : Bytes} (h : IsSst name) :
    ¬ IsTmp name := by
  rw [IsTmp, h]
  decide

section Same

variable {F : TableFormat} {dir dir' : Dir F} {listing listing' : List Bytes}

theorem SameTables.inDir (h : SameTables dir dir') {p : Span × Bytes} :
    InDir dir p ↔ InDir dir' p := by
  constructor
  · rintro ⟨hsst, hsome, hspan⟩
    exact ⟨hsst, h p.2 (not_isTmp_of_isSst hsst) ▸ hsome, hspan⟩
  · rintro ⟨hsst, hsome, hspan⟩
    exact ⟨hsst, (h p.2 (not_isTmp_of_isSst hsst)).symm ▸ hsome, hspan⟩

theorem SameTables.allAccepted (h : SameTables dir dir')
    (hall : AllAccepted dir') : AllAccepted dir := by
  intro name hsst hsome
  rw [h name (not_isTmp_of_isSst hsst)] at hsome
  exact hall name hsst hsome

/-- The spans found are the same, in the same order. -/
theorem SameTables.spansOf_eq (h : SameTables dir dir')
    (hperm : listing.Perm dir.keys) (hperm' : listing'.Perm dir'.keys) :
    spansOf listing = spansOf listing' := by
  have hmem : ∀ p, p ∈ spansOf listing ↔ p ∈ spansOf listing' := by
    intro p
    rw [mem_spansOf_iff_inDir hperm, mem_spansOf_iff_inDir hperm', h.inDir]
  have hsame := (List.perm_ext_iff_of_nodup (spansOf_nodup hperm)
    (spansOf_nodup hperm')).mpr hmem
  refine hsame.eq_of_pairwise ?_ (spansOf_sorted listing)
    (spansOf_sorted listing')
  intro a b _ _ hab hba
  exact spanKey_injective (le_antisymm hab hba)

theorem SameTables.openFile_eq (h : SameTables dir dir') {name : Bytes}
    (hsst : IsSst name) (dirPath : Bytes) :
    openFile dirPath dir name = openFile dirPath dir' name := by
  rw [openFile, openFile, h name (not_isTmp_of_isSst hsst)]

/-- Temporary files gone, the tables are still the same. -/
theorem sameTables_removeTmps (dir : Dir F) (listing : List Bytes) :
    SameTables (removeAll dir (tmpsOf listing)) dir := by
  intro name hname
  rw [get?_removeAll, if_neg]
  exact fun hmem => hname (of_decide_eq_true (List.mem_filter.mp hmem).2).2

theorem SameTables.remove (h : SameTables dir dir') (names : List Bytes) :
    SameTables (removeAll dir names) (removeAll dir' names) := by
  intro name hname
  rw [get?_removeAll, get?_removeAll]
  split_ifs
  · rfl
  · exact h name hname

theorem SameTables.openedAt (h : SameTables dir dir') {dirPath : Bytes}
    {kept : List (Span × Bytes)} (hkept : ∀ p ∈ kept, IsSst p.2)
    {tables : List (Listed F)}
    (hopened : List.Forall₂ (OpenedAt dirPath dir) kept tables) :
    List.Forall₂ (OpenedAt dirPath dir') kept tables := by
  refine ((List.forall₂_and_left _ _).mpr ⟨hkept, hopened⟩).imp ?_
  rintro p t ⟨hp, ht⟩
  exact ⟨ht.path, ht.span, (h.openFile_eq hp dirPath).symm.trans ht.opened⟩

/-- The same tables are opened, and are all that is left. -/
theorem SameTables.open_eq (h : SameTables dir dir')
    (hperm : listing.Perm dir.keys) (hperm' : listing'.Perm dir'.keys)
    {dirPath : Bytes} {bitsPerKey : ℕ} {set : SSTableSet F} {left' : Dir F}
    (hopen : SSTableSet.open dirPath bitsPerKey listing' dir' =
      (.ok set, left')) :
    ∃ left, SSTableSet.open dirPath bitsPerKey listing dir =
      (.ok set, left) ∧ SameTables left left' := by
  obtain ⟨hall, hnext, hopened, rfl⟩ := SSTableSet.open_eq_ok hperm' hopen
  obtain ⟨hpath, hbits⟩ := SSTableSet.open_names hopen
  have hspans := h.spansOf_eq hperm hperm'
  have htmps : SameTables (removeAll dir (tmpsOf listing)) dir' :=
    fun name hname =>
      (sameTables_removeTmps dir listing name hname).trans (h name hname)
  have hkept : ∀ p ∈ keptSpans listing', IsSst p.2 := fun p hp =>
    ((mem_keptSpans hperm').mp hp).1.isSst
  -- Every table that is opened in the one directory opens in the other.
  have hopens : ∀ p ∈ (spansOf listing').zipIdx,
      superseded (spansOf listing') p.2 p.1.1 = false →
        ∃ table, openFile dirPath (removeAll dir (tmpsOf listing)) p.1.2 =
          .ok table := by
    intro p hp hsup
    have hmem : p.1 ∈ keptSpans listing' :=
      List.mem_map.mpr ⟨p, List.mem_filter.mpr ⟨hp, by simp [hsup]⟩, rfl⟩
    obtain ⟨t, ht⟩ := exists_openedAt hopened hmem
    exact ⟨t.table, (htmps.openFile_eq (hkept _ hmem) dirPath).trans
      ht.opened⟩
  obtain ⟨tables, heq, hagain⟩ := openSpans_eq dirPath (spansOf listing')
    (spansOf_paths_nodup hperm') hopens
  obtain rfl : tables = set.sstables :=
    openedAt_unique (htmps.openedAt hkept hagain) hopened
  refine ⟨removeAll (removeAll dir (tmpsOf listing)) _, ?_,
    SameTables.remove ?_ _⟩
  · rw [SSTableSet.open_of_accepted hperm (h.allAccepted hall), hspans,
      hnext]
    dsimp only
    rw [heq, ← hpath, ← hbits]
  · exact fun name hname => (htmps name hname).trans
      (sameTables_removeTmps dir' listing' name hname).symm

end Same

/-! ## Lives -/

/-- A step of the process, or its end and the next opening. -/
inductive MountEvent where
  | go (l : MountStep)
  | reopen (dirPath : Bytes) (bitsPerKey : ℕ) (listing : List Bytes)

def MountEvent.Fails : MountEvent → Prop
  | .go l => l.Fails
  | .reopen _ _ _ => False

namespace Mount

/-- What was open is closed, and what was written to a file stays. -/
def event (s : Mount) : MountEvent → Option Mount
  | .go l => s.step l
  | .reopen dirPath bitsPerKey listing =>
    Mount.open s.files dirPath bitsPerKey listing

def live (s : Mount) : List MountEvent → Option Mount
  | [] => some s
  | e :: events => (s.event e).bind fun s => s.live events

end Mount

namespace Refines

variable {s s' : Mount} {a : SetState byteTables}

theorem reopen (h : Refines s a) {dirPath : Bytes} {bitsPerKey : ℕ}
    {listing : List Bytes}
    (hopen : Mount.open s.files dirPath bitsPerKey listing = some s')
    (faulty : Prop) :
    ∃ a', Relation.ReflGen (SetState.Goes faulty) a a' ∧ Refines s' a' := by
  obtain ⟨hperm, _, _, -, hs'⟩ := Mount.open_eq_some hopen
  obtain ⟨set, left', hset, h'⟩ := refines_of_open hopen
  have hsame : SameTables a.dir s.files.dir := by
    intro name hname
    rw [h.shows name hname, TableFiles.dir, Volume.get?_files]
  obtain ⟨left, hopened, hleft⟩ :=
    hsame.open_eq (List.Perm.refl a.dir.keys) hperm hset
  refine ⟨SetState.resting left set,
    .single (.step (l := .reopen dirPath bitsPerKey a.dir.keys) ?_), ?_⟩
  · simp only [SetState.step, List.Perm.refl, if_true, hopened]
    rfl
  · have hflush : s'.flush = none := by rw [hs']
    have hcompactor : s'.compactor = .idle := by rw [hs']
    refine ⟨h'.set, ?_, h'.flush, h'.compactor, h'.listed, h'.cloned, ?_,
      ?_⟩
    · exact fun name hname => (hleft name hname).trans (h'.shows name hname)
    · rw [hflush]
      exact fun job hjob => absurd hjob (Option.not_mem_none job)
    · rw [hcompactor]
      trivial

theorem event (h : Refines s a) {e : MountEvent}
    (hevent : s.event e = some s') :
    ∃ a', Relation.ReflGen (SetState.Goes e.Fails) a a' ∧
      Refines s' a' := by
  cases e with
  | go l => exact h.step hevent
  | reopen dirPath bitsPerKey listing => exact h.reopen hevent _

theorem live (h : Refines s a) {events : List MountEvent}
    (hlive : s.live events = some s') :
    ∃ a', Relation.ReflTransGen
      (SetState.Goes (∃ e ∈ events, e.Fails)) a a' ∧ Refines s' a' := by
  induction events generalizing s a with
  | nil =>
      obtain rfl := Option.some.inj hlive
      exact ⟨a, .refl, h⟩
  | cons e events ih =>
      obtain ⟨s₁, hevent, hrest⟩ := Option.bind_eq_some_iff.mp hlive
      obtain ⟨a₁, hgo, h₁⟩ := h.event hevent
      obtain ⟨a', hreach, h'⟩ := ih h₁ hrest
      refine ⟨a', SetState.Goes.trans ?_ ?_ hgo hreach, h'⟩
      · exact fun he => ⟨e, List.mem_cons_self, he⟩
      · rintro ⟨e', hmem, he'⟩
        exact ⟨e', List.mem_cons_of_mem e hmem, he'⟩

end Refines

/-- Processes that are killed at any moment, also with files half written,
and started again on the directory as it is, go the way of the set over whole
files through all their lives: they list the same tables, find the same files
apart from temporary ones, and whatever is open reads as it was opened. -/
theorem remounts_refine {files : TableFiles} {dirPath : Bytes}
    {bitsPerKey : ℕ} {listing : List Bytes} {s₀ s : Mount}
    {events : List MountEvent}
    (hopen : Mount.open files dirPath bitsPerKey listing = some s₀)
    (hlive : s₀.live events = some s) :
    (∃ set dir a,
      SSTableSet.open dirPath bitsPerKey listing files.dir = (.ok set, dir) ∧
      Relation.ReflTransGen (SetState.Goes (∃ e ∈ events, e.Fails))
        (SetState.resting dir set) a ∧
      a.set = ⟨s.tables.map fun t => t.reads s.files, s.dirPath,
        s.bitsPerKey, s.nextSeq⟩ ∧
      ∀ name, ¬ IsTmp name → a.dir.get? name = s.files.file name) ∧
    ∀ t ∈ s.held, t.reads s.files = t.opened := by
  obtain ⟨set, dir, hset, h⟩ := refines_of_open hopen
  obtain ⟨a, hreach, h⟩ := h.live hlive
  exact ⟨⟨set, dir, a, hset, hreach, h.set_reads, h.shows⟩,
    fun t ht => (h.held ht).reads_eq⟩

/-- Two bytes of a merged table are written. -/
def halfMerged : List MountStep :=
  flushSteps (OrderedMap.empty.insert (ascii "foo") (some (ascii "bar"))) ++
    (flushSteps (OrderedMap.empty.insert (ascii "omar") none) ++
      [.begin 0 2, .merge, .createMerged, .work (.write 2)])

/-- The merged table takes the place of its inputs, of which one is
removed. -/
def halfRemoved : List MountStep :=
  [.begin 0 2, .merge, .createMerged, .work (.write 1000), .work .rename,
    .work .open, .swap, .unlink]

/-- The process is killed behind each of the two. -/
def killedTwice : List MountEvent :=
  halfMerged.map .go ++
    .reopen [] 10 [tmpName ⟨0, 1⟩, tableName ⟨1, 1⟩, tableName ⟨0, 0⟩] ::
      (halfRemoved.map .go ++
        [.reopen [] 10 [tableName ⟨1, 1⟩, tableName ⟨0, 1⟩]])

theorem remounts_refine_killedTwice :
    ∃ s₀ s, Mount.open (Volume.empty Bytes UInt8) [] 10 [] = some s₀ ∧
      s₀.live killedTwice = some s ∧
      s.files.names.keys = [tableName ⟨0, 1⟩] ∧
      (∃ set dir a, SSTableSet.open [] 10 []
          (TableFiles.dir (Volume.empty Bytes UInt8)) = (.ok set, dir) ∧
        Relation.ReflTransGen
          (SetState.Goes (∃ e ∈ killedTwice, e.Fails))
          (SetState.resting dir set) a ∧
        a.set = ⟨s.tables.map fun t => t.reads s.files, s.dirPath,
          s.bitsPerKey, s.nextSeq⟩ ∧
        ∀ name, ¬ IsTmp name → a.dir.get? name = s.files.file name) ∧
      ∀ t ∈ s.held, t.reads s.files = t.opened := by
  have hrun : ((Mount.open (Volume.empty Bytes UInt8) [] 10 []).bind
      fun s => s.live killedTwice).map (fun s => s.files.names.keys) =
        some [tableName ⟨0, 1⟩] := by
    decide +kernel
  obtain ⟨s, hrun, hnames⟩ := Option.map_eq_some_iff.mp hrun
  obtain ⟨s₀, hopen, hlive⟩ := Option.bind_eq_some_iff.mp hrun
  exact ⟨s₀, s, hopen, hlive, hnames, remounts_refine hopen hlive⟩

end Lsmrs
