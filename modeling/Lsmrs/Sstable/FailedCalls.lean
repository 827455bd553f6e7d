import Lsmrs.Sstable.Uncovering

/-!
# Runs with failed compactions

When the files that failed compactions leave behind bring data back: what
the live set reads is never changed by a compaction, and a reopening reads
the same just if no compaction of the oldest tables uncovers a value in a
file outside the list.
-/

namespace Lsmrs

open ByteString OrderedMap Layers

variable {F : TableFormat} {EntryOk : Entry → Prop}

/-! ## Runs -/

/-- What a call may do to the reads of the live set. -/
def SetCall.KeepsLive (s s' : Store F) : SetCall F → Prop
  | .write _ => True
  | .compact _ _ _ => ∀ key, s'.set.get key = s.set.get key

/-- No compaction of the calls changes what the live set reads, and at every
moment a reopening reads what the live set does. -/
def Store.BringsNothingBack (s : Store F) : List (SetCall F) → Prop
  | [] => s.ReopensSame
  | c :: calls => s.ReopensSame ∧
    ∀ s', s.call c = some s' →
      c.KeepsLive s s' ∧ s'.BringsNothingBack calls

theorem Store.BringsNothingBack.reopensSame {s : Store F}
    {calls : List (SetCall F)} (h : s.BringsNothingBack calls) :
    s.ReopensSame := by
  cases calls with
  | nil => exact h
  | cons c calls => exact h.1

/-- What an open table says of a key. -/
def Listed.finds (t : Listed F) (key : Bytes) : Option Found :=
  match F.get t.table key with
  | .ok found => found
  | .error _ => none

/-- What the newest of the tables that has the key says of it. -/
def newestFound (tables : List (Listed F)) (key : Bytes) : Option Found :=
  tables.reverse.findSome? fun t => t.finds key

/-- An `.sst` file of the directory, as `open` would open it. -/
structure OnDisk (dirPath : Bytes) (dir : Dir F) (t : Listed F) : Prop where
  sst : IsSst t.path
  span : parseSpan t.path = some t.span
  opens : ∃ file, dir.get? t.path = some file ∧
    F.openTable (joinPath dirPath t.path) file = .ok t.table

/-- An `.sst` file that is in no list, as `open` would open it. -/
structure Leftover (s : Store F) (t : Listed F) : Prop where
  sst : IsSst t.path
  span : parseSpan t.path = some t.span
  opens : ∃ file, s.dir.get? t.path = some file ∧
    F.openTable (joinPath s.set.dirPath t.path) file = .ok t.table
  unlisted : ∀ t' ∈ s.set.sstables, t'.path ≠ t.path

/-- The files outside the list after a compaction of the oldest tables: the
leftovers and the inputs that are not removed.  An output takes the place of
those in its span; there is one if the inputs hold a value. -/
structure LeftOutside (s : Store F) (count : ℕ)
    (fault : Option (CompactFault F)) (t : Listed F) : Prop where
  file : Leftover s t ∨ (t ∈ runOf s.set.sstables 0 count ∧
    t.path ∉ s.removedBy 0 count fault)
  outside : (∃ key value,
      newestFound (runOf s.set.sstables 0 count) key = some (.value value)) →
    ¬ t.span.Within (runSpan (runOf s.set.sstables 0 count))

/-- Of some files, one that is in the span of no other and has the key. -/
structure Answers (files : Listed F → Prop) (key : Bytes) (t : Listed F) :
    Prop where
  file : files t
  maximal : ∀ t', files t' → t.span.Within t'.span → t'.span = t.span
  found : t.finds key ≠ none

/-- Every value of the key has a later answer above it. -/
def ValuesHidden (files : Listed F → Prop) (key : Bytes) : Prop :=
  ∀ t value, Answers files key t → t.finds key = some (.value value) →
    ∃ t', Answers files key t' ∧ t.span.last < t'.span.last

/-- A compaction of the oldest tables that gets past its temporary file
leaves no value outside the list of a key that neither the inputs nor the
later tables show. -/
def Store.UncoversNothing (s : Store F) : SetCall F → Prop
  | .write _ => True
  | .compact start count fault =>
    start = 0 → stopsEarly fault = false → ∀ key,
      newestFound (s.set.sstables.drop count) key = none →
        (∀ value, newestFound (runOf s.set.sstables 0 count) key ≠
          some (.value value)) →
          ValuesHidden (LeftOutside s count fault) key

def Store.AllUncoverNothing (s : Store F) : List (SetCall F) → Prop
  | [] => True
  | c :: calls => s.UncoversNothing c ∧
    ∀ s', s.call c = some s' → s'.AllUncoverNothing calls

/-! ## Tables and segments -/

theorem Described.finds_eq {t : Listed F} {d : Segment EntryOk}
    (h : Described t d) (key : Bytes) :
    t.finds key = (d.layer key).map Found.ofValue := by
  rw [Listed.finds, h.holds.get]
  rfl

theorem Described.finds_eq_none_iff {t : Listed F} {d : Segment EntryOk}
    (h : Described t d) {key : Bytes} :
    t.finds key = none ↔ d.layer key = none := by
  rw [h.finds_eq, Option.map_eq_none_iff]

theorem findSome?_finds {tables : List (Listed F)}
    {segs : List (Segment EntryOk)}
    (h : List.Forall₂ Described tables segs) (key : Bytes) :
    (tables.findSome? fun t => t.finds key) =
      ((segs.map Segment.layer).findSome? fun l => l key).map
        Found.ofValue := by
  induction h with
  | nil => rfl
  | @cons t d tables segs hd _ ih =>
      rw [List.findSome?_cons, List.map_cons, List.findSome?_cons,
        hd.finds_eq]
      cases d.layer key with
      | none => exact ih
      | some answer => rfl

theorem newestFound_eq {tables : List (Listed F)}
    {segs : List (Segment EntryOk)}
    (h : List.Forall₂ Described tables segs) (key : Bytes) :
    newestFound tables key = (tells segs key).map Found.ofValue := by
  rw [newestFound, findSome?_finds (List.rel_reverse h), List.map_reverse,
    findSome?_reverse]
  rfl

/-- Each of the files is one of the segments, and the other way round. -/
structure Match (files : Listed F → Prop)
    (segments : Segment EntryOk → Prop) : Prop where
  segment : ∀ {t}, files t → ∃ d, segments d ∧ Described t d
  file : ∀ {d}, segments d → ∃ t, files t ∧ Described t d

namespace Match

variable {files : Listed F → Prop} {segments : Segment EntryOk → Prop}
  {key : Bytes}

theorem answers_iff (h : Match files segments) {t : Listed F}
    {d : Segment EntryOk} (ht : files t) (hd : segments d)
    (hdescribed : Described t d) :
    Answers files key t ↔ Mentions segments key d := by
  constructor
  · intro hanswers
    refine ⟨hd, ?_, fun hnone =>
      hanswers.found (hdescribed.finds_eq_none_iff.mpr hnone)⟩
    intro d' hd' hwithin
    obtain ⟨t', ht', hdescribed'⟩ := h.file hd'
    rw [← hdescribed.span, ← hdescribed'.span] at hwithin ⊢
    exact hanswers.maximal t' ht' hwithin
  · intro hd
    refine ⟨ht, ?_, fun hnone =>
      hd.found (hdescribed.finds_eq_none_iff.mp hnone)⟩
    intro t' ht' hwithin
    obtain ⟨d', hd', hdescribed'⟩ := h.segment ht'
    rw [hdescribed.span, hdescribed'.span] at hwithin ⊢
    exact hd.maximal d' hd' hwithin

theorem exists_mentions (h : Match files segments) {t : Listed F}
    (ht : Answers files key t) :
    ∃ d, Mentions segments key d ∧ Described t d := by
  obtain ⟨d, hd, hdescribed⟩ := h.segment ht.file
  exact ⟨d, (h.answers_iff ht.file hd hdescribed).mp ht, hdescribed⟩

theorem exists_answers (h : Match files segments) {d : Segment EntryOk}
    (hd : Mentions segments key d) :
    ∃ t, Answers files key t ∧ Described t d := by
  obtain ⟨t, ht, hdescribed⟩ := h.file hd.mem
  exact ⟨t, (h.answers_iff ht hd.mem hdescribed).mpr hd, hdescribed⟩

/-- Files and segments that match hide the same values. -/
theorem valuesHidden_iff (h : Match files segments) :
    ValuesHidden files key ↔ Hidden segments key := by
  constructor
  · intro hhidden d hd hvalue
    obtain ⟨value, hvalue⟩ := Option.ne_none_iff_exists'.mp hvalue
    obtain ⟨t, ht, hdescribed⟩ := h.exists_answers hd
    obtain ⟨t', ht', hlater⟩ := hhidden t value ht
      (by rw [hdescribed.finds_eq, map_ofValue_eq_value_iff,
        Option.join_eq_some_iff.mp hvalue])
    obtain ⟨d', hd', hdescribed'⟩ := h.exists_mentions ht'
    refine ⟨d', hd', ?_⟩
    rwa [hdescribed.span, hdescribed'.span] at hlater
  · intro hhidden t value ht hvalue
    obtain ⟨d, hd, hdescribed⟩ := h.exists_mentions ht
    rw [hdescribed.finds_eq, map_ofValue_eq_value_iff] at hvalue
    obtain ⟨d', hd', hlater⟩ := hhidden d hd (by rw [hvalue]; simp)
    obtain ⟨t', ht', hdescribed'⟩ := h.exists_answers hd'
    refine ⟨t', ht', ?_⟩
    rwa [hdescribed.span, hdescribed'.span]

end Match

/-- The `.sst` files of a directory are its segments. -/
theorem Files.onDisk {dir : Dir F} {all : List (Segment EntryOk)}
    (h : Files dir all) (dirPath : Bytes) :
    Match (OnDisk dirPath dir) (· ∈ all) where
  segment := by
    intro t ht
    obtain ⟨file, hfile, hopen⟩ := ht.opens
    obtain ⟨d, hd, hname⟩ := h.only t.path ht.sst (by rw [hfile]; rfl)
    refine ⟨d, hd, ?_, hname, ?_⟩
    · have hspan := ht.span
      rw [hname, d.parseSpan_name] at hspan
      exact (Option.some.inj hspan).symm
    · obtain ⟨file', hfile', table, hopen', hholds⟩ := h.stored d hd
      rw [hname, hfile'] at hfile
      obtain rfl := Option.some.inj hfile
      rw [hopen'] at hopen
      obtain rfl := Except.ok.inj hopen
      exact hholds
  file := by
    intro d hd
    obtain ⟨file, hfile, table, hopen, hholds⟩ := h.stored d hd
    exact ⟨⟨d.name, d.span, table⟩, ⟨d.isSst_name, d.parseSpan_name,
      file, hfile, hopen _⟩, rfl, rfl, hholds⟩

/-! ## The condition on a call -/

section Call

variable {hist : List (Layer Bytes Bytes)} {oldest : ℕ} {s : Store F}
  {segs all : List (Segment EntryOk)} {start count : ℕ}
  {fault : Option (CompactFault F)}

namespace Sound

theorem hasValue_iff (h : Sound hist oldest s segs all) :
    (∃ key value, newestFound (runOf s.set.sstables 0 count) key =
      some (.value value)) ↔ HasValue (segmentRun segs 0 count) := by
  refine exists₂_congr fun key value => ?_
  rw [newestFound_eq (described_run h.described), map_ofValue_eq_value_iff]

/-- A segment of the directory whose file is in no list. -/
theorem exists_leftover (h : Sound hist oldest s segs all)
    {d : Segment EntryOk} (hd : d ∈ all) (hunlisted : d ∉ segs) :
    ∃ t, Leftover s t ∧ Described t d := by
  obtain ⟨t, ht, hdescribed⟩ := (h.files.onDisk s.set.dirPath).file hd
  refine ⟨t, ⟨ht.sst, ht.span, ht.opens, ?_⟩, hdescribed⟩
  intro t' ht' hpath
  obtain ⟨d', hd', hdescribed'⟩ := exists_segment h.described ht'
  rw [hdescribed'.path, hdescribed.path] at hpath
  obtain rfl := List.inj_on_of_nodup_map h.distinct (h.listed d' hd') hd
    (Segment.name_injective hpath)
  exact hunlisted hd'

theorem exists_of_leftover (h : Sound hist oldest s segs all)
    {t : Listed F} (ht : Leftover s t) :
    ∃ d ∈ all, d ∉ segs ∧ Described t d := by
  obtain ⟨d, hd, hdescribed⟩ := (h.files.onDisk s.set.dirPath).segment
    ⟨ht.sst, ht.span, ht.opens⟩
  refine ⟨d, hd, ?_, hdescribed⟩
  intro hlisted
  obtain ⟨t', ht', hdescribed'⟩ := exists_table h.described hlisted
  exact ht.unlisted t' ht' (hdescribed'.path.trans hdescribed.path.symm)

/-- The files outside the list are the segments left behind. -/
theorem exists_leftBehind (h : Sound hist oldest s segs all) {t : Listed F}
    (ht : LeftOutside s count fault t) :
    ∃ d, LeftBehind segs all count (s.removedBy 0 count fault) d ∧
      Described t d := by
  obtain ⟨d, hd, hlisted, hdescribed⟩ : ∃ d ∈ all,
      (d ∈ segs → d ∈ segmentRun segs 0 count ∧
        d.name ∉ s.removedBy 0 count fault) ∧ Described t d := by
    rcases ht.file with hleft | ⟨hrun, hstays⟩
    · obtain ⟨d, hd, hunlisted, hdescribed⟩ := h.exists_of_leftover hleft
      exact ⟨d, hd, fun hlisted => absurd hlisted hunlisted, hdescribed⟩
    · obtain ⟨d, hd, hdescribed⟩ :=
        exists_segment (described_run h.described) hrun
      rw [hdescribed.path] at hstays
      exact ⟨d, h.listed d (mem_of_mem_run hd), fun _ => ⟨hd, hstays⟩,
        hdescribed⟩
  refine ⟨d, ⟨hd, hlisted, fun hvalue => ?_⟩, hdescribed⟩
  rw [← hdescribed.span, ← runSpan_described (described_run h.described)]
  exact ht.outside (h.hasValue_iff.mpr hvalue)

theorem exists_leftOutside (h : Sound hist oldest s segs all)
    {d : Segment EntryOk}
    (hd : LeftBehind segs all count (s.removedBy 0 count fault) d) :
    ∃ t, LeftOutside s count fault t ∧ Described t d := by
  obtain ⟨hmem, hlisted, hout⟩ := hd
  obtain ⟨t, hfile, hdescribed⟩ : ∃ t,
      (Leftover s t ∨ (t ∈ runOf s.set.sstables 0 count ∧
        t.path ∉ s.removedBy 0 count fault)) ∧ Described t d := by
    by_cases hd : d ∈ segs
    · obtain ⟨hrun, hstays⟩ := hlisted hd
      obtain ⟨t, ht, hdescribed⟩ :=
        exists_table (described_run h.described) hrun
      rw [← hdescribed.path] at hstays
      exact ⟨t, Or.inr ⟨ht, hstays⟩, hdescribed⟩
    · obtain ⟨t, ht, hdescribed⟩ := h.exists_leftover hmem hd
      exact ⟨t, Or.inl ht, hdescribed⟩
  refine ⟨t, ⟨hfile, fun hvalue => ?_⟩, hdescribed⟩
  rw [hdescribed.span, runSpan_described (described_run h.described)]
  exact hout (h.hasValue_iff.mp hvalue)

/-- The condition on a call speaks of the segments left behind. -/
theorem uncoversNothing_iff (h : Sound hist oldest s segs all) :
    (∀ key, newestFound (s.set.sstables.drop count) key = none →
      (∀ value, newestFound (runOf s.set.sstables 0 count) key ≠
        some (.value value)) →
        ValuesHidden (LeftOutside s count fault) key) ↔
      UncoversNothing hist segs all count (s.removedBy 0 count fault) := by
  refine forall_congr' fun key => ?_
  rw [newestFound_eq (List.forall₂_drop count h.described),
    newestFound_eq (described_run h.described), Option.map_eq_none_iff,
    Match.valuesHidden_iff ⟨h.exists_leftBehind, h.exists_leftOutside⟩]
  constructor
  · intro hleft hdead hnone
    refine hleft hnone fun value hvalue => ?_
    have hrun := h.join_tells_run hnone
    rw [map_ofValue_eq_value_iff.mp hvalue, hdead] at hrun
    cases hrun
  · intro hleft hnone hvalues
    rcases hwritten : written hist 0 hist.length key with _ | _ | value
    · -- A key that was never written is in no file.
      intro d hd _
      exact absurd ((h.recounts d hd.mem.1).layer_eq_none hwritten
        (Nat.zero_le _) (h.below d hd.mem.1)) hd.found
    · exact hleft hwritten hnone
    · have hrun := h.join_tells_run hnone
      rw [hwritten] at hrun
      refine absurd ?_ (hvalues value)
      rw [map_ofValue_eq_value_iff]
      exact Option.join_eq_some_iff.mp hrun

end Sound

end Call

/-! ## The condition on a run -/

section Run

variable {hist : List (Layer Bytes Bytes)} {oldest : ℕ} {s : Store F}
  {segs all : List (Segment EntryOk)}

/-- What is written fits the format. -/
def SetCall.EntriesOk (EntryOk : Entry → Prop) : SetCall F → Prop
  | .write memtable => ∀ e ∈ memtable.entries, EntryOk e
  | .compact _ _ _ => True

instance [DecidablePred EntryOk] (c : SetCall F) :
    Decidable (c.EntriesOk EntryOk) :=
  match c with
  | .write memtable =>
    inferInstanceAs (Decidable (∀ e ∈ memtable.entries, EntryOk e))
  | .compact _ _ _ => .isTrue trivial

theorem Sound.write (hF : F.Lawful EntryOk)
    (h : Sound hist oldest s segs all) (hdeletions : DeletionsHold hist all)
    {memtable : OrderedMap Bytes (Option Bytes)}
    (hok : ∀ e ∈ memtable.entries, EntryOk e) {s' : Store F}
    (hcall : s.write memtable = some s') :
    ∃ (hist' : List (Layer Bytes Bytes)) (segs' all' : List (Segment EntryOk)),
      Sound hist' oldest s' segs' all' ∧ DeletionsHold hist' all' := by
  unfold Store.write at hcall
  dsimp only at hcall
  by_cases hempty : memtable.entries = []
  · rw [if_pos hempty] at hcall
    obtain rfl := Option.some.inj hcall
    exact ⟨hist, segs, all, h, hdeletions⟩
  · rw [if_neg hempty] at hcall
    cases hwrite : F.writeTable s.set.bitsPerKey memtable.entries with
    | error e =>
        rw [hwrite] at hcall
        cases hcall
    | ok written =>
        obtain ⟨file, table⟩ := written
        rw [hwrite] at hcall
        dsimp only at hcall
        split_ifs at hcall with hseq
        obtain rfl := Option.some.inj hcall
        obtain ⟨hopen, hholds⟩ :=
          hF.write hwrite hempty memtable.ascending hok
        let new : Segment EntryOk :=
          { span := ⟨hist.length, hist.length⟩
            content := memtable.entries
            ordered := le_rfl
            bounded := h.next ▸ h.next_le
            nonempty := hempty
            ascending := memtable.ascending
            fits := hok }
        exact ⟨hist ++ [new.layer], segs ++ [new], published all new,
          h.register rfl rfl hopen hholds hseq,
          hdeletions.write h.below rfl rfl⟩

/-- A compaction changes nothing that the live set reads. -/
theorem Sound.compact_keepsLive (hF : F.Lawful EntryOk)
    (h : Sound hist oldest s segs all) {start count : ℕ}
    {fault : Option (CompactFault F)} {s' : Store F}
    (hcall : s.compact start count fault = some s') (key : Bytes) :
    s'.set.get key = s.set.get key := by
  obtain ⟨-, -, oldest', segs', all', h', -⟩ := h.compact hF hcall
  rw [h'.get_eq, h.get_eq]

/-- From a state whose deletions hold, compactions bring nothing back just
if each of them uncovers nothing. -/
theorem Sound.bringsNothingBack_iff_allUncover (hF : F.Lawful EntryOk)
    (h : Sound hist oldest s segs all) (hdeletions : DeletionsHold hist all)
    {calls : List (SetCall F)} (hok : ∀ c ∈ calls, c.EntriesOk EntryOk)
    (hrun : (s.exec calls).isSome) :
    s.BringsNothingBack calls ↔ s.AllUncoverNothing calls := by
  have hsame := h.reopensSame_iff.mpr hdeletions
  induction calls generalizing hist oldest s segs all with
  | nil => exact iff_of_true hsame trivial
  | cons c calls ih =>
      obtain ⟨hc, hcalls⟩ := List.forall_mem_cons.mp hok
      rw [Store.exec] at hrun
      rw [Store.BringsNothingBack, Store.AllUncoverNothing,
        and_iff_right hsame]
      cases hcall : s.call c with
      | none =>
          rw [hcall] at hrun
          cases hrun
      | some s' =>
          rw [hcall, Option.bind_some] at hrun
          simp only [Option.some.injEq, forall_eq']
          cases c with
          | write memtable =>
              obtain ⟨hist', segs', all', h', hdeletions'⟩ :=
                h.write hF hdeletions hc hcall
              exact and_congr Iff.rfl (ih h' hdeletions' hcalls hrun
                (h'.reopensSame_iff.mpr hdeletions'))
          | compact start count fault =>
              have hlive : SetCall.KeepsLive s s'
                  (.compact start count fault) :=
                fun key => h.compact_keepsLive hF hcall key
              obtain ⟨-, -, oldest', segs', all', h', hiff⟩ :=
                h.compact hF hcall
              have huncovers : DeletionsHold hist all' ↔
                  s.UncoversNothing (.compact start count fault) := by
                rw [hiff hdeletions]
                exact imp_congr_right fun _ => imp_congr_right fun _ =>
                  h.uncoversNothing_iff.symm
              rw [and_iff_right hlive, ← huncovers]
              constructor
              · intro hback
                have hdeletions' := h'.reopensSame_iff.mp hback.reopensSame
                exact ⟨hdeletions', (ih h' hdeletions' hcalls hrun
                  hback.reopensSame).mp hback⟩
              · rintro ⟨hdeletions', hall⟩
                exact (ih h' hdeletions' hcalls hrun
                  (h'.reopensSame_iff.mpr hdeletions')).mpr hall

theorem Sound.initial (F : TableFormat) (dirPath : Bytes)
    (bitsPerKey : ℕ) :
    Sound [] 0 (Store.initial F dirPath bitsPerKey)
      ([] : List (Segment EntryOk)) [] where
  below := by simp
  recounts := by simp
  full := by simp
  described := .nil
  next := rfl
  next_le := Nat.zero_le _
  contiguous := rfl
  files := ⟨by simp, by simp [Store.initial]⟩
  distinct := List.nodup_nil
  listed := by simp
  gone := fun k => by rw [written_self]; rfl

/-- From an opened empty directory, failed compactions bring nothing back
just if each compaction uncovers nothing. -/
def BringsNothingBackIff (F : TableFormat) (EntryOk : Entry → Prop)
    (dirPath : Bytes) (bitsPerKey : ℕ) : Prop :=
  ∀ calls : List (SetCall F),
    (∀ c ∈ calls, c.EntriesOk EntryOk) →
      ((Store.initial F dirPath bitsPerKey).exec calls).isSome →
        ((Store.initial F dirPath bitsPerKey).BringsNothingBack calls ↔
          (Store.initial F dirPath bitsPerKey).AllUncoverNothing calls)

theorem bringsNothingBackIff_of_lawful (hF : F.Lawful EntryOk)
    (dirPath : Bytes) (bitsPerKey : ℕ) :
    BringsNothingBackIff F EntryOk dirPath bitsPerKey := by
  intro calls hok hrun
  refine (Sound.initial F dirPath
    bitsPerKey).bringsNothingBack_iff_allUncover hF ?_ hok hrun
  intro k hdead f hf
  exact absurd hf.mem List.not_mem_nil

theorem bringsNothingBack_iff (dirPath : Bytes) (bitsPerKey : ℕ) :
    BringsNothingBackIff listTables (fun _ => True) dirPath bitsPerKey ∧
      BringsNothingBackIff byteTables EntryFits dirPath bitsPerKey :=
  ⟨bringsNothingBackIff_of_lawful listTables_lawful _ _,
    bringsNothingBackIff_of_lawful byteTables_lawful _ _⟩

end Run

theorem Store.BringsNothingBack.of_exec {s s' : Store F}
    {calls : List (SetCall F)} (h : s.BringsNothingBack calls)
    (hrun : s.exec calls = some s') : s'.ReopensSame := by
  induction calls generalizing s with
  | nil =>
      obtain rfl := Option.some.inj hrun
      exact h
  | cons c calls ih =>
      obtain ⟨s₁, hcall, hrest⟩ := Option.bind_eq_some_iff.mp hrun
      exact ih (h.2 s₁ hcall).2 hrest

/-- A compaction of the oldest tables has a value of the key to write, and
no file reaches beyond its run. -/
def Store.coversFiles (s : Store F) (key : Bytes) : SetCall F → Bool
  | .write _ => true
  | .compact start count _ =>
    let run := runOf s.set.sstables 0 count
    start ≠ 0 ||
      ((newestFound run key).any fun found => found ≠ .tombstone) &&
        (s.dir.keys.filterMap parseSpan ++ run.map Listed.span).all
          fun span => span.Within (runSpan run)

/-- So do those of the calls. -/
def Store.allCoverFiles (s : Store F) (key : Bytes) :
    List (SetCall F) → Bool
  | [] => true
  | c :: calls => s.coversFiles key c &&
    (s.call c).all fun s' => s'.allCoverFiles key calls

/-- An output that every file lies in uncovers nothing. -/
theorem Store.uncoversNothing_of_coversFiles {s : Store F} {key : Bytes}
    {c : SetCall F} (h : s.coversFiles key c = true) :
    s.UncoversNothing c := by
  cases c with
  | write memtable => exact trivial
  | compact start count fault =>
      rintro rfl - k - - t - hanswers -
      simp only [coversFiles, ne_eq, not_true_eq_false, decide_false,
        Bool.false_or, Bool.and_eq_true, Option.any_eq_true,
        List.all_eq_true, decide_eq_true_iff, List.mem_append,
        List.mem_filterMap, List.mem_map] at h
      obtain ⟨⟨found, hfound, hvalue⟩, hwithin⟩ := h
      refine absurd ?_ (hanswers.file.outside ?_)
      · rcases hanswers.file.file with hleft | ⟨hrun, -⟩
        · obtain ⟨file, hfile, -⟩ := hleft.opens
          exact hwithin _ (Or.inl ⟨t.path,
            mem_keys_iff.mpr (by rw [hfile]; rfl), hleft.span⟩)
        · exact hwithin _ (Or.inr ⟨t, hrun, rfl⟩)
      · cases found with
        | tombstone => exact absurd rfl hvalue
        | value value => exact ⟨key, value, hfound⟩

theorem Store.allUncoverNothing_of_allCoverFiles {s : Store F}
    {key : Bytes} {calls : List (SetCall F)}
    (h : s.allCoverFiles key calls = true) : s.AllUncoverNothing calls := by
  induction calls generalizing s with
  | nil => exact trivial
  | cons c calls ih =>
      rw [allCoverFiles, Bool.and_eq_true, Option.all_eq_true] at h
      exact ⟨uncoversNothing_of_coversFiles h.1,
        fun s' hcall => ih (h.2 s' hcall)⟩

/-- A deletion over the file of a compaction that failed behind its rename.
The tables above it are merged, with an input that is not removed, and then
all of them. -/
def failingCompactions : List (SetCall byteTables) :=
  [.write (OrderedMap.empty.insert (ascii "foo") (some (ascii "bar"))),
    .write (OrderedMap.empty.insert (ascii "omar") (some (ascii "ashour"))),
    .compact 0 2 (some .afterRename),
    .write (OrderedMap.empty.insert (ascii "foo") none),
    .compact 1 2 (some (.remove 1)), .compact 0 2 none]

theorem bringsNothingBack_failingCompactions :
    (Store.initial byteTables [] 10).BringsNothingBack
      failingCompactions := by
  refine ((bringsNothingBack_iff [] 10).2 failingCompactions
    (by decide +kernel) (by decide +kernel)).mpr ?_
  have hcover : (Store.initial byteTables [] 10).allCoverFiles
      (ascii "omar") failingCompactions = true := by
    decide +kernel
  exact Store.allUncoverNothing_of_allCoverFiles hcover

/-- Two tables are merged and the call fails behind the rename.  Both keys
are deleted, and a second call merges all three tables to nothing.  No file
is left that contains the first output. -/
def mergedAwayOverLeftover : List (SetCall byteTables) :=
  [.write (OrderedMap.empty.insert (ascii "foo") (some (ascii "bar"))),
    .write (OrderedMap.empty.insert (ascii "omar") (some (ascii "ashour"))),
    .compact 0 2 (some .afterRename),
    .write ((OrderedMap.empty.insert (ascii "foo") none).insert
      (ascii "omar") none),
    .compact 0 3 none]

theorem leftover_comes_back :
    ¬ ∀ calls : List (SetCall byteTables),
      (∀ c ∈ calls, c.EntriesOk EntryFits) →
        ((Store.initial byteTables [] 10).exec calls).isSome →
          (Store.initial byteTables [] 10).BringsNothingBack calls := by
  intro hclaim
  have hrun : ((Store.initial byteTables [] 10).exec
      mergedAwayOverLeftover).isSome := by
    decide +kernel
  have hback := hclaim mergedAwayOverLeftover (by decide +kernel) hrun
  obtain ⟨s, hs⟩ := Option.isSome_iff_exists.mp hrun
  have hreads : ((Store.initial byteTables [] 10).exec
      mergedAwayOverLeftover).map (fun s =>
        (s.set.get (ascii "foo"),
          (SSTableSet.open [] 10 s.dir.keys s.dir).1.bind
            fun set => set.get (ascii "foo"))) =
      some (.ok none, .ok (some (ascii "bar"))) := by
    decide +kernel
  rw [hs] at hreads
  obtain ⟨hlive, hreopened⟩ := Prod.mk.inj (Option.some.inj hreads)
  obtain ⟨set, dir, hopen, hget⟩ :=
    hback.of_exec hs _ (List.Perm.refl s.dir.keys) [] 10
  rw [hopen] at hreopened
  have hsame := (hget (ascii "foo")).trans hlive
  exact nomatch hsame.symm.trans hreopened

end Lsmrs
