import Lsmrs.Db.Compactor
import Lsmrs.Db.Effect

/-!
# Memtable, log and tables together

The invariant of the database over a history of logged mutations.  The log
holds a suffix of the history; of a key the log says nothing about, the
tables show what the history says.
-/

namespace Lsmrs

open ByteString OrderedMap

variable {F : Format}

/-- The log holds the mutations, perhaps with a torn record behind them. -/
def LogShows (Ok : Mutation → Prop) (log : F.Log) (ms : List Mutation) :
    Prop :=
  log = F.logOf ms ∨
    ∃ m written, Ok m ∧ log = F.torn (F.logOf ms) m written

/-- A mutation that is logged and not yet in the memtable. -/
def Writer.pending : Writer F → List Mutation
  | .logged m => [m]
  | _ => []

/-- What holds while a flush is at some point. -/
def FlushInv {Ok : Mutation → Prop} (disk : Disk F) (p : Process F)
    (orphan : Option (Segment (Writable Ok))) : Prop :=
  match p.writer with
  | .created seq table =>
    seq = p.db.sstableSet.nextSeq ∧ ∃ d : Segment (Writable Ok),
      d.span = ⟨seq, seq⟩ ∧ d.content = p.db.map.entries ∧
        F.Holds table d.content ∧ Waiting disk.dir d
  | .published seq table =>
    seq = p.db.sstableSet.nextSeq ∧ ∃ d, orphan = some d ∧
      d.content = p.db.map.entries ∧ F.Holds table d.content
  | .registered => p.db.map.entries = []
  | _ => True

/-- A flush looks at nothing but the memtable and its temporary file. -/
theorem FlushInv.congr {Ok : Mutation → Prop} {disk disk' : Disk F}
    {p p' : Process F} {orphan : Option (Segment (Writable Ok))}
    (h : FlushInv disk p orphan) (hwriter : p'.writer = p.writer)
    (hmap : p'.db.map = p.db.map)
    (hnext : p'.db.sstableSet.nextSeq = p.db.sstableSet.nextSeq)
    (htmp : ∀ span : Span, p.db.sstableSet.nextSeq ≤ span.last →
      disk'.dir.get? (tmpName span) = disk.dir.get? (tmpName span)) :
    FlushInv disk' p' orphan := by
  rw [FlushInv] at h ⊢
  rw [hwriter, hmap, hnext]
  cases hat : p.writer with
  | created seq table =>
      rw [hat] at h
      obtain ⟨hseq, d, hspan, hcontent, hholds, file, hfile, hstores⟩ := h
      refine ⟨hseq, d, hspan, hcontent, hholds, file, ?_, hstores⟩
      rw [htmp d.span (by rw [hspan, hseq]), hfile]
  | published seq table => rwa [hat] at h
  | registered => rwa [hat] at h
  | idle => exact trivial
  | logged m => exact trivial
  | flushing => exact trivial

/-- The invariant of an open database: `applied` is the history up to the
pending mutation, `ms` what the log holds of it. -/
structure ProcessInv (Ok : Mutation → Prop) (hist applied ms : List Mutation)
    (segs extra : List (Segment (Writable Ok)))
    (orphan : Option (Segment (Writable Ok)))
    (disk : Disk F) (p : Process F) : Prop where
  tables : ProcessTables .stairs disk p segs extra orphan
  next_le : p.db.sstableSet.nextSeq ≤ u64Max
  hist_ok : ∀ m ∈ hist, Ok m
  hist_eq : hist = applied ++ p.writer.pending
  log : LogShows Ok disk.log ms
  log_hist : ms <:+ hist
  pending_log : p.writer.pending <:+ ms
  map_hist : ∀ k e, p.db.map.get? k = some e → effect applied k = some e
  map_log : ∀ k, (p.db.map.get? k).isSome → (effect ms k).isSome
  orphan_map : ∀ o ∈ orphan, ∀ k, (o.layer k).isSome →
    (p.db.map.get? k).isSome
  shows : ∀ k, p.db.map.get? k = none →
    shown segs k = (effect applied k).join
  flush : FlushInv disk p orphan

/-- The invariant of a directory nobody has open. -/
structure DiskInv (Ok : Mutation → Prop) (hist ms : List Mutation)
    (all kept : List (Segment (Writable Ok))) (disk : Disk F) : Prop where
  hist_ok : ∀ m ∈ hist, Ok m
  log : LogShows Ok disk.log ms
  log_hist : ms <:+ hist
  files : Shows disk.dir all kept
  shows : ∀ k, effect ms k = none → shown kept k = (effect hist k).join

/-- The invariant of a state. -/
def Inv (Ok : Mutation → Prop) (hist : List Mutation) (s : State F) : Prop :=
  match s.process with
  | some p => ∃ applied ms segs extra orphan,
      ProcessInv Ok hist applied ms segs extra orphan s.disk p
  | none => ∃ ms all kept, DiskInv Ok hist ms all kept s.disk

namespace ProcessInv

variable {Ok : Mutation → Prop} {hist applied ms : List Mutation}
  {segs extra : List (Segment (Writable Ok))}
  {orphan : Option (Segment (Writable Ok))}
  {disk : Disk F} {p : Process F}

/-! ## Consequences -/

theorem map_entries_ok
    (h : ProcessInv Ok hist applied ms segs extra orphan disk p) :
    ∀ e ∈ p.db.map.entries, Writable Ok e := by
  rintro ⟨k, value⟩ he
  have heffect := h.map_hist k value (mem_entries_iff.mp he)
  apply h.hist_ok
  rw [h.hist_eq]
  exact List.mem_append_left _ (mem_of_effect heffect)

/-- Reads see the history that is applied. -/
theorem get_eq
    (h : ProcessInv Ok hist applied ms segs extra orphan disk p)
    (k : Bytes) : p.db.get k = .ok (plainMap applied k) := by
  rw [Db.get, plainMap_eq]
  cases hmap : p.db.map.get? k with
  | some e =>
      rw [Layers.visible, h.map_hist k e hmap]
      rfl
  | none =>
      dsimp only
      rw [SSTableSet.get_eq h.tables.described, h.shows k hmap]
      rfl

/-- A crash leaves a directory that still shows the whole history. -/
theorem crash
    (h : ProcessInv Ok hist applied ms segs extra orphan disk p) :
    ∃ all kept, DiskInv Ok hist ms all kept disk := by
  obtain ⟨kept, hshows, -, hshown⟩ := h.tables.shows
  refine ⟨_, kept, h.hist_ok, h.log, h.log_hist, hshows, ?_⟩
  intro k hk
  have hmap : p.db.map.get? k = none := by
    by_contra hne
    have hsome := h.map_log k (Option.isSome_iff_ne_none.mpr hne)
    rw [hk] at hsome
    cases hsome
  have horphan : tells orphan.toList k = none := by
    rw [tells, Layers.stack_eq_none_iff]
    intro l hl
    obtain ⟨o, ho, rfl⟩ := List.mem_map.mp hl
    by_contra hne
    have hsome := h.orphan_map o (Option.mem_toList.mp ho) k
      (Option.isSome_iff_ne_none.mpr hne)
    rw [hmap] at hsome
    cases hsome
  have hpending : effect p.writer.pending k = none := by
    cases hp : effect p.writer.pending k with
    | none => rfl
    | some e =>
        rw [effect_suffix h.pending_log hp] at hk
        cases hk
  rw [hshown, shown_append_of_none horphan, h.shows k hmap, h.hist_eq,
    effect_of_suffix_none hpending]

end ProcessInv

/-! ## The writer -/

section Writer

variable {Ok : Mutation → Prop} {o : SpanOrder}
  {segs extra : List (Segment (Writable Ok))}
  {orphan : Option (Segment (Writable Ok))}

/-- The compactor's position does not depend on the writer's files. -/
theorem Phase.congr {dir dir' : Dir F.toTableFormat}
    {compactor : Compactor F} (h : Phase o dir segs extra compactor)
    {next : ℕ} (hbelow : ∀ d ∈ segs ++ extra, d.span.last < next)
    (htmp : ∀ span : Span, span.last < next →
      dir'.get? (tmpName span) = dir.get? (tmpName span)) :
    Phase o dir' segs extra compactor := by
  cases compactor with
  | created start count span table =>
      obtain ⟨hextra, out, hout, hspan, hholds, file, hfile, hstores⟩ := h
      refine ⟨hextra, out, hout, hspan, hholds, file, ?_, hstores⟩
      rw [htmp out.span ?_, hfile]
      rw [hout.span]
      exact segmentSpan_last_lt
        (fun d hd => hbelow d (List.mem_append_left _ hd))
        hout.merged.count_ge hout.merged.in_range
  | idle => exact h
  | begun run start count => exact h
  | merged start count span entries => exact h
  | ready start count replacement => exact h
  | unlinking obsolete => exact h

theorem get?_tmpName_createTmp_of_lt {dir : Dir F.toTableFormat} {seq : ℕ}
    (file : F.File) (span : Span) (hspan : span.last < seq) :
    (createTmp dir ⟨seq, seq⟩ file).get? (tmpName span) =
      dir.get? (tmpName span) := by
  rw [createTmp, get?_insert, if_neg]
  intro heq
  rw [← tmpName_injective heq] at hspan
  exact lt_irrefl _ hspan

/-- Writing the flush's temporary file changes nothing of the tables. -/
theorem TablesInv.createTmp {dir : Dir F.toTableFormat}
    {set : SSTableSet F.toTableFormat} {compactor : Compactor F}
    (h : TablesInv o dir set compactor segs extra orphan) (file : F.File) :
    TablesInv o (createTmp dir ⟨set.nextSeq, set.nextSeq⟩ file) set compactor
      segs extra orphan :=
  ⟨h.described, h.order, h.below, h.orphan_span, h.files.createTmp _ file,
    h.phase.congr h.below (get?_tmpName_createTmp_of_lt file)⟩

/-- The rename of a flush puts its table on disk as an orphan, in place of
the orphan of an earlier try. -/
theorem TablesInv.publish {dir : Dir F.toTableFormat}
    {set : SSTableSet F.toTableFormat} {compactor : Compactor F}
    (h : TablesInv o dir set compactor segs extra orphan)
    {d : Segment (Writable Ok)}
    (hspan : d.span = ⟨set.nextSeq, set.nextSeq⟩)
    (hwaiting : Waiting dir d) :
    TablesInv o (publish dir ⟨set.nextSeq, set.nextSeq⟩) set compactor
      segs extra (some d) := by
  have hfiles := h.files.publish hwaiting
  rw [hspan] at hfiles
  refine ⟨h.described, h.order, h.below, ?_, hfiles.of_mem_iff ?_,
    h.phase.congr h.below ?_⟩
  · intro new hnew
    rw [← Option.mem_some_iff.mp hnew, hspan]
  · intro d'
    have hold : d' ∈ segs ++ extra → d'.name ≠ d.name := by
      intro hd' hname
      have hlt := h.below d' hd'
      rw [Segment.name_injective hname, hspan] at hlt
      exact lt_irrefl _ hlt
    have horphan : d' ∈ orphan.toList → d'.name = d.name := by
      intro hd'
      rw [Segment.name, Segment.name, hspan,
        h.orphan_span d' (Option.mem_toList.mp hd')]
    rw [← List.append_assoc] at *
    rw [List.mem_append] at hold
    simp only [List.mem_append, List.mem_cons, List.mem_filter,
      decide_eq_true_eq, Option.toList_some, List.not_mem_nil, or_false]
    tauto
  · intro span hlt
    apply get?_publish_other (tableName_ne_tmpName _ span)
    intro heq
    rw [← tmpName_injective heq] at hlt
    exact lt_irrefl _ hlt

/-- A table on top of the list leaves the compactor where it is. -/
theorem TablesInv.phase_append {dir : Dir F.toTableFormat}
    {set : SSTableSet F.toTableFormat} {compactor : Compactor F}
    {d : Segment (Writable Ok)}
    (h : TablesInv o dir set compactor segs extra (some d)) :
    Phase o dir (segs ++ [d]) extra compactor := by
  have hphase := h.phase
  cases compactor with
  | idle => exact hphase
  | begun run start count =>
      obtain ⟨hextra, hcount, hrange, hrun⟩ := hphase
      refine ⟨hextra, hcount, ?_, ?_⟩
      · rw [List.length_append]
        omega
      · rwa [segmentRun_append hrange]
  | merged start count span entries =>
      obtain ⟨hextra, hne, hmerged, hspan'⟩ := hphase
      refine ⟨hextra, hne, hmerged.append [d], ?_⟩
      rwa [segmentRun_append hmerged.in_range]
  | created start count span table' =>
      obtain ⟨hextra, out, hout, hrest⟩ := hphase
      exact ⟨hextra, out, hout.append [d], hrest⟩
  | ready start count replacement =>
      obtain ⟨segment, hextra, hreplacement, hlisted⟩ := hphase
      exact ⟨segment, hextra, hreplacement.append [d], hlisted⟩
  | unlinking obsolete =>
      obtain ⟨hlisted, hextra, ⟨out, hout, hwithin⟩ | ⟨hall, hnone⟩⟩ :=
        hphase
      · exact ⟨hlisted, hextra,
          Or.inl ⟨out, List.mem_append_left _ hout, hwithin⟩⟩
      · refine ⟨hlisted, hextra, Or.inr ⟨?_, hnone⟩⟩
        rw [← List.append_assoc]
        exact h.order_orphan hall fun d' hd' => h.below d' (by
          simp only [List.mem_append] at hd' ⊢
          tauto)

/-- Registering the published table puts it on top of the list. -/
theorem TablesInv.register {dir : Dir F.toTableFormat}
    {set : SSTableSet F.toTableFormat} {compactor : Compactor F}
    {d : Segment (Writable Ok)}
    (h : TablesInv o dir set compactor segs extra (some d))
    {table : F.Table} (hholds : F.Holds table d.content) :
    TablesInv o dir (set.register set.nextSeq table) compactor
      (segs ++ [d]) extra none := by
  have hspan := h.orphan_span d rfl
  have hdescribed : Described (listedAt ⟨set.nextSeq, set.nextSeq⟩ table)
      d := by
    refine ⟨hspan.symm, ?_, hholds⟩
    rw [Segment.name, hspan]
    rfl
  refine ⟨List.rel_append h.described (.cons hdescribed .nil), h.order_list,
    ?_, by simp, ?_, h.phase_append⟩
  · intro d' hd'
    have hnext : (set.register set.nextSeq table).nextSeq =
        set.nextSeq + 1 := rfl
    have hlt : d'.span.last < set.nextSeq ∨ d' = d := by
      simp only [List.mem_append, List.mem_singleton] at hd'
      rcases hd' with (hd' | rfl) | hd'
      · exact Or.inl (h.below d' (List.mem_append_left _ hd'))
      · exact Or.inr rfl
      · exact Or.inl (h.below d' (List.mem_append_right _ hd'))
    rcases hlt with hlt | rfl
    · omega
    · rw [hspan]
      exact Nat.lt_succ_self _
  · refine h.files.of_mem_iff ?_
    intro d'
    simp only [List.mem_append, List.mem_singleton, Option.toList_some,
      Option.toList_none, List.not_mem_nil, or_false]
    tauto

end Writer

end Lsmrs
