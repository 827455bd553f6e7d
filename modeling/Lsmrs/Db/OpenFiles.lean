import Lsmrs.Db.Descriptors

/-!
# What is open stays as it is

Every table that is listed, cloned, merged or about to be unlinked reads as
it did when it was opened, and the set on its files takes the steps of the
set over a directory of whole files.
-/

namespace Lsmrs

open ByteString OrderedMap Inodes

variable {files files' : TableFiles} {dir : Dir byteTables}

/-! ## Open tables -/

/-- Nothing can be written to the table any more. -/
structure OpenTable.Sound (files : TableFiles) (t : OpenTable) : Prop where
  apart : files.Apart IsTmp t.inode
  data : files.data t.inode = t.table.file
  path : ¬ IsTmp t.path

theorem OpenTable.Sound.spares {t : OpenTable} (h : t.Sound files)
    (hspares : files.Spares IsTmp files') : t.Sound files' := by
  obtain ⟨hapart, hdata⟩ := hspares h.apart
  exact ⟨hapart, hdata.trans h.data, h.path⟩

/-- Its descriptor reads what was opened. -/
theorem OpenTable.Sound.reads_eq {t : OpenTable} (h : t.Sound files) :
    t.reads files = t.opened := by
  rw [OpenTable.reads, OpenTable.opened, h.data]

theorem reads_eq_of_sound {tables : List OpenTable}
    (h : ∀ t ∈ tables, t.Sound files) :
    tables.map (fun t => t.reads files) = tables.map OpenTable.opened :=
  List.map_congr_left fun t ht => (h t ht).reads_eq

theorem isTmp_tmpName (span : Span) : IsTmp (tmpName span) :=
  extension_tmpName span

theorem not_isTmp_tableName (span : Span) : ¬ IsTmp (tableName span) := by
  rw [IsTmp, extension_tableName]
  decide

/-! ## Tables being written -/

def TableJob.span : TableJob → Span
  | .writing span _ _ _ => span
  | .renamed span _ => span
  | .opened t => t.span

/-- What a thread inside `write_table` relies on: its temporary file holds
what is written already, and behind the rename the table is whole.  The
directory has all of it from the start. -/
def TableJob.Sound (files : TableFiles) (dir : Dir byteTables) :
    TableJob → Prop
  | .writing span inode rest table =>
    files.names.get? (tmpName span) = some inode ∧
      files.data inode ++ rest = table.file ∧
      dir.get? (tmpName span) = some table.file
  | .renamed span table =>
    ∀ bytes, files.file (tableName span) = some bytes → bytes = table.file
  | .opened t => t.path = tableName t.span ∧ t.Sound files

/-- The files of another span are left alone. -/
structure Leaves (span : Span) (files files' : TableFiles)
    (dir dir' : Dir byteTables) : Prop where
  tmp : files'.names.get? (tmpName span) = files.names.get? (tmpName span)
  data : ∀ {i}, files.names.get? (tmpName span) = some i →
    files'.data i = files.data i
  final : ∀ {bytes}, files'.file (tableName span) = some bytes →
    files.file (tableName span) = some bytes
  dir : dir'.get? (tmpName span) = dir.get? (tmpName span)

theorem TableJob.Sound.leaves {job : TableJob} {dir' : Dir byteTables}
    (h : job.Sound files dir) (hspares : files.Spares IsTmp files')
    (hleaves : Leaves job.span files files' dir dir') :
    job.Sound files' dir' := by
  cases job with
  | writing span inode rest table =>
      obtain ⟨hname, hdata, hdir⟩ := h
      refine ⟨hleaves.tmp.trans hname, ?_, hleaves.dir.trans hdir⟩
      rw [hleaves.data hname, hdata]
  | renamed span table =>
      intro bytes hbytes
      exact h bytes (hleaves.final hbytes)
  | opened t => exact ⟨h.1, h.2.spares hspares⟩

/-- But for temporary files, the directory holds what the names show. -/
def DirShows (files : TableFiles) (dir : Dir byteTables) : Prop :=
  ∀ name, ¬ IsTmp name → dir.get? name = files.file name

/-- What a step on the files of a span does to all the others. -/
structure Advances (span : Span) (files files' : TableFiles)
    (dir dir' : Dir byteTables) : Prop where
  spares : files.Spares IsTmp files'
  shows : DirShows files' dir'
  leaves : ∀ {other}, other ≠ span → Leaves other files files' dir dir'

theorem ne_of_isTmp {name name' : Bytes} (h : ¬ IsTmp name)
    (h' : IsTmp name') : name ≠ name' := by
  rintro rfl
  exact h h'

/-- A table begins with an empty temporary file. -/
theorem TableJob.create_sound {bitsPerKey : ℕ} {span : Span}
    {entries : List Entry} {job : TableJob} (hshows : DirShows files dir)
    (h : TableJob.create files bitsPerKey span entries =
      some (files', job)) :
    ∃ inode file table,
      byteTables.writeTable bitsPerKey entries = .ok (file, table) ∧
      job = .writing span inode file table ∧
      job.Sound files' (createTmp dir span file) ∧
      Advances span files files' dir (createTmp dir span file) := by
  unfold TableJob.create at h
  split at h
  next file table hwrite =>
    obtain ⟨rfl, rfl⟩ := Prod.mk.inj (Option.some.inj h)
    have hfile : table.file = file := (writeTable_layout hwrite).1
    refine ⟨_, file, table, hwrite, rfl, ⟨Volume.get?_create_self, ?_, ?_⟩,
      ?_⟩
    · rw [Volume.data_create_self, hfile]
      rfl
    · rw [createTmp, get?_insert, if_pos rfl, hfile]
    · constructor
      case spares => exact Volume.spares_create (isTmp_tmpName span)
      case shows =>
        intro name hname
        have hne := ne_of_isTmp hname (isTmp_tmpName span)
        rw [createTmp, get?_insert, if_neg hne.symm, hshows name hname,
          Volume.file_create_of_ne hne]
      case leaves =>
        intro other hother
        have hne : tmpName other ≠ tmpName span :=
          fun heq => hother (tmpName_injective heq)
        refine ⟨Volume.get?_create_of_ne hne, ?_, ?_, ?_⟩
        · intro i hi
          apply Volume.data_create_of_ne
          refine Volume.create_ne (files.below hi) fun hname => ?_
          exact hne (files.single hi hname)
        · intro bytes hbytes
          rwa [Volume.file_create_of_ne
            (tableName_ne_tmpName other span)] at hbytes
        · rw [createTmp, get?_insert, if_neg hne.symm]
  next => cases h

/-- The directory of whole files behind a step. -/
def TableJob.dirAfter (dir : Dir byteTables) (span : Span) :
    JobStep → Dir byteTables
  | .rename => publish dir span
  | _ => dir

inductive TableJob.Move (files : TableFiles) :
    TableJob → JobStep → TableFiles → TableJob → Prop
  | wrote {span : Span} {inode count : ℕ} {rest : Bytes}
      {table : SSTable} :
    Move files (.writing span inode rest table) (.write count)
      (files.append inode (rest.take count))
      (.writing span inode (rest.drop count) table)
  | renamed {span : Span} {inode : ℕ} {table : SSTable} :
    Move files (.writing span inode [] table) .rename
      (files.rename (tmpName span) (tableName span)) (.renamed span table)
  | opened {span : Span} {inode : ℕ} {table : SSTable}
      (hname : files.names.get? (tableName span) = some inode) :
    Move files (.renamed span table) .open files
      (.opened ⟨tableName span, span, inode, table⟩)

theorem TableJob.step_move {job job' : TableJob} {l : JobStep}
    (h : job.step files l = some (files', job')) :
    job.Move files l files' job' := by
  unfold TableJob.step at h
  split at h
  next =>
    obtain ⟨rfl, rfl⟩ := Prod.mk.inj (Option.some.inj h)
    exact .wrote
  next =>
    obtain ⟨rfl, rfl⟩ := Prod.mk.inj (Option.some.inj h)
    exact .renamed
  next =>
    split at h
    next hname =>
      obtain ⟨rfl, rfl⟩ := Prod.mk.inj (Option.some.inj h)
      exact .opened hname
    next => cases h
  next => cases h

theorem TableJob.Move.span {job job' : TableJob} {l : JobStep}
    (h : job.Move files l files' job') : job'.span = job.span := by
  cases h <;> rfl

/-- Nothing happens to the files of other spans in a step without effect. -/
theorem advances_refl {span : Span} (hshows : DirShows files dir) :
    Advances span files files dir dir :=
  ⟨Volume.spares_refl _ files, hshows,
    fun _ => ⟨rfl, fun _ => rfl, id, rfl⟩⟩

/-- The next bytes go to a temporary file. -/
theorem advances_append {span : Span} {inode : ℕ} (hshows : DirShows files dir)
    (hname : files.names.get? (tmpName span) = some inode) (bs : Bytes) :
    Advances span files (files.append inode bs) dir dir where
  spares := Volume.spares_append hname (isTmp_tmpName span) bs
  shows := by
    intro name hne
    rw [Volume.append, Volume.file_store_of_ne hname
      (ne_of_isTmp hne (isTmp_tmpName span))]
    exact hshows name hne
  leaves := by
    intro other hother
    refine ⟨rfl, ?_, ?_, rfl⟩
    · intro i hi
      apply Volume.data_store_of_ne
      rintro rfl
      exact hother (tmpName_injective (files.single hi hname))
    · intro bytes hbytes
      rwa [Volume.append, Volume.file_store_of_ne hname
        (tableName_ne_tmpName other span)] at hbytes

/-- A whole temporary file gets its final name. -/
theorem advances_rename {span : Span} {inode : ℕ} {file : Bytes}
    (hshows : DirShows files dir)
    (hname : files.names.get? (tmpName span) = some inode)
    (hdata : files.data inode = file)
    (hdir : dir.get? (tmpName span) = some file) :
    Advances span files (files.rename (tmpName span) (tableName span)) dir
      (publish dir span) where
  spares := Volume.spares_rename hname (isTmp_tmpName span) _
  shows := by
    intro name hne
    have htmp := ne_of_isTmp hne (isTmp_tmpName span)
    rw [publish_eq hdir, get?_insert, get?_erase, if_neg htmp.symm,
      Volume.file, Volume.get?_rename hname, if_neg htmp.symm,
      Volume.data_rename]
    split_ifs
    · rw [Option.map_some, hdata]
    · exact hshows name hne
  leaves := by
    intro other hother
    have htmp : tmpName span ≠ tmpName other :=
      fun heq => hother (tmpName_injective heq).symm
    have htable : tableName span ≠ tableName other :=
      fun heq => hother (tableName_injective heq).symm
    have hcross : tableName span ≠ tmpName other :=
      tableName_ne_tmpName span other
    refine ⟨?_, ?_, ?_, get?_publish_other hcross htmp⟩
    · rw [Volume.get?_rename hname, if_neg hcross, if_neg htmp]
    · intro i _
      rw [Volume.data_rename]
    · intro bytes hbytes
      rwa [Volume.file, Volume.get?_rename hname, if_neg htable,
        if_neg (tableName_ne_tmpName other span).symm,
        Volume.data_rename] at hbytes

/-- A table is removed, whoever may have it open. -/
theorem shows_unlink {path : Bytes} (hshows : DirShows files dir) :
    DirShows (files.unlink path) (dir.erase path) := by
  intro name hname
  rw [get?_erase, Volume.file, Volume.get?_unlink]
  by_cases heq : name = path
  · rw [if_pos heq.symm, if_pos heq]
    rfl
  · rw [if_neg (Ne.symm heq), if_neg heq]
    exact hshows name hname

theorem leaves_unlink {path : Bytes} (hpath : ¬ IsTmp path)
    (span : Span) :
    Leaves span files (files.unlink path) dir (dir.erase path) := by
  have hne : path ≠ tmpName span := ne_of_isTmp hpath (isTmp_tmpName span)
  refine ⟨?_, fun _ => rfl, ?_, ?_⟩
  · rw [Volume.get?_unlink, if_neg hne.symm]
  · intro bytes hbytes
    rw [Volume.file, Volume.get?_unlink] at hbytes
    split_ifs at hbytes
    · cases hbytes
    · exact hbytes
  · rw [get?_erase, if_neg hne]

theorem TableJob.Sound.move {job job' : TableJob} {l : JobStep}
    (h : job.Sound files dir) (hshows : DirShows files dir)
    (hmove : job.Move files l files' job') :
    job'.Sound files' (dirAfter dir job.span l) ∧
      Advances job.span files files' dir (dirAfter dir job.span l) := by
  cases hmove with
  | wrote =>
      obtain ⟨hname, hdata, hdir⟩ := h
      refine ⟨⟨hname, ?_, hdir⟩, advances_append hshows hname _⟩
      rw [Volume.append, Volume.data_store_self, List.append_assoc,
        List.take_append_drop, hdata]
  | renamed =>
      obtain ⟨hname, hdata, hdir⟩ := h
      rw [List.append_nil] at hdata
      refine ⟨?_, advances_rename hshows hname hdata hdir⟩
      intro bytes hbytes
      rw [Volume.file, Volume.get?_rename hname, if_pos rfl,
        Volume.data_rename, Option.map_some, hdata] at hbytes
      exact (Option.some.inj hbytes).symm
  | opened hname =>
      refine ⟨⟨rfl, Volume.apart_of_name hname (not_isTmp_tableName _), ?_,
        not_isTmp_tableName _⟩, advances_refl hshows⟩
      apply h
      rw [Volume.file, hname]
      rfl

end Lsmrs
