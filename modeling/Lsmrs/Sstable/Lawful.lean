import Lsmrs.Sstable.Opening
import Lsmrs.Sstable.Set

/-!
# What a table format has to do

The laws the proofs about sets of tables use of a single table, and that the
bytes of the source and the plain lists both satisfy them.
-/

namespace Lsmrs

open ByteString OrderedMap

/-- A table reads as the given entries. -/
structure TableFormat.Holds (F : TableFormat) (table : F.Table)
    (entries : List Entry) : Prop where
  records : F.records table = streamOf entries
  get : ∀ key, F.get table key = .ok ((find entries key).map Found.ofValue)

/-- A file opens as a table that reads as the given entries. -/
def TableFormat.Stores (F : TableFormat) (file : F.File)
    (entries : List Entry) : Prop :=
  ∃ table, (∀ path, F.openTable path file = .ok table) ∧
    F.Holds table entries

/-- Writing good entries gives a table that holds them, and a file that
opens as this table. -/
structure TableFormat.Lawful (F : TableFormat) (EntryOk : Entry → Prop) :
    Prop where
  write : ∀ {bitsPerKey : ℕ} {entries : List Entry} {file : F.File}
    {table : F.Table}, F.writeTable bitsPerKey entries = .ok (file, table) →
    entries ≠ [] → Ascending entries → (∀ e ∈ entries, EntryOk e) →
    (∀ path, F.openTable path file = .ok table) ∧ F.Holds table entries

theorem byteTables_lawful : byteTables.Lawful EntryFits where
  write := by
    intro bitsPerKey entries file table h hne hsorted hok
    obtain ⟨rfl, blocks, rfl, hlayout⟩ := writeTable_layout h
    have hblocks : blocks ≠ [] := by
      rintro rfl
      exact hne rfl
    exact ⟨hlayout.open_eq hblocks hok, hlayout.records_eq hok,
      hlayout.get_eq hsorted hok⟩

theorem listTables_lawful : listTables.Lawful fun _ => True where
  write := by
    intro bitsPerKey entries file table h _ _ _
    cases h
    exact ⟨fun _ => rfl, rfl, fun _ => rfl⟩

end Lsmrs
