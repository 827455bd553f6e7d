import Lsmrs.Sstable.WrittenTable

/-!
# The blocks of a written table

`write_table` cuts its records into blocks: each is closed by the record
that fills it.  The sparse index says where the blocks start and with which
key, and a lookup reads no more than one of them.
-/

namespace Lsmrs

open ByteString OrderedMap PartitionPoint

/-! ## Offsets -/

theorem le_of_mem_indexOf {offset : ℕ} {blocks : List (List Entry)}
    {p : Bytes × ℕ} (hp : p ∈ indexOf offset blocks) : offset ≤ p.2 := by
  induction blocks generalizing offset with
  | nil => cases hp
  | cons block blocks ih =>
      rcases List.mem_cons.mp hp with rfl | hp
      · exact le_rfl
      · exact (Nat.le_add_right _ _).trans (ih hp)

/-- Blocks that hold something start behind each other. -/
theorem indexOf_offsets {blocks : List (List Entry)}
    (hne : ∀ block ∈ blocks, block ≠ []) (offset : ℕ) :
    (indexOf offset blocks).Pairwise fun a b => a.2 < b.2 := by
  induction blocks generalizing offset with
  | nil => exact List.Pairwise.nil
  | cons block blocks ih =>
      obtain ⟨hblock, hothers⟩ := List.forall_mem_cons.mp hne
      refine List.pairwise_cons.mpr ⟨?_, ih hothers _⟩
      intro p hp
      have hle := le_of_mem_indexOf hp
      have hpos : (dataOf block).length ≠ 0 :=
        mt dataOf_length_eq_zero_iff.mp hblock
      dsimp only
      omega

/-! ## What a lookup reads -/

/-- The lookup of a key reads no more than so many bytes of the file, all in
one place: its answer is the same on every file that agrees there. -/
def SSTable.LookupReads (t : SSTable) (key : Bytes) (size : ℕ) : Prop :=
  ∃ start, ∃ len ≤ size, ∀ file : Bytes,
    (file.drop start).take len = (t.file.drop start).take len →
      SSTable.get { t with file } key (hash64 key) = t.get key (hash64 key)

/-- A block is what stands in the file between its offsets. -/
theorem SSTable.readBlock_of_window {t : SSTable} {start stop : ℕ}
    {file bytes : Bytes} (hstop : stop ≤ maxFileSize)
    (hlen : start + bytes.length = stop)
    (h : (file.drop start).take bytes.length = bytes) :
    SSTable.readBlock { t with file } start stop = .ok bytes := by
  have hsize : stop - start = bytes.length := by omega
  rw [SSTable.readBlock]
  simp only [hsize]
  rw [if_neg (by omega)]
  by_cases hnil : bytes.length = 0
  · rw [if_pos hnil, List.length_eq_zero_iff.mp hnil]
  · have hsplit : file.drop start =
        bytes ++ (file.drop start).drop bytes.length := by
      conv_lhs => rw [← List.take_append_drop bytes.length (file.drop start)]
      rw [h]
    rw [if_neg hnil, seekStart, if_pos (by omega), ok_bind, hsplit,
      readExact_append rfl]
    rfl

/-! ## The cut -/

/-- The sparse index of a table cuts the data region, which holds the
entries, into blocks. -/
structure CutIntoBlocks (entries : List Entry) (t : SSTable)
    (blocks : List (List Entry)) : Prop where
  records : blocks.flatten = entries
  nonempty : ∀ block ∈ blocks, block ≠ []
  data : t.file.take t.indexStart = dataOf entries
  indexStart : t.indexStart = (dataOf entries).length
  count : t.sparseIndex.length = blocks.length
  first : ∀ p ∈ t.sparseIndex.head?, p.2 = 0
  offsets : t.sparseIndex.Pairwise fun a b => a.2 < b.2
  keys : t.sparseIndex.Pairwise fun a b => a.1 < b.1
  starts : ∀ p ∈ t.sparseIndex, ∃ before e after,
    entries = before ++ e :: after ∧ p = (e.1, (dataOf before).length)
  bytes : ∀ i p block, t.sparseIndex[i]? = some p → blocks[i]? = some block →
    p.2 + (dataOf block).length = t.blockEnd i ∧
      (t.file.drop p.2).take (dataOf block).length = dataOf block
  ge : ∀ block ∈ blocks.dropLast, blockSize ≤ (dataOf block).length
  lt : ∀ block ∈ blocks, (dataOf block.dropLast).length < blockSize

/-- What fills a block is its last record. -/
theorem exists_last_record {block : List Entry} (hne : block ≠ [])
    (hlt : (dataOf block.dropLast).length < blockSize) :
    ∃ e ∈ block, (dataOf block).length ≤
      blockSize - 1 + (encodeEntry e).length := by
  refine ⟨block.getLast hne, List.getLast_mem hne, ?_⟩
  have hsplit := dataOf_concat_length block.dropLast (block.getLast hne)
  rw [List.dropLast_append_getLast] at hsplit
  omega

namespace CutIntoBlocks

variable {t : SSTable} {entries : List Entry} {blocks : List (List Entry)}

/-- A lookup reads one block at most, and so no more than the longest block
without its last record, and one record. -/
theorem lookupReads (h : CutIntoBlocks entries t blocks)
    (hsize : t.file.length ≤ maxFileSize) (hne : entries ≠ [])
    (key : Bytes) :
    ∃ e ∈ entries, t.LookupReads key
      (blockSize - 1 + (encodeEntry e).length) := by
  have hmem : ∀ block ∈ blocks, ∀ e ∈ block, e ∈ entries := by
    intro block hblock e he
    rw [← h.records]
    exact List.mem_flatten_of_mem hblock he
  obtain ⟨some_entry, hsome⟩ := List.exists_mem_of_ne_nil entries hne
  cases hcandidate :
      partitionPoint (fun p => decide (p.1 ≤ key)) t.sparseIndex with
  | zero =>
      -- No block is read at all.
      refine ⟨some_entry, hsome, 0, 0, Nat.zero_le _, ?_⟩
      intro file _
      apply SSTable.get_eq_of_readBlock
      intro i p hi _
      rw [hcandidate] at hi
      cases hi
  | succ i =>
      cases hp : t.sparseIndex[i]? with
      | none =>
          refine ⟨some_entry, hsome, 0, 0, Nat.zero_le _, ?_⟩
          intro file _
          apply SSTable.get_eq_of_readBlock
          intro j p hj hp'
          rw [hcandidate] at hj
          obtain rfl := Nat.succ.inj hj
          rw [hp] at hp'
          cases hp'
      | some p =>
          obtain ⟨hi, -⟩ := List.getElem?_eq_some_iff.mp hp
          rw [h.count] at hi
          have hblock := List.getElem?_eq_getElem hi
          have hin := List.getElem_mem hi
          obtain ⟨hend, hbytes⟩ := h.bytes i p _ hp hblock
          obtain ⟨e, he, hle⟩ := exists_last_record (h.nonempty _ hin)
            (h.lt _ hin)
          have hfull := congrArg List.length hbytes
          rw [List.length_take, List.length_drop] at hfull
          have hpos := mt dataOf_length_eq_zero_iff.mp (h.nonempty _ hin)
          have hstop : t.blockEnd i ≤ maxFileSize := by omega
          refine ⟨e, hmem _ hin e he, p.2, _, hle, ?_⟩
          intro file hfile
          apply SSTable.get_eq_of_readBlock
          intro j q hj hq
          rw [hcandidate] at hj
          obtain rfl := Nat.succ.inj hj
          obtain rfl := Option.some.inj (hp.symm.trans hq)
          exact (SSTable.readBlock_of_window hstop hend
            (hfile.trans hbytes)).trans
              (SSTable.readBlock_of_window hstop hend hbytes).symm

end CutIntoBlocks

theorem Cut.ge_of_mem_dropLast {done : List Entry} {closed : List (List Entry)}
    {current : List Entry} (h : Cut done closed current) :
    ∀ block ∈ (cutBlocks closed current).dropLast,
      blockSize ≤ (dataOf block).length := by
  intro block hblock
  rw [cutBlocks] at hblock
  split_ifs at hblock with hcurrent
  · rw [List.append_nil] at hblock
    exact (h.filled block (List.mem_of_mem_dropLast hblock)).ge
  · rw [List.dropLast_concat] at hblock
    exact (h.filled block hblock).ge

theorem Cut.lt_of_mem {done : List Entry} {closed : List (List Entry)}
    {current : List Entry} (h : Cut done closed current) :
    ∀ block ∈ cutBlocks closed current,
      (dataOf block.dropLast).length < blockSize := by
  intro block hblock
  rcases Cut.mem_cutBlocks.mp hblock with hclosed | ⟨rfl, hne⟩
  · exact (h.filled block hclosed).lt
  · have hsplit := dataOf_concat_length block.dropLast (block.getLast hne)
    have hsmall := h.small
    rw [List.dropLast_append_getLast] at hsplit
    omega

namespace Layout

variable {t : SSTable} {blocks : List (List Entry)}

theorem first_offset (h : Layout t blocks) :
    ∀ p ∈ t.sparseIndex.head?, p.2 = 0 := by
  intro p hp
  rw [h.index] at hp
  cases blocks with
  | nil => cases hp
  | cons block blocks =>
      obtain rfl := Option.some.inj hp
      rfl

/-- Where a block starts, the record whose key the index has starts. -/
theorem index_starts (h : Layout t blocks) :
    ∀ p ∈ t.sparseIndex, ∃ before e after,
      blocks.flatten = before ++ e :: after ∧
        p = (e.1, (dataOf before).length) := by
  intro p hp
  obtain ⟨i, hi⟩ := List.mem_iff_getElem?.mp hp
  obtain ⟨pre, block, post, hsplit, -, rfl⟩ := h.split_at hi
  have hne := h.nonempty block (by simp [hsplit])
  obtain ⟨e, rest, rfl, hkey⟩ := firstKey_mem hne
  refine ⟨pre.flatten, e, rest ++ post.flatten, ?_, by rw [hkey]⟩
  rw [hsplit, List.flatten_append, List.flatten_cons, List.cons_append]

/-- From where a block starts to where it ends, the file has its records. -/
theorem block_bytes (h : Layout t blocks) {i : ℕ} {p : Bytes × ℕ}
    {block : List Entry} (hp : t.sparseIndex[i]? = some p)
    (hblock : blocks[i]? = some block) :
    p.2 + (dataOf block).length = t.blockEnd i ∧
      (t.file.drop p.2).take (dataOf block).length = dataOf block := by
  obtain ⟨pre, block', post, hsplit, rfl, rfl⟩ := h.split_at hp
  obtain rfl : block' = block := by
    rw [hsplit] at hblock
    simpa using hblock
  obtain ⟨rest, hfile⟩ := h.file_eq
  refine ⟨(h.blockEnd_eq hsplit).symm, ?_⟩
  rw [hfile, hsplit, List.flatten_append, List.flatten_cons, dataOf_append,
    dataOf_append, List.append_assoc, List.drop_left, List.append_assoc,
    List.take_left]

end Layout

/-! ## What `write_table` cuts -/

section Written

variable {bitsPerKey numKeys : ℕ} {file : Bytes} {t : SSTable}

/-- The sparse index cuts the data into blocks that reach the block size
with their last record, the last block perhaps not, and so a lookup reads
less than a block and one record. -/
theorem cutIntoBlocks_writeTable {entries : List Entry} (hne : entries ≠ [])
    (hsorted : Ascending entries)
    (h : writeTable bitsPerKey numKeys entries = .ok (file, t)) :
    t.file = file ∧ t.sparseIndex ≠ [] ∧
      (∃ blocks, CutIntoBlocks entries t blocks) ∧
      ∀ key, ∃ e ∈ entries, t.LookupReads key
        (blockSize - 1 + (encodeEntry e).length) := by
  obtain ⟨rfl, closed, current, hcut, hlayout⟩ := writeTable_cut h
  have hflatten := hcut.flatten_cutBlocks
  obtain ⟨rest, hfile⟩ := hlayout.file_eq
  have hcount : t.sparseIndex.length = (cutBlocks closed current).length := by
    rw [hlayout.index, indexOf_length]
  have hblocks : CutIntoBlocks entries t (cutBlocks closed current) := {
    records := hflatten
    nonempty := hlayout.nonempty
    data := by
      rw [hfile, hlayout.indexStart, List.take_left, hflatten]
    indexStart := by rw [hlayout.indexStart, hflatten]
    count := hcount
    first := hlayout.first_offset
    offsets := by
      rw [hlayout.index]
      exact indexOf_offsets hlayout.nonempty 0
    keys := by
      rw [hlayout.index]
      exact Layout.index_ascending (hflatten ▸ hsorted) hlayout.nonempty 0
    starts := by
      rw [← hflatten]
      exact hlayout.index_starts
    bytes := fun i p block => hlayout.block_bytes
    ge := hcut.ge_of_mem_dropLast
    lt := hcut.lt_of_mem }
  refine ⟨rfl, ?_, ⟨_, hblocks⟩, hblocks.lookupReads hlayout.size hne⟩
  have hpos := List.length_pos_iff.mpr (blocks_ne_nil hflatten hne)
  exact List.length_pos_iff.mp (hcount ▸ hpos)

theorem cutIntoBlocks_writeTable_twoBlocks :
    ∃ file t, writeTable 10 2 twoBlocks.entries = .ok (file, t) ∧
      t.sparseIndex.length = 2 ∧
      t.file = file ∧ t.sparseIndex ≠ [] ∧
        (∃ blocks, CutIntoBlocks twoBlocks.entries t blocks) ∧
        ∀ key, ∃ e ∈ twoBlocks.entries, t.LookupReads key
          (blockSize - 1 + (encodeEntry e).length) := by
  obtain ⟨file, t, hwrite, hblocks⟩ := exists_written twoBlocks_written
  exact ⟨file, t, hwrite, hblocks, cutIntoBlocks_writeTable
    (by decide +kernel) twoBlocks.ascending hwrite⟩

end Written

end Lsmrs
