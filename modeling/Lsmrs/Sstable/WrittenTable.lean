import Lsmrs.Sstable.Opening

/-!
# A table once it is written

What `write_table` leaves behind: a file whose sections fill it, a table that
answers for exactly its entries without looking past its data, and an opening
that gives this table back.
-/

namespace Lsmrs

open ByteString OrderedMap PartitionPoint

/-! ## Sections -/

/-- The file is its data, index, filter and metadata one after the other,
with a trailer that says where they begin. -/
structure Sections (path : Bytes) (entries : List Entry) (t : SSTable)
    (trailer : Trailer) : Prop where
  file : t.file = dataOf entries ++ (indexBytes t.sparseIndex ++
    (filterBytes t.filter ++ (metaBytes t.minKey t.maxKey ++
      trailerBytes trailer.indexStart trailer.filterStart
        trailer.metaStart)))
  read : readTrailer path t.file = .ok trailer
  indexStart : trailer.indexStart = (dataOf entries).length
  filterStart : trailer.filterStart =
    trailer.indexStart + (indexBytes t.sparseIndex).length
  metaStart : trailer.metaStart =
    trailer.filterStart + (filterBytes t.filter).length
  size : t.file.length =
    trailer.metaStart + (metaBytes t.minKey t.maxKey).length + trailerSize

theorem Layout.sections {t : SSTable} {blocks : List (List Entry)}
    (h : Layout t blocks) (path : Bytes) :
    ∃ trailer, trailer.indexStart = t.indexStart ∧
      Sections path blocks.flatten t trailer := by
  have hsize := h.size
  let data := dataOf blocks.flatten
  let index := indexBytes t.sparseIndex
  let filterStart := data.length + index.length
  let metaStart := filterStart + 12 + t.filter.bits.length * 8
  let trailer := trailerBytes data.length filterStart metaStart
  have hfile : t.file = data ++ (index ++ (filterBytes t.filter ++
      (metaBytes t.minKey t.maxKey ++ trailer))) := by
    rw [h.file, fileOf, ← h.index]
  have hmeta : metaStart = filterStart + (filterBytes t.filter).length := by
    rw [filterBytes_length]
    omega
  have hlen : t.file.length = metaStart +
      (metaBytes t.minKey t.maxKey).length + trailerSize := by
    have hparts := congrArg List.length hfile
    simp only [List.length_append, trailer, trailerBytes_length] at hparts
    omega
  have hlt : ∀ n ≤ t.file.length, n < 2 ^ 64 := by
    intro n hn
    simp only [maxFileSize] at hsize
    omega
  refine ⟨⟨data.length, filterStart, metaStart⟩, h.indexStart.symm, hfile,
    ?_, rfl, rfl, hmeta, hlen⟩
  have hsplit : t.file = (data ++ (index ++ (filterBytes t.filter ++
      metaBytes t.minKey t.maxKey))) ++ trailer := by
    simp [hfile]
  rw [hsplit]
  exact readTrailer_append (hlt _ (by omega)) (hlt _ (by omega))
    (hlt _ (by omega)) path _

/-! ## Answers -/

/-- `get` succeeds on every key, with what the map holds for it. -/
def SSTable.AnswersFor (t : SSTable) (m : OrderedMap Bytes (Option Bytes)) :
    Prop :=
  ∀ key, ∃ found, t.get key (hash64 key) = .ok found ∧
    (∀ value, found = some (.value value) ↔
      m.get? key = some (some value)) ∧
    (found = some .tombstone ↔ m.get? key = some none) ∧
    (found = none ↔ m.get? key = none)

/-- Nothing that `get` reads lies outside the data region: the answers stay
the same whatever stands behind the data, and when nothing does. -/
def SSTable.StaysInData (t : SSTable) : Prop :=
  ∀ (rest key : Bytes),
    SSTable.get { t with file := t.file.take t.indexStart ++ rest } key
        (hash64 key) =
      t.get key (hash64 key)

/-- Of its file, a lookup sees only the block that the index leads to. -/
theorem SSTable.get_eq_of_readBlock {t : SSTable} {file key : Bytes}
    {hash : UInt64}
    (hread : ∀ i p,
      partitionPoint (fun p => decide (p.1 ≤ key)) t.sparseIndex = i + 1 →
      t.sparseIndex[i]? = some p →
      SSTable.readBlock { t with file } p.2 (t.blockEnd i) =
        t.readBlock p.2 (t.blockEnd i)) :
    SSTable.get { t with file } key hash = t.get key hash := by
  rw [SSTable.get, SSTable.get]
  by_cases houtside : key < t.minKey ∨ t.maxKey < key
  · rw [if_pos houtside, if_pos houtside]
  · rw [if_neg houtside, if_neg houtside]
    cases t.filter.contains hash with
    | error e => rfl
    | ok present =>
        cases present with
        | false => rfl
        | true =>
            rw [ok_bind, ok_bind]
            cases hcandidate : partitionPoint
                (fun p => decide (p.1 ≤ key)) t.sparseIndex with
            | zero => rfl
            | succ i =>
                cases hp : t.sparseIndex[i]? with
                | none => simp only [hp]
                | some p =>
                    have hsame := hread i p hcandidate hp
                    have hstop : SSTable.blockEnd { t with file } i =
                      t.blockEnd i := rfl
                    simp only [hp, hstop, hsame]

/-! ## Reading does not panic -/

theorem readExact_ne_panic (n : ℕ) (reader : Bytes) :
    readExact n reader ≠ .error .panic := by
  rw [readExact]
  cases takeExact n reader with
  | none => simp [ioError]
  | some r => simp

theorem ok_ne_panic {α : Type} (a : α) :
    (.ok a : Result α) ≠ .error .panic := by
  simp

theorem bind_ne_panic {α β : Type} {x : Result α} {f : α → Result β}
    (hx : x ≠ .error .panic) (hf : ∀ a, f a ≠ .error .panic) :
    (x >>= f) ≠ .error .panic := by
  cases x with
  | ok a => exact hf a
  | error e => exact fun h => hx (congrArg Except.error (Except.error.inj h))

theorem readPrefixed_ne_panic (reader : Bytes) :
    readPrefixed reader ≠ .error .panic :=
  bind_ne_panic (readExact_ne_panic _ _) fun _ => readExact_ne_panic _ _

theorem readFields_ne_panic (reader : Bytes) :
    SSTable.readFields reader ≠ .error .panic :=
  bind_ne_panic (readPrefixed_ne_panic _) fun _ =>
    bind_ne_panic (readPrefixed_ne_panic _) fun _ =>
      bind_ne_panic (readExact_ne_panic _ _) fun _ => ok_ne_panic _

/-- Whatever a block holds, decoding it does not panic. -/
theorem panic_not_mem_blockRecords (turns : ℕ) (buf : Bytes) :
    (.error .panic) ∉ SSTable.blockRecords turns buf := by
  induction turns generalizing buf with
  | zero => exact List.not_mem_nil
  | succ turns ih =>
      rw [SSTable.blockRecords]
      have hfields := readFields_ne_panic buf
      split_ifs with hempty
      · exact List.not_mem_nil
      · cases hread : SSTable.readFields buf with
        | error e =>
            rw [hread] at hfields
            intro hmem
            have heq := Except.error.inj (List.mem_singleton.mp hmem)
            exact hfields (congrArg Except.error heq.symm)
        | ok r =>
            obtain ⟨key, value, op, rest⟩ := r
            dsimp only
            split_ifs
            · simpa using ih rest
            · simpa using ih rest
            · simp [SSTable.invalidOpType, ioError]

theorem error_mem_of_andThen {records later : List (Result Entry)}
    {f : Failure} (h : .error f ∈ SSTable.andThen records later) :
    .error f ∈ records ∨ .error f ∈ later := by
  induction records with
  | nil => exact Or.inr h
  | cons r records ih =>
      cases r with
      | ok e =>
          rw [SSTable.andThen, List.mem_cons] at h
          rcases h with h | h
          · cases h
          · exact (ih h).imp_left (List.mem_cons_of_mem _)
      | error e =>
          rw [SSTable.andThen, List.mem_singleton] at h
          rw [h]
          exact Or.inl List.mem_cons_self

namespace Layout

variable {t : SSTable} {blocks : List (List Entry)}

/-- An entry of the index is the first key of a block, with the length of
the blocks before it. -/
theorem split_at (h : Layout t blocks) {i : ℕ} {p : Bytes × ℕ}
    (hp : t.sparseIndex[i]? = some p) :
    ∃ pre block post, blocks = pre ++ block :: post ∧ pre.length = i ∧
      p = (firstKey block, (dataOf pre.flatten).length) := by
  have hi : i < blocks.length := by
    obtain ⟨hlt, -⟩ := List.getElem?_eq_some_iff.mp hp
    rwa [h.index, indexOf_length] at hlt
  have hsplit : blocks =
      blocks.take i ++ blocks[i] :: blocks.drop (i + 1) := by
    rw [← List.drop_eq_getElem_cons, List.take_append_drop]
  have hlen : (blocks.take i).length = i := List.length_take_of_le hi.le
  have hindex := indexOf_getElem? 0 (blocks.take i) (blocks.drop (i + 1))
    blocks[i]
  rw [← hsplit, ← h.index, hlen, hp, Nat.zero_add] at hindex
  exact ⟨_, _, _, hsplit, hlen, Option.some.inj hindex⟩

/-- The block at an entry of the index is read whole. -/
theorem readBlock_at (h : Layout t blocks) {file rest : Bytes}
    (hfile : file = dataOf blocks.flatten ++ rest) {i : ℕ} {p : Bytes × ℕ}
    (hp : t.sparseIndex[i]? = some p) :
    SSTable.readBlock { t with file } p.2 (t.blockEnd i) =
      .ok (dataOf (blocks.getD i [])) := by
  obtain ⟨pre, block, post, hsplit, rfl, rfl⟩ := h.split_at hp
  rw [h.blockEnd_eq hsplit, h.readBlock_of_data hfile hsplit, hsplit]
  simp

/-- `get` depends only on the data of the file. -/
theorem get_of_data (h : Layout t blocks) {file rest : Bytes}
    (hfile : file = dataOf blocks.flatten ++ rest) (key : Bytes)
    (hash : UInt64) :
    SSTable.get { t with file } key hash = t.get key hash := by
  obtain ⟨later, hown⟩ := h.file_eq
  apply SSTable.get_eq_of_readBlock
  intro i p hcandidate hp
  -- The block is read the same from both files.
  exact (h.readBlock_at hfile hp).trans (h.readBlock_at hown hp).symm

theorem staysInData (h : Layout t blocks) : t.StaysInData := by
  intro rest key
  obtain ⟨later, hfile⟩ := h.file_eq
  have htake : t.file.take t.indexStart = dataOf blocks.flatten := by
    rw [hfile, h.indexStart]
    exact List.take_left
  exact h.get_of_data (congrArg (· ++ rest) htake) key (hash64 key)

theorem answersFor (h : Layout t blocks)
    {m : OrderedMap Bytes (Option Bytes)} (hm : blocks.flatten = m.entries)
    (hfits : ∀ e ∈ m.entries, EntryFits e) : t.AnswersFor m := by
  intro key
  have hsorted : Ascending blocks.flatten := hm ▸ m.ascending
  have hget := h.get_eq hsorted (hm ▸ hfits) key
  rw [hm] at hget
  exact ⟨_, hget, fun _ => map_ofValue_eq_value_iff,
    map_ofValue_eq_tombstone_iff, Option.map_eq_none_iff⟩

/-- Walking the records may fail, but does not panic. -/
theorem panic_not_mem_records (h : Layout t blocks) :
    (.error .panic) ∉ t.records := by
  obtain ⟨rest, hown⟩ := h.file_eq
  rw [SSTable.records]
  suffices hgen : ∀ count block,
      (.error .panic) ∉ t.recordsFrom count block by
    exact hgen _ _
  intro count
  induction count with
  | zero => exact fun _ => List.not_mem_nil
  | succ count ih =>
      intro block
      rw [SSTable.recordsFrom]
      cases hp : t.sparseIndex[block]? with
      | none => exact List.not_mem_nil
      | some p =>
          have hread : t.readBlock p.2 (t.blockEnd block) = _ :=
            h.readBlock_at hown hp
          dsimp only
          rw [hread]
          intro hmem
          rcases error_mem_of_andThen hmem with hmem | hmem
          · exact panic_not_mem_blockRecords _ _ hmem
          · exact ih _ hmem

end Layout

/-! ## What `write_table` returns -/

section Written

variable {bitsPerKey numKeys : ℕ} {file : Bytes} {t : SSTable}

theorem blocks_ne_nil {blocks : List (List Entry)} {entries : List Entry}
    (hflatten : blocks.flatten = entries) (hne : entries ≠ []) :
    blocks ≠ [] := by
  rintro rfl
  exact hne hflatten.symm

/-- Point lookups in a table are exact, on the table `write_table` returns
and on the one a later opening loads. -/
theorem get_writeTable {m : OrderedMap Bytes (Option Bytes)}
    (hne : m.entries ≠ []) (hfits : ∀ e ∈ m.entries, EntryFits e)
    (h : writeTable bitsPerKey numKeys m.entries = .ok (file, t))
    (path : Bytes) :
    ∃ opened, SSTable.open path file = .ok opened ∧
      ∀ u ∈ [t, opened], u.AnswersFor m ∧ u.StaysInData := by
  obtain ⟨rfl, blocks, hflatten, hlayout⟩ := writeTable_layout h
  have hanswers := hlayout.answersFor hflatten hfits
  have hopen := hlayout.open_eq (blocks_ne_nil hflatten hne)
    (hflatten ▸ hfits) path
  refine ⟨t, hopen, ?_⟩
  intro u hu
  obtain rfl : u = t := by simpa using hu
  exact ⟨hanswers, hlayout.staysInData⟩

/-- A value that fills a block, and a tombstone in the next one. -/
def twoBlocks : OrderedMap Bytes (Option Bytes) :=
  (OrderedMap.empty.insert (ascii "foo")
    (some (List.replicate blockSize 0))).insert (ascii "omar") none

theorem exists_written {bitsPerKey numKeys blocks : ℕ}
    {entries : List Entry}
    (h : (writeTable bitsPerKey numKeys entries).map
      (fun p => p.2.sparseIndex.length) = .ok blocks) :
    ∃ file t, writeTable bitsPerKey numKeys entries = .ok (file, t) ∧
      t.sparseIndex.length = blocks := by
  cases hwrite : writeTable bitsPerKey numKeys entries with
  | error e =>
      rw [hwrite] at h
      cases h
  | ok p =>
      rw [hwrite] at h
      exact ⟨p.1, p.2, rfl, Except.ok.inj h⟩

theorem twoBlocks_written :
    (writeTable 10 2 twoBlocks.entries).map
      (fun p => p.2.sparseIndex.length) = .ok 2 := by
  decide +kernel

theorem get_writeTable_twoBlocks :
    ∃ file t, writeTable 10 2 twoBlocks.entries = .ok (file, t) ∧
      t.sparseIndex.length = 2 ∧
      ∃ opened, SSTable.open [] file = .ok opened ∧
        ∀ u ∈ [t, opened], u.AnswersFor twoBlocks ∧ u.StaysInData := by
  obtain ⟨file, t, hwrite, hblocks⟩ := exists_written twoBlocks_written
  exact ⟨file, t, hwrite, hblocks, get_writeTable (by decide +kernel)
    (by decide +kernel) hwrite []⟩

/-- Opening undoes writing, and the trailer points at the sections. -/
theorem open_writeTable {entries : List Entry} (hne : entries ≠ [])
    (hfits : ∀ e ∈ entries, EntryFits e)
    (h : writeTable bitsPerKey numKeys entries = .ok (file, t))
    (path : Bytes) :
    SSTable.open path file = .ok t ∧ t.file = file ∧
      ∃ trailer, trailer.indexStart = t.indexStart ∧
        Sections path entries t trailer := by
  obtain ⟨rfl, blocks, hflatten, hlayout⟩ := writeTable_layout h
  have hopen := hlayout.open_eq (blocks_ne_nil hflatten hne)
    (hflatten ▸ hfits) path
  have hsections := hlayout.sections path
  rw [hflatten] at hsections
  exact ⟨hopen, rfl, hsections⟩

theorem open_writeTable_twoBlocks :
    ∃ file t, writeTable 10 2 twoBlocks.entries = .ok (file, t) ∧
      t.sparseIndex.length = 2 ∧
      SSTable.open [] file = .ok t ∧ t.file = file ∧
        ∃ trailer, trailer.indexStart = t.indexStart ∧
          Sections [] twoBlocks.entries t trailer := by
  obtain ⟨file, t, hwrite, hblocks⟩ := exists_written twoBlocks_written
  exact ⟨file, t, hwrite, hblocks, open_writeTable (by decide +kernel)
    (by decide +kernel) hwrite []⟩

end Written

end Lsmrs
