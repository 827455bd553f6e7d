import Lsmrs.Sstable.Table
import Lsmrs.Support.OrderedMap

/-!
# The layout of a written table

The loop of `write_table` cuts the records into blocks and indexes the first
key of each.  `Layout` says what a table and its file look like for a list of
blocks, and `writeTable` establishes it.
-/

namespace Lsmrs

open ByteString OrderedMap

/-- The lengths of an entry fit their `u32` prefixes. -/
def EntryFits (e : Entry) : Prop :=
  e.1.length < 2 ^ 32 ∧ (valueBytes e.2).length < 2 ^ 32

instance (e : Entry) : Decidable (EntryFits e) := by
  unfold EntryFits
  infer_instance

/-- The records of a list of entries, one after the other. -/
def dataOf (entries : List Entry) : Bytes :=
  entries.flatMap encodeEntry

@[simp] theorem dataOf_nil : dataOf [] = [] := rfl

theorem dataOf_cons (e : Entry) (entries : List Entry) :
    dataOf (e :: entries) = encodeEntry e ++ dataOf entries := rfl

theorem dataOf_append (xs ys : List Entry) :
    dataOf (xs ++ ys) = dataOf xs ++ dataOf ys :=
  List.flatMap_append

theorem dataOf_singleton (e : Entry) : dataOf [e] = encodeEntry e := by
  simp [dataOf]

@[simp] theorem prefixed_length (bytes : Bytes) :
    (prefixed bytes).length = 4 + bytes.length := by
  simp [prefixed]

theorem encodeEntry_length (e : Entry) :
    (encodeEntry e).length =
      9 + e.1.length + (valueBytes e.2).length := by
  simp [encodeEntry]
  omega

theorem length_le_dataOf (entries : List Entry) :
    entries.length ≤ (dataOf entries).length := by
  induction entries with
  | nil => simp
  | cons e entries ih =>
      rw [dataOf_cons, List.length_append, encodeEntry_length,
        List.length_cons]
      omega

/-! ## Blocks -/

/-- The key a block is indexed by. -/
def firstKey (block : List Entry) : Bytes :=
  ((block.head?).map Prod.fst).getD []

/-- The sparse index of blocks that start at an offset. -/
def indexOf (offset : ℕ) : List (List Entry) → List (Bytes × ℕ)
  | [] => []
  | block :: blocks =>
    (firstKey block, offset) ::
      indexOf (offset + (dataOf block).length) blocks

@[simp] theorem indexOf_length (offset : ℕ) (blocks : List (List Entry)) :
    (indexOf offset blocks).length = blocks.length := by
  induction blocks generalizing offset with
  | nil => rfl
  | cons block blocks ih => simp [indexOf, ih]

theorem indexOf_append (offset : ℕ) (xs ys : List (List Entry)) :
    indexOf offset (xs ++ ys) =
      indexOf offset xs ++
        indexOf (offset + (dataOf xs.flatten).length) ys := by
  induction xs generalizing offset with
  | nil => simp [indexOf]
  | cons block xs ih =>
      simp [indexOf, ih, dataOf_append, Nat.add_assoc]

/-- A block that was closed: it is full, and was not before its last
record. -/
structure Filled (block : List Entry) : Prop where
  ge : blockSize ≤ (dataOf block).length
  lt : (dataOf block.dropLast).length < blockSize

/-! ## The loop of `write_table` -/

/-- The blocks a run of records has been cut into: closed ones, and one that
may still be open. -/
structure Cut (done : List Entry) (closed : List (List Entry))
    (current : List Entry) : Prop where
  records : done = closed.flatten ++ current
  filled : ∀ block ∈ closed, Filled block
  small : (dataOf current).length < blockSize

/-- The blocks of a cut, without an open one that is empty. -/
def cutBlocks (closed : List (List Entry)) (current : List Entry) :
    List (List Entry) :=
  closed ++ if current = [] then [] else [current]

theorem Filled.ne_nil {block : List Entry} (h : Filled block) :
    block ≠ [] := by
  rintro rfl
  exact absurd h.ge (by decide)

namespace Cut

variable {done : List Entry} {closed : List (List Entry)}
  {current : List Entry}

theorem flatten_cutBlocks (h : Cut done closed current) :
    (cutBlocks closed current).flatten = done := by
  rw [h.records, cutBlocks]
  by_cases hcurrent : current = [] <;> simp [hcurrent]

theorem mem_cutBlocks {block : List Entry} :
    block ∈ cutBlocks closed current ↔
      block ∈ closed ∨ block = current ∧ current ≠ [] := by
  rw [cutBlocks]
  by_cases hcurrent : current = []
  · simp [hcurrent]
  · simp [hcurrent]

theorem ne_nil_of_mem (h : Cut done closed current) :
    ∀ block ∈ cutBlocks closed current, block ≠ [] := by
  intro block hblock
  rcases mem_cutBlocks.mp hblock with hclosed | ⟨rfl, hne⟩
  · exact (h.filled block hclosed).ne_nil
  · exact hne

end Cut

/-- What the variables of the loop hold after some records. -/
structure Written (f₀ : BloomFilter) (w : TableWriter)
    (done : List Entry) (closed : List (List Entry))
    (current : List Entry) : Prop where
  cut : Cut done closed current
  data : w.data = dataOf done
  offset : w.currentOffset = (dataOf done).length
  blockStart : w.blockStart = (dataOf closed.flatten).length
  index : w.sparseIndex = indexOf 0 (cutBlocks closed current)
  minKey : done ≠ [] → w.minKey = firstKey done
  maxKey : ∀ e ∈ done.getLast?, w.maxKey = e.1
  filter : f₀.Extends w.filter
  holds : ∀ e ∈ done, w.filter.Holds (hash64 e.1)

/-- The block index after one more record: an entry is added exactly when
the record opens a block. -/
theorem indexOf_cutBlocks_push {closed : List (List Entry)}
    {current : List Entry} (e : Entry) :
    indexOf 0 (closed ++ [current ++ [e]]) =
      if current = [] then
        indexOf 0 (cutBlocks closed current) ++
          [(e.1, (dataOf closed.flatten).length)]
      else indexOf 0 (cutBlocks closed current) := by
  by_cases hcurrent : current = []
  · subst hcurrent
    simp [cutBlocks, indexOf_append, indexOf, firstKey]
  · obtain ⟨first, rest, rfl⟩ := List.exists_cons_of_ne_nil hcurrent
    simp [cutBlocks, indexOf_append, indexOf, firstKey]

theorem firstKey_append {done : List Entry} (hdone : done ≠ [])
    (e : Entry) : firstKey (done ++ [e]) = firstKey done := by
  obtain ⟨first, rest, rfl⟩ := List.exists_cons_of_ne_nil hdone
  rfl

theorem dataOf_length_eq_zero_iff {entries : List Entry} :
    (dataOf entries).length = 0 ↔ entries = [] := by
  have hle := length_le_dataOf entries
  constructor
  · intro hzero
    exact List.length_eq_zero_iff.mp (by omega)
  · rintro rfl
    rfl

theorem dataOf_concat_length (entries : List Entry) (e : Entry) :
    (dataOf (entries ++ [e])).length =
      (dataOf entries).length + (encodeEntry e).length := by
  rw [dataOf_append, dataOf_singleton, List.length_append]

/-- Full or not, a record makes the open block a closed one or leaves it
open. -/
theorem Cut.push {done : List Entry} {closed : List (List Entry)}
    {current : List Entry} (h : Cut done closed current) (e : Entry) :
    if blockSize ≤ (dataOf (current ++ [e])).length then
      Cut (done ++ [e]) (closed ++ [current ++ [e]]) []
    else Cut (done ++ [e]) closed (current ++ [e]) := by
  by_cases hfull : blockSize ≤ (dataOf (current ++ [e])).length
  · rw [if_pos hfull]
    refine ⟨by simp [h.records], ?_, by decide⟩
    intro block hmem
    rcases List.mem_append.mp hmem with hmem | hmem
    · exact h.filled block hmem
    · rw [List.mem_singleton.mp hmem]
      exact ⟨hfull, by rw [List.dropLast_concat]; exact h.small⟩
  · rw [if_neg hfull]
    exact ⟨by simp [h.records], h.filled, not_le.mp hfull⟩

namespace Written

variable {f₀ : BloomFilter} {w : TableWriter} {done : List Entry}
  {closed : List (List Entry)} {current : List Entry}

/-- The open block lies between its start and the current offset. -/
theorem currentOffset_eq (h : Written f₀ w done closed current) :
    w.currentOffset = w.blockStart + (dataOf current).length := by
  rw [h.offset, h.blockStart, h.cut.records, dataOf_append,
    List.length_append]

theorem opens_iff (h : Written f₀ w done closed current) :
    w.blockStart = w.currentOffset ↔ current = [] := by
  rw [h.currentOffset_eq, ← dataOf_length_eq_zero_iff]
  omega

theorem first_iff (h : Written f₀ w done closed current) :
    w.currentOffset = 0 ↔ done = [] := by
  rw [h.offset, dataOf_length_eq_zero_iff]

/-- The index behind a record has the blocks with the record in the open
one. -/
theorem index_push (h : Written f₀ w done closed current) (e : Entry) :
    (if w.blockStart = w.currentOffset then
      w.sparseIndex ++ [(e.1, w.currentOffset)] else w.sparseIndex) =
        indexOf 0 (closed ++ [current ++ [e]]) := by
  rw [indexOf_cutBlocks_push, h.index]
  by_cases hcurrent : current = []
  · rw [if_pos (h.opens_iff.mpr hcurrent), if_pos hcurrent, ← h.blockStart,
      h.opens_iff.mpr hcurrent]
  · rw [if_neg (mt h.opens_iff.mp hcurrent), if_neg hcurrent]

theorem minKey_push (h : Written f₀ w done closed current) (e : Entry) :
    (if w.currentOffset = 0 then e.1 else w.minKey) =
      firstKey (done ++ [e]) := by
  by_cases hnil : done = []
  · rw [if_pos (h.first_iff.mpr hnil), hnil]
    rfl
  · rw [if_neg (mt h.first_iff.mp hnil), firstKey_append hnil, h.minKey hnil]

theorem holds_push (h : Written f₀ w done closed current) {e : Entry}
    {filter : BloomFilter} (hext : w.filter.Extends filter)
    (hholds : filter.Holds (hash64 e.1)) :
    ∀ e' ∈ done ++ [e], filter.Holds (hash64 e'.1) := by
  intro e' he'
  rcases List.mem_append.mp he' with he' | he'
  · exact (h.holds e' he').mono hext
  · rw [List.mem_singleton.mp he']
    exact hholds

/-- One turn of the loop in terms of the blocks. -/
theorem push_eq (h : Written f₀ w done closed current) {e : Entry}
    {filter : BloomFilter}
    (hinsert : w.filter.insert (hash64 e.1) = .ok filter) :
    w.push e = .ok {
      data := dataOf (done ++ [e])
      sparseIndex := indexOf 0 (closed ++ [current ++ [e]])
      filter
      minKey := firstKey (done ++ [e])
      maxKey := e.1
      currentOffset := (dataOf (done ++ [e])).length
      blockStart :=
        if blockSize ≤ (dataOf (current ++ [e])).length then
          (dataOf (done ++ [e])).length
        else w.blockStart } := by
  have hsize : 9 + e.1.length + (valueBytes e.2).length =
      (encodeEntry e).length := (encodeEntry_length e).symm
  have hoffset : w.currentOffset + (encodeEntry e).length =
      (dataOf (done ++ [e])).length := by
    rw [h.offset, dataOf_concat_length]
  have hblock : (dataOf (done ++ [e])).length - w.blockStart =
      (dataOf (current ++ [e])).length := by
    rw [dataOf_concat_length, dataOf_concat_length, ← h.offset,
      h.currentOffset_eq]
    omega
  have hdata : w.data ++ encodeEntry e = dataOf (done ++ [e]) := by
    rw [h.data, dataOf_append, dataOf_singleton]
  rw [TableWriter.push, hinsert, ok_bind]
  simp only [hsize, hoffset, hblock, hdata, h.index_push e, h.minKey_push e]
  rfl

end Written

/-- One turn of the loop. -/
theorem Written.push {f₀ : BloomFilter} (hf₀ : f₀.WellFormed)
    {w : TableWriter} {done : List Entry} {closed : List (List Entry)}
    {current : List Entry} (h : Written f₀ w done closed current)
    (e : Entry) :
    ∃ w' closed' current', w.push e = .ok w' ∧
      Written f₀ w' (done ++ [e]) closed' current' := by
  obtain ⟨filter, hinsert, hext, hholds⟩ :=
    BloomFilter.insert_extends (h.filter.wellFormed hf₀) (hash64 e.1)
  have hcut := h.cut.push e
  have hmax : ∀ e' ∈ (done ++ [e]).getLast?, e.1 = e'.1 := by
    intro e' he'
    rw [List.getLast?_concat] at he'
    rw [Option.mem_some_iff.mp he']
  have hall := h.holds_push hext hholds
  -- The record closes its block exactly when that is now full.
  by_cases hfull : blockSize ≤ (dataOf (current ++ [e])).length
  · rw [if_pos hfull] at hcut
    refine ⟨_, closed ++ [current ++ [e]], [], h.push_eq hinsert, hcut, rfl,
      rfl, ?_, ?_, fun _ => rfl, hmax, h.filter.trans hext, hall⟩
    · dsimp only
      rw [if_pos hfull, h.cut.records]
      simp
    · simp [cutBlocks]
  · rw [if_neg hfull] at hcut
    refine ⟨_, closed, current ++ [e], h.push_eq hinsert, hcut, rfl, rfl, ?_,
      ?_, fun _ => rfl, hmax, h.filter.trans hext, hall⟩
    · dsimp only
      rw [if_neg hfull, h.blockStart]
    · simp [cutBlocks]

theorem Written.pushAll {f₀ : BloomFilter} (hf₀ : f₀.WellFormed)
    (entries : List Entry) {w : TableWriter} {done : List Entry}
    {closed : List (List Entry)} {current : List Entry}
    (h : Written f₀ w done closed current) :
    ∃ w' closed' current', w.pushAll entries = .ok w' ∧
      Written f₀ w' (done ++ entries) closed' current' := by
  induction entries generalizing w done closed current with
  | nil =>
      refine ⟨w, closed, current, rfl, ?_⟩
      rwa [List.append_nil]
  | cons e entries ih =>
      obtain ⟨w₁, closed₁, current₁, hpush, h₁⟩ := h.push hf₀ e
      obtain ⟨w₂, closed₂, current₂, hrest, h₂⟩ := ih h₁
      refine ⟨w₂, closed₂, current₂, ?_, ?_⟩
      · rw [TableWriter.pushAll, hpush, ok_bind, hrest]
      · rwa [List.append_assoc, List.singleton_append] at h₂

theorem written_start (f₀ : BloomFilter) :
    Written f₀ ⟨[], [], f₀, [], [], 0, 0⟩ [] [] [] where
  cut := ⟨rfl, by simp, by decide⟩
  data := rfl
  offset := rfl
  blockStart := rfl
  index := rfl
  minKey := fun h => absurd rfl h
  maxKey := by simp
  filter := .refl f₀
  holds := by simp

/-! ## The file -/

theorem indexBytes_cons (p : Bytes × ℕ) (index : List (Bytes × ℕ)) :
    indexBytes (p :: index) =
      prefixed p.1 ++ (toLeBytes 8 p.2 ++ indexBytes index) := by
  simp [indexBytes]

/-- What the loop over the sparse index adds up is what it writes. -/
theorem filterStartOffset_eq (offset : ℕ) (index : List (Bytes × ℕ)) :
    filterStartOffset offset index =
      offset + (indexBytes index).length := by
  induction index generalizing offset with
  | nil => rfl
  | cons p index ih =>
      rw [filterStartOffset, ih, indexBytes_cons, List.length_append,
        List.length_append, prefixed_length, toLeBytes_length]
      omega

/-- The bytes of a table file. -/
def fileOf (blocks : List (List Entry)) (filter : BloomFilter)
    (minKey maxKey : Bytes) : Bytes :=
  let index := indexBytes (indexOf 0 blocks)
  let data := dataOf blocks.flatten
  let filterStart := data.length + index.length
  let metaStart := filterStart + 12 + filter.bits.length * 8
  data ++ (index ++ (filterBytes filter ++ (metaBytes minKey maxKey ++
    trailerBytes data.length filterStart metaStart)))

/-- The table that holds the given blocks, and its file. -/
structure Layout (t : SSTable) (blocks : List (List Entry)) : Prop where
  file : t.file = fileOf blocks t.filter t.minKey t.maxKey
  size : t.file.length ≤ maxFileSize
  index : t.sparseIndex = indexOf 0 blocks
  indexStart : t.indexStart = (dataOf blocks.flatten).length
  nonempty : ∀ block ∈ blocks, block ≠ []
  minKey : blocks ≠ [] → t.minKey = firstKey blocks.flatten
  maxKey : ∀ e ∈ blocks.flatten.getLast?, t.maxKey = e.1
  wellFormed : t.filter.WellFormed
  numBits : t.filter.numBits = 64 * t.filter.bits.length
  numBits_lt : t.filter.numBits < 2 ^ 64
  numProbes_lt : t.filter.numProbes < 2 ^ 32
  holds : ∀ e ∈ blocks.flatten, t.filter.Holds (hash64 e.1)

theorem new_shape {numKeys bitsPerKey : ℕ} {f : BloomFilter}
    (h : BloomFilter.new numKeys bitsPerKey = .ok f) :
    f.numBits = 64 * f.bits.length ∧ f.numBits < 2 ^ 64 ∧
      f.numProbes < 2 ^ 32 := by
  rw [BloomFilter.new] at h
  split_ifs at h with hfits
  cases h
  have hprobes : probesFor bitsPerKey ≤ 30 := by
    simp [probesFor]
  refine ⟨?_, hfits, by dsimp only; omega⟩
  simp only [List.length_replicate]
  omega

/-- Every table `write_table` returns is laid out in the blocks its loop has
cut the entries into. -/
theorem writeTable_cut {bitsPerKey numKeys : ℕ} {entries : List Entry}
    {file : Bytes} {t : SSTable}
    (h : writeTable bitsPerKey numKeys entries = .ok (file, t)) :
    t.file = file ∧ ∃ closed current, Cut entries closed current ∧
      Layout t (cutBlocks closed current) := by
  rw [writeTable] at h
  obtain ⟨f₀, hnew, h⟩ := bind_eq_ok.mp h
  have hf₀ := BloomFilter.new_wellFormed hnew
  obtain ⟨hbits, hbits_lt, hprobes⟩ := new_shape hnew
  obtain ⟨w, hpush, h⟩ := bind_eq_ok.mp h
  obtain ⟨w', closed, current, hpush', hw⟩ :=
    (written_start f₀).pushAll hf₀ entries
  rw [List.nil_append] at hw
  rw [hpush] at hpush'
  obtain rfl := Except.ok.inj hpush'
  dsimp only at h
  split_ifs at h with hsize
  cases h
  have hflatten := hw.cut.flatten_cutBlocks
  refine ⟨rfl, closed, current, hw.cut, ?_, hsize, hw.index, ?_,
    hw.cut.ne_nil_of_mem, ?_, ?_, hw.filter.wellFormed hf₀, ?_, ?_, ?_, ?_⟩
  · simp only [fileOf, hflatten, hw.data, hw.index, hw.offset,
      filterStartOffset_eq]
  · rw [hflatten]
    exact hw.offset
  · intro hblocks
    rw [hflatten]
    apply hw.minKey
    intro hnil
    rw [hnil] at hflatten
    apply hblocks
    rw [List.eq_nil_iff_forall_not_mem]
    intro block hblock
    exact hw.cut.ne_nil_of_mem block hblock
      (List.flatten_eq_nil_iff.mp hflatten block hblock)
  · rw [hflatten]
    exact hw.maxKey
  · rw [hw.filter.numBits, hw.filter.length, hbits]
  · rw [hw.filter.numBits]
    exact hbits_lt
  · rw [hw.filter.numProbes]
    exact hprobes
  · rw [hflatten]
    exact hw.holds

/-- Every table `write_table` returns has a layout that cuts the entries it
was given. -/
theorem writeTable_layout {bitsPerKey numKeys : ℕ} {entries : List Entry}
    {file : Bytes} {t : SSTable}
    (h : writeTable bitsPerKey numKeys entries = .ok (file, t)) :
    t.file = file ∧ ∃ blocks, blocks.flatten = entries ∧ Layout t blocks := by
  obtain ⟨hfile, closed, current, hcut, hlayout⟩ := writeTable_cut h
  exact ⟨hfile, _, hcut.flatten_cutBlocks, hlayout⟩

end Lsmrs
