import Lsmrs.Sstable.Layout

/-!
# Reading a written table

On a table with a layout, opening its file gives the table back, `get` finds
exactly the entries it holds, and `records` walks them in order.
-/

namespace Lsmrs

open ByteString OrderedMap PartitionPoint

/-! ## Records -/

theorem readPrefixed_append {bytes : Bytes} (h : bytes.length < 2 ^ 32)
    (rest : Bytes) :
    readPrefixed (prefixed bytes ++ rest) = .ok (bytes, rest) := by
  have hlen : fromLeBytes (toLeBytes 4 bytes.length) = bytes.length :=
    fromLeBytes_toLeBytes_of_lt h
  rw [readPrefixed, prefixed, List.append_assoc,
    readExact_append (toLeBytes_length 4 _), ok_bind]
  dsimp only
  rw [hlen, readExact_append rfl]

theorem readFields_encodeEntry {e : Entry} (he : EntryFits e)
    (rest : Bytes) :
    SSTable.readFields (encodeEntry e ++ rest) =
      .ok (e.1, valueBytes e.2, opType e.2, rest) := by
  have hop : readExact 1 ([opType e.2] ++ rest) = .ok ([opType e.2], rest) :=
    readExact_append List.length_singleton rest
  rw [SSTable.readFields, encodeEntry, List.append_assoc,
    readPrefixed_append he.1, ok_bind]
  dsimp only
  rw [List.append_assoc, readPrefixed_append he.2, ok_bind]
  dsimp only
  rw [hop]
  rfl

/-- An entry's op byte decides how its value is found. -/
theorem found_of_opType (value : Option Bytes) :
    (if opType value = 0 then
      (.ok (some (.value (valueBytes value))) : Result (Option Found))
    else if opType value = 1 then .ok (some .tombstone)
    else .error SSTable.invalidOpType) =
      .ok (some (Found.ofValue value)) := by
  cases value <;> rfl

theorem map_ofValue_eq_value_iff {answer : Option (Option Bytes)}
    {value : Bytes} :
    answer.map Found.ofValue = some (.value value) ↔
      answer = some (some value) := by
  rcases answer with _ | _ | v
  · simp
  · simp [Found.ofValue]
  · simp [Found.ofValue]

theorem map_ofValue_eq_tombstone_iff {answer : Option (Option Bytes)} :
    answer.map Found.ofValue = some .tombstone ↔ answer = some none := by
  rcases answer with _ | _ | v
  · simp
  · simp [Found.ofValue]
  · simp [Found.ofValue]

/-- Scanning a block finds what the block holds. -/
theorem scanBlock_dataOf {block : List Entry} (hsorted : Ascending block)
    (hfits : ∀ e ∈ block, EntryFits e) (key : Bytes)
    {turns pos stop : ℕ} (hturns : block.length < turns)
    (hpos : pos + (dataOf block).length = stop) :
    SSTable.scanBlock key stop turns pos (dataOf block) =
      .ok ((find block key).map Found.ofValue) := by
  induction block generalizing turns pos with
  | nil =>
      obtain ⟨turns, rfl⟩ : ∃ n, turns = n + 1 := ⟨turns - 1, by omega⟩
      rw [SSTable.scanBlock, if_neg (by simp at hpos; omega)]
      rfl
  | cons e block ih =>
      obtain ⟨turns, rfl⟩ : ∃ n, turns = n + 1 := ⟨turns - 1, by omega⟩
      obtain ⟨he, hfits⟩ := List.forall_mem_cons.mp hfits
      have hsize := encodeEntry_length e
      rw [dataOf_cons, List.length_append] at hpos
      rw [SSTable.scanBlock, if_pos (by omega), dataOf_cons,
        readFields_encodeEntry he, ok_bind, find_cons]
      dsimp only
      by_cases hlt : e.1 < key
      · rw [if_pos hlt, if_neg (ne_of_lt hlt)]
        exact ih hsorted.tail hfits (Nat.lt_of_succ_lt_succ hturns)
          (by omega)
      · rw [if_neg hlt]
        by_cases hgt : key < e.1
        · -- Every later key is larger still.
          have hnone : find block key = none := by
            rw [find_eq_none_iff]
            intro p hp heq
            have hp' := hsorted.head_lt hp
            rw [heq] at hp'
            exact lt_asymm hgt hp'
          rw [if_pos hgt, if_neg (ne_of_gt hgt), hnone]
          rfl
        · have heq : e.1 = key := le_antisymm (not_lt.mp hgt) (not_lt.mp hlt)
          rw [if_neg hgt, if_pos heq]
          exact found_of_opType e.2

theorem blockRecords_dataOf {block : List Entry}
    (hfits : ∀ e ∈ block, EntryFits e) {turns : ℕ}
    (hturns : block.length ≤ turns) :
    SSTable.blockRecords turns (dataOf block) = block.map .ok := by
  induction block generalizing turns with
  | nil => cases turns <;> rfl
  | cons e block ih =>
      obtain ⟨turns, rfl⟩ : ∃ n, turns = n + 1 :=
        ⟨turns - 1, by simp at hturns; omega⟩
      obtain ⟨he, hfits⟩ := List.forall_mem_cons.mp hfits
      have hrest := ih hfits (Nat.le_of_succ_le_succ hturns)
      have hne : encodeEntry e ++ dataOf block ≠ [] := by
        intro h
        have hlen := congrArg List.length h
        rw [List.length_append, encodeEntry_length] at hlen
        simp at hlen
      rw [dataOf_cons, SSTable.blockRecords, if_neg hne,
        readFields_encodeEntry he]
      obtain ⟨key, value⟩ := e
      cases value <;> simp [opType, valueBytes, hrest]

theorem andThen_map_ok (xs : List Entry) (later : List (Result Entry)) :
    SSTable.andThen (xs.map .ok) later = xs.map .ok ++ later := by
  induction xs with
  | nil => rfl
  | cons e xs ih => rw [List.map_cons, SSTable.andThen, ih]; rfl

/-! ## Blocks -/

theorem indexOf_getElem? (offset : ℕ) (pre post : List (List Entry))
    (block : List Entry) :
    (indexOf offset (pre ++ block :: post))[pre.length]? =
      some (firstKey block, offset + (dataOf pre.flatten).length) := by
  rw [indexOf_append, List.getElem?_append_right (by simp)]
  simp [indexOf]

namespace Layout

variable {t : SSTable} {blocks : List (List Entry)}

theorem file_eq (h : Layout t blocks) :
    ∃ rest, t.file = dataOf blocks.flatten ++ rest :=
  ⟨_, h.file⟩

theorem data_le (h : Layout t blocks) :
    (dataOf blocks.flatten).length ≤ maxFileSize := by
  obtain ⟨rest, hfile⟩ := h.file_eq
  have hsize := h.size
  rw [hfile, List.length_append] at hsize
  omega

theorem blockEnd_eq (h : Layout t blocks)
    {pre post : List (List Entry)} {block : List Entry}
    (hsplit : blocks = pre ++ block :: post) :
    t.blockEnd pre.length =
      (dataOf pre.flatten).length + (dataOf block).length := by
  rw [SSTable.blockEnd, h.index, hsplit]
  cases post with
  | nil =>
      rw [List.getElem?_eq_none (by simp)]
      dsimp only
      rw [h.indexStart, hsplit]
      simp [dataOf_append]
  | cons next post =>
      have hnext := indexOf_getElem? 0 (pre ++ [block]) post next
      simp only [List.length_append, List.length_singleton,
        List.append_assoc, List.singleton_append] at hnext
      rw [hnext]
      simp [dataOf_append]

/-- A block of any file with these data is read back as its records. -/
theorem readBlock_of_data (h : Layout t blocks) {file rest : Bytes}
    (hfile : file = dataOf blocks.flatten ++ rest)
    {pre post : List (List Entry)} {block : List Entry}
    (hsplit : blocks = pre ++ block :: post) :
    SSTable.readBlock { t with file } (dataOf pre.flatten).length
        ((dataOf pre.flatten).length + (dataOf block).length) =
      .ok (dataOf block) := by
  have hdata := h.data_le
  have hflatten : dataOf blocks.flatten = dataOf pre.flatten ++
      (dataOf block ++ dataOf post.flatten) := by
    rw [hsplit, List.flatten_append, List.flatten_cons, dataOf_append,
      dataOf_append]
  rw [hflatten] at hfile hdata
  simp only [List.length_append] at hdata
  have hin : (dataOf pre.flatten).length ≤ maxFileSize := by omega
  have hlen : (dataOf pre.flatten).length + (dataOf block).length -
      (dataOf pre.flatten).length = (dataOf block).length := by omega
  have hguard : ¬ ((dataOf pre.flatten).length + (dataOf block).length <
      (dataOf pre.flatten).length ∨
        maxFileSize < (dataOf block).length) := by
    omega
  have hdrop : file.drop (dataOf pre.flatten).length =
      dataOf block ++ (dataOf post.flatten ++ rest) := by
    rw [hfile, List.append_assoc, List.drop_left, List.append_assoc]
  rw [SSTable.readBlock]
  simp only [hlen, if_neg hguard]
  by_cases hnil : (dataOf block).length = 0
  · rw [if_pos hnil, List.length_eq_zero_iff.mp hnil]
  · rw [if_neg hnil, seekStart, if_pos hin, ok_bind, hdrop,
      readExact_append rfl]
    rfl

/-- A block is read back as its records. -/
theorem readBlock_eq (h : Layout t blocks)
    {pre post : List (List Entry)} {block : List Entry}
    (hsplit : blocks = pre ++ block :: post) :
    t.readBlock (dataOf pre.flatten).length
        ((dataOf pre.flatten).length + (dataOf block).length) =
      .ok (dataOf block) := by
  obtain ⟨rest, hfile⟩ := h.file_eq
  exact h.readBlock_of_data hfile hsplit

/-! ## Walking the records -/

theorem recordsFrom_eq (h : Layout t blocks)
    (hfits : ∀ e ∈ blocks.flatten, EntryFits e)
    {pre post : List (List Entry)} (hsplit : blocks = pre ++ post) :
    t.recordsFrom post.length pre.length = post.flatten.map .ok := by
  induction post generalizing pre with
  | nil => rfl
  | cons block post ih =>
      have hindex := indexOf_getElem? 0 pre post block
      rw [← hsplit, ← h.index] at hindex
      have hblock : ∀ e ∈ block, EntryFits e := by
        intro e he
        apply hfits
        rw [hsplit, List.flatten_append, List.flatten_cons]
        simp [he]
      have hshift : blocks = (pre ++ [block]) ++ post := by
        simpa using hsplit
      have hnext := ih hshift
      rw [List.length_append, List.length_singleton] at hnext
      rw [List.length_cons, SSTable.recordsFrom, hindex]
      dsimp only
      rw [Nat.zero_add, h.blockEnd_eq hsplit, h.readBlock_eq hsplit]
      dsimp only
      rw [blockRecords_dataOf hblock (length_le_dataOf block),
        andThen_map_ok, hnext, List.flatten_cons, List.map_append]

/-- Walking the records of a table gives its entries. -/
theorem records_eq (h : Layout t blocks)
    (hfits : ∀ e ∈ blocks.flatten, EntryFits e) :
    t.records = blocks.flatten.map .ok := by
  have hlen : t.sparseIndex.length = blocks.length := by
    rw [h.index, indexOf_length]
  rw [SSTable.records, hlen]
  exact h.recordsFrom_eq hfits (List.nil_append blocks).symm

/-! ## Looking a key up -/

theorem firstKey_mem {block : List Entry} (hblock : block ≠ []) :
    ∃ e rest, block = e :: rest ∧ firstKey block = e.1 := by
  obtain ⟨e, rest, rfl⟩ := List.exists_cons_of_ne_nil hblock
  exact ⟨e, rest, rfl, rfl⟩

/-- The keys of a block lie before the first key of any later one. -/
theorem lt_firstKey {pre post : List (List Entry)} {block : List Entry}
    (hsorted : Ascending (pre ++ block :: post).flatten)
    (hblock : block ≠ []) {e : Entry} (he : e ∈ pre.flatten) :
    e.1 < firstKey block := by
  obtain ⟨first, rest, rfl, hfirst⟩ := firstKey_mem hblock
  rw [List.flatten_append, List.flatten_cons] at hsorted
  rw [hfirst]
  exact (List.pairwise_append.mp hsorted).2.2 e he first (by simp)

/-- The keys of a block start with its first key. -/
theorem firstKey_le {block : List Entry} (hsorted : Ascending block)
    {e : Entry} (he : e ∈ block) : firstKey block ≤ e.1 := by
  obtain ⟨first, rest, rfl, hfirst⟩ :=
    firstKey_mem (List.ne_nil_of_mem he)
  rw [hfirst]
  rcases List.mem_cons.mp he with rfl | he
  · exact le_rfl
  · exact le_of_lt (hsorted.head_lt he)

theorem firstKey_of_mem_indexOf {offset : ℕ} {p : Bytes × ℕ}
    (hp : p ∈ indexOf offset blocks) :
    ∃ block ∈ blocks, p.1 = firstKey block := by
  induction blocks generalizing offset with
  | nil => cases hp
  | cons block blocks ih =>
      rcases List.mem_cons.mp hp with rfl | hp
      · exact ⟨block, List.mem_cons_self, rfl⟩
      · obtain ⟨other, hother, heq⟩ := ih hp
        exact ⟨other, List.mem_cons_of_mem _ hother, heq⟩

theorem index_ascending (hsorted : Ascending blocks.flatten)
    (hne : ∀ block ∈ blocks, block ≠ []) (offset : ℕ) :
    (indexOf offset blocks).Pairwise fun a b => a.1 < b.1 := by
  induction blocks generalizing offset with
  | nil => exact List.Pairwise.nil
  | cons block blocks ih =>
      obtain ⟨hblock, hothers⟩ := List.forall_mem_cons.mp hne
      obtain ⟨-, htail, hcross⟩ := List.pairwise_append.mp hsorted
      refine List.pairwise_cons.mpr ⟨?_, ih htail hothers _⟩
      intro p hp
      obtain ⟨other, hother, heq⟩ := firstKey_of_mem_indexOf hp
      obtain ⟨first, rest, rfl, hfirst⟩ := firstKey_mem hblock
      obtain ⟨e, rest', rfl, he⟩ := firstKey_mem (hothers other hother)
      rw [heq, he]
      change firstKey (first :: rest) < e.1
      rw [hfirst]
      exact hcross first List.mem_cons_self e
        (List.mem_flatten.mpr ⟨_, hother, List.mem_cons_self⟩)

/-- The block the sparse index leads to holds the key if any does. -/
theorem find_block (hsorted : Ascending blocks.flatten)
    (hne : ∀ block ∈ blocks, block ≠ []) {key : Bytes}
    {pre post : List (List Entry)} {block : List Entry}
    (hsplit : blocks = pre ++ block :: post)
    (hle : firstKey block ≤ key)
    (hlt : ∀ next ∈ post.head?, key < firstKey next) :
    find blocks.flatten key = find block key := by
  subst hsplit
  have hblock := hne block (by simp)
  have hpre : find pre.flatten key = none := by
    rw [find_eq_none_iff]
    intro e he heq
    have hlt := lt_firstKey hsorted hblock he
    rw [heq] at hlt
    exact absurd hle (not_le.mpr hlt)
  have hpost : find post.flatten key = none := by
    rw [find_eq_none_iff]
    intro e he heq
    cases post with
    | nil => simp at he
    | cons next post =>
        have htail : Ascending (next :: post).flatten := by
          rw [List.flatten_append, List.flatten_cons] at hsorted
          have hright := (List.pairwise_append.mp hsorted).2.1
          exact (List.pairwise_append.mp hright).2.1
        have hnext := hne next (by simp)
        obtain ⟨first, rest, rfl, hfirst⟩ := firstKey_mem hnext
        have hkey := hlt _ rfl
        have hfirst_le := firstKey_le htail he
        rw [heq] at hfirst_le
        exact absurd (lt_of_lt_of_le hkey hfirst_le) (lt_irrefl _)
  rw [List.flatten_append, List.flatten_cons, find_append, find_append,
    hpre, hpost, Option.none_or, Option.or_none]

/-- All keys of the table lie between its smallest and its largest. -/
theorem keys_between (h : Layout t blocks)
    (hsorted : Ascending blocks.flatten) {e : Entry}
    (he : e ∈ blocks.flatten) : t.minKey ≤ e.1 ∧ e.1 ≤ t.maxKey := by
  constructor
  · have hne : blocks ≠ [] := by
      rintro rfl
      simp at he
    rw [h.minKey hne]
    exact firstKey_le hsorted he
  · obtain ⟨last, hlast⟩ : ∃ last, blocks.flatten.getLast? = some last :=
      ⟨_, List.getLast?_eq_some_getLast (List.ne_nil_of_mem he)⟩
    rw [h.maxKey last hlast]
    obtain ⟨init, hinit⟩ := List.getLast?_eq_some_iff.mp hlast
    rw [hinit] at he hsorted
    rcases List.mem_append.mp he with he | he
    · exact le_of_lt ((List.pairwise_append.mp hsorted).2.2 e he last
        List.mem_cons_self)
    · rw [List.mem_singleton.mp he]

/-- The index entries with keys up to the one looked up come first. -/
theorem index_splitsAt (h : Layout t blocks)
    (hsorted : Ascending blocks.flatten) (key : Bytes) :
    SplitsAt (fun p => decide (p.1 ≤ key)) t.sparseIndex
      (partitionPoint (fun p => decide (p.1 ≤ key)) t.sparseIndex) := by
  have hsplits : SplitsAt (fun p => decide (p.1 ≤ key)) t.sparseIndex
      (t.sparseIndex.takeWhile fun p => decide (p.1 ≤ key)).length := by
    apply splitsAt_takeWhile
    rw [h.index]
    refine (index_ascending hsorted h.nonempty 0).imp ?_
    intro a b hab hb
    rw [decide_eq_true_eq] at hb ⊢
    exact le_of_lt (lt_of_lt_of_le hab hb)
  rw [partitionPoint_eq hsplits]
  exact hsplits

/-- An index entry is its block's first key. -/
theorem holdsAt_index (h : Layout t blocks) (key : Bytes)
    {pre post : List (List Entry)} {block : List Entry}
    (hsplit : blocks = pre ++ block :: post) :
    holdsAt (fun p : Bytes × ℕ => decide (p.1 ≤ key)) t.sparseIndex
        pre.length = true ↔
      firstKey block ≤ key := by
  have hget := indexOf_getElem? 0 pre post block
  rw [← hsplit, ← h.index] at hget
  rw [holdsAt, hget]
  simp

/-- The block the sparse index leads to. -/
theorem candidate_block (h : Layout t blocks)
    (hsorted : Ascending blocks.flatten) {key : Bytes} {i : ℕ}
    (hi : partitionPoint (fun p => decide (p.1 ≤ key)) t.sparseIndex =
      i + 1) :
    ∃ pre block post, blocks = pre ++ block :: post ∧ pre.length = i ∧
      find blocks.flatten key = find block key := by
  obtain ⟨hle, hiff⟩ := h.index_splitsAt hsorted key
  have hlen : t.sparseIndex.length = blocks.length := by
    rw [h.index, indexOf_length]
  rw [hi, hlen] at hle
  rw [hi, hlen] at hiff
  have hsplit : blocks = blocks.take i ++ blocks[i] :: blocks.drop (i + 1) := by
    rw [← List.drop_eq_getElem_cons, List.take_append_drop]
  have hpre : (blocks.take i).length = i := List.length_take_of_le (by omega)
  refine ⟨_, _, _, hsplit, hpre, ?_⟩
  apply find_block hsorted h.nonempty hsplit
  · have hat := (hiff i (by omega)).mpr (Nat.lt_succ_self i)
    rw [← h.holdsAt_index key hsplit, hpre]
    exact hat
  · intro next hnext
    cases hpost : blocks.drop (i + 1) with
    | nil => simp [hpost] at hnext
    | cons next' post =>
        rw [hpost] at hnext hsplit
        obtain rfl := Option.some.inj hnext
        have hsplit' : blocks =
            (blocks.take i ++ [blocks[i]]) ++ next' :: post := by
          rw [List.append_assoc, List.singleton_append]
          exact hsplit
        have hlen' := congrArg List.length hsplit'
        simp only [List.length_append, hpre, List.length_cons] at hlen'
        have hnot := mt (hiff (i + 1) (by omega)).mp (lt_irrefl _)
        have hkey := h.holdsAt_index key hsplit'
        rw [List.length_append, hpre, List.length_singleton] at hkey
        exact not_le.mp (mt hkey.mpr hnot)

/-- Below the first index entry there is nothing. -/
theorem find_of_no_candidate (h : Layout t blocks)
    (hsorted : Ascending blocks.flatten) {key : Bytes}
    (hi : partitionPoint (fun p => decide (p.1 ≤ key)) t.sparseIndex = 0) :
    find blocks.flatten key = none := by
  cases hblocks : blocks with
  | nil => rfl
  | cons block rest =>
      obtain ⟨-, hiff⟩ := h.index_splitsAt hsorted key
      have hlen : t.sparseIndex.length = blocks.length := by
        rw [h.index, indexOf_length]
      have hpos : 0 < blocks.length := by simp [hblocks]
      have hnot := mt (hiff 0 (by omega)).mp (by omega)
      have hhead : blocks = [] ++ block :: rest := hblocks
      have hkey := h.holdsAt_index key hhead
      have hlt := not_le.mp (mt hkey.mpr hnot)
      have hne := h.nonempty block (by simp [hblocks])
      obtain ⟨first, others, rfl, hfirst⟩ := firstKey_mem hne
      rw [← hblocks, find_eq_none_iff]
      rintro e he rfl
      have hle := firstKey_le hsorted he
      rw [hblocks] at hle
      exact absurd (lt_of_lt_of_le hlt hle) (lt_irrefl _)

/-- `get` answers with exactly what the table holds for the key. -/
theorem get_eq (h : Layout t blocks) (hsorted : Ascending blocks.flatten)
    (hfits : ∀ e ∈ blocks.flatten, EntryFits e) (key : Bytes) :
    t.get key (hash64 key) =
      .ok ((find blocks.flatten key).map Found.ofValue) := by
  obtain ⟨present, hcontains, hpresent⟩ :=
    BloomFilter.contains_ok h.wellFormed (hash64 key)
  rw [SSTable.get]
  by_cases houtside : key < t.minKey ∨ t.maxKey < key
  · have hnone : find blocks.flatten key = none := by
      rw [find_eq_none_iff]
      rintro e he rfl
      obtain ⟨hmin, hmax⟩ := h.keys_between hsorted he
      rcases houtside with hlt | hlt
      · exact absurd hmin (not_le.mpr hlt)
      · exact absurd hmax (not_le.mpr hlt)
    rw [if_pos houtside, hnone]
    rfl
  · rw [if_neg houtside, hcontains, ok_bind]
    cases present with
    | false =>
        have hnone : find blocks.flatten key = none := by
          rw [find_eq_none_iff]
          rintro e he rfl
          exact Bool.false_ne_true (hpresent (h.holds e he))
        rw [hnone]
        rfl
    | true =>
        cases hcandidate : partitionPoint
            (fun p => decide (p.1 ≤ key)) t.sparseIndex with
        | zero =>
            rw [h.find_of_no_candidate hsorted hcandidate]
            rfl
        | succ i =>
            obtain ⟨pre, block, post, hsplit, rfl, hfind⟩ :=
              h.candidate_block hsorted hcandidate
            have hindex := indexOf_getElem? 0 pre post block
            rw [← hsplit, ← h.index, Nat.zero_add] at hindex
            have hmem : ∀ e ∈ block, e ∈ blocks.flatten := by
              intro e he
              rw [hsplit, List.flatten_append, List.flatten_cons]
              simp [he]
            have hblock : Ascending block := by
              rw [hsplit, List.flatten_append, List.flatten_cons] at hsorted
              have hright := (List.pairwise_append.mp hsorted).2.1
              exact (List.pairwise_append.mp hright).1
            have hscan := scanBlock_dataOf hblock
              (fun e he => hfits e (hmem e he)) key
              (Nat.lt_succ_of_le (length_le_dataOf block))
              (Eq.refl ((dataOf pre.flatten).length + (dataOf block).length))
            rw [hfind, ← hscan]
            simp only [hindex, h.blockEnd_eq hsplit, h.readBlock_eq hsplit]
            rfl

end Layout

end Lsmrs
