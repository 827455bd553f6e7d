import Lsmrs.Sstable.Lookup

/-!
# Opening a written table

`SSTable::open` on the file `write_table` wrote gives the table it returned.
-/

namespace Lsmrs

open ByteString OrderedMap

/-! ## The sections of the file -/

@[simp] theorem trailerBytes_length (indexStart filterStart metaStart : ℕ) :
    (trailerBytes indexStart filterStart metaStart).length = trailerSize := by
  simp [trailerBytes, magic, ascii, trailerSize]

theorem wordsBytes_length (words : List UInt64) :
    (words.flatMap fun word => toLeBytes 8 word.toNat).length =
      words.length * 8 := by
  induction words with
  | nil => rfl
  | cons word words ih =>
      simp only [List.flatMap_cons, List.length_append, toLeBytes_length,
        List.length_cons, ih]
      omega

@[simp] theorem filterBytes_length (f : BloomFilter) :
    (filterBytes f).length = 12 + f.bits.length * 8 := by
  simp only [filterBytes, List.length_append, toLeBytes_length,
    wordsBytes_length]
  omega

theorem readWords_append (words : List UInt64) (rest : Bytes) :
    readWords words.length
        ((words.flatMap fun word => toLeBytes 8 word.toNat) ++ rest) =
      .ok words := by
  induction words with
  | nil => rfl
  | cons word words ih =>
      have hword : fromLeBytes (toLeBytes 8 word.toNat) = word.toNat :=
        fromLeBytes_toLeBytes_of_lt word.toNat_lt
      rw [List.flatMap_cons, List.append_assoc, List.length_cons, readWords,
        readExact_append (toLeBytes_length 8 _), ok_bind]
      dsimp only
      rw [ih, ok_bind, hword, UInt64.ofNat_toNat]
      rfl

theorem readFilter_append {f : BloomFilter}
    (hnumBits : f.numBits = 64 * f.bits.length)
    (hbits : f.numBits < 2 ^ 64) (hprobes : f.numProbes < 2 ^ 32)
    (rest : Bytes) :
    readFilter (filterBytes f ++ rest) = .ok f := by
  have hwords : f.numBits / 64 = f.bits.length := by omega
  have hb : fromLeBytes (toLeBytes 8 f.numBits) = f.numBits :=
    fromLeBytes_toLeBytes_of_lt hbits
  have hp : fromLeBytes (toLeBytes 4 f.numProbes) = f.numProbes :=
    fromLeBytes_toLeBytes_of_lt hprobes
  let header := toLeBytes 8 f.numBits ++ toLeBytes 4 f.numProbes
  have hsplit : filterBytes f ++ rest = header ++
      ((f.bits.flatMap fun word => toLeBytes 8 word.toNat) ++ rest) := by
    simp [filterBytes, header]
  have htake : header.take 8 = toLeBytes 8 f.numBits :=
    List.take_left' (toLeBytes_length 8 _)
  have hdrop : header.drop 8 = toLeBytes 4 f.numProbes :=
    List.drop_left' (toLeBytes_length 8 _)
  rw [hsplit, readFilter, readExact_append (by simp [header]), ok_bind]
  dsimp only
  rw [htake, hdrop, hb, hp, hwords, readWords_append, ok_bind]
  rfl

/-- The loop over the index block reads the entries back and stops where the
filter block starts. -/
theorem readIndex_append {index : List (Bytes × ℕ)}
    (hindex : ∀ p ∈ index, p.1.length < 2 ^ 32 ∧ p.2 < 2 ^ 64)
    (rest : Bytes) {turns pos stop : ℕ} (hturns : index.length < turns)
    (hpos : pos + (indexBytes index).length = stop) :
    readIndex stop turns pos (indexBytes index ++ rest) = .ok index := by
  induction index generalizing turns pos with
  | nil =>
      obtain ⟨turns, rfl⟩ : ∃ n, turns = n + 1 := ⟨turns - 1, by omega⟩
      rw [readIndex, if_neg (by simp [indexBytes] at hpos; omega)]
  | cons p index ih =>
      obtain ⟨turns, rfl⟩ : ∃ n, turns = n + 1 := ⟨turns - 1, by omega⟩
      obtain ⟨⟨hkey, hoffset⟩, hindex⟩ := List.forall_mem_cons.mp hindex
      have hvalue : fromLeBytes (toLeBytes 8 p.2) = p.2 :=
        fromLeBytes_toLeBytes_of_lt hoffset
      rw [indexBytes_cons, List.length_append, List.length_append,
        prefixed_length, toLeBytes_length] at hpos
      rw [readIndex, if_pos (by omega), indexBytes_cons, List.append_assoc,
        readPrefixed_append hkey, ok_bind]
      dsimp only
      rw [List.append_assoc, readExact_append (toLeBytes_length 8 _), ok_bind]
      dsimp only
      rw [ih hindex (Nat.lt_of_succ_lt_succ hturns) (by omega), ok_bind,
        hvalue]
      rfl

theorem length_le_indexBytes (index : List (Bytes × ℕ)) :
    index.length ≤ (indexBytes index).length := by
  induction index with
  | nil => simp
  | cons p index ih =>
      rw [indexBytes_cons, List.length_append, List.length_append,
        prefixed_length, List.length_cons]
      omega

theorem readTrailer_append {indexStart filterStart metaStart : ℕ}
    (hindex : indexStart < 2 ^ 64) (hfilter : filterStart < 2 ^ 64)
    (hmeta : metaStart < 2 ^ 64) (path pre : Bytes) :
    readTrailer path
        (pre ++ trailerBytes indexStart filterStart metaStart) =
      .ok ⟨indexStart, filterStart, metaStart⟩ := by
  let tail := magic ++ [formatVersion, 0]
  obtain ⟨trailer, heq⟩ : ∃ trailer,
      trailer = toLeBytes 8 indexStart ++ (toLeBytes 8 filterStart ++
        (toLeBytes 8 metaStart ++ tail)) := ⟨_, rfl⟩
  have hsize : trailer.length = trailerSize := by
    rw [heq]
    exact trailerBytes_length indexStart filterStart metaStart
  have htrailer : (pre ++ trailer).drop
      ((pre ++ trailer).length - trailerSize) = trailer := by
    apply List.drop_left'
    rw [List.length_append, hsize, Nat.add_sub_cancel]
  have h₈ : trailer.drop 8 = toLeBytes 8 filterStart ++
      (toLeBytes 8 metaStart ++ tail) := by
    rw [heq]
    exact List.drop_left' (toLeBytes_length 8 _)
  have h₁₆ : trailer.drop 16 = toLeBytes 8 metaStart ++ tail := by
    rw [show 16 = 8 + 8 from rfl, ← List.drop_drop, h₈]
    exact List.drop_left' (toLeBytes_length 8 _)
  have h₂₄ : trailer.drop 24 = tail := by
    rw [show 24 = 16 + 8 from rfl, ← List.drop_drop, h₁₆]
    exact List.drop_left' (toLeBytes_length 8 _)
  have h₃₀ : trailer.drop 30 = tail.drop 6 := by
    rw [show 30 = 24 + 6 from rfl, ← List.drop_drop, h₂₄]
  have htake : ∀ (n : ℕ) (rest : Bytes), n < 2 ^ 64 →
      fromLeBytes ((toLeBytes 8 n ++ rest).take 8) = n := by
    intro n rest hn
    rw [List.take_left' (toLeBytes_length 8 _)]
    exact fromLeBytes_toLeBytes_of_lt hn
  have h₀ : fromLeBytes (trailer.take 8) = indexStart := by
    rw [heq]
    exact htake _ _ hindex
  have hlen : ¬ (pre ++ trailer).length < trailerSize := by
    rw [List.length_append, hsize]
    omega
  have hmagic : tail.take 6 = magic := rfl
  have hversion : (tail.drop 6).headD 0 = formatVersion := rfl
  change readTrailer path (pre ++ (toLeBytes 8 indexStart ++ _)) = _
  rw [← heq, readTrailer]
  simp only [htrailer, if_neg hlen, h₂₄, h₃₀, hmagic, hversion, ne_eq,
    not_true_eq_false, if_false, h₈, h₁₆, h₀, htake _ _ hfilter,
    htake _ _ hmeta]

theorem seekStart_append {pre rest : Bytes} {offset : ℕ}
    (hoffset : pre.length = offset) (hsize : offset ≤ maxFileSize) :
    seekStart (pre ++ rest) offset = .ok rest := by
  rw [seekStart, if_pos hsize, List.drop_left' hoffset]

namespace Layout

variable {t : SSTable} {blocks : List (List Entry)}

theorem index_fits (h : Layout t blocks)
    (hfits : ∀ e ∈ blocks.flatten, EntryFits e) :
    ∀ p ∈ indexOf 0 blocks, p.1.length < 2 ^ 32 ∧ p.2 < 2 ^ 64 := by
  intro p hp
  obtain ⟨i, hi, rfl⟩ := List.getElem_of_mem hp
  rw [indexOf_length] at hi
  have hsplit : blocks =
      blocks.take i ++ blocks[i] :: blocks.drop (i + 1) := by
    rw [← List.drop_eq_getElem_cons, List.take_append_drop]
  have hget := indexOf_getElem? 0 (blocks.take i) (blocks.drop (i + 1))
    blocks[i]
  rw [← hsplit, List.length_take_of_le hi.le,
    List.getElem?_eq_getElem (by simpa using hi)] at hget
  rw [Option.some.inj hget]
  obtain ⟨first, rest, hblock, hfirst⟩ :=
    firstKey_mem (h.nonempty _ (List.getElem_mem hi))
  have hmem : first ∈ blocks.flatten := by
    refine List.mem_flatten.mpr ⟨_, List.getElem_mem hi, ?_⟩
    rw [hblock]
    exact List.mem_cons_self
  have hdata := h.data_le
  have hle : (dataOf (blocks.take i).flatten).length ≤
      (dataOf blocks.flatten).length := by
    conv_rhs => rw [hsplit]
    rw [List.flatten_append, dataOf_append, List.length_append]
    exact Nat.le_add_right _ _
  refine ⟨?_, ?_⟩
  · rw [hfirst]
    exact (hfits first hmem).1
  · simp only [maxFileSize] at hdata
    omega

theorem bounds_fit (h : Layout t blocks) (hblocks : blocks ≠ [])
    (hfits : ∀ e ∈ blocks.flatten, EntryFits e) :
    t.minKey.length < 2 ^ 32 ∧ t.maxKey.length < 2 ^ 32 := by
  obtain ⟨block, rest, hcons⟩ := List.exists_cons_of_ne_nil hblocks
  have hne : blocks.flatten ≠ [] := by
    have hblock := h.nonempty block (by simp [hcons])
    simp [hcons, hblock]
  constructor
  · obtain ⟨first, others, hflatten, hfirst⟩ := firstKey_mem hne
    rw [h.minKey hblocks, hfirst]
    exact (hfits first (by simp [hflatten])).1
  · have hlast := List.getLast?_eq_some_getLast hne
    rw [h.maxKey _ hlast]
    exact (hfits _ (List.getLast_mem hne)).1

/-- Opening undoes writing. -/
theorem open_eq (h : Layout t blocks) (hblocks : blocks ≠ [])
    (hfits : ∀ e ∈ blocks.flatten, EntryFits e) (path : Bytes) :
    SSTable.open path t.file = .ok t := by
  obtain ⟨hmin, hmax⟩ := h.bounds_fit hblocks hfits
  have hsize := h.size
  -- The sections, and where each one starts.
  let data := dataOf blocks.flatten
  let index := indexBytes (indexOf 0 blocks)
  let filterStart := data.length + index.length
  let metaStart := filterStart + 12 + t.filter.bits.length * 8
  let trailer := trailerBytes data.length filterStart metaStart
  have hfile : t.file = data ++ (index ++ (filterBytes t.filter ++
      (metaBytes t.minKey t.maxKey ++ trailer))) := h.file
  have hlen : t.file.length = metaStart +
      (metaBytes t.minKey t.maxKey).length + trailerSize := by
    rw [hfile]
    simp [trailer, metaStart, filterStart]
    omega
  have hend : metaStart ≤ maxFileSize := by omega
  have hlt : ∀ n ≤ maxFileSize, n < 2 ^ 64 := by
    simp only [maxFileSize]
    omega
  have htrailer : readTrailer path t.file =
      .ok ⟨data.length, filterStart, metaStart⟩ := by
    have hsplit : t.file = (data ++ (index ++ (filterBytes t.filter ++
        metaBytes t.minKey t.maxKey))) ++ trailer := by
      simp [hfile]
    rw [hsplit]
    exact readTrailer_append (hlt _ (by omega)) (hlt _ (by omega))
      (hlt _ hend) path _
  have hseekMeta : seekStart t.file metaStart =
      .ok (prefixed t.minKey ++ (prefixed t.maxKey ++ trailer)) := by
    have hsplit : t.file = (data ++ (index ++ filterBytes t.filter)) ++
        (prefixed t.minKey ++ (prefixed t.maxKey ++ trailer)) := by
      simp [hfile, metaBytes]
    rw [hsplit]
    apply seekStart_append _ hend
    simp [metaStart, filterStart]
    omega
  have hseekFilter : seekStart t.file filterStart =
      .ok (filterBytes t.filter ++
        (metaBytes t.minKey t.maxKey ++ trailer)) := by
    rw [hfile, ← List.append_assoc]
    exact seekStart_append List.length_append (by omega)
  have hseekIndex : seekStart t.file data.length =
      .ok (index ++ (filterBytes t.filter ++
        (metaBytes t.minKey t.maxKey ++ trailer))) := by
    rw [hfile]
    exact seekStart_append rfl (by omega)
  have hturns : (indexOf 0 blocks).length < t.file.length + 1 := by
    have hle := length_le_indexBytes (indexOf 0 blocks)
    have hindex : index.length = (indexBytes (indexOf 0 blocks)).length := rfl
    omega
  rw [SSTable.open, htrailer, ok_bind]
  dsimp only
  rw [hseekMeta, ok_bind, readPrefixed_append hmin, ok_bind]
  dsimp only
  rw [readPrefixed_append hmax, ok_bind]
  dsimp only
  rw [hseekFilter, ok_bind,
    readFilter_append h.numBits h.numBits_lt h.numProbes_lt, ok_bind,
    hseekIndex, ok_bind,
    readIndex_append (h.index_fits hfits) _ hturns rfl, ok_bind]
  have hindexStart : data.length = t.indexStart := h.indexStart.symm
  rw [← h.index, hindexStart]
  rfl

end Layout

end Lsmrs
