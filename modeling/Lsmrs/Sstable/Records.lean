import Lsmrs.Sstable.WrittenTable

/-!
# The record iterator

`Records` as `sstable.rs` has it: one block in a buffer, a cursor into it,
and the number of the block to load next.  Calling `next` until it ends or
fails gives the items of `SSTable.records`; on a table that was written these
are the entries it was written from.
-/

namespace Lsmrs

open ByteString OrderedMap

/-- `Records`, beside the table it walks. -/
structure Records where
  block : ℕ
  buf : Bytes
  cursor : ℕ
  deriving DecidableEq, Repr

/-- The iterator that `SSTable::records` returns. -/
def Records.start : Records := ⟨0, [], 0⟩

namespace SSTable

/-- The loop of `next_record` that loads blocks until there is something to
decode.  A turn goes on to the next block, so there are turns enough for one
more than the table has. -/
def loadBlocks (t : SSTable) : ℕ → Records → Result (Option Records)
  | 0, _ => .ok none
  | turns + 1, iter =>
    if iter.buf.length ≤ iter.cursor then
      match t.sparseIndex[iter.block]? with
      | none => .ok none
      | some (_, blockStart) => do
        let buf ← t.readBlock blockStart (t.blockEnd iter.block)
        loadBlocks t turns ⟨iter.block + 1, buf, 0⟩
    else .ok (some iter)

/-- `next_record`: the next record, and the iterator behind it. -/
def nextRecord (t : SSTable) (iter : Records) :
    Result (Option (Entry × Records)) := do
  let some iter ← t.loadBlocks (t.sparseIndex.length + 1) iter | .ok none
  let reader ← slice iter.buf iter.cursor iter.buf.length
  let (key, value, op, _) ← readFields reader
  let iter :=
    { iter with cursor := iter.cursor + (9 + key.length + value.length) }
  if op = 0 then .ok (some ((key, some value), iter))
  else if op = 1 then .ok (some ((key, none), iter))
  else .error invalidOpType

/-- Calling `next` gives these records one by one, and then the end or an
error. -/
inductive Walk (t : SSTable) : Records → List Entry → Option Failure → Prop
  | ends {iter : Records} (h : t.nextRecord iter = .ok none) :
    Walk t iter [] none
  | fails {iter : Records} {f : Failure} (h : t.nextRecord iter = .error f) :
    Walk t iter [] (some f)
  | next {iter iter' : Records} {e : Entry} {entries : List Entry}
      {ended : Option Failure}
      (h : t.nextRecord iter = .ok (some (e, iter')))
      (hrest : Walk t iter' entries ended) :
    Walk t iter (e :: entries) ended

end SSTable

/-! ## Decoding -/

/-- What is read off the front is what a writer put there. -/
theorem readPrefixed_eq_ok_iff {reader bytes rest : Bytes} :
    readPrefixed reader = .ok (bytes, rest) ↔
      bytes.length < 2 ^ 32 ∧ reader = prefixed bytes ++ rest := by
  constructor
  · intro h
    rw [readPrefixed] at h
    obtain ⟨⟨lenBuf, reader'⟩, hlen, hbytes⟩ := bind_eq_ok.mp h
    obtain ⟨rfl, hfour⟩ := readExact_eq_ok_iff.mp hlen
    obtain ⟨hreader, hsize⟩ := readExact_eq_ok_iff.mp hbytes
    have hlt := fromLeBytes_lt lenBuf
    rw [hfour, ← hsize] at hlt
    have hbuf : toLeBytes 4 bytes.length = lenBuf := by
      rw [hsize, ← hfour, toLeBytes_fromLeBytes]
    exact ⟨by omega, by rw [prefixed, hbuf, hreader, List.append_assoc]⟩
  · rintro ⟨hlt, rfl⟩
    exact readPrefixed_append hlt rest

theorem readFields_eq_ok_iff {reader key value rest : Bytes} {op : UInt8} :
    SSTable.readFields reader = .ok (key, value, op, rest) ↔
      key.length < 2 ^ 32 ∧ value.length < 2 ^ 32 ∧
        reader = prefixed key ++ (prefixed value ++ op :: rest) := by
  constructor
  · intro h
    rw [SSTable.readFields] at h
    obtain ⟨⟨key', reader₁⟩, hkey, h⟩ := bind_eq_ok.mp h
    obtain ⟨⟨value', reader₂⟩, hvalue, h⟩ := bind_eq_ok.mp h
    obtain ⟨⟨ops, reader₃⟩, hop, h⟩ := bind_eq_ok.mp h
    cases h
    obtain ⟨hkeyfits, rfl⟩ := readPrefixed_eq_ok_iff.mp hkey
    obtain ⟨hvaluefits, rfl⟩ := readPrefixed_eq_ok_iff.mp hvalue
    obtain ⟨rfl, hone⟩ := readExact_eq_ok_iff.mp hop
    obtain ⟨op, rfl⟩ := List.length_eq_one_iff.mp hone
    exact ⟨hkeyfits, hvaluefits, rfl⟩
  · rintro ⟨hkey, hvalue, rfl⟩
    have hop : readExact 1 (op :: rest) = .ok ([op], rest) :=
      readExact_append List.length_singleton rest
    rw [SSTable.readFields, readPrefixed_append hkey, ok_bind]
    dsimp only
    rw [readPrefixed_append hvalue, ok_bind]
    dsimp only
    rw [hop]
    rfl

/-- A record takes nine bytes besides its key and its value, so that moving
the cursor past these leads to what follows it. -/
theorem readFields_rest {reader key value rest : Bytes} {op : UInt8}
    (h : SSTable.readFields reader = .ok (key, value, op, rest)) :
    reader.length = 9 + key.length + value.length + rest.length ∧
      reader.drop (9 + key.length + value.length) = rest := by
  obtain ⟨-, -, rfl⟩ := readFields_eq_ok_iff.mp h
  have hsplit : prefixed key ++ (prefixed value ++ op :: rest) =
      (prefixed key ++ (prefixed value ++ [op])) ++ rest := by
    simp
  have hlen : (prefixed key ++ (prefixed value ++ [op])).length =
      9 + key.length + value.length := by
    simp only [List.length_append, prefixed_length, List.length_singleton]
    omega
  rw [hsplit, List.length_append, hlen]
  exact ⟨rfl, List.drop_left' hlen⟩

theorem blockRecords_nil (turns : ℕ) :
    SSTable.blockRecords turns [] = [] := by
  cases turns with
  | zero => rfl
  | succ turns => rw [SSTable.blockRecords, if_pos rfl]

/-- A turn for each byte is enough to decode a block. -/
theorem blockRecords_eq_of_le {turns turns' : ℕ} {buf : Bytes}
    (h : buf.length ≤ turns) (h' : buf.length ≤ turns') :
    SSTable.blockRecords turns buf = SSTable.blockRecords turns' buf := by
  induction turns generalizing turns' buf with
  | zero =>
      obtain rfl : buf = [] := List.length_eq_zero_iff.mp (by omega)
      rw [blockRecords_nil, blockRecords_nil]
  | succ turns ih =>
      by_cases hempty : buf = []
      · rw [hempty, blockRecords_nil, blockRecords_nil]
      · have hpos := List.length_pos_iff.mpr hempty
        obtain ⟨turns', rfl⟩ : ∃ n, turns' = n + 1 := ⟨turns' - 1, by omega⟩
        rw [SSTable.blockRecords, SSTable.blockRecords, if_neg hempty,
          if_neg hempty]
        cases hread : SSTable.readFields buf with
        | error e => rfl
        | ok r =>
            obtain ⟨key, value, op, rest⟩ := r
            obtain ⟨hlen, -⟩ := readFields_rest hread
            have hrest : SSTable.blockRecords turns rest =
                SSTable.blockRecords turns' rest :=
              ih (by omega) (by omega)
            simp only [hrest]

/-- Decoding the first record of a block, with turns to spare. -/
theorem blockRecords_of_ne_nil {turns : ℕ} {buf : Bytes} (hne : buf ≠ [])
    (h : buf.length ≤ turns) :
    SSTable.blockRecords turns buf =
      match SSTable.readFields buf with
      | .error e => [.error e]
      | .ok (key, value, op, rest) =>
        if op = 0 then
          .ok (key, some value) :: SSTable.blockRecords turns rest
        else if op = 1 then
          .ok (key, none) :: SSTable.blockRecords turns rest
        else [.error SSTable.invalidOpType] := by
  have hpos := List.length_pos_iff.mpr hne
  obtain ⟨turns, rfl⟩ : ∃ n, turns = n + 1 := ⟨turns - 1, by omega⟩
  rw [SSTable.blockRecords, if_neg hne]
  cases hread : SSTable.readFields buf with
  | error e => rfl
  | ok r =>
      obtain ⟨key, value, op, rest⟩ := r
      obtain ⟨hlen, -⟩ := readFields_rest hread
      have hrest : SSTable.blockRecords turns rest =
          SSTable.blockRecords (turns + 1) rest :=
        blockRecords_eq_of_le (by omega) (by omega)
      simp only [hrest]

/-! ## What is yet to be yielded -/

namespace SSTable

variable {t : SSTable}

/-- The items behind a state of the iterator. -/
def remaining (t : SSTable) (iter : Records) : List (Result Entry) :=
  andThen (blockRecords iter.buf.length (iter.buf.drop iter.cursor))
    (t.recordsFrom (t.sparseIndex.length - iter.block) iter.block)

theorem remaining_start : t.remaining .start = t.records := rfl

theorem andThen_nil_left (later : List (Result Entry)) :
    andThen [] later = later := rfl

/-- Loading blocks changes nothing about what is yielded. -/
theorem remaining_loadBlocks {turns : ℕ} {iter : Records}
    (h : t.sparseIndex.length - iter.block < turns) :
    t.remaining iter =
      match t.loadBlocks turns iter with
      | .ok (some iter') => t.remaining iter'
      | .ok none => []
      | .error f => [.error f] := by
  induction turns generalizing iter with
  | zero => omega
  | succ turns ih =>
      rw [loadBlocks]
      by_cases hspent : iter.buf.length ≤ iter.cursor
      · have hempty : blockRecords iter.buf.length
            (iter.buf.drop iter.cursor) = [] := by
          rw [List.drop_eq_nil_of_le hspent, blockRecords_nil]
        rw [if_pos hspent, remaining, hempty, andThen_nil_left]
        cases hp : t.sparseIndex[iter.block]? with
        | none =>
            have hle := List.getElem?_eq_none_iff.mp hp
            rw [Nat.sub_eq_zero_of_le hle]
            rfl
        | some p =>
            obtain ⟨hlt, -⟩ := List.getElem?_eq_some_iff.mp hp
            obtain ⟨left, hleft⟩ :
                ∃ n, t.sparseIndex.length - iter.block = n + 1 :=
              ⟨t.sparseIndex.length - iter.block - 1, by omega⟩
            have hnext : t.sparseIndex.length - (iter.block + 1) = left := by
              omega
            rw [hleft, recordsFrom, hp]
            dsimp only
            cases hread : t.readBlock p.2 (t.blockEnd iter.block) with
            | error f => rfl
            | ok buf =>
                have hloaded := @ih ⟨iter.block + 1, buf, 0⟩
                  (by dsimp only; omega)
                rw [remaining, hnext] at hloaded
                exact hloaded
      · rw [if_neg hspent]

theorem loadBlocks_cursor {turns : ℕ} {iter iter' : Records}
    (h : t.loadBlocks turns iter = .ok (some iter')) :
    iter'.cursor < iter'.buf.length := by
  induction turns generalizing iter with
  | zero => cases h
  | succ turns ih =>
      rw [loadBlocks] at h
      split_ifs at h with hspent
      · cases hp : t.sparseIndex[iter.block]? with
        | none =>
            rw [hp] at h
            cases h
        | some p =>
            rw [hp] at h
            obtain ⟨buf, -, h⟩ := bind_eq_ok.mp h
            exact ih h
      · cases h
        omega

/-- A block that was found is read from the cursor on. -/
theorem loadBlocks_slice {turns : ℕ} {iter iter' : Records}
    (h : t.loadBlocks turns iter = .ok (some iter')) :
    iter'.buf.drop iter'.cursor ≠ [] ∧
      slice iter'.buf iter'.cursor iter'.buf.length =
        .ok (iter'.buf.drop iter'.cursor) := by
  have hcursor := loadBlocks_cursor h
  refine ⟨by simpa using hcursor, ?_⟩
  rw [slice_eq_ok]
  exact ⟨⟨hcursor.le, le_rfl⟩, List.take_of_length_le (by simp)⟩

/-- One call of `next`: what it yields is the first item, and what its state
yields are the others. -/
theorem remaining_nextRecord (iter : Records) :
    t.remaining iter =
      match t.nextRecord iter with
      | .ok (some (e, iter')) => .ok e :: t.remaining iter'
      | .ok none => []
      | .error f => [.error f] := by
  have hturns : t.sparseIndex.length - iter.block <
      t.sparseIndex.length + 1 :=
    Nat.lt_succ_of_le (Nat.sub_le _ iter.block)
  rw [remaining_loadBlocks hturns, nextRecord]
  cases hload : t.loadBlocks (t.sparseIndex.length + 1) iter with
  | error f => rfl
  | ok loaded =>
      cases loaded with
      | none => rfl
      | some iter' =>
          obtain ⟨hne, hslice⟩ := loadBlocks_slice hload
          rw [ok_bind]
          dsimp only
          rw [hslice, ok_bind, remaining, blockRecords_of_ne_nil
            hne (List.length_drop.trans_le (Nat.sub_le _ _))]
          cases hread : readFields (iter'.buf.drop iter'.cursor) with
          | error f => rfl
          | ok r =>
              obtain ⟨key, value, op, rest⟩ := r
              obtain ⟨-, hrest⟩ := readFields_rest hread
              rw [List.drop_drop] at hrest
              rw [ok_bind]
              dsimp only
              split_ifs with hvalue htombstone
              · dsimp only
                rw [remaining, hrest, andThen]
              · dsimp only
                rw [remaining, hrest, andThen]
              · rfl

/-! ## The walk -/

/-- The items of a walk. -/
def items (entries : List Entry) (ended : Option Failure) :
    List (Result Entry) :=
  entries.map .ok ++ (ended.map .error).toList

theorem Walk.remaining_eq {iter : Records} {entries : List Entry}
    {ended : Option Failure} (h : t.Walk iter entries ended) :
    t.remaining iter = items entries ended := by
  induction h with
  | ends h =>
      rw [remaining_nextRecord, h]
      rfl
  | fails h =>
      rw [remaining_nextRecord, h]
      rfl
  | next h hrest ih =>
      rw [remaining_nextRecord, h]
      dsimp only
      rw [ih]
      rfl

/-- Calling `next` comes to an end, as every call uses up an item. -/
theorem exists_walk (iter : Records) :
    ∃ entries ended, t.Walk iter entries ended := by
  obtain ⟨left, hleft⟩ : ∃ left, (t.remaining iter).length < left :=
    ⟨_, Nat.lt_succ_self _⟩
  induction left generalizing iter with
  | zero => omega
  | succ left ih =>
      have hremaining := t.remaining_nextRecord iter
      cases hnext : t.nextRecord iter with
      | error f => exact ⟨[], some f, .fails hnext⟩
      | ok item =>
          rw [hnext] at hremaining
          cases item with
          | none => exact ⟨[], none, .ends hnext⟩
          | some p =>
              rw [hremaining, List.length_cons] at hleft
              obtain ⟨entries, ended, hwalk⟩ := ih p.2 (by omega)
              exact ⟨p.1 :: entries, ended, .next hnext hwalk⟩

/-- A walk ends with its only error. -/
theorem error_mem_items_iff {entries : List Entry} {ended : Option Failure}
    {f : Failure} :
    .error f ∈ items entries ended ↔ ended = some f := by
  simp [items]

theorem items_toOption (entries : List Entry) (ended : Option Failure) :
    (items entries ended).filterMap Except.toOption = entries := by
  have hnone : (ended.map Except.error).toList.filterMap
      (Except.toOption : Result Entry → Option Entry) = [] := by
    cases ended with
    | none => rfl
    | some f => rfl
  rw [items, List.filterMap_append, hnone, List.append_nil,
    List.filterMap_map]
  exact List.filterMap_some

theorem items_inj {entries entries' : List Entry}
    {ended ended' : Option Failure}
    (h : items entries ended = items entries' ended') :
    entries = entries' ∧ ended = ended' := by
  have hentries : entries = entries' := by
    rw [← items_toOption entries ended, h, items_toOption]
  subst hentries
  have herror : Function.Injective (Except.error : _ → Result Entry) :=
    fun _ _ heq => Except.error.inj heq
  have hended := congrArg List.head? (List.append_cancel_left h)
  rw [Option.head?_toList, Option.head?_toList] at hended
  exact ⟨rfl, Option.map_injective herror hended⟩

/-- There is exactly one walk from the start, and it goes through the items
of `records`. -/
theorem walk_start_iff {entries : List Entry} {ended : Option Failure} :
    t.Walk .start entries ended ↔ t.records = items entries ended := by
  rw [← remaining_start]
  constructor
  · exact fun h => h.remaining_eq
  · intro h
    obtain ⟨entries', ended', hwalk⟩ := t.exists_walk .start
    obtain ⟨rfl, rfl⟩ := items_inj (hwalk.remaining_eq.symm.trans h)
    exact hwalk

end SSTable

/-- The records of a table hold one error at most. -/
theorem SSTable.eq_of_error_mem_records {t : SSTable} {f f' : Failure}
    (h : .error f ∈ t.records) (h' : .error f' ∈ t.records) : f = f' := by
  obtain ⟨entries, ended, hwalk⟩ := t.exists_walk .start
  rw [walk_start_iff.mp hwalk, error_mem_items_iff] at h h'
  exact Option.some.inj (h.symm.trans h')

/-! ## The records of a written table -/

section Written

variable {bitsPerKey numKeys : ℕ} {file : Bytes} {t : SSTable}

/-- Iterating over a table yields what was written, and then ends; so it
does over the table a later opening loads. -/
theorem walk_writeTable {entries : List Entry} (hne : entries ≠ [])
    (hfits : ∀ e ∈ entries, EntryFits e)
    (h : writeTable bitsPerKey numKeys entries = .ok (file, t))
    (path : Bytes) :
    ∃ opened, SSTable.open path file = .ok opened ∧
      ∀ u ∈ [t, opened], ∀ (yielded : List Entry) (ended : Option Failure),
        u.Walk .start yielded ended ↔ yielded = entries ∧ ended = none := by
  obtain ⟨rfl, blocks, hflatten, hlayout⟩ := writeTable_layout h
  have hopen := hlayout.open_eq (blocks_ne_nil hflatten hne)
    (hflatten ▸ hfits) path
  have hrecords := hlayout.records_eq (hflatten ▸ hfits)
  refine ⟨t, hopen, ?_⟩
  intro u hu yielded ended
  obtain rfl : u = t := by simpa using hu
  rw [SSTable.walk_start_iff, hrecords, hflatten]
  constructor
  · intro hitems
    have hwhole : SSTable.items entries none = entries.map .ok :=
      List.append_nil _
    obtain ⟨rfl, rfl⟩ := SSTable.items_inj (hwhole.trans hitems)
    exact ⟨rfl, rfl⟩
  · rintro ⟨rfl, rfl⟩
    exact (List.append_nil _).symm

theorem walk_writeTable_twoBlocks :
    ∃ file t, writeTable 10 2 twoBlocks.entries = .ok (file, t) ∧
      t.sparseIndex.length = 2 ∧
      ∃ opened, SSTable.open [] file = .ok opened ∧
        ∀ u ∈ [t, opened], ∀ (yielded : List Entry) (ended : Option Failure),
          u.Walk .start yielded ended ↔
            yielded = twoBlocks.entries ∧ ended = none := by
  obtain ⟨file, t, hwrite, hblocks⟩ := exists_written twoBlocks_written
  exact ⟨file, t, hwrite, hblocks, walk_writeTable (by decide +kernel)
    (by decide +kernel) hwrite []⟩

end Written

end Lsmrs
