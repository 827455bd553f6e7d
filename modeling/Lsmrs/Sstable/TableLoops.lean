import Lsmrs.Sstable.Records
import Lsmrs.Support.Loops

/-!
# The loops over a table

Reading the sparse index, loading the next block and scanning a block are
`while` loops over what a file says.  Whatever it says they end, since every
turn uses up bytes or a block, and the positions they count stay in what was
read.
-/

namespace Lsmrs

open ByteString Loops

/-! ## The sparse index -/

/-- The variables of the loop that reads the sparse index. -/
structure IndexLoop where
  pos : ℕ
  reader : Bytes
  sparseIndex : List (Bytes × ℕ)

/-- One entry of the sparse index. -/
def readIndexEntry (reader : Bytes) : Result ((Bytes × ℕ) × Bytes) := do
  let (key, reader) ← readPrefixed reader
  let (offsetBuf, reader) ← readExact 8 reader
  return ((key, fromLeBytes offsetBuf), reader)

def indexTurn (filterStart : ℕ) (s : IndexLoop) :
    Turn IndexLoop (Result (List (Bytes × ℕ))) :=
  if s.pos < filterStart then
    match readIndexEntry s.reader with
    | .error e => .stop (.error e)
    | .ok (p, reader) =>
      .goOn ⟨s.pos + (4 + p.1.length + 8), reader, s.sparseIndex ++ [p]⟩
  else .stop (.ok s.sparseIndex)

theorem readIndexEntry_length {reader rest : Bytes} {p : Bytes × ℕ}
    (h : readIndexEntry reader = .ok (p, rest)) :
    reader.length = 4 + p.1.length + 8 + rest.length ∧ p.2 < 2 ^ 64 := by
  rw [readIndexEntry] at h
  obtain ⟨⟨key, reader'⟩, hkey, h⟩ := bind_eq_ok.mp h
  obtain ⟨⟨offsetBuf, reader''⟩, hoffset, h⟩ := bind_eq_ok.mp h
  cases h
  obtain ⟨-, rfl⟩ := readPrefixed_eq_ok_iff.mp hkey
  obtain ⟨rfl, height⟩ := readExact_eq_ok_iff.mp hoffset
  have hlt := fromLeBytes_lt offsetBuf
  rw [height] at hlt
  refine ⟨?_, hlt⟩
  rw [List.length_append, List.length_append, prefixed_length, height]
  dsimp only
  omega

theorem readIndex_succ (filterStart turns pos : ℕ) (reader : Bytes) :
    readIndex filterStart (turns + 1) pos reader =
      if pos < filterStart then do
        let (p, reader) ← readIndexEntry reader
        let rest ← readIndex filterStart turns
          (pos + (4 + p.1.length + 8)) reader
        return p :: rest
      else .ok [] := by
  rw [readIndex, readIndexEntry]
  split_ifs
  · simp only [bind_assoc, pure_bind]
  · rfl

/-- A turn goes on behind an entry. -/
theorem indexTurn_goOn {filterStart : ℕ} {s s' : IndexLoop}
    (h : indexTurn filterStart s = .goOn s') :
    ∃ p, s.pos < filterStart ∧
      readIndexEntry s.reader = .ok (p, s'.reader) ∧
      s'.pos = s.pos + (4 + p.1.length + 8) ∧
      s'.sparseIndex = s.sparseIndex ++ [p] := by
  rw [indexTurn] at h
  split_ifs at h with hpos
  cases hentry : readIndexEntry s.reader with
  | error e =>
      rw [hentry] at h
      cases h
  | ok r =>
      rw [hentry] at h
      cases h
      exact ⟨r.1, hpos, rfl, rfl, rfl⟩

/-- With a turn for each byte, and one more, the loop ends. -/
theorem readIndex_ends (filterStart : ℕ) {turns : ℕ} {s : IndexLoop}
    (h : s.reader.length < turns) :
    Ends (indexTurn filterStart) s
      ((readIndex filterStart turns s.pos s.reader).map
        (s.sparseIndex ++ ·)) := by
  let run : ℕ → IndexLoop → Result (List (Bytes × ℕ)) := fun n s =>
    (readIndex filterStart n s.pos s.reader).map (s.sparseIndex ++ ·)
  refine ends_of_turns run (fun s => s.reader.length) ?_ ?_ h
  · intro n s
    simp only [run]
    rw [readIndex_succ, indexTurn]
    by_cases hpos : s.pos < filterStart
    · rw [if_pos hpos, if_pos hpos]
      cases readIndexEntry s.reader with
      | error e => rfl
      | ok r =>
          rw [ok_bind]
          dsimp only
          cases readIndex filterStart n (s.pos + (4 + r.1.1.length + 8))
            r.2 with
          | error e => rfl
          | ok rest => simp [Except.map, pure, Except.pure]
    · rw [if_neg hpos, if_neg hpos]
      simp [Except.map]
  · intro s s' hgoOn
    obtain ⟨p, -, hentry, -, -⟩ := indexTurn_goOn hgoOn
    have hlen := (readIndexEntry_length hentry).1
    omega

theorem readIndex_ends_nil (filterStart pos : ℕ) {turns : ℕ}
    {reader : Bytes} (h : reader.length < turns) :
    Ends (indexTurn filterStart) ⟨pos, reader, []⟩
      (readIndex filterStart turns pos reader) := by
  have hends := @readIndex_ends filterStart turns ⟨pos, reader, []⟩ h
  simp only [List.nil_append] at hends
  cases hread : readIndex filterStart turns pos reader with
  | error e =>
      rw [hread] at hends
      exact hends
  | ok sparseIndex =>
      rw [hread] at hends
      exact hends

/-- The position moves as the reader does. -/
theorem indexTurn_pos {filterStart : ℕ} {s s' : IndexLoop}
    (h : Reaches (indexTurn filterStart) s s') :
    s'.pos + s'.reader.length = s.pos + s.reader.length := by
  refine h.conserved (fun s => s.pos + s.reader.length) fun a b hgoOn => ?_
  obtain ⟨p, -, hentry, hpos, -⟩ := indexTurn_goOn hgoOn
  have hlen := (readIndexEntry_length hentry).1
  omega

theorem readIndex_offsets_lt {filterStart turns pos : ℕ} {reader : Bytes}
    {sparseIndex : List (Bytes × ℕ)}
    (h : readIndex filterStart turns pos reader = .ok sparseIndex) :
    ∀ p ∈ sparseIndex, p.2 < 2 ^ 64 := by
  induction turns generalizing pos reader sparseIndex with
  | zero =>
      cases h
      exact List.forall_mem_nil _
  | succ turns ih =>
      rw [readIndex_succ] at h
      split_ifs at h
      · obtain ⟨⟨p, reader'⟩, hentry, h⟩ := bind_eq_ok.mp h
        obtain ⟨rest, hrest, h⟩ := bind_eq_ok.mp h
        cases h
        exact List.forall_mem_cons.mpr
          ⟨(readIndexEntry_length hentry).2, ih hrest⟩
      · cases h
        exact List.forall_mem_nil _

/-! ## Scanning a block -/

/-- The variables of the loop of `get`. -/
structure ScanLoop where
  pos : ℕ
  reader : Bytes

namespace SSTable

def scanTurn (key : Bytes) (blockEnd : ℕ) (s : ScanLoop) :
    Turn ScanLoop (Result (Option Found)) :=
  if s.pos < blockEnd then
    match readFields s.reader with
    | .error e => .stop (.error e)
    | .ok (recordKey, value, op, reader) =>
      if recordKey < key then
        .goOn ⟨s.pos + (9 + recordKey.length + value.length), reader⟩
      else if key < recordKey then .stop (.ok none)
      else if op = 0 then .stop (.ok (some (.value value)))
      else if op = 1 then .stop (.ok (some .tombstone))
      else .stop (.error invalidOpType)
  else .stop (.ok none)

theorem scanTurn_goOn {key : Bytes} {blockEnd : ℕ} {s s' : ScanLoop}
    (h : scanTurn key blockEnd s = .goOn s') :
    s'.reader.length < s.reader.length ∧
      s'.pos + s'.reader.length = s.pos + s.reader.length := by
  rw [scanTurn] at h
  split_ifs at h
  cases hread : readFields s.reader with
  | error e =>
      rw [hread] at h
      cases h
  | ok r =>
      obtain ⟨recordKey, value, op, rest⟩ := r
      rw [hread] at h
      dsimp only at h
      split_ifs at h
      cases h
      have hlen := (readFields_rest hread).1
      dsimp only
      omega

/-- With a turn for each byte, and one more, the loop ends. -/
theorem scanBlock_ends (key : Bytes) (blockEnd : ℕ) {turns : ℕ}
    {s : ScanLoop} (h : s.reader.length < turns) :
    Ends (scanTurn key blockEnd) s
      (scanBlock key blockEnd turns s.pos s.reader) := by
  refine ends_of_turns (fun n s => scanBlock key blockEnd n s.pos s.reader)
    (fun s => s.reader.length) ?_ (fun _ _ hgoOn => (scanTurn_goOn hgoOn).1) h
  intro n s
  rw [scanBlock, scanTurn]
  by_cases hpos : s.pos < blockEnd
  · rw [if_pos hpos, if_pos hpos]
    cases readFields s.reader with
    | error e => rfl
    | ok r =>
        rw [ok_bind]
        dsimp only
        split_ifs
        · rfl
        · rfl
        · rfl
        · rfl
        · rfl
  · rw [if_neg hpos, if_neg hpos]

theorem scanTurn_pos {key : Bytes} {blockEnd : ℕ} {s s' : ScanLoop}
    (h : Reaches (scanTurn key blockEnd) s s') :
    s'.pos + s'.reader.length = s.pos + s.reader.length :=
  h.conserved (fun s => s.pos + s.reader.length) fun _ _ hgoOn =>
    (scanTurn_goOn hgoOn).2

/-! ## Loading blocks -/

variable {t : SSTable}

def loadTurn (t : SSTable) (iter : Records) :
    Turn Records (Result (Option Records)) :=
  if iter.buf.length ≤ iter.cursor then
    match t.sparseIndex[iter.block]? with
    | none => .stop (.ok none)
    | some (_, blockStart) =>
      match t.readBlock blockStart (t.blockEnd iter.block) with
      | .error e => .stop (.error e)
      | .ok buf => .goOn ⟨iter.block + 1, buf, 0⟩
  else .stop (.ok (some iter))

theorem loadTurn_goOn {iter iter' : Records}
    (h : t.loadTurn iter = .goOn iter') :
    iter.block < t.sparseIndex.length ∧ iter'.block = iter.block + 1 := by
  rw [loadTurn] at h
  split_ifs at h
  cases hp : t.sparseIndex[iter.block]? with
  | none =>
      rw [hp] at h
      cases h
  | some p =>
      rw [hp] at h
      dsimp only at h
      cases hread : t.readBlock p.2 (t.blockEnd iter.block) with
      | error e =>
          rw [hread] at h
          cases h
      | ok buf =>
          rw [hread] at h
          cases h
          exact ⟨(List.getElem?_eq_some_iff.mp hp).1, rfl⟩

/-- With a turn for each block that is left, and one more, the loop ends. -/
theorem loadBlocks_ends (t : SSTable) {turns : ℕ} {iter : Records}
    (h : t.sparseIndex.length - iter.block < turns) :
    Ends t.loadTurn iter (t.loadBlocks turns iter) := by
  refine ends_of_turns t.loadBlocks
    (fun iter => t.sparseIndex.length - iter.block) ?_ ?_ h
  · intro n iter
    rw [loadBlocks, loadTurn]
    by_cases hspent : iter.buf.length ≤ iter.cursor
    · rw [if_pos hspent, if_pos hspent]
      cases t.sparseIndex[iter.block]? with
      | none => rfl
      | some p =>
          dsimp only
          cases t.readBlock p.2 (t.blockEnd iter.block) with
          | error e => rfl
          | ok buf => rfl
    · rw [if_neg hspent, if_neg hspent]
  · intro iter iter' hgoOn
    obtain ⟨hlt, hblock⟩ := loadTurn_goOn hgoOn
    omega

end SSTable

end Lsmrs
