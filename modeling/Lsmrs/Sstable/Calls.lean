import Lsmrs.Sstable.Set

/-!
# Whole calls

`SSTableSet::write` and `SSTableSet::compact` one after the other on a set
and its directory, with the places where a compaction can fail.
-/

namespace Lsmrs

open ByteString OrderedMap

variable {F : TableFormat}

/-- A set and the files of its directory. -/
structure Store (F : TableFormat) where
  dir : Dir F
  set : SSTableSet F

/-- Where `compact` fails: at an input, before the rename of its output,
between the rename and the swap, or at one of the removals. -/
inductive CompactFault (F : TableFormat) where
  | read
  | writeTmp (left : Option F.File)
  | afterRename
  | remove (index : ℕ)

/-- `SSTableSet::write`, when it succeeds. -/
def Store.write (s : Store F) (memtable : OrderedMap Bytes (Option Bytes)) :
    Option (Store F) :=
  if memtable.entries = [] then some s
  else
    let seq := s.set.nextSeq
    match F.writeTable s.set.bitsPerKey memtable.entries with
    | .ok (file, table) =>
      -- `seq + 1` must fit its `u64`.
      if seq < u64Max then
        some ⟨publish (createTmp s.dir ⟨seq, seq⟩ file) ⟨seq, seq⟩,
          s.set.register seq table⟩
      else none
    | .error _ => none

/-- The removals that `compact` gets to. -/
def removalsBefore (fault : Option (CompactFault F))
    (paths : List Bytes) : List Bytes :=
  match fault with
  | some (.remove index) => paths.take index
  | _ => paths

/-- The end of `compact`: the swap and the removals. -/
def Store.replace (s : Store F) (start count : ℕ)
    (replacement : Option (Listed F)) (fault : Option (CompactFault F)) :
    Store F :=
  let obsolete := (runOf s.set.sstables start count).map Listed.path
  ⟨removeAll s.dir (removalsBefore fault obsolete),
    { s.set with
      sstables := spliced s.set.sstables start count replacement }⟩

/-- `SSTableSet::compact`.  Nothing is written for a merge to nothing, so
nothing can fail there. -/
def Store.compact (s : Store F) (start count : ℕ)
    (fault : Option (CompactFault F)) : Option (Store F) :=
  let run := runOf s.set.sstables start count
  if 2 ≤ count ∧ start + count ≤ s.set.sstables.length then
    match fault with
    | some .read => some s
    | _ =>
      match mergeRun run start with
      | .error _ => some s
      | .ok entries =>
        let span := runSpan run
        if entries = [] then
          match fault with
          | some (.writeTmp _) => none
          | some .afterRename => none
          | _ => some (s.replace start count none fault)
        else
          match F.writeTable s.set.bitsPerKey entries with
          | .error _ => none
          | .ok (file, table) =>
            let dir := publish (createTmp s.dir span file) span
            match fault with
            | some (.writeTmp left) =>
              some { s with
                dir := match left with
                  | some file => createTmp s.dir span file
                  | none => s.dir }
            | some .afterRename => some { s with dir }
            | _ => some (Store.replace { s with dir } start count
                (some (listedAt span table)) fault)
  else none

inductive SetCall (F : TableFormat) where
  | write (memtable : OrderedMap Bytes (Option Bytes))
  | compact (start count : ℕ) (fault : Option (CompactFault F))

def Store.call (s : Store F) : SetCall F → Option (Store F)
  | .write memtable => s.write memtable
  | .compact start count fault => s.compact start count fault

/-- One call after the other. -/
def Store.exec (s : Store F) : List (SetCall F) → Option (Store F)
  | [] => some s
  | c :: calls => (s.call c).bind fun s => s.exec calls

/-- A set that was opened on an empty directory. -/
def Store.initial (F : TableFormat) (dirPath : Bytes) (bitsPerKey : ℕ) :
    Store F :=
  ⟨OrderedMap.empty, ⟨[], dirPath, bitsPerKey, 0⟩⟩

example (dirPath : Bytes) (bitsPerKey : ℕ) :
    SSTableSet.open dirPath bitsPerKey [] OrderedMap.empty =
      (.ok (Store.initial F dirPath bitsPerKey).set, OrderedMap.empty) := rfl

/-- A set opened on the directory reads as the live one, in whatever order
the directory is listed. -/
def Store.ReopensSame (s : Store F) : Prop :=
  ∀ listing : List Bytes, listing.Perm s.dir.keys →
    ∀ (dirPath : Bytes) (bitsPerKey : ℕ), ∃ set dir,
      SSTableSet.open dirPath bitsPerKey listing s.dir = (.ok set, dir) ∧
        ∀ k, set.get k = s.set.get k

/-! ## What a call does -/

/-- The call fails before it changes anything but its temporary file. -/
def stopsEarly : Option (CompactFault F) → Bool
  | some .read => true
  | some (.writeTmp _) => true
  | _ => false

/-- The outcomes of `compact`. -/
inductive CompactTurn (s : Store F) (start count : ℕ) :
    Option (CompactFault F) → Store F → Prop where
  | unread {fault : Option (CompactFault F)}
      (hearly : stopsEarly fault = true) :
    CompactTurn s start count fault s
  | unmerged {fault : Option (CompactFault F)} {e : Failure}
      (hmerge : mergeRun (runOf s.set.sstables start count) start =
        .error e) :
    CompactTurn s start count fault s
  | halfWritten {left : F.File} :
    CompactTurn s start count (some (.writeTmp (some left)))
      { s with
        dir := createTmp s.dir (runSpan (runOf s.set.sstables start count))
          left }
  | published {entries : List Entry} {file : F.File} {table : F.Table}
      (hmerge : mergeRun (runOf s.set.sstables start count) start =
        .ok entries)
      (hne : entries ≠ [])
      (hwrite : F.writeTable s.set.bitsPerKey entries = .ok (file, table)) :
    CompactTurn s start count (some .afterRename)
      { s with
        dir := publish (createTmp s.dir
          (runSpan (runOf s.set.sstables start count)) file)
          (runSpan (runOf s.set.sstables start count)) }
  | replaced {entries : List Entry} {file : F.File} {table : F.Table}
      {fault : Option (CompactFault F)} (hlate : stopsEarly fault = false)
      (hmerge : mergeRun (runOf s.set.sstables start count) start =
        .ok entries)
      (hne : entries ≠ [])
      (hwrite : F.writeTable s.set.bitsPerKey entries = .ok (file, table)) :
    CompactTurn s start count fault
      (Store.replace
        { s with
          dir := publish (createTmp s.dir
            (runSpan (runOf s.set.sstables start count)) file)
            (runSpan (runOf s.set.sstables start count)) }
        start count
        (some (listedAt (runSpan (runOf s.set.sstables start count)) table))
        fault)
  | mergedAway {fault : Option (CompactFault F)}
      (hlate : stopsEarly fault = false)
      (hmerge : mergeRun (runOf s.set.sstables start count) start =
        .ok []) :
    CompactTurn s start count fault (s.replace start count none fault)

theorem compact_turn {s s' : Store F} {start count : ℕ}
    {fault : Option (CompactFault F)}
    (h : s.compact start count fault = some s') :
    2 ≤ count ∧ start + count ≤ s.set.sstables.length ∧
      CompactTurn s start count fault s' := by
  unfold Store.compact at h
  dsimp only at h
  split_ifs at h with hguard
  refine ⟨hguard.1, hguard.2, ?_⟩
  cases hmerge : mergeRun (runOf s.set.sstables start count) start with
  | error e =>
      rw [hmerge] at h
      have hsame : s = s' := by
        rcases fault with _ | _ | _ | _ | _ <;> exact Option.some.inj h
      rw [← hsame]
      exact .unmerged hmerge
  | ok entries =>
      rw [hmerge] at h
      by_cases hnil : entries = []
      · subst hnil
        simp only [if_pos] at h
        rcases fault with _ | _ | left | _ | index
        · cases h
          exact .mergedAway rfl hmerge
        · cases h
          exact .unread rfl
        · cases h
        · cases h
        · cases h
          exact .mergedAway rfl hmerge
      · simp only [if_neg hnil] at h
        cases hwrite : F.writeTable s.set.bitsPerKey entries with
        | error e =>
            rw [hwrite] at h
            rcases fault with _ | _ | left | _ | index
            · cases h
            · cases h
              exact .unread rfl
            · cases h
            · cases h
            · cases h
        | ok written =>
            obtain ⟨file, table⟩ := written
            rw [hwrite] at h
            rcases fault with _ | _ | left | _ | index
            · cases h
              exact .replaced rfl hmerge hnil hwrite
            · cases h
              exact .unread rfl
            · cases left with
              | none =>
                  cases h
                  exact .unread rfl
              | some left =>
                  cases h
                  exact .halfWritten
            · cases h
              exact .published hmerge hnil hwrite
            · cases h
              exact .replaced rfl hmerge hnil hwrite

end Lsmrs
