import Lsmrs.Db.Recovery

/-!
# Scanning

`scan` walks the memtable and no table.  It agrees with `get` exactly as long
as no live key has left the memtable.
-/

namespace Lsmrs

open ByteString OrderedMap

variable {F : Format} {Ok : Mutation → Prop}

/-- `scan` yields the pairs that `get` returns, each key once and in
ascending order. -/
structure Db.ScanAgrees (db : Db F) : Prop where
  mem_iff : ∀ key value,
    (key, value) ∈ db.scan ↔ db.get key = .ok (some value)
  ascending : (db.scan.map Prod.fst).Pairwise (· < ·)

theorem mem_scan_iff {db : Db F} {key value : Bytes} :
    (key, value) ∈ db.scan ↔ db.map.get? key = some (some value) := by
  rw [Db.scan, List.mem_filterMap, ← mem_entries_iff]
  constructor
  · rintro ⟨⟨k, v⟩, he, heq⟩
    obtain ⟨v', hv, hpair⟩ := Option.map_eq_some_iff.mp heq
    obtain ⟨rfl, rfl⟩ := Prod.mk.inj hpair
    rwa [show v = some v' from hv] at he
  · intro he
    exact ⟨(key, some value), he, rfl⟩

theorem scan_ascending (db : Db F) :
    (db.scan.map Prod.fst).Pairwise (· < ·) := by
  rw [List.pairwise_map, Db.scan, List.pairwise_filterMap]
  refine db.map.ascending.imp ?_
  intro a b hlt x hx y hy
  obtain ⟨v, -, rfl⟩ := Option.map_eq_some_iff.mp hx
  obtain ⟨w, -, rfl⟩ := Option.map_eq_some_iff.mp hy
  exact hlt

/-- In every run without I/O errors `scan` agrees with `get`, between two
calls, if and only if every live key has an entry in the memtable. -/
def ScanAgreesIff (F : Format) (Ok : Mutation → Prop) : Prop :=
  ∀ (labels : List (Label F)) (s : State F) (p : Process F),
    (∀ l ∈ labels, l.Faultless) → (∀ m ∈ history labels, Ok m) →
      (State.initial F).exec labels = some s → s.process = some p →
        p.writer = .idle →
          (p.db.ScanAgrees ↔
            ∀ key, (plainMap (history labels) key).isSome →
              (p.db.map.get? key).isSome)

theorem scanAgreesIff_of_lawful (hF : F.Lawful Ok) :
    ScanAgreesIff F Ok := by
  intro labels s p hlabels hok hrun hp hidle
  have hinv := inv_of_run hF
    (fun l hl => (hlabels l hl).onlyFlushFails) hok hrun
  have hget := hinv.readsAs p hp hidle
  constructor
  · intro hscan key hlive
    obtain ⟨value, hvalue⟩ := Option.isSome_iff_exists.mp hlive
    have hfound : p.db.get key = .ok (some value) := by
      rw [hget, hvalue]
    rw [mem_scan_iff.mp ((hscan.mem_iff key value).mpr hfound)]
    rfl
  · intro hlive
    refine ⟨?_, scan_ascending p.db⟩
    intro key value
    rw [mem_scan_iff]
    constructor
    · intro hmap
      rw [Db.get, hmap]
    · intro hfound
      have hplain : plainMap (history labels) key = some value :=
        Except.ok.inj ((hget key).symm.trans hfound)
      obtain ⟨entry, hentry⟩ := Option.isSome_iff_exists.mp
        (hlive key (by rw [hplain]; rfl))
      rw [Db.get, hentry] at hfound
      rw [hentry, Except.ok.inj hfound]

theorem scanAgrees_iff (hash : Bytes → UInt32) :
    ScanAgreesIff listFormat (fun _ => True) ∧
      ScanAgreesIff (byteFormat hash) (fun m => m.record.Fits) :=
  ⟨scanAgreesIff_of_lawful listFormat_lawful,
    scanAgreesIff_of_lawful (byteFormat_lawful hash)⟩

/-- Two entries and a deletion that stay in the memtable. -/
def unflushed : List (Label F) :=
  [.recover Config.default [],
    .write (.append (.insert (ascii "omar") (ascii "ashour"))),
    .write .apply, .write (.append (.insert (ascii "foo") (ascii "bar"))),
    .write .apply, .write (.append (.delete (ascii "omar"))),
    .write .apply]

theorem scanAgrees_unflushed :
    ∃ s p, (State.initial (byteFormat crc32)).exec unflushed = some s ∧
      s.process = some p ∧ p.db.ScanAgrees := by
  have hends : endsIdle ((State.initial (byteFormat crc32)).exec
      unflushed) = true := by
    decide +kernel
  obtain ⟨s, p, hrun, hp, hidle⟩ := exists_of_endsIdle hends
  refine ⟨s, p, hrun, hp, ((scanAgrees_iff crc32).2 unflushed s p
    (by decide +kernel) (by decide +kernel) hrun hp hidle).mpr ?_⟩
  have hkeys : ∀ key ∈ (history (unflushed (F := byteFormat crc32))).map
      Mutation.key, (p.db.map.get? key).isSome := by
    rw [← List.all_eq_true]
    refine observedProcess hrun hp (f := fun p =>
      ((history (unflushed (F := byteFormat crc32))).map
        Mutation.key).all fun key => (p.db.map.get? key).isSome) ?_
    decide +kernel
  intro key hlive
  rw [plainMap_eq] at hlive
  exact hkeys key (mem_keys_of_live hlive)

/-- A key that was flushed is still read, and no longer scanned. -/
theorem flushed_key_not_scanned :
    ¬ ∀ (labels : List (Label (byteFormat crc32)))
        (s : State (byteFormat crc32)) (p : Process (byteFormat crc32)),
      (∀ l ∈ labels, l.Faultless) →
        (State.initial (byteFormat crc32)).exec labels = some s →
          s.process = some p → p.writer = .idle → p.db.ScanAgrees := by
  intro hclaim
  have hends : endsIdle ((State.initial (byteFormat crc32)).exec
      (.recover flushEach [] ::
        flushedCall (.insert (ascii "foo") (ascii "bar")))) = true := by
    decide +kernel
  obtain ⟨s, p, hrun, hp, hidle⟩ := exists_of_endsIdle hends
  have hagrees := hclaim _ s p (by decide +kernel) hrun hp hidle
  have hget : p.db.get (ascii "foo") = .ok (some (ascii "bar")) := by
    refine observedProcess hrun hp (f := fun p => p.db.get (ascii "foo")) ?_
    decide +kernel
  have hscan : p.db.scan = [] := by
    refine observedProcess hrun hp (f := fun p => p.db.scan) ?_
    decide +kernel
  have hmem := (hagrees.mem_iff (ascii "foo") (ascii "bar")).mpr hget
  rw [hscan] at hmem
  cases hmem

end Lsmrs
