import Lsmrs.Error
import Lsmrs.Hash

/-!
# The bloom filter

`bloom.rs`, and the one fact lookups rest on: a hash that was inserted is
always found.
-/

namespace Lsmrs

structure BloomFilter where
  bits : List UInt64
  numBits : ℕ
  numProbes : ℕ
  deriving DecidableEq, Repr

/-! ## Words and bits -/

/-- `(word >> n) & 1 == 1`. -/
def wordHas (word : UInt64) (n : ℕ) : Bool :=
  (word >>> UInt64.ofNat n) &&& 1 == 1

/-- `word | 1 << n`. -/
def wordWith (word : UInt64) (n : ℕ) : UInt64 :=
  word ||| (1 <<< UInt64.ofNat n)

theorem wordHas_eq {n : ℕ} (hn : n < 64) (word : UInt64) :
    wordHas word n = word.toNat.testBit n := by
  rw [wordHas, Bool.eq_iff_iff, beq_iff_eq, ← UInt64.toNat_inj]
  simp [Nat.testBit_eq_decide_div_mod_eq, Nat.shiftRight_eq_div_pow,
    Nat.mod_eq_of_lt hn]

theorem testBit_wordWith {n m : ℕ} (hm : m < 64) (word : UInt64) :
    (wordWith word m).toNat.testBit n =
      (word.toNat.testBit n || decide (m = n)) := by
  have hpow : (2 ^ m : ℕ) % 2 ^ 64 = 2 ^ m :=
    Nat.mod_eq_of_lt (Nat.pow_lt_pow_right (by decide) hm)
  have hm' : m % 2 ^ 64 = m := by omega
  rw [wordWith, UInt64.toNat_or, Nat.testBit_or, UInt64.toNat_shiftLeft]
  simp only [UInt64.toNat_one, UInt64.toNat_ofNat', hm',
    Nat.mod_eq_of_lt hm, Nat.one_shiftLeft, hpow, Nat.testBit_two_pow]

/-! ## The filter -/

/-- `num_probes` for a number of bits per key: the nearest integer to
`bits_per_key * ln 2`, between 1 and 30.  The quotient below rounds the same
way up to the 43 bits from which on the result is 30. -/
def probesFor (bitsPerKey : ℕ) : ℕ :=
  let nearest := (2 * bitsPerKey * 6931471805599453 + 10 ^ 16) / (2 * 10 ^ 16)
  max 1 (min nearest 30)

/-- `BloomFilter::new`.  A bit count that does not fit its `u64` cannot be
allocated. -/
def BloomFilter.new (numKeys bitsPerKey : ℕ) : Result BloomFilter :=
  let requested := max (min (numKeys * bitsPerKey) (2 ^ 64 - 1)) 64
  let words := (requested + 63) / 64
  if words * 64 < 2 ^ 64 then
    .ok ⟨List.replicate words 0, words * 64, probesFor bitsPerKey⟩
  else
    .error .panic

namespace BloomFilter

/-- `from_parts`. -/
def fromParts (bits : List UInt64) (numBits numProbes : ℕ) : BloomFilter :=
  ⟨bits, numBits, numProbes⟩

/-- The position of a probe before it is wrapped to the filter's size.  It
fits its `u64` for every `u32` number of probes. -/
def position (hash : UInt64) (i : ℕ) : ℕ :=
  let start := hash.toNat % 2 ^ 32
  let stride := (hash.toNat / 2 ^ 32) ||| 1
  start + i * stride

/-- `probe`.  Wrapping to no bits at all panics. -/
def probe (f : BloomFilter) (hash : UInt64) (i : ℕ) : Result ℕ :=
  if f.numBits = 0 then .error .panic
  else .ok (position hash i % f.numBits)

/-- `bits[bit / 64] |= 1 << (bit % 64)`. -/
def setBit (f : BloomFilter) (bit : ℕ) : Result BloomFilter :=
  match f.bits[bit / 64]? with
  | some word =>
    .ok { f with bits := f.bits.set (bit / 64) (wordWith word (bit % 64)) }
  | none => .error .panic

/-- `(bits[bit / 64] >> (bit % 64)) & 1 == 1`. -/
def hasBit (f : BloomFilter) (bit : ℕ) : Result Bool :=
  match f.bits[bit / 64]? with
  | some word => .ok (wordHas word (bit % 64))
  | none => .error .panic

def insertProbes (hash : UInt64) : List ℕ → BloomFilter → Result BloomFilter
  | [], f => .ok f
  | i :: probes, f => do
    let bit ← f.probe hash i
    let f ← f.setBit bit
    insertProbes hash probes f

/-- `insert`. -/
def insert (f : BloomFilter) (hash : UInt64) : Result BloomFilter :=
  insertProbes hash (List.range f.numProbes) f

def containsProbes (f : BloomFilter) (hash : UInt64) :
    List ℕ → Result Bool
  | [] => .ok true
  | i :: probes => do
    let bit ← f.probe hash i
    if ← f.hasBit bit then f.containsProbes hash probes else .ok false

/-- `contains`. -/
def contains (f : BloomFilter) (hash : UInt64) : Result Bool :=
  f.containsProbes hash (List.range f.numProbes)

/-! ## No false negatives -/

/-- Every probe lands in a word of the filter. -/
structure WellFormed (f : BloomFilter) : Prop where
  pos : 0 < f.numBits
  covered : f.numBits ≤ 64 * f.bits.length

/-- The bits that are set. -/
def Has (f : BloomFilter) (bit : ℕ) : Prop :=
  ∃ word, f.bits[bit / 64]? = some word ∧ wordHas word (bit % 64) = true

/-- Two filters of one shape, the second with more bits set. -/
structure Extends (f f' : BloomFilter) : Prop where
  numBits : f'.numBits = f.numBits
  numProbes : f'.numProbes = f.numProbes
  length : f'.bits.length = f.bits.length
  has : ∀ bit, f.Has bit → f'.Has bit

theorem Extends.refl (f : BloomFilter) : f.Extends f :=
  ⟨rfl, rfl, rfl, fun _ h => h⟩

theorem Extends.trans {f f' f'' : BloomFilter}
    (h : f.Extends f') (h' : f'.Extends f'') : f.Extends f'' :=
  ⟨h'.numBits.trans h.numBits, h'.numProbes.trans h.numProbes,
    h'.length.trans h.length, fun bit hbit => h'.has bit (h.has bit hbit)⟩

theorem Extends.wellFormed {f f' : BloomFilter}
    (h : f.Extends f') (hf : f.WellFormed) : f'.WellFormed :=
  ⟨by rw [h.numBits]; exact hf.pos,
    by rw [h.numBits, h.length]; exact hf.covered⟩

theorem new_wellFormed {numKeys bitsPerKey : ℕ} {f : BloomFilter}
    (h : BloomFilter.new numKeys bitsPerKey = .ok f) : f.WellFormed := by
  rw [BloomFilter.new] at h
  split_ifs at h
  cases h
  refine ⟨?_, ?_⟩
  · dsimp only
    omega
  · simp only [List.length_replicate]
    omega

/-- Where a probe of a well-formed filter lands. -/
theorem WellFormed.probe {f : BloomFilter} (hf : f.WellFormed)
    (hash : UInt64) (i : ℕ) :
    f.probe hash i = .ok (position hash i % f.numBits) ∧
      position hash i % f.numBits / 64 < f.bits.length := by
  have hlt := Nat.mod_lt (position hash i) hf.pos
  have hcovered := hf.covered
  rw [BloomFilter.probe, if_neg (Nat.pos_iff_ne_zero.mp hf.pos)]
  exact ⟨rfl, by omega⟩

/-- The same filter with some more bits set, and no others. -/
structure Adds (f : BloomFilter) (added : Set ℕ) (f' : BloomFilter) :
    Prop where
  numBits : f'.numBits = f.numBits
  numProbes : f'.numProbes = f.numProbes
  length : f'.bits.length = f.bits.length
  has_iff : ∀ bit, f'.Has bit ↔ bit ∈ added ∨ f.Has bit

theorem Adds.extends {f f' : BloomFilter} {added : Set ℕ}
    (h : f.Adds added f') : f.Extends f' :=
  ⟨h.numBits, h.numProbes, h.length, fun bit hbit =>
    (h.has_iff bit).mpr (Or.inr hbit)⟩

theorem Adds.empty (f : BloomFilter) : f.Adds ∅ f :=
  ⟨rfl, rfl, rfl, by simp⟩

theorem Adds.trans {f f' f'' : BloomFilter} {added added' : Set ℕ}
    (h : f.Adds added f') (h' : f'.Adds added' f'') :
    f.Adds (added ∪ added') f'' where
  numBits := h'.numBits.trans h.numBits
  numProbes := h'.numProbes.trans h.numProbes
  length := h'.length.trans h.length
  has_iff bit := by
    rw [h'.has_iff, h.has_iff, Set.mem_union]
    tauto

theorem has_iff_testBit {f : BloomFilter} {bit : ℕ} {word : UInt64}
    (hword : f.bits[bit / 64]? = some word) :
    f.Has bit ↔ word.toNat.testBit (bit % 64) = true := by
  rw [← wordHas_eq (Nat.mod_lt _ (by decide))]
  constructor
  · rintro ⟨word', hword', hhas⟩
    obtain rfl := Option.some.inj (hword.symm.trans hword')
    exact hhas
  · exact fun hhas => ⟨word, hword, hhas⟩

theorem setBit_adds {f : BloomFilter} {bit : ℕ}
    (hbit : bit / 64 < f.bits.length) :
    ∃ f', f.setBit bit = .ok f' ∧ f.Adds {bit} f' := by
  have hword := List.getElem?_eq_getElem hbit
  have hset : f.setBit bit = .ok { f with
      bits := f.bits.set (bit / 64) (wordWith f.bits[bit / 64] (bit % 64)) } := by
    rw [setBit, hword]
  refine ⟨_, hset, rfl, rfl, List.length_set, ?_⟩
  intro other
  rw [Set.mem_singleton_iff]
  by_cases hsame : bit / 64 = other / 64
  · have hother : f.bits[other / 64]? = some f.bits[bit / 64] := by
      rw [← hsame, hword]
    have hnew : (f.bits.set (bit / 64) (wordWith f.bits[bit / 64]
        (bit % 64)))[other / 64]? =
          some (wordWith f.bits[bit / 64] (bit % 64)) := by
      rw [← hsame]
      exact List.getElem?_set_self hbit
    have hbits : bit % 64 = other % 64 ↔ other = bit := by omega
    rw [has_iff_testBit hnew, has_iff_testBit hother,
      testBit_wordWith (Nat.mod_lt _ (by decide)), Bool.or_eq_true,
      decide_eq_true_eq, hbits, or_comm]
  · have hne : other ≠ bit := by
      rintro rfl
      exact hsame rfl
    simp only [Has, List.getElem?_set_ne hsame, hne, false_or]

/-- Where the probes of a hash land. -/
def landings (f : BloomFilter) (hash : UInt64) (probes : List ℕ) : Set ℕ :=
  {bit | ∃ i ∈ probes, bit = position hash i % f.numBits}

theorem insertProbes_adds (hash : UInt64) (probes : List ℕ)
    {f : BloomFilter} (hf : f.WellFormed) :
    ∃ f', insertProbes hash probes f = .ok f' ∧
      f.Adds (f.landings hash probes) f' := by
  induction probes generalizing f with
  | nil => exact ⟨f, rfl, by simpa [landings] using Adds.empty f⟩
  | cons i probes ih =>
      obtain ⟨hprobe, hbound⟩ := hf.probe hash i
      obtain ⟨f₁, hset, hadds⟩ := setBit_adds hbound
      obtain ⟨f₂, hrest, hadds'⟩ := ih (hadds.extends.wellFormed hf)
      refine ⟨f₂, ?_, ?_⟩
      · rw [insertProbes, hprobe, ok_bind, hset, ok_bind, hrest]
      · have hlandings : f.landings hash (i :: probes) =
            {position hash i % f.numBits} ∪ f₁.landings hash probes := by
          ext bit
          simp [landings, hadds.numBits]
        rw [hlandings]
        exact hadds.trans hadds'

/-- Every probe of the hash finds its bit. -/
def Holds (f : BloomFilter) (hash : UInt64) : Prop :=
  ∀ i < f.numProbes, f.Has (position hash i % f.numBits)

theorem Holds.mono {f f' : BloomFilter} {hash : UInt64}
    (h : f.Holds hash) (hext : f.Extends f') : f'.Holds hash := by
  intro i hi
  rw [hext.numBits]
  rw [hext.numProbes] at hi
  exact hext.has _ (h i hi)

theorem insert_adds {f : BloomFilter} (hf : f.WellFormed)
    (hash : UInt64) :
    ∃ f', f.insert hash = .ok f' ∧
      f.Adds (f.landings hash (List.range f.numProbes)) f' :=
  insertProbes_adds hash _ hf

theorem Adds.holds {f f' : BloomFilter} {hash : UInt64} {added : Set ℕ}
    (h : f.Adds added f')
    (hlandings : f.landings hash (List.range f.numProbes) ⊆ added) :
    f'.Holds hash := by
  intro i hi
  rw [h.numProbes] at hi
  rw [h.numBits, h.has_iff]
  exact Or.inl (hlandings ⟨i, List.mem_range.mpr hi, rfl⟩)

theorem insert_extends {f : BloomFilter} (hf : f.WellFormed)
    (hash : UInt64) :
    ∃ f', f.insert hash = .ok f' ∧ f.Extends f' ∧ f'.Holds hash := by
  obtain ⟨f', hinsert, hadds⟩ := insert_adds hf hash
  exact ⟨f', hinsert, hadds.extends, hadds.holds subset_rfl⟩

theorem containsProbes_ok {f : BloomFilter} (hf : f.WellFormed)
    (hash : UInt64) (probes : List ℕ) :
    ∃ b, f.containsProbes hash probes = .ok b ∧
      ((∀ i ∈ probes, f.Has (position hash i % f.numBits)) → b = true) := by
  induction probes with
  | nil => exact ⟨true, rfl, fun _ => rfl⟩
  | cons i probes ih =>
      obtain ⟨hprobe, hbound⟩ := hf.probe hash i
      obtain ⟨b, hrest, hb⟩ := ih
      have hword := List.getElem?_eq_getElem hbound
      rw [containsProbes, hprobe, ok_bind, hasBit, hword]
      dsimp only
      rw [ok_bind]
      cases hhas : wordHas
          f.bits[position hash i % f.numBits / 64]
          (position hash i % f.numBits % 64) with
      | true =>
          rw [if_pos rfl]
          refine ⟨b, hrest, ?_⟩
          intro h
          exact hb fun j hj => h j (List.mem_cons_of_mem _ hj)
      | false =>
          rw [if_neg Bool.false_ne_true]
          refine ⟨false, rfl, ?_⟩
          intro h
          obtain ⟨word, heq, hset⟩ := h i List.mem_cons_self
          rw [hword] at heq
          obtain rfl := Option.some.inj heq
          rw [hhas] at hset
          cases hset

/-- A query of a well-formed filter answers, and answers yes for every hash
it holds. -/
theorem contains_ok {f : BloomFilter} (hf : f.WellFormed)
    (hash : UInt64) :
    ∃ b, f.contains hash = .ok b ∧ (f.Holds hash → b = true) := by
  obtain ⟨b, hcontains, hb⟩ :=
    containsProbes_ok hf hash (List.range f.numProbes)
  refine ⟨b, hcontains, fun h => hb ?_⟩
  intro i hi
  exact h i (List.mem_range.mp hi)

end BloomFilter

end Lsmrs
