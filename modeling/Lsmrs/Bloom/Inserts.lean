import Lsmrs.Bloom

/-!
# A sequence of inserts

What inserting hash after hash leaves in a filter: exactly the bits their
probes land on, whatever their order.  So none of them is lost, and every
word a probe looks at is there.
-/

namespace Lsmrs

namespace BloomFilter

/-- `insert`, called for one hash after the other. -/
def insertAll : List UInt64 → BloomFilter → Result BloomFilter
  | [], f => .ok f
  | hash :: hashes, f => do
    let f ← f.insert hash
    insertAll hashes f

/-- Where the probes of any of these hashes land. -/
def allLandings (f : BloomFilter) (hashes : List UInt64) : Set ℕ :=
  {bit | ∃ hash ∈ hashes, bit ∈ f.landings hash (List.range f.numProbes)}

theorem allLandings_cons {f f' : BloomFilter} {added : Set ℕ}
    (h : f.Adds added f') (hash : UInt64) (hashes : List UInt64) :
    f.allLandings (hash :: hashes) =
      f.landings hash (List.range f.numProbes) ∪ f'.allLandings hashes := by
  ext bit
  simp [allLandings, landings, h.numBits, h.numProbes]

theorem insertAll_adds (hashes : List UInt64) {f : BloomFilter}
    (hf : f.WellFormed) :
    ∃ f', f.insertAll hashes = .ok f' ∧
      f.Adds (f.allLandings hashes) f' := by
  induction hashes generalizing f with
  | nil => exact ⟨f, rfl, by simpa [allLandings] using Adds.empty f⟩
  | cons hash hashes ih =>
      obtain ⟨f₁, hinsert, hadds⟩ := insert_adds hf hash
      obtain ⟨f₂, hrest, hadds'⟩ := ih (hadds.extends.wellFormed hf)
      refine ⟨f₂, ?_, ?_⟩
      · rw [insertAll, hinsert, ok_bind, hrest]
      · rw [allLandings_cons hadds]
        exact hadds.trans hadds'

/-! ## Order does not matter -/

theorem word_eq_of_testBit {word word' : UInt64}
    (h : ∀ n < 64, word.toNat.testBit n = word'.toNat.testBit n) :
    word = word' := by
  rw [← UInt64.toNat_inj]
  apply Nat.eq_of_testBit_eq
  intro n
  by_cases hn : n < 64
  · exact h n hn
  · have hpow : 2 ^ 64 ≤ 2 ^ n := Nat.pow_le_pow_right (by decide) (not_lt.mp hn)
    rw [Nat.testBit_lt_two_pow (word.toNat_lt.trans_le hpow),
      Nat.testBit_lt_two_pow (word'.toNat_lt.trans_le hpow)]

/-- The bits that were added say what the filter is. -/
theorem Adds.unique {f f₁ f₂ : BloomFilter} {added : Set ℕ}
    (h₁ : f.Adds added f₁) (h₂ : f.Adds added f₂) : f₁ = f₂ := by
  have hhas : ∀ bit, f₁.Has bit ↔ f₂.Has bit := fun bit =>
    (h₁.has_iff bit).trans (h₂.has_iff bit).symm
  have hbits : f₁.bits = f₂.bits := by
    apply List.ext_getElem (h₁.length.trans h₂.length.symm)
    intro i hi hi'
    apply word_eq_of_testBit
    intro n hn
    have hword : (64 * i + n) / 64 = i := by omega
    have hplace : (64 * i + n) % 64 = n := by omega
    have hbit₁ : f₁.Has (64 * i + n) ↔ _ :=
      has_iff_testBit (by rw [hword]; exact List.getElem?_eq_getElem hi)
    have hbit₂ : f₂.Has (64 * i + n) ↔ _ :=
      has_iff_testBit (by rw [hword]; exact List.getElem?_eq_getElem hi')
    rw [hplace] at hbit₁ hbit₂
    rw [Bool.eq_iff_iff, ← hbit₁, ← hbit₂, hhas]
  have hnumBits := h₁.numBits.trans h₂.numBits.symm
  have hnumProbes := h₁.numProbes.trans h₂.numProbes.symm
  cases f₁
  cases f₂
  simp_all

theorem allLandings_perm {f : BloomFilter} {hashes hashes' : List UInt64}
    (h : hashes.Perm hashes') :
    f.allLandings hashes = f.allLandings hashes' := by
  ext bit
  simp only [allLandings, h.mem_iff]

/-! ## Probes -/

/-- A probe of an `u32` number fits its `u64` before it is wrapped. -/
theorem position_lt (hash : UInt64) {i : ℕ} (hi : i < 2 ^ 32) :
    position hash i < 2 ^ 64 := by
  have hstart : hash.toNat % 2 ^ 32 < 2 ^ 32 := Nat.mod_lt _ (by decide)
  have hhigh : hash.toNat / 2 ^ 32 < 2 ^ 32 := by
    have := hash.toNat_lt
    omega
  have hstride : hash.toNat / 2 ^ 32 ||| 1 < 2 ^ 32 :=
    Nat.or_lt_two_pow hhigh (by decide)
  have hmul : i * (hash.toNat / 2 ^ 32 ||| 1) ≤
      (2 ^ 32 - 1) * (2 ^ 32 - 1) :=
    Nat.mul_le_mul (by omega) (by omega)
  rw [position]
  omega

/-- Everything a probe does is in bounds: the position fits, the modulus is
not zero, and the word is there. -/
structure InBounds (f : BloomFilter) (hash : UInt64) (i : ℕ) : Prop where
  fits : position hash i < 2 ^ 64
  pos : 0 < f.numBits
  wraps : f.probe hash i = .ok (position hash i % f.numBits)
  word : position hash i % f.numBits / 64 < f.bits.length

theorem WellFormed.inBounds {f : BloomFilter} (hf : f.WellFormed)
    (hash : UInt64) {i : ℕ} (hi : i < 2 ^ 32) : f.InBounds hash i :=
  ⟨position_lt hash hi, hf.pos, (hf.probe hash i).1, (hf.probe hash i).2⟩

theorem new_isOk {numKeys bitsPerKey : ℕ}
    (h : numKeys * bitsPerKey ≤ 2 ^ 64 - 64) :
    ∃ f, BloomFilter.new numKeys bitsPerKey = .ok f := by
  rw [BloomFilter.new]
  refine ⟨_, if_pos ?_⟩
  omega

/-- A filter of any size keeps every hash that was inserted, in whatever
order, also when it is rebuilt from its parts, and no probe leaves it. -/
theorem insertAll_new (numKeys bitsPerKey : ℕ) {probes : ℕ}
    (hprobes : 1 ≤ probes ∧ probes ≤ 30) :
    (numKeys * bitsPerKey ≤ 2 ^ 64 - 64 →
      ∃ f₀, BloomFilter.new numKeys bitsPerKey = .ok f₀) ∧
    ∀ f₀, BloomFilter.new numKeys bitsPerKey = .ok f₀ →
      ∀ hashes : List UInt64,
      ∃ f, insertAll hashes { f₀ with numProbes := probes } = .ok f ∧
        (∀ hash ∈ hashes, f.contains hash = .ok true ∧
          (fromParts f.bits f.numBits f.numProbes).contains hash =
            .ok true) ∧
        (∀ hashes', hashes.Perm hashes' →
          insertAll hashes' { f₀ with numProbes := probes } = .ok f) ∧
        ∀ hash, ∀ i < f.numProbes,
          InBounds { f₀ with numProbes := probes } hash i ∧
            f.InBounds hash i := by
  refine ⟨new_isOk, ?_⟩
  intro f₀ hnew hashes
  have hnew' := new_wellFormed hnew
  have hf : WellFormed { f₀ with numProbes := probes } :=
    ⟨hnew'.pos, hnew'.covered⟩
  obtain ⟨f, hinsert, hadds⟩ := insertAll_adds hashes hf
  have hwell := hadds.extends.wellFormed hf
  have hnumProbes : f.numProbes = probes := hadds.numProbes
  refine ⟨f, hinsert, ?_, ?_, ?_⟩
  · intro hash hmem
    obtain ⟨answer, hcontains, htrue⟩ := contains_ok hwell hash
    have hholds : f.Holds hash :=
      hadds.holds fun bit hbit => ⟨hash, hmem, hbit⟩
    rw [htrue hholds] at hcontains
    exact ⟨hcontains, hcontains⟩
  · intro hashes' hperm
    obtain ⟨f', hinsert', hadds'⟩ := insertAll_adds hashes' hf
    rw [← allLandings_perm hperm] at hadds'
    rw [hinsert', hadds'.unique hadds]
  · intro hash i hi
    exact ⟨hf.inBounds hash (by omega), hwell.inBounds hash (by omega)⟩

/-- With more hashes than keys, and one of them twice. -/
theorem insertAll_new_two :
    ∃ f₀, BloomFilter.new 1 0 = .ok f₀ ∧
      ∃ f, insertAll [3, 1099511627776, 3] { f₀ with numProbes := 2 } = .ok f ∧
        f.contains 1099511627776 = .ok true := by
  obtain ⟨hok, hall⟩ := @insertAll_new 1 0 2 (by decide)
  obtain ⟨f₀, hnew⟩ := hok (by decide)
  obtain ⟨f, hinsert, hcontains, -⟩ := hall f₀ hnew [3, 1099511627776, 3]
  exact ⟨f₀, hnew, f, hinsert, (hcontains _ (by decide)).1⟩

end BloomFilter

end Lsmrs
