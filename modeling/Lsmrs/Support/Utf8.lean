import Lsmrs.Support.Bytes

/-!
# UTF-8 by chunks

Decoding a byte string the way a lossy conversion does: the longest valid
character at the front, or the maximal ill-formed subpart, which is replaced
by U+FFFD.  A chunk that starts with an ASCII byte is that byte alone and a
chunk that does not contains no ASCII byte, so ASCII text passes through
unchanged.
-/

namespace Utf8

open ByteString

def isContinuation (b : UInt8) : Bool :=
  128 ≤ b && b ≤ 191

/-- The second bytes a three-byte character starting with `b` may have. -/
def isSecondOfThree (b c : UInt8) : Bool :=
  if b = 224 then 160 ≤ c && c ≤ 191
  else if b = 237 then 128 ≤ c && c ≤ 159
  else isContinuation c

/-- The second bytes a four-byte character starting with `b` may have. -/
def isSecondOfFour (b c : UInt8) : Bool :=
  if b = 240 then 144 ≤ c && c ≤ 191
  else if b = 244 then 128 ≤ c && c ≤ 143
  else isContinuation c

/-- Whether the chunk at the front of `b :: rest` is a character, and how
many bytes of `rest` belong to it.  A byte past the end reads as zero. -/
def chunk (b : UInt8) (rest : Bytes) : Bool × ℕ :=
  let byte := fun i => rest.getD i 0
  if b < 128 then (true, 0)
  else if 194 ≤ b && b ≤ 223 then
    if isContinuation (byte 0) then (true, 1) else (false, 0)
  else if 224 ≤ b && b ≤ 239 then
    if isSecondOfThree b (byte 0) then
      if isContinuation (byte 1) then (true, 2) else (false, 1)
    else (false, 0)
  else if 240 ≤ b && b ≤ 244 then
    if isSecondOfFour b (byte 0) then
      if isContinuation (byte 1) then
        if isContinuation (byte 2) then (true, 3) else (false, 2)
      else (false, 1)
    else (false, 0)
  else (false, 0)

/-- U+FFFD, encoded. -/
def replacement : Bytes := [239, 191, 189]

/-- Convert at most `fuel` chunks. -/
def lossyLoop : ℕ → Bytes → Bytes
  | 0, _ => []
  | _, [] => []
  | fuel + 1, b :: rest =>
    match chunk b rest with
    | (true, n) => b :: rest.take n ++ lossyLoop fuel (rest.drop n)
    | (false, n) => replacement ++ lossyLoop fuel (rest.drop n)

/-- The text with every ill-formed subpart replaced. -/
def lossy (bs : Bytes) : Bytes :=
  lossyLoop bs.length bs

def isValidLoop : ℕ → Bytes → Bool
  | 0, _ => true
  | _, [] => true
  | fuel + 1, b :: rest =>
    match chunk b rest with
    | (true, n) => isValidLoop fuel (rest.drop n)
    | (false, _) => false

/-- Every chunk is a character. -/
def isValid (bs : Bytes) : Bool :=
  isValidLoop bs.length bs

example : lossy [102, 195, 169, 255, 226, 130, 111] =
    [102, 195, 169, 239, 191, 189, 239, 191, 189, 111] := by decide

/-! ## ASCII bytes pass through -/

theorem chunk_ascii {b : UInt8} (hb : b < 128) (rest : Bytes) :
    chunk b rest = (true, 0) := by
  simp [chunk, hb]

/-- The bytes a chunk takes after a non-ASCII one are not ASCII either. -/
theorem not_ascii_of_mem_chunk {b : UInt8} (hb : ¬ b < 128)
    (rest : Bytes) :
    ∀ c ∈ rest.take (chunk b rest).2, ¬ c < 128 := by
  have hcont : ∀ i, isContinuation (rest.getD i 0) = true →
      ¬ rest.getD i 0 < 128 := by
    intro i h
    simp only [isContinuation, Bool.and_eq_true, decide_eq_true_eq] at h
    exact not_lt.mpr h.1
  have hthree : isSecondOfThree b (rest.getD 0 0) = true →
      ¬ rest.getD 0 0 < 128 := by
    intro h
    simp only [isSecondOfThree] at h
    split_ifs at h
    · simp only [Bool.and_eq_true, decide_eq_true_eq] at h
      exact not_lt.mpr (le_trans (by decide) h.1)
    · simp only [Bool.and_eq_true, decide_eq_true_eq] at h
      exact not_lt.mpr h.1
    · exact hcont 0 h
  have hfour : isSecondOfFour b (rest.getD 0 0) = true →
      ¬ rest.getD 0 0 < 128 := by
    intro h
    simp only [isSecondOfFour] at h
    split_ifs at h
    · simp only [Bool.and_eq_true, decide_eq_true_eq] at h
      exact not_lt.mpr (le_trans (by decide) h.1)
    · simp only [Bool.and_eq_true, decide_eq_true_eq] at h
      exact not_lt.mpr h.1
    · exact hcont 0 h
  -- A byte taken at position `i` was tested there.
  suffices hpos : ∀ i < (chunk b rest).2, ¬ rest.getD i 0 < 128 by
    intro c hc
    obtain ⟨i, hi, rfl⟩ := List.mem_iff_getElem.mp hc
    simp only [List.length_take] at hi
    have hget := hpos i (by omega)
    rw [List.getElem_take]
    rwa [List.getD_eq_getElem?_getD, List.getElem?_eq_getElem (by omega),
      Option.getD_some] at hget
  intro i hi
  simp only [chunk, if_neg hb] at hi
  split_ifs at hi with h₁ h₂ h₃ h₄ h₅ h₆ h₇ h₈ h₉
  all_goals first
    | exact absurd hi (Nat.not_lt_zero i)
    | skip
  · obtain rfl : i = 0 := by omega
    exact hcont 0 h₂
  · obtain rfl | rfl : i = 0 ∨ i = 1 := by omega
    · exact hthree h₄
    · exact hcont 1 h₅
  · obtain rfl : i = 0 := by omega
    exact hthree h₄
  · obtain rfl | rfl | rfl : i = 0 ∨ i = 1 ∨ i = 2 := by omega
    · exact hfour h₇
    · exact hcont 1 h₈
    · exact hcont 2 h₉
  · obtain rfl | rfl : i = 0 ∨ i = 1 := by omega
    · exact hfour h₇
    · exact hcont 1 h₈
  · obtain rfl : i = 0 := by omega
    exact hfour h₇

/-- A pair that cannot start inside a block is found behind it. -/
theorem infix_pair_append
    {x y : UInt8} {block : Bytes} (hx : x ∉ block) (rest : Bytes) :
    [x, y] <:+: block ++ rest ↔ [x, y] <:+: rest := by
  induction block with
  | nil => rfl
  | cons b block ih =>
      obtain ⟨hb, hblock⟩ := not_or.mp (List.mem_cons.not.mp hx)
      rw [List.cons_append, List.infix_cons_iff, ih hblock]
      constructor
      · rintro (hpre | h)
        · exact absurd (List.cons_prefix_cons.mp hpre).1 hb
        · exact h
      · exact Or.inr

theorem not_mem_of_not_ascii
    {x : UInt8} (hx : x < 128) {block : Bytes}
    (hblock : ∀ c ∈ block, ¬ c < 128) : x ∉ block :=
  fun hmem => hblock x hmem hx

/-- What one chunk adds in front of the rest of a lossy conversion. -/
theorem lossyLoop_not_ascii
    {b : UInt8} (hb : ¬ b < 128) (fuel : ℕ) (rest : Bytes) :
    ∃ block, block ≠ [] ∧ (∀ c ∈ block, ¬ c < 128) ∧
      lossyLoop (fuel + 1) (b :: rest) =
        block ++ lossyLoop fuel (rest.drop (chunk b rest).2) := by
  have htake := not_ascii_of_mem_chunk hb rest
  rw [lossyLoop]
  generalize chunk b rest = step at htake
  obtain ⟨valid, n⟩ := step
  cases valid with
  | true =>
      refine ⟨b :: rest.take n, by simp, ?_, rfl⟩
      rintro c (_ | ⟨_, hc⟩)
      · exact hb
      · exact htake c hc
  | false =>
      exact ⟨replacement, by decide, by decide, rfl⟩

theorem lossyLoop_prefix_ascii
    {y : UInt8} (hy : y < 128) {fuel : ℕ} {bs : Bytes}
    (hfuel : bs.length ≤ fuel) :
    [y] <+: lossyLoop fuel bs ↔ [y] <+: bs := by
  cases fuel with
  | zero =>
      obtain rfl : bs = [] := List.length_eq_zero_iff.mp (by omega)
      rfl
  | succ fuel =>
      cases bs with
      | nil => rfl
      | cons b rest =>
          by_cases hb : b < 128
          · simp [lossyLoop, chunk_ascii hb, List.cons_prefix_cons]
          · obtain ⟨block, hne, hblock, heq⟩ :=
              lossyLoop_not_ascii hb fuel rest
            obtain ⟨c, block, rfl⟩ := List.exists_cons_of_ne_nil hne
            have hc := hblock c (by simp)
            rw [heq, List.cons_append, List.cons_prefix_cons,
              List.cons_prefix_cons]
            constructor
            · rintro ⟨rfl, -⟩
              exact absurd hy hc
            · rintro ⟨rfl, -⟩
              exact absurd hy hb

theorem infix_lossyLoop_iff
    {x y : UInt8} (hx : x < 128) (hy : y < 128)
    {fuel : ℕ} {bs : Bytes} (hfuel : bs.length ≤ fuel) :
    [x, y] <:+: lossyLoop fuel bs ↔ [x, y] <:+: bs := by
  induction fuel generalizing bs with
  | zero =>
      obtain rfl : bs = [] := List.length_eq_zero_iff.mp (by omega)
      rfl
  | succ fuel ih =>
      cases bs with
      | nil => rfl
      | cons b rest =>
          simp only [List.length_cons] at hfuel
          by_cases hb : b < 128
          · have hstep : lossyLoop (fuel + 1) (b :: rest) =
                b :: lossyLoop fuel rest := by
              simp [lossyLoop, chunk_ascii hb]
            rw [hstep, List.infix_cons_iff, List.infix_cons_iff,
              List.cons_prefix_cons, List.cons_prefix_cons,
              lossyLoop_prefix_ascii hy (by omega), ih (by omega)]
          · obtain ⟨block, -, hblock, heq⟩ :=
              lossyLoop_not_ascii hb fuel rest
            have hsplit : b :: rest = (b :: rest.take (chunk b rest).2) ++
                rest.drop (chunk b rest).2 := by simp
            have htaken : ∀ c ∈ b :: rest.take (chunk b rest).2,
                ¬ c < 128 := by
              rintro c (_ | ⟨_, hc⟩)
              · exact hb
              · exact not_ascii_of_mem_chunk hb rest c hc
            rw [heq, infix_pair_append (not_mem_of_not_ascii hx hblock),
              ih (by simp only [List.length_drop]; omega), hsplit,
              infix_pair_append (not_mem_of_not_ascii hx htaken)]

/-- Two adjacent ASCII bytes stay adjacent, and no new ones appear. -/
theorem infix_lossy_iff
    {x y : UInt8} (hx : x < 128) (hy : y < 128) (bs : Bytes) :
    [x, y] <:+: lossy bs ↔ [x, y] <:+: bs :=
  infix_lossyLoop_iff hx hy le_rfl

/-- ASCII text is valid. -/
theorem isValid_of_ascii {bs : Bytes} (h : ∀ b ∈ bs, b < 128) :
    isValid bs = true := by
  rw [isValid]
  induction bs with
  | nil => rfl
  | cons b bs ih =>
      obtain ⟨hb, hbs⟩ := List.forall_mem_cons.mp h
      simp [isValidLoop, chunk_ascii hb, ih hbs]

end Utf8
