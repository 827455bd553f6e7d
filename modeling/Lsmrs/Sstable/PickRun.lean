import Lsmrs.Support.GreedyRanges
import Mathlib.Algebra.Order.Field.Rat
import Mathlib.Data.Rat.Cast.Order
import Mathlib.Order.Bounds.Basic
import Mathlib.Tactic

/-!
# Choosing a run to compact

`SSTableSet::pick_run` on the sizes of the tables.  It cuts the list from the
left into the longest ranges whose sizes are within the ratio and returns the
first of them that is long enough.  A longer range that starts inside one of
them is passed over.
-/

namespace Lsmrs

open GreedyRanges

/-! ## The loops -/

/-- `sizes[start..stop]`. -/
def window (sizes : List ℕ) (start stop : ℕ) : List ℕ :=
  (sizes.drop start).take (stop - start)

/-- The test of the inner loop.  `tooFar` compares the smallest size with the
largest one, as `largest > smallest * size_ratio` does. -/
def spreads (tooFar : ℕ → ℕ → Bool) (sizes : List ℕ) (start stop : ℕ) :
    Bool :=
  tooFar ((window sizes start stop).min?.getD 0)
    ((window sizes start stop).max?.getD 0)

/-- The inner loop: where the range from `start` ends. -/
def runEnd (tooFar : ℕ → ℕ → Bool) (sizes : List ℕ) (start : ℕ) :
    ℕ → ℕ → ℕ
  | 0, stop => stop
  | turns + 1, stop =>
    if stop < sizes.length then
      if spreads tooFar sizes start (stop + 1) then stop
      else runEnd tooFar sizes start turns (stop + 1)
    else stop

/-- The outer loop. -/
def pickFrom (tooFar : ℕ → ℕ → Bool) (minRun : ℕ) (sizes : List ℕ) :
    ℕ → ℕ → Option (ℕ × ℕ)
  | 0, _ => none
  | turns + 1, start =>
    if start < sizes.length then
      let stop := runEnd tooFar sizes start sizes.length (start + 1)
      if minRun ≤ stop - start then some (start, stop - start)
      else
        pickFrom tooFar minRun sizes turns
          (if start + 1 < stop then stop else start + 1)
    else none

/-- `SSTableSet::pick_run` on the sizes of the listed tables.  Every turn
moves on, so the number of tables is enough turns. -/
def pickRun (tooFar : ℕ → ℕ → Bool) (minRun : ℕ) (sizes : List ℕ) :
    Option (ℕ × ℕ) :=
  pickFrom tooFar minRun sizes sizes.length 0

/-! ## What the loops find -/

section Loops

variable {tooFar : ℕ → ℕ → Bool} {minRun : ℕ} {sizes : List ℕ}
  {start stop : ℕ}

/-- The range passes the test of the inner loop. -/
def Fits (tooFar : ℕ → ℕ → Bool) (sizes : List ℕ) (start stop : ℕ) : Prop :=
  spreads tooFar sizes start stop = false

/-- The ranges the outer loop looks at. -/
abbrev Group (tooFar : ℕ → ℕ → Bool) (sizes : List ℕ) (start stop : ℕ) :
    Prop :=
  Longest (Fits tooFar sizes) sizes.length start stop

abbrev StartsGroup (tooFar : ℕ → ℕ → Bool) (sizes : List ℕ) (start : ℕ) :
    Prop :=
  GroupStart (Fits tooFar sizes) sizes.length start

theorem runEnd_group_of {turns : ℕ} (hlt : start < stop)
    (hle : stop ≤ sizes.length) (hturns : sizes.length - stop ≤ turns)
    (hinside : ∀ j, start + 1 < j → j ≤ stop → Fits tooFar sizes start j) :
    Group tooFar sizes start (runEnd tooFar sizes start turns stop) := by
  induction turns generalizing stop with
  | zero =>
      have hend : stop = sizes.length := by omega
      exact ⟨hlt, hle, hinside, Or.inl hend⟩
  | succ turns ih =>
      rw [runEnd]
      by_cases hmore : stop < sizes.length
      · rw [if_pos hmore]
        by_cases hspreads : spreads tooFar sizes start (stop + 1) = true
        · rw [if_pos hspreads]
          exact ⟨hlt, hle, hinside,
            Or.inr fun hfits => Bool.eq_false_iff.mp hfits hspreads⟩
        · rw [if_neg hspreads]
          refine ih (hlt.trans (Nat.lt_succ_self _)) hmore (by omega) ?_
          intro j hj hj'
          rcases Nat.lt_or_eq_of_le hj' with hj' | rfl
          · exact hinside j hj (Nat.le_of_lt_succ hj')
          · exact Bool.eq_false_iff.mpr hspreads
      · rw [if_neg hmore]
        exact ⟨hlt, hle, hinside, Or.inl (by omega)⟩

/-- The inner loop stops at the end of the longest range. -/
theorem runEnd_group (hstart : start < sizes.length) :
    Group tooFar sizes start
      (runEnd tooFar sizes start sizes.length (start + 1)) :=
  runEnd_group_of (Nat.lt_succ_self _) hstart (Nat.sub_le _ _)
    fun _ hj hj' => absurd hj (not_lt.mpr hj')

/-- One turn of the outer loop, at the range that starts there. -/
theorem pickFrom_turn (hgroup : Group tooFar sizes start stop) (turns : ℕ) :
    pickFrom tooFar minRun sizes (turns + 1) start =
      if minRun ≤ stop - start then some (start, stop - start)
      else pickFrom tooFar minRun sizes turns stop := by
  have hstart : start < sizes.length := hgroup.lt.trans_le hgroup.le
  have hstop : runEnd tooFar sizes start sizes.length (start + 1) = stop :=
    (runEnd_group hstart).unique hgroup
  have hnext : (if start + 1 < stop then stop else start + 1) = stop := by
    have hlt := hgroup.lt
    split_ifs with hlong
    · rfl
    · omega
  rw [pickFrom, if_pos hstart]
  dsimp only
  rw [hstop, hnext]

/-- What is picked is a group that is long enough. -/
theorem group_of_pickFrom {turns count picked : ℕ}
    (hstart : StartsGroup tooFar sizes start)
    (h : pickFrom tooFar minRun sizes turns start = some (picked, count)) :
    StartsGroup tooFar sizes picked ∧
      Group tooFar sizes picked (picked + count) ∧ minRun ≤ count := by
  induction turns generalizing start with
  | zero => cases h
  | succ turns ih =>
      by_cases hmore : start < sizes.length
      · have hgroup : Group tooFar sizes start
            (runEnd tooFar sizes start sizes.length (start + 1)) :=
          runEnd_group hmore
        rw [pickFrom_turn hgroup] at h
        split_ifs at h with hmin
        · obtain ⟨rfl, rfl⟩ := Prod.mk.inj (Option.some.inj h)
          refine ⟨hstart, ?_, hmin⟩
          rwa [Nat.add_sub_cancel' hgroup.lt.le]
        · exact ih (hstart.next hgroup) h
      · rw [pickFrom, if_neg hmore] at h
        cases h

/-- Nothing behind the first group that is long enough is picked. -/
theorem pickFrom_le_of_group {turns later last : ℕ}
    (hturns : sizes.length - start ≤ turns)
    (hstart : StartsGroup tooFar sizes start)
    (hlater : StartsGroup tooFar sizes later)
    (hgroup : Group tooFar sizes later last)
    (hmin : minRun ≤ last - later) (hle : start ≤ later) :
    ∃ picked count,
      pickFrom tooFar minRun sizes turns start = some (picked, count) ∧
        picked ≤ later := by
  have hlast : later < sizes.length := hgroup.lt.trans_le hgroup.le
  induction turns generalizing start with
  | zero => omega
  | succ turns ih =>
      have hmore : start < sizes.length := hle.trans_lt hlast
      have hfirst : Group tooFar sizes start
          (runEnd tooFar sizes start sizes.length (start + 1)) :=
        runEnd_group hmore
      generalize runEnd tooFar sizes start sizes.length (start + 1) = stop
        at hfirst
      rw [pickFrom_turn hfirst]
      split_ifs with hfound
      · exact ⟨start, stop - start, rfl, hle⟩
      · have hlt : start < later := by
          refine lt_of_le_of_ne hle ?_
          rintro rfl
          rw [hfirst.unique hgroup] at hfound
          exact hfound hmin
        have hfirst_lt := hfirst.lt
        exact ih (by omega) (hstart.next hfirst)
          (hstart.stop_le hfirst hlater hlt)

theorem startsGroup_zero : StartsGroup tooFar sizes 0 :=
  Relation.ReflTransGen.refl

/-- What `pick_run` returns lies in the list and has enough tables. -/
theorem pickRun_bounds {count : ℕ}
    (h : pickRun tooFar minRun sizes = some (start, count)) :
    0 < count ∧ minRun ≤ count ∧ start + count ≤ sizes.length := by
  obtain ⟨-, hgroup, hmin⟩ := group_of_pickFrom startsGroup_zero h
  have hlt := hgroup.lt
  exact ⟨by omega, hmin, hgroup.le⟩

/-- Sizes that are all equal make one run. -/
theorem pickRun_replicate {size count : ℕ} (hclose : tooFar size size = false)
    (hpos : 0 < count) (hmin : minRun ≤ count) :
    pickRun tooFar minRun (List.replicate count size) = some (0, count) := by
  have hfits : ∀ stop, 0 < stop →
      Fits tooFar (List.replicate count size) 0 stop := by
    intro stop hstop
    have hwindow : window (List.replicate count size) 0 stop =
        List.replicate (min stop count) size := by
      simp [window, List.take_replicate]
    have hne : min stop count ≠ 0 := by omega
    rw [Fits, spreads, hwindow, List.min?_replicate, List.max?_replicate,
      if_neg hne]
    exact hclose
  have hgroup : Group tooFar (List.replicate count size) 0 count :=
    ⟨hpos, List.length_replicate.ge, fun stop hlt _ => hfits stop (by omega),
      Or.inl List.length_replicate.symm⟩
  have hturn : pickFrom tooFar minRun (List.replicate count size)
      (count - 1 + 1) 0 = _ := pickFrom_turn hgroup (count - 1)
  rw [Nat.sub_add_cancel hpos, if_pos (show minRun ≤ count - 0 from hmin)]
    at hturn
  rw [pickRun, List.length_replicate]
  exact hturn

end Loops

/-! ## The oldest run

With an exact comparison, the scan finds the oldest range that is worth
merging unless that range starts inside a group.
-/

section Oldest

/-- `largest > smallest * size_ratio`, without rounding. -/
def exceeds (ratio : ℚ) (smallest largest : ℕ) : Bool :=
  decide ((smallest : ℚ) * ratio < largest)

/-- The largest size is at most the ratio times the smallest. -/
def WithinRatio (ratio : ℚ) (sizes : List ℕ) : Prop :=
  ∀ largest ∈ sizes, ∀ smallest ∈ sizes, (largest : ℚ) ≤ ratio * smallest

/-- A range that is worth merging. -/
structure Qualifies (ratio : ℚ) (minRun : ℕ) (sizes : List ℕ)
    (start count : ℕ) : Prop where
  inside : start + count ≤ sizes.length
  enough : minRun ≤ count
  within : WithinRatio ratio (window sizes start (start + count))

/-- Where the ranges that are worth merging start. -/
def worthwhile (ratio : ℚ) (minRun : ℕ) (sizes : List ℕ) : Set ℕ :=
  {start | ∃ count, Qualifies ratio minRun sizes start count}

/-- What `pick_run` should return: a range that is worth merging, as far left
as there is one and as long as it can be, or nothing if there is none. -/
def OldestRun (ratio : ℚ) (minRun : ℕ) (sizes : List ℕ) :
    Option (ℕ × ℕ) → Prop
  | none => ∀ start count, ¬ Qualifies ratio minRun sizes start count
  | some (start, count) =>
    Qualifies ratio minRun sizes start count ∧
      IsLeast (worthwhile ratio minRun sizes) start ∧
      (start + count < sizes.length →
        ¬ WithinRatio ratio (window sizes start (start + count + 1)))

variable {ratio : ℚ} {minRun : ℕ} {sizes : List ℕ} {start stop : ℕ}

theorem WithinRatio.subset {some all : List ℕ} (h : WithinRatio ratio all)
    (hsub : some ⊆ all) : WithinRatio ratio some :=
  fun largest hlargest smallest hsmallest =>
    h largest (hsub hlargest) smallest (hsub hsmallest)

/-- The smallest and the largest size decide about all of them. -/
theorem exceeds_eq_false_iff (hratio : 1 ≤ ratio) (sizes : List ℕ) :
    exceeds ratio (sizes.min?.getD 0) (sizes.max?.getD 0) = false ↔
      WithinRatio ratio sizes := by
  by_cases hne : sizes = []
  · rw [hne]
    refine ⟨fun _ _ hmem => absurd hmem List.not_mem_nil, fun _ => ?_⟩
    simp [exceeds]
  · obtain ⟨smallest, hmin⟩ := Option.ne_none_iff_exists'.mp
      (mt List.min?_eq_none_iff.mp hne)
    obtain ⟨largest, hmax⟩ := Option.ne_none_iff_exists'.mp
      (mt List.max?_eq_none_iff.mp hne)
    rw [hmin, hmax, Option.getD_some, Option.getD_some, exceeds,
      decide_eq_false_iff_not, not_lt]
    obtain ⟨hsmallest, hleast⟩ := List.min?_eq_some_iff.mp hmin
    obtain ⟨hlargest, hgreatest⟩ := List.max?_eq_some_iff.mp hmax
    constructor
    · intro hle x hx y hy
      calc (x : ℚ) ≤ largest := Nat.cast_le.mpr (hgreatest x hx)
        _ ≤ smallest * ratio := hle
        _ = ratio * smallest := mul_comm _ _
        _ ≤ ratio * y :=
            mul_le_mul_of_nonneg_left (Nat.cast_le.mpr (hleast y hy))
              (zero_le_one.trans hratio)
    · intro hwithin
      rw [mul_comm]
      exact hwithin largest hlargest smallest hsmallest

theorem fits_exceeds_iff (hratio : 1 ≤ ratio) :
    Fits (exceeds ratio) sizes start stop ↔
      WithinRatio ratio (window sizes start stop) :=
  exceeds_eq_false_iff hratio _

theorem window_subset {stop' : ℕ} (hle : stop ≤ stop') :
    window sizes start stop ⊆ window sizes start stop' :=
  (List.take_prefix_take_left (Nat.sub_le_sub_right hle start)).subset

/-- One table is within every ratio. -/
theorem withinRatio_window_succ (hratio : 1 ≤ ratio) :
    WithinRatio ratio (window sizes start (start + 1)) := by
  rw [window, Nat.add_sub_cancel_left]
  cases sizes.drop start with
  | nil => exact fun _ hmem => absurd hmem List.not_mem_nil
  | cons size rest =>
      intro largest hlargest smallest hsmallest
      rw [List.mem_singleton.mp hlargest, List.mem_singleton.mp hsmallest]
      exact le_mul_of_one_le_left (Nat.cast_nonneg _) hratio

/-- A range that is worth merging is part of the longest one there. -/
theorem Qualifies.le_stop {count : ℕ} (hratio : 1 ≤ ratio)
    (h : Qualifies ratio minRun sizes start count)
    (hgroup : Group (exceeds ratio) sizes start stop) :
    start + count ≤ stop := by
  by_contra hlt
  rw [not_le] at hlt
  rcases hgroup.maximal with heq | hnot
  · exact absurd h.inside (not_le.mpr (heq ▸ hlt))
  · refine hnot ((fits_exceeds_iff hratio).mpr ?_)
    exact h.within.subset (window_subset hlt)

theorem Group.qualifies {count : ℕ} (hratio : 1 ≤ ratio)
    (hgroup : Group (exceeds ratio) sizes start (start + count))
    (hmin : minRun ≤ count) : Qualifies ratio minRun sizes start count := by
  refine ⟨hgroup.le, hmin, ?_⟩
  have hlt := hgroup.lt
  by_cases hone : count = 1
  · rw [hone]
    exact withinRatio_window_succ hratio
  · exact (fits_exceeds_iff hratio).mp
      (hgroup.inside _ (by omega) le_rfl)

/-- The scan does not go past a group that is worth merging. -/
theorem pickRun_le_of_qualifies {count : ℕ} (hmin : 1 ≤ minRun)
    (hratio : 1 ≤ ratio) (h : Qualifies ratio minRun sizes start count)
    (hstart : StartsGroup (exceeds ratio) sizes start) :
    ∃ picked found,
      pickRun (exceeds ratio) minRun sizes = some (picked, found) ∧
        picked ≤ start := by
  have hinside : start < sizes.length := by
    have hend := h.inside
    have henough := h.enough
    omega
  have hgroup : Group (exceeds ratio) sizes start
      (runEnd (exceeds ratio) sizes start sizes.length (start + 1)) :=
    runEnd_group hinside
  have hle := h.le_stop hratio hgroup
  refine pickFrom_le_of_group (Nat.sub_le _ _) startsGroup_zero hstart
    hgroup ?_ (Nat.zero_le _)
  have henough := h.enough
  omega

/-- If the oldest run worth merging starts a group, the scan gets no further
than that. -/
theorem exists_pick_of_qualifies {count : ℕ} (hmin : 1 ≤ minRun)
    (hratio : 1 ≤ ratio)
    (hstarts : ∀ start, IsLeast (worthwhile ratio minRun sizes) start →
      StartsGroup (exceeds ratio) sizes start)
    (h : Qualifies ratio minRun sizes start count) :
    ∃ least picked found, IsLeast (worthwhile ratio minRun sizes) least ∧
      pickRun (exceeds ratio) minRun sizes = some (picked, found) ∧
      picked ≤ least := by
  obtain ⟨least, hleast⟩ :
      ∃ least, IsLeast (worthwhile ratio minRun sizes) least :=
    ⟨_, isLeast_csInf ⟨start, count, h⟩⟩
  obtain ⟨longest, hlongest⟩ := hleast.1
  obtain ⟨picked, found, hpick, hle⟩ :=
    pickRun_le_of_qualifies hmin hratio hlongest (hstarts least hleast)
  exact ⟨least, picked, found, hleast, hpick, hle⟩

/-- `pick_run` finds the oldest run worth merging exactly when that run
starts one of the groups of the scan. -/
theorem pickRun_oldest_iff (hmin : 1 ≤ minRun) (hratio : 1 ≤ ratio) :
    OldestRun ratio minRun sizes (pickRun (exceeds ratio) minRun sizes) ↔
      ∀ start, IsLeast (worthwhile ratio minRun sizes) start →
        StartsGroup (exceeds ratio) sizes start := by
  constructor
  · rintro holdest start ⟨⟨count, hqualifies⟩, hleast⟩
    generalize hpick : pickRun (exceeds ratio) minRun sizes = result
      at holdest
    cases result with
    | none => exact absurd hqualifies (holdest start count)
    | some run =>
        obtain ⟨hstarts, -, -⟩ := group_of_pickFrom startsGroup_zero hpick
        have heq : run.1 = start :=
          holdest.2.1.unique ⟨⟨count, hqualifies⟩, hleast⟩
        rwa [heq] at hstarts
  · intro hstarts
    cases hpick : pickRun (exceeds ratio) minRun sizes with
    | none =>
        intro start count h
        obtain ⟨_, _, _, _, hsome, _⟩ :=
          exists_pick_of_qualifies hmin hratio hstarts h
        rw [hpick] at hsome
        cases hsome
    | some run =>
        obtain ⟨picked, count⟩ := run
        obtain ⟨-, hgroup, henough⟩ :=
          group_of_pickFrom startsGroup_zero hpick
        have hqualifies := Group.qualifies hratio hgroup henough
        refine ⟨hqualifies, ?_, ?_⟩
        · obtain ⟨least, _, _, hleast, hsome, hle⟩ :=
            exists_pick_of_qualifies hmin hratio hstarts hqualifies
          rw [hpick] at hsome
          obtain ⟨rfl, -⟩ := Prod.mk.inj (Option.some.inj hsome)
          have heq : picked = least :=
            le_antisymm hle (hleast.2 ⟨count, hqualifies⟩)
          rwa [heq]
        · intro hmore hwithin
          rcases hgroup.maximal with hend | hnot
          · omega
          · exact hnot ((fits_exceeds_iff hratio).mpr hwithin)

theorem pickRun_oldest_iff_largeThenSmall :
    pickRun (exceeds (3 / 2)) 3 [9000, 400, 410, 420] = some (1, 3) ∧
      (OldestRun (3 / 2) 3 [9000, 400, 410, 420]
          (pickRun (exceeds (3 / 2)) 3 [9000, 400, 410, 420]) ↔
        ∀ start, IsLeast (worthwhile (3 / 2) 3 [9000, 400, 410, 420]) start →
          StartsGroup (exceeds (3 / 2)) [9000, 400, 410, 420] start) :=
  ⟨by decide +kernel, pickRun_oldest_iff (by decide) (by norm_num)⟩

/-- The last three sizes are worth merging, but the scan groups the first two
and starts again behind them. -/
theorem pickRun_misses_insideGroup :
    ¬ OldestRun (3 / 2) 3 [1000, 1400, 1600, 1700]
      (pickRun (exceeds (3 / 2)) 3 [1000, 1400, 1600, 1700]) := by
  have hnone :
      pickRun (exceeds (3 / 2)) 3 [1000, 1400, 1600, 1700] = none := by
    decide +kernel
  rw [hnone]
  intro hempty
  refine hempty 1 3 ⟨by decide, le_rfl, ?_⟩
  exact (exceeds_eq_false_iff (by norm_num) _).mp (by decide +kernel)

end Oldest

end Lsmrs
