import Lsmrs.Sstable.Calls
import Lsmrs.Sstable.Reopening
import Lsmrs.Sstable.Writes

/-!
# Files that failed compactions leave behind

Files that are in no list may overlap the listed tables in any way.  A
reopening keeps those that no other file contains.  It reads as the live set
does just if every value of a deleted key that it keeps is under a later
entry.
-/

namespace Lsmrs

open ByteString OrderedMap Layers

variable {F : TableFormat} {EntryOk : Entry → Prop}

/-! ## The files a reopening keeps -/

/-- No other file contains this one. -/
def Maximal (files : Segment EntryOk → Prop) (d : Segment EntryOk) : Prop :=
  ∀ d', files d' → d.span.Within d'.span → d'.span = d.span

/-- A set opened on the files finds an entry of the key in this one. -/
structure Mentions (files : Segment EntryOk → Prop) (k : Bytes)
    (d : Segment EntryOk) : Prop where
  mem : files d
  maximal : Maximal files d
  found : d.layer k ≠ none

/-- Every value that is found is under a later entry. -/
def Hidden (files : Segment EntryOk → Prop) (k : Bytes) : Prop :=
  ∀ f, Mentions files k f → (f.layer k).join ≠ none →
    ∃ g, Mentions files k g ∧ f.span.last < g.span.last

theorem Hidden.congr {files files' : Segment EntryOk → Prop} {k : Bytes}
    (hiff : ∀ d, Mentions files k d ↔ Mentions files' k d) :
    Hidden files k ↔ Hidden files' k := by
  unfold Hidden
  simp only [hiff]

section Kept

variable {all kept : List (Segment EntryOk)} {dir : Dir F} {k : Bytes}
  {d : Segment EntryOk}

theorem exists_maximal (hd : d ∈ all) :
    ∃ d' ∈ all, d.span.Within d'.span ∧ Maximal (· ∈ all) d' := by
  -- Wider and wider spans come to an end.
  induction hn : u64Max - (d.span.last - d.span.first) using
    Nat.strong_induction_on generalizing d with
  | _ n ih =>
      by_cases hmax : Maximal (· ∈ all) d
      · exact ⟨d, hd, ⟨le_rfl, le_rfl⟩, hmax⟩
      · unfold Maximal at hmax
        push Not at hmax
        obtain ⟨d', hd', ⟨hlow, hhigh⟩, hne⟩ := hmax
        have hbounded := d'.bounded
        have hordered := d.ordered
        have hwider : u64Max - (d'.span.last - d'.span.first) < n := by
          have hstrict : d'.span.first < d.span.first ∨
              d.span.last < d'.span.last := by
            by_contra hnot
            push Not at hnot
            apply hne
            cases hs : d.span
            cases hs' : d'.span
            simp only [hs, hs'] at hlow hhigh hnot
            congr 1 <;> omega
          omega
        obtain ⟨top, htop, ⟨hlow', hhigh'⟩, hmax'⟩ := ih _ hwider hd' rfl
        exact ⟨top, htop, ⟨hlow'.trans hlow, hhigh.trans hhigh'⟩, hmax'⟩

/-- The maximal segments, in order. -/
theorem exists_kept (hdistinct : (all.map Segment.span).Nodup) :
    ∃ kept : List (Segment EntryOk), (∀ d ∈ kept, d ∈ all) ∧
      Staircase kept ∧ ∀ d ∈ all, ∃ d' ∈ kept, d.span.Within d'.span := by
  classical
  let byFirst := fun a b : Segment EntryOk => a.span.first ≤ b.span.first
  have : Std.Total byFirst :=
    ⟨fun a b => le_total a.span.first b.span.first⟩
  have : IsTrans (Segment EntryOk) byFirst := ⟨fun _ _ _ => le_trans⟩
  let kept := (all.filter fun d => Maximal (· ∈ all) d).insertionSort byFirst
  have hperm : kept.Perm (all.filter fun d => Maximal (· ∈ all) d) :=
    List.perm_insertionSort _ _
  have hmem : ∀ d ∈ kept, d ∈ all ∧ Maximal (· ∈ all) d := by
    intro d hd
    obtain ⟨hall, hmax⟩ := List.mem_filter.mp (hperm.mem_iff.mp hd)
    exact ⟨hall, of_decide_eq_true hmax⟩
  refine ⟨kept, fun d hd => (hmem d hd).1, ?_, ?_⟩
  · have hsorted : kept.Pairwise byFirst := List.pairwise_insertionSort _ _
    have hnodup : (kept.map Segment.span).Nodup :=
      (hperm.map Segment.span).nodup_iff.mpr
        (hdistinct.sublist (List.filter_sublist.map _))
    have hne : kept.Pairwise fun a b => a.span ≠ b.span :=
      List.pairwise_map.mp hnodup
    refine (hsorted.and hne).imp_of_mem ?_
    intro a b ha hb hab
    obtain ⟨hle, hne⟩ := hab
    obtain ⟨hall, hmax⟩ := hmem a ha
    obtain ⟨hall', hmax'⟩ := hmem b hb
    have hfirst : a.span.first ≤ b.span.first := hle
    constructor
    · by_contra hlt
      have heq : a.span.first = b.span.first := by omega
      rcases le_total a.span.last b.span.last with hlast | hlast
      · exact hne (hmax b hall' ⟨heq.ge, hlast⟩).symm
      · exact hne (hmax' a hall ⟨heq.le, hlast⟩)
    · by_contra hlt
      exact hne (hmax' a hall ⟨hfirst, not_lt.mp hlt⟩)
  · intro d hd
    obtain ⟨top, htop, hwithin, hmax⟩ := exists_maximal hd
    exact ⟨top, hperm.mem_iff.mpr
      (List.mem_filter.mpr ⟨htop, decide_eq_true hmax⟩), hwithin⟩

/-- The kept files are the maximal ones. -/
theorem mem_kept_iff (h : Shows dir all kept)
    (hdistinct : (all.map Segment.span).Nodup) :
    d ∈ kept ↔ d ∈ all ∧ Maximal (· ∈ all) d := by
  constructor
  · intro hd
    exact ⟨h.subset d hd, fun d' hd' => h.eq_of_within hd hd'⟩
  · rintro ⟨hd, hmax⟩
    obtain ⟨d', hd', hwithin⟩ := h.covered d hd
    have hspan := hmax d' (h.subset d' hd') hwithin
    obtain rfl := List.inj_on_of_nodup_map hdistinct (h.subset d' hd') hd
      hspan
    exact hd'

theorem mentions_iff (h : Shows dir all kept)
    (hdistinct : (all.map Segment.span).Nodup) :
    Mentions (· ∈ all) k d ↔ d ∈ kept ∧ d.layer k ≠ none := by
  rw [mem_kept_iff h hdistinct]
  exact ⟨fun hd => ⟨⟨hd.mem, hd.maximal⟩, hd.found⟩,
    fun hd => ⟨hd.1.1, hd.1.2, hd.2⟩⟩

/-- The kept files show no value of a key just if its values are hidden. -/
theorem shown_eq_none_iff (h : Shows dir all kept)
    (hdistinct : (all.map Segment.span).Nodup) :
    shown kept k = none ↔ Hidden (· ∈ all) k := by
  rw [shown, tells, visible_stack_eq_none_iff]
  constructor
  · intro hunder f hf hvalue
    obtain ⟨old, new, hsplit⟩ :=
      List.append_of_mem ((mentions_iff h hdistinct).mp hf).1
    obtain ⟨l, hl, hne⟩ := hunder (old.map Segment.layer) f.layer
      (new.map Segment.layer) (by rw [hsplit]; simp) hvalue
    obtain ⟨g, hg, rfl⟩ := List.mem_map.mp hl
    have hstairs := h.staircase
    rw [hsplit] at hstairs
    have hlater := (List.pairwise_cons.mp
      (List.pairwise_append.mp hstairs).2.1).1 g hg
    have hkept : g ∈ kept := by
      rw [hsplit]
      simp [hg]
    exact ⟨g, (mentions_iff h hdistinct).mpr ⟨hkept, hne⟩, hlater.2⟩
  · intro hhidden old l new hsplit hvalue
    obtain ⟨older, rest, hkept, -, hrest⟩ := List.map_eq_append_iff.mp hsplit
    obtain ⟨f, newer, rfl, rfl, rfl⟩ := List.map_eq_cons_iff.mp hrest
    have hfound : f.layer k ≠ none := by
      intro hnone
      rw [hnone] at hvalue
      exact hvalue rfl
    obtain ⟨g, hg, hlater⟩ := hhidden f ((mentions_iff h hdistinct).mpr
      ⟨by rw [hkept]; simp, hfound⟩) hvalue
    obtain ⟨hg, hne⟩ := (mentions_iff h hdistinct).mp hg
    refine ⟨g.layer, List.mem_map_of_mem ?_, hne⟩
    have hstairs := h.staircase
    rw [hkept] at hg hstairs
    rcases List.mem_append.mp hg with hg | hg
    · have hbefore := (List.pairwise_append.mp hstairs).2.2 g hg f
        List.mem_cons_self
      omega
    · rcases List.mem_cons.mp hg with rfl | hg
      · exact absurd hlater (lt_irrefl _)
      · exact hg

end Kept

/-! ## Stores over writes -/

/-- What files on disk say is what was written, but for deletions that those
from number `oldest` or before may have dropped. -/
structure Recorded (hist : List (Layer Bytes Bytes)) (oldest : ℕ)
    (all : List (Segment EntryOk)) : Prop where
  below : ∀ d ∈ all, d.span.last < hist.length
  recounts : ∀ d ∈ all, Recounts hist d
  full : ∀ d ∈ all, oldest < d.span.first → Full hist d

/-- The list of tables follows the writes from number `oldest` on, and
nothing is alive that was written before. -/
structure Sound (hist : List (Layer Bytes Bytes)) (oldest : ℕ)
    (s : Store F) (segs all : List (Segment EntryOk)) : Prop
    extends Recorded hist oldest all where
  described : List.Forall₂ Described s.set.sstables segs
  next : s.set.nextSeq = hist.length
  next_le : s.set.nextSeq ≤ u64Max
  contiguous : Contiguous segs oldest hist.length
  files : Files s.dir all
  distinct : (all.map Segment.span).Nodup
  listed : ∀ d ∈ segs, d ∈ all
  gone : ∀ k, (written hist 0 oldest k).join = none

/-- The last write to the key is in the segment's span. -/
def Top (hist : List (Layer Bytes Bytes)) (k : Bytes)
    (d : Segment EntryOk) : Prop :=
  d.wrote hist k ≠ none ∧
    written hist (d.span.last + 1) hist.length k = none

/-- No value of a deleted key would be found. -/
def DeletionsHold (hist : List (Layer Bytes Bytes))
    (all : List (Segment EntryOk)) : Prop :=
  ∀ k, written hist 0 hist.length k = some none → Hidden (· ∈ all) k

section Reading

variable {hist : List (Layer Bytes Bytes)} {oldest : ℕ} {s : Store F}
  {segs all kept : List (Segment EntryOk)} {k : Bytes}
  {d f g : Segment EntryOk}

/-- A segment over the last write says what all writes say. -/
theorem Top.wrote_eq (h : Top hist k g) (hbelow : g.span.last < hist.length) :
    g.wrote hist k = written hist 0 hist.length k := by
  have hordered := g.ordered
  have hfirst : written hist g.span.first hist.length k = g.wrote hist k := by
    rw [written_split (show g.span.first ≤ g.span.last + 1 by omega) hbelow,
      h.2, Option.none_or]
    rfl
  obtain ⟨e, he⟩ := Option.ne_none_iff_exists'.mp h.1
  rw [written_split (Nat.zero_le _)
    (show g.span.first ≤ hist.length by omega), hfirst, he]
  rfl

/-- A segment that ends no earlier is over the last write as well, or says
nothing of the key. -/
theorem Top.of_le (h : Top hist k g) (hlast : g.span.last ≤ d.span.last)
    (hbelow : d.span.last < hist.length) (hd : d.wrote hist k ≠ none) :
    Top hist k d :=
  ⟨hd, written_none_of_le h.2 (by omega) hbelow⟩

theorem Segment.wrote_of_join_ne_none (hd : Recounts hist d)
    (h : (d.layer k).join ≠ none) : (d.wrote hist k).join ≠ none := by
  rcases hd k with heq | ⟨hnone, -⟩
  · rwa [← heq]
  · rw [hnone] at h
    exact absurd rfl h

/-- A value of a deleted key is older than the deletion. -/
theorem Top.last_lt (h : Top hist k g)
    (hdead : written hist 0 hist.length k = some none)
    (hf : f.span.last < hist.length) (hrec : Recounts hist f)
    (hvalue : (f.layer k).join ≠ none) : f.span.last < g.span.last := by
  by_contra hnot
  have hwrote := Segment.wrote_of_join_ne_none hrec hvalue
  have hne : f.wrote hist k ≠ none := by
    intro hnone
    rw [hnone] at hwrote
    exact hwrote rfl
  have heq := (h.of_le (not_lt.mp hnot) hf hne).wrote_eq hf
  rw [heq, hdead] at hwrote
  exact hwrote rfl

/-- What contains a segment over the last write is over it as well. -/
theorem Top.of_within (h : Top hist k g) (hwithin : g.span.Within d.span)
    (hbelow : d.span.last < hist.length) : Top hist k d := by
  obtain ⟨hlow, hhigh⟩ := hwithin
  refine h.of_le hhigh hbelow ?_
  have hordered := g.ordered
  obtain ⟨e, he⟩ := Option.ne_none_iff_exists'.mp h.1
  have hlater : written hist (g.span.last + 1) (d.span.last + 1) k =
      none := by
    have hnone := h.2
    rw [written_split (show g.span.last + 1 ≤ d.span.last + 1 by omega)
      hbelow, Option.or_eq_none_iff] at hnone
    exact hnone.2
  have hearlier : written hist d.span.first (g.span.last + 1) k =
      some e := by
    rw [written_split hlow (show g.span.first ≤ g.span.last + 1 by omega)]
    change (g.wrote hist k).or _ = some e
    rw [he]
    rfl
  rw [Segment.wrote, written_split
    (show d.span.first ≤ g.span.last + 1 by omega)
    (show g.span.last + 1 ≤ d.span.last + 1 by omega), hlater, hearlier]
  simp

/-- Where nothing was written, segments say nothing. -/
theorem Recounts.layer_eq_none {a b : ℕ} (hd : Recounts hist d)
    (h : written hist a b k = none) (ha : a ≤ d.span.first)
    (hb : d.span.last < b) : d.layer k = none := by
  have hordered := d.ordered
  have hwrote : d.wrote hist k = none := by
    rw [written_split (show a ≤ d.span.last + 1 by omega) hb,
      Option.or_eq_none_iff, written_split ha
        (show d.span.first ≤ d.span.last + 1 by omega),
      Option.or_eq_none_iff] at h
    exact h.2.1
  rcases hd k with heq | ⟨hnone, -⟩
  · rw [heq, hwrote]
  · exact hnone

theorem Recorded.mono {all' : List (Segment EntryOk)}
    (h : Recorded hist oldest all) (hsub : ∀ d ∈ all', d ∈ all) :
    Recorded hist oldest all' where
  below := fun d hd => h.below d (hsub d hd)
  recounts := fun d hd => h.recounts d (hsub d hd)
  full := fun d hd => h.full d (hsub d hd)

namespace Sound

/-- The live set reads as the writes. -/
theorem shown_eq (h : Sound hist oldest s segs all) (k : Bytes) :
    shown segs k = (written hist 0 hist.length k).join := by
  have hjoin : (tells segs k).join =
      (written hist oldest hist.length k).join := by
    rcases h.contiguous.tells_cases (fun d hd => h.recounts d (h.listed d hd))
      (fun d hd => h.full d (h.listed d hd)) k with
        heq | ⟨hnone, hdead, -⟩
    · rw [heq]
    · rw [hnone, hdead]
      rfl
  rw [shown, visible, hjoin, written_split (Nat.zero_le oldest)
    h.contiguous.le, join_or_of_join_eq_none (h.gone k)]

theorem get_eq (h : Sound hist oldest s segs all) (k : Bytes) :
    s.set.get k = .ok (written hist 0 hist.length k).join := by
  rw [SSTableSet.get_eq h.described, h.shown_eq]

/-- A kept file over the last write to a key decides, if it says so. -/
theorem shown_of_top (h : Sound hist oldest s segs all)
    (hshows : Shows s.dir all kept) (hg : g ∈ kept) (htop : Top hist k g)
    {e : Option Bytes} (hlayer : g.layer k = some e) :
    shown kept k = (written hist 0 hist.length k).join := by
  have hsubset := hshows.subset
  have hbelow := h.below g (hsubset g hg)
  have he := (h.recounts g (hsubset g hg)).wrote_eq hlayer
  obtain ⟨old, new, rfl⟩ := List.append_of_mem hg
  have hnew : ∀ d ∈ new, d.layer k = none ∨ d.layer k = some e := by
    intro d hd
    have hmem : d ∈ old ++ g :: new := by simp [hd]
    have hstairs := (List.pairwise_cons.mp
      (List.pairwise_append.mp hshows.staircase).2.1).1 d hd
    by_contra hnot
    push Not at hnot
    obtain ⟨e', he'⟩ := Option.ne_none_iff_exists'.mp hnot.1
    have hwrote := (h.recounts d (hsubset d hmem)).wrote_eq he'
    have htop' := htop.of_le hstairs.2.le (h.below d (hsubset d hmem))
      (by rw [hwrote]; simp)
    have hsame := (htop'.wrote_eq (h.below d (hsubset d hmem))).trans
      (htop.wrote_eq hbelow).symm
    rw [hwrote, he] at hsame
    exact hnot.2 (by rw [he', hsame])
  have hstack : tells (old ++ g :: new) k = some e := by
    rw [tells, List.map_append, List.map_cons]
    refine stack_eq_of_agree hlayer ?_
    intro l hl
    obtain ⟨d, hd, rfl⟩ := List.mem_map.mp hl
    exact hnew d hd
  rw [shown, visible, hstack, ← htop.wrote_eq hbelow, he]

/-- The files a reopening keeps show what the live set shows. -/
theorem shown_kept (h : Sound hist oldest s segs all)
    (hdeletions : DeletionsHold hist all) (hshows : Shows s.dir all kept)
    (k : Bytes) : shown kept k = (written hist 0 hist.length k).join := by
  have hsubset := hshows.subset
  rcases hwritten : written hist 0 hist.length k with _ | _ | value
  · -- The key was never written.
    refine (shown_eq_none_iff hshows h.distinct).mpr fun f hf hvalue => ?_
    exact absurd ((h.recounts f hf.mem).layer_eq_none hwritten
      (Nat.zero_le _) (h.below f hf.mem)) hf.found
  · exact (shown_eq_none_iff hshows h.distinct).mpr (hdeletions k hwritten)
  · have hlive : written hist oldest hist.length k = some (some value) := by
      have hgone := h.gone k
      rw [written_split (Nat.zero_le oldest) h.contiguous.le,
        Option.or_eq_some_iff] at hwritten
      rcases hwritten with hlive | ⟨-, hold⟩
      · exact hlive
      · rw [hold] at hgone
        cases hgone
    obtain ⟨d, hd, hlater, hwrote⟩ := h.contiguous.exists_top hlive
    obtain ⟨g, hg, hwithin⟩ := hshows.covered d (h.listed d hd)
    have hbelow := h.below g (hsubset g hg)
    have htop : Top hist k g := Top.of_within (g := d)
      ⟨by rw [hwrote]; simp, hlater⟩ hwithin hbelow
    have hgwrote := (htop.wrote_eq hbelow).trans hwritten
    rw [← hwritten]
    rcases h.recounts g (hsubset g hg) k with heq | ⟨-, hdead⟩
    · exact h.shown_of_top hshows hg htop (heq.trans hgwrote)
    · rw [hgwrote] at hdead
      cases hdead

/-- Any reopening works, and reads the files that are kept. -/
theorem exists_reopened (h : Sound hist oldest s segs all) :
    ∃ kept, Shows s.dir all kept ∧ ∀ {listing : List Bytes},
      listing.Perm s.dir.keys → ∀ (dirPath : Bytes) (bitsPerKey : ℕ),
        ∃ set dir, SSTableSet.open dirPath bitsPerKey listing s.dir =
          (.ok set, dir) ∧ ∀ k, set.get k = .ok (shown kept k) := by
  obtain ⟨kept, hsubset, hstairs, hcovers⟩ := exists_kept h.distinct
  have hshows : Shows s.dir all kept := ⟨h.files, hsubset, hstairs, hcovers⟩
  have hseq : ∀ d ∈ all, d.span.last < u64Max := by
    intro d hd
    have hbelow := h.below d hd
    rw [← h.next] at hbelow
    exact hbelow.trans_le h.next_le
  refine ⟨kept, hshows, ?_⟩
  intro listing hperm dirPath bitsPerKey
  obtain ⟨set, hopen, hdescribed, -⟩ :=
    SSTableSet.open_eq hshows hperm hseq dirPath bitsPerKey
  exact ⟨set, _, hopen, SSTableSet.get_eq hdescribed⟩

/-- A reopened set reads as the live one just if no value of a deleted key
would be found. -/
theorem reopensSame_iff (h : Sound hist oldest s segs all) :
    s.ReopensSame ↔ DeletionsHold hist all := by
  obtain ⟨kept, hshows, hopens⟩ := h.exists_reopened
  constructor
  · intro hsame k hdead
    obtain ⟨set, dir, hopen, hget⟩ :=
      hopens (List.Perm.refl s.dir.keys) s.set.dirPath s.set.bitsPerKey
    obtain ⟨set', dir', hopen', hget'⟩ :=
      hsame _ (List.Perm.refl s.dir.keys) s.set.dirPath s.set.bitsPerKey
    rw [hopen] at hopen'
    obtain rfl : set = set' := by
      simpa using congrArg Prod.fst hopen'
    have hshown := (hget k).symm.trans ((hget' k).trans (h.get_eq k))
    rw [hdead] at hshown
    exact (shown_eq_none_iff hshows h.distinct).mp (Except.ok.inj hshown)
  · intro hdeletions listing hperm dirPath bitsPerKey
    obtain ⟨set, dir, hopen, hget⟩ := hopens hperm dirPath bitsPerKey
    refine ⟨set, dir, hopen, fun k => ?_⟩
    rw [hget, h.shown_kept hdeletions hshows, h.get_eq]

end Sound

end Reading

end Lsmrs
