import Lsmrs.Sstable.Compaction

/-!
# What tables keep of the writes

A set of tables stands for the sequence of writes it was given, one for each
sequence number.  A table says of each key what the last write in its span
said, but a table that took in the oldest one may have dropped deletions.
-/

namespace Lsmrs

open ByteString OrderedMap Layers

variable {EntryOk : Entry → Prop}

/-! ## Writes -/

/-- What the writes with numbers from `first` up to `next` say together. -/
def written (hist : List (Layer Bytes Bytes)) (first next : ℕ) :
    Layer Bytes Bytes :=
  stack ((hist.drop first).take (next - first))

section Written

variable {hist : List (Layer Bytes Bytes)} {a b c : ℕ} {k : Bytes}

@[simp] theorem written_self (n : ℕ) : written hist n n k = none := by
  simp [written]

theorem written_split (hab : a ≤ b) (hbc : b ≤ c) :
    written hist a c k = (written hist b c k).or (written hist a b k) := by
  have htake : (hist.drop a).take (c - a) =
      (hist.drop a).take (b - a) ++ (hist.drop b).take (c - b) := by
    have hc : c - a = (b - a) + (c - b) := by omega
    have hb : a + (b - a) = b := by omega
    rw [hc, List.take_add, List.drop_drop, hb]
  rw [written, htake, stack_append]
  rfl

theorem written_append_of_le (hb : b ≤ hist.length)
    (t : Layer Bytes Bytes) :
    written (hist ++ [t]) a b = written hist a b := by
  rcases le_or_gt a b with hab | hab
  · rw [written, written, List.drop_append_of_le_length (hab.trans hb),
      List.take_append_of_le_length]
    rw [List.length_drop]
    omega
  · have hzero : b - a = 0 := by omega
    rw [written, written, hzero]
    rfl

theorem written_last (t : Layer Bytes Bytes) :
    written (hist ++ [t]) hist.length (hist.length + 1) k = t k := by
  have hone : hist.length + 1 - hist.length = 1 := by omega
  rw [written, List.drop_left, hone]
  exact stack_singleton t k

theorem written_concat (ha : a ≤ hist.length) (t : Layer Bytes Bytes) :
    written (hist ++ [t]) a (hist.length + 1) k =
      (t k).or (written hist a hist.length k) := by
  rw [written_split ha (Nat.le_succ _), written_last,
    written_append_of_le le_rfl]

/-- Where all later writes are silent, so are those after a later
number. -/
theorem written_none_of_le (h : written hist a c k = none) (hab : a ≤ b)
    (hbc : b ≤ c) : written hist b c k = none := by
  rw [written_split hab hbc] at h
  exact (Option.or_eq_none_iff.mp h).1

end Written

/-! ## Segments over writes -/

/-- What the writes in a segment's span say. -/
def Segment.wrote (d : Segment EntryOk) (hist : List (Layer Bytes Bytes)) :
    Layer Bytes Bytes :=
  written hist d.span.first (d.span.last + 1)

/-- The segment says what was written in its span. -/
def Full (hist : List (Layer Bytes Bytes)) (d : Segment EntryOk) : Prop :=
  ∀ k, d.layer k = d.wrote hist k

/-- The segment says what was written in its span, or nothing of a key that
was deleted there. -/
def Recounts (hist : List (Layer Bytes Bytes)) (d : Segment EntryOk) :
    Prop :=
  ∀ k, d.layer k = d.wrote hist k ∨
    (d.layer k = none ∧ d.wrote hist k = some none)

/-- Spans that follow each other from `a` up to `c`. -/
def Contiguous : List (Segment EntryOk) → ℕ → ℕ → Prop
  | [], a, c => a = c
  | d :: segs, a, c =>
    d.span.first = a ∧ Contiguous segs (d.span.last + 1) c

section Segments

variable {hist : List (Layer Bytes Bytes)} {segs : List (Segment EntryOk)}
  {a b c : ℕ} {k : Bytes} {d : Segment EntryOk}

theorem Full.recounts (h : Full hist d) : Recounts hist d :=
  fun k => Or.inl (h k)

/-- A value that a segment has was written in its span. -/
theorem Recounts.wrote_eq (h : Recounts hist d) {e : Option Bytes}
    (he : d.layer k = some e) : d.wrote hist k = some e := by
  rcases h k with heq | ⟨hnone, -⟩
  · rw [← heq, he]
  · rw [he] at hnone
    cases hnone

theorem Segment.wrote_append (d : Segment EntryOk)
    (hlast : d.span.last < hist.length) (t : Layer Bytes Bytes) :
    d.wrote (hist ++ [t]) = d.wrote hist :=
  written_append_of_le hlast t

theorem contiguous_append {later : List (Segment EntryOk)} :
    Contiguous (segs ++ later) a c ↔
      ∃ b, Contiguous segs a b ∧ Contiguous later b c := by
  induction segs generalizing a with
  | nil => simp [Contiguous]
  | cons d segs ih =>
      simp only [List.cons_append, Contiguous, ih]
      constructor
      · rintro ⟨hfirst, b, hsegs, hlater⟩
        exact ⟨b, ⟨hfirst, hsegs⟩, hlater⟩
      · rintro ⟨b, ⟨hfirst, hsegs⟩, hlater⟩
        exact ⟨hfirst, b, hsegs, hlater⟩

theorem Contiguous.le (h : Contiguous segs a c) : a ≤ c := by
  induction segs generalizing a with
  | nil => exact le_of_eq h
  | cons d segs ih =>
      have hordered := d.ordered
      have hle := ih h.2
      have hfirst := h.1
      omega

theorem Contiguous.bounds (h : Contiguous segs a c) (hd : d ∈ segs) :
    a ≤ d.span.first ∧ d.span.last < c := by
  induction segs generalizing a with
  | nil => cases hd
  | cons d' segs ih =>
      have hordered := d'.ordered
      have hle := h.2.le
      have hfirst := h.1
      rcases List.mem_cons.mp hd with rfl | hd
      · omega
      · have hbounds := ih h.2 hd
        omega

theorem Contiguous.chain (h : Contiguous segs a c) : Chain segs := by
  induction segs generalizing a with
  | nil => exact List.Pairwise.nil
  | cons d segs ih =>
      refine List.pairwise_cons.mpr ⟨?_, ih h.2⟩
      intro d' hd'
      exact Nat.lt_of_succ_le (h.2.bounds hd').1

/-- Segments that say all that was written say together what the writes
say. -/
theorem Contiguous.tells_eq (h : Contiguous segs a c)
    (hfull : ∀ d ∈ segs, Full hist d) :
    tells segs k = written hist a c k := by
  induction segs generalizing a with
  | nil =>
      obtain rfl : a = c := h
      rw [written_self]
      rfl
  | cons d segs ih =>
      obtain ⟨hd, hsegs⟩ := List.forall_mem_cons.mp hfull
      obtain ⟨rfl, hrest⟩ := h
      have hordered := d.ordered
      have hcons : tells (d :: segs) k = (tells segs k).or (d.layer k) := rfl
      rw [hcons, ih hrest hsegs, hd k, written_split
        (show d.span.first ≤ d.span.last + 1 by omega) hrest.le]
      rfl

/-- If only the first segment drops deletions, the segments together say
what the writes say, or nothing of a deleted key. -/
theorem Contiguous.tells_cases (h : Contiguous segs a c)
    (hrecounts : ∀ d ∈ segs, Recounts hist d)
    (hfull : ∀ d ∈ segs, a < d.span.first → Full hist d) (k : Bytes) :
    tells segs k = written hist a c k ∨
      (tells segs k = none ∧ written hist a c k = some none ∧
        ∃ d segs', segs = d :: segs' ∧ d.layer k = none ∧
          d.wrote hist k = some none ∧
            written hist (d.span.last + 1) c k = none) := by
  cases segs with
  | nil =>
      obtain rfl : a = c := h
      rw [written_self]
      exact Or.inl rfl
  | cons d segs =>
      obtain ⟨rfl, hrest⟩ := h
      have hordered := d.ordered
      have hcons : tells (d :: segs) k = (tells segs k).or (d.layer k) := rfl
      have hsplit : written hist d.span.first c k =
          (written hist (d.span.last + 1) c k).or (d.wrote hist k) :=
        written_split (show d.span.first ≤ d.span.last + 1 by omega)
          hrest.le
      have htail : tells segs k = written hist (d.span.last + 1) c k := by
        refine hrest.tells_eq fun d' hd' => ?_
        refine hfull d' (List.mem_cons_of_mem _ hd') ?_
        have hbounds := hrest.bounds hd'
        omega
      rw [hcons, htail, hsplit]
      rcases hrecounts d List.mem_cons_self k with heq | ⟨hnone, hdead⟩
      · rw [heq]
        exact Or.inl rfl
      · rw [hnone, hdead]
        cases hlater : written hist (d.span.last + 1) c k with
        | some e => exact Or.inl rfl
        | none =>
            exact Or.inr ⟨rfl, rfl, d, segs, rfl, hnone, hdead, hlater⟩

/-- The last write to a key is in the span of some segment. -/
theorem Contiguous.exists_top (h : Contiguous segs a c) {e : Option Bytes}
    (he : written hist a c k = some e) :
    ∃ d ∈ segs, written hist (d.span.last + 1) c k = none ∧
      d.wrote hist k = some e := by
  induction segs generalizing a with
  | nil =>
      obtain rfl : a = c := h
      rw [written_self] at he
      cases he
  | cons d segs ih =>
      obtain ⟨rfl, hrest⟩ := h
      have hordered := d.ordered
      rw [written_split (show d.span.first ≤ d.span.last + 1 by omega)
        hrest.le] at he
      cases hlater : written hist (d.span.last + 1) c k with
      | none =>
          rw [hlater, Option.none_or] at he
          exact ⟨d, List.mem_cons_self, hlater, he⟩
      | some e' =>
          rw [hlater] at he
          obtain rfl := Option.some.inj he
          obtain ⟨d', hd', htop⟩ := ih hrest hlater
          exact ⟨d', List.mem_cons_of_mem _ hd', htop⟩

theorem Contiguous.span_eq (h : Contiguous segs a c) (hne : segs ≠ []) :
    (segmentSpan segs).first = a ∧ (segmentSpan segs).last + 1 = c := by
  constructor
  · obtain ⟨d, rest, rfl⟩ := List.exists_cons_of_ne_nil hne
    exact h.1
  · obtain ⟨init, d, rfl⟩ := List.eq_nil_or_concat segs |>.resolve_left hne
    rw [List.concat_eq_append] at h ⊢
    obtain ⟨b, -, -, hlast⟩ := contiguous_append.mp h
    simpa [segmentSpan, Contiguous] using hlast

theorem Contiguous.lt (h : Contiguous segs a c) (hne : segs ≠ []) :
    a < c := by
  obtain ⟨d, rest, rfl⟩ := List.exists_cons_of_ne_nil hne
  have hbounds := h.bounds List.mem_cons_self
  have hordered := d.ordered
  omega

end Segments

end Lsmrs
