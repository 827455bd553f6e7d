import Mathlib.Data.List.DropRight
import Mathlib.Data.List.Infix
import Mathlib.Tactic

/-!
# Words between separators

The parts that a list is split into at its separators, without the empty
ones: how many there are and how long they can be, said of the list itself.
-/

namespace Words

variable {α : Type*} {p : α → Bool}

/-- The places where a part begins that is not empty.  `gap` says whether
what comes before the list separates. -/
def starts (p : α → Bool) : Bool → List α → ℕ
  | _, [] => 0
  | gap, x :: xs => (if gap && !p x then 1 else 0) + starts p (p x) xs

/-- A stretch of the list without a separator. -/
def Unbroken (p : α → Bool) (word line : List α) : Prop :=
  word <:+: line ∧ ∀ x ∈ word, p x = false

theorem exists_head_splitOnP (p : α → Bool) (xs : List α) :
    ∃ head tail, xs.splitOnP p = head :: tail :=
  List.exists_cons_of_ne_nil (List.splitOnP_ne_nil p xs)

theorem splitOnP_cons_of_sep {x : α} (hx : p x = true) (xs : List α) :
    (x :: xs).splitOnP p = [] :: xs.splitOnP p := by
  rw [List.splitOnP_cons_eq_if_modifyHead, if_pos hx]

theorem splitOnP_cons_of_not_sep {x : α} (hx : p x = false) {xs head : List α}
    {tail : List (List α)} (h : xs.splitOnP p = head :: tail) :
    (x :: xs).splitOnP p = (x :: head) :: tail := by
  rw [List.splitOnP_cons_eq_if_modifyHead, if_neg (by simp [hx]), h,
    List.modifyHead_cons]

/-- The first part starts where the list does, unless nothing separates the
two. -/
theorem starts_eq [DecidableEq α] {xs head : List α} {tail : List (List α)}
    (h : xs.splitOnP p = head :: tail) (gap : Bool) :
    starts p gap xs =
      (if gap = true ∧ head ≠ [] then 1 else 0) +
        (tail.filter (· ≠ [])).length := by
  induction xs generalizing head tail gap with
  | nil =>
      rw [List.splitOnP_nil] at h
      cases h
      simp [starts]
  | cons x xs ih =>
      obtain ⟨head', tail', h'⟩ := exists_head_splitOnP p xs
      rw [starts, ih h' (p x)]
      cases hx : p x with
      | true =>
          rw [splitOnP_cons_of_sep hx, h'] at h
          cases h
          by_cases hhead : head' = []
          · simp [hhead]
          · simp [hhead, Nat.add_comm]
      | false =>
          rw [splitOnP_cons_of_not_sep hx h'] at h
          cases h
          simp

/-- The list starts as many parts as it has. -/
theorem length_filter_splitOnP [DecidableEq α] (p : α → Bool) (xs : List α) :
    ((xs.splitOnP p).filter (· ≠ [])).length = starts p true xs := by
  obtain ⟨head, tail, h⟩ := exists_head_splitOnP p xs
  rw [starts_eq h, h]
  by_cases hhead : head = []
  · simp [hhead]
  · simp [hhead, Nat.add_comm]

/-- A part is a stretch of the list, and the first one comes first. -/
theorem unbroken_of_splitOnP {xs head : List α} {tail : List (List α)}
    (h : xs.splitOnP p = head :: tail) :
    (head <+: xs ∧ ∀ x ∈ head, p x = false) ∧
      ∀ word ∈ tail, Unbroken p word xs := by
  induction xs generalizing head tail with
  | nil =>
      rw [List.splitOnP_nil] at h
      cases h
      simp
  | cons x xs ih =>
      obtain ⟨head', tail', h'⟩ := exists_head_splitOnP p xs
      obtain ⟨⟨hfirst', hhead'⟩, htail'⟩ := ih h'
      have hlater : ∀ word ∈ tail', Unbroken p word (x :: xs) :=
        fun word hword => ⟨List.infix_cons (htail' word hword).1,
          (htail' word hword).2⟩
      cases hx : p x with
      | true =>
          rw [splitOnP_cons_of_sep hx, h'] at h
          cases h
          refine ⟨by simp, ?_⟩
          intro word hword
          rcases List.mem_cons.mp hword with rfl | hword
          · exact ⟨List.infix_cons hfirst'.isInfix, hhead'⟩
          · exact hlater word hword
      | false =>
          rw [splitOnP_cons_of_not_sep hx h'] at h
          cases h
          refine ⟨⟨List.cons_prefix_cons.mpr ⟨rfl, hfirst'⟩, ?_⟩, hlater⟩
          intro y hy
          rcases List.mem_cons.mp hy with rfl | hy
          · exact hx
          · exact hhead' y hy

theorem unbroken_of_mem_splitOnP {xs word : List α}
    (h : word ∈ xs.splitOnP p) : Unbroken p word xs := by
  obtain ⟨head, tail, hsplit⟩ := exists_head_splitOnP p xs
  obtain ⟨⟨hfirst, hhead⟩, htail⟩ := unbroken_of_splitOnP hsplit
  rw [hsplit] at h
  rcases List.mem_cons.mp h with rfl | h
  · exact ⟨hfirst.isInfix, hhead⟩
  · exact htail word h

/-- A stretch without a separator lies within one part, at the front in the
first part. -/
theorem exists_part_of_unbroken {xs head : List α} {tail : List (List α)}
    (h : xs.splitOnP p = head :: tail) {word : List α}
    (hword : ∀ x ∈ word, p x = false) :
    (word <+: xs → word <+: head) ∧
      (word <:+: xs → ∃ part ∈ xs.splitOnP p, word <:+: part) := by
  induction xs generalizing head tail word with
  | nil =>
      rw [List.splitOnP_nil] at h ⊢
      cases h
      simp
  | cons x xs ih =>
      obtain ⟨head', tail', h'⟩ := exists_head_splitOnP p xs
      have hfront : word <+: x :: xs → word <+: head := by
        intro hfirst
        cases word with
        | nil => exact List.nil_prefix
        | cons y word =>
            obtain ⟨rfl, hrest⟩ := List.cons_prefix_cons.mp hfirst
            obtain ⟨hy, hword⟩ := List.forall_mem_cons.mp hword
            rw [splitOnP_cons_of_not_sep hy h'] at h
            cases h
            exact List.cons_prefix_cons.mpr ⟨rfl, (ih h' hword).1 hrest⟩
      refine ⟨hfront, ?_⟩
      intro hinfix
      rcases List.infix_cons_iff.mp hinfix with hfirst | hlater
      · exact ⟨head, by rw [h]; exact List.mem_cons_self,
          (hfront hfirst).isInfix⟩
      · obtain ⟨part, hpart, hin⟩ := (ih h' hword).2 hlater
        cases hx : p x with
        | true =>
            rw [splitOnP_cons_of_sep hx]
            exact ⟨part, List.mem_cons_of_mem _ hpart, hin⟩
        | false =>
            rw [splitOnP_cons_of_not_sep hx h']
            rw [h'] at hpart
            rcases List.mem_cons.mp hpart with rfl | hpart
            · exact ⟨x :: part, List.mem_cons_self, List.infix_cons hin⟩
            · exact ⟨part, List.mem_cons_of_mem _ hpart, hin⟩

/-- The parts are no longer than the stretches without a separator, and the
other way round. -/
theorem length_le_iff [DecidableEq α] {xs : List α} {n : ℕ} :
    (∀ part ∈ (xs.splitOnP p).filter (· ≠ []), part.length ≤ n) ↔
      ∀ word, Unbroken p word xs → word.length ≤ n := by
  constructor
  · rintro h word ⟨hin, hword⟩
    obtain ⟨head, tail, hsplit⟩ := exists_head_splitOnP p xs
    obtain ⟨part, hpart, hle⟩ := (exists_part_of_unbroken hsplit hword).2 hin
    by_cases hempty : part = []
    · rw [hempty, List.infix_nil] at hle
      rw [hle]
      exact Nat.zero_le n
    · exact hle.length_le.trans
        (h part (List.mem_filter.mpr ⟨hpart, by simpa using hempty⟩))
  · intro h part hpart
    exact h part (unbroken_of_mem_splitOnP (List.mem_filter.mp hpart).1)

/-! ## Spaced words -/

/-- The parts of a list that are not empty. -/
def words [DecidableEq α] (p : α → Bool) (xs : List α) : List (List α) :=
  (xs.splitOnP p).filter (· ≠ [])

/-- The list is these words, with a separator between any two, and perhaps
more of them between and around. -/
inductive Spaced (p : α → Bool) : List α → List (List α) → Prop
  | gap {gap : List α} (hgap : ∀ x ∈ gap, p x = true) : Spaced p gap []
  | word {gap word rest : List α} {ws : List (List α)}
      (hgap : ∀ x ∈ gap, p x = true) (hne : word ≠ [])
      (hword : ∀ x ∈ word, p x = false)
      (hends : ∀ x ∈ rest.head?, p x = true) (hrest : Spaced p rest ws) :
    Spaced p (gap ++ (word ++ rest)) (word :: ws)

theorem Spaced.sep {x : α} {xs : List α} {ws : List (List α)}
    (h : Spaced p xs ws) (hx : p x = true) : Spaced p (x :: xs) ws := by
  cases h with
  | gap hgap => exact .gap (List.forall_mem_cons.mpr ⟨hx, hgap⟩)
  | @word gap _ _ _ hgap hne hword hends hrest =>
      rw [← List.cons_append]
      exact .word (List.forall_mem_cons.mpr ⟨hx, hgap⟩) hne hword hends hrest

/-- A word of one letter, in front of a separator or at the end. -/
theorem Spaced.letter {x : α} {xs : List α} {ws : List (List α)}
    (h : Spaced p xs ws) (hx : p x = false)
    (hends : ∀ y ∈ xs.head?, p y = true) : Spaced p (x :: xs) ([x] :: ws) :=
  @Spaced.word α p [] [x] xs ws (List.forall_mem_nil _)
    (List.cons_ne_nil x []) (List.forall_mem_singleton.mpr hx) hends h

theorem exists_spaced (p : α → Bool) (xs : List α) :
    ∃ ws, Spaced p xs ws := by
  induction xs with
  | nil => exact ⟨[], .gap (by simp)⟩
  | cons x xs ih =>
      obtain ⟨ws, h⟩ := ih
      cases hx : p x with
      | true => exact ⟨ws, h.sep hx⟩
      | false =>
          by_cases hends : ∀ y ∈ xs.head?, p y = true
          · exact ⟨_, h.letter hx hends⟩
          · -- The letter belongs to the word behind it.
            cases h with
            | gap hgap =>
                exact absurd (fun y hy => hgap y (List.mem_of_head? hy)) hends
            | @word gap word rest ws hgap hne hword hends' hrest =>
                cases gap with
                | nil =>
                    exact ⟨_, @Spaced.word α p [] (x :: word) rest ws
                      (List.forall_mem_nil _) (List.cons_ne_nil x word)
                      (List.forall_mem_cons.mpr ⟨hx, hword⟩) hends'
                      hrest⟩
                | cons y gap =>
                    refine absurd (fun z hz => ?_) hends
                    obtain rfl : y = z := Option.some.inj hz
                    exact hgap y List.mem_cons_self

/-- Separators at the end change no word. -/
theorem Spaced.append_gap {xs gap : List α} {ws : List (List α)}
    (h : Spaced p xs ws) (hgap : ∀ x ∈ gap, p x = true) :
    Spaced p (xs ++ gap) ws := by
  induction h with
  | gap hfirst => exact .gap (List.forall_mem_append.mpr ⟨hfirst, hgap⟩)
  | @word first word rest ws hfirst hne hword hends hrest ih =>
      rw [List.append_assoc, List.append_assoc]
      refine .word hfirst hne hword ?_ ih
      cases rest with
      | nil => exact fun x hx => hgap x (List.mem_of_head? hx)
      | cons y rest => exact hends

/-- The words stand in the list, in this order. -/
theorem Spaced.flatten_sublist {xs : List α} {ws : List (List α)}
    (h : Spaced p xs ws) : ws.flatten.Sublist xs := by
  induction h with
  | gap hgap => exact List.nil_sublist _
  | @word gap word rest ws _ _ _ _ _ ih =>
      rw [List.flatten_cons]
      exact ((List.Sublist.refl word).append ih).trans
        (List.sublist_append_right gap _)

/-- There is no word just if there is nothing but separators. -/
theorem spaced_nil_iff {xs : List α} :
    Spaced p xs [] ↔ ∀ x ∈ xs, p x = true := by
  constructor
  · intro h
    cases h with
    | gap hgap => exact hgap
  · exact .gap

section Spaced

variable [DecidableEq α]

theorem words_gap {gap : List α} (hgap : ∀ x ∈ gap, p x = true)
    (xs : List α) : words p (gap ++ xs) = words p xs := by
  induction gap with
  | nil => rfl
  | cons x gap ih =>
      obtain ⟨hx, hrest⟩ := List.forall_mem_cons.mp hgap
      rw [List.cons_append, words, splitOnP_cons_of_sep hx,
        List.filter_cons_of_neg (by simp)]
      exact ih hrest

theorem words_word {word rest : List α} (hne : word ≠ [])
    (hword : ∀ x ∈ word, p x = false) (hends : ∀ x ∈ rest.head?, p x = true) :
    words p (word ++ rest) = word :: words p rest := by
  cases rest with
  | nil =>
      rw [List.append_nil, words, List.splitOnP_eq_singleton hword,
        List.filter_cons_of_pos (by simpa using hne)]
      rfl
  | cons x rest =>
      have hx : p x = true := hends x rfl
      rw [words, List.splitOnP_append_cons_of_forall_mem hword x hx,
        List.filter_cons_of_pos (by simpa using hne), words,
        splitOnP_cons_of_sep hx, List.filter_cons_of_neg (by simp)]

theorem words_of_spaced {xs : List α} {ws : List (List α)}
    (h : Spaced p xs ws) : words p xs = ws := by
  induction h with
  | gap hgap =>
      have hnil := words_gap hgap []
      rwa [List.append_nil] at hnil
  | word hgap hne hword hends _ ih =>
      rw [words_gap hgap, words_word hne hword hends, ih]

/-- The words of a list, and how they stand in it. -/
theorem words_eq_iff {xs : List α} {ws : List (List α)} :
    words p xs = ws ↔ Spaced p xs ws := by
  constructor
  · rintro rfl
    obtain ⟨ws, h⟩ := exists_spaced p xs
    rwa [words_of_spaced h]
  · exact words_of_spaced

/-- The words of a list are those between its first and its last letter. -/
theorem words_trim (xs : List α) :
    words p ((xs.dropWhile p).rdropWhile p) = words p xs := by
  have hfront : words p (xs.dropWhile p) = words p xs := by
    have hgap : ∀ x ∈ xs.takeWhile p, p x = true :=
      fun x hx => List.mem_takeWhile_imp hx
    have hwords := words_gap hgap (xs.dropWhile p)
    rw [List.takeWhile_append_dropWhile] at hwords
    exact hwords.symm
  obtain ⟨ws, h⟩ := exists_spaced p ((xs.dropWhile p).rdropWhile p)
  have hgap : ∀ x ∈ (xs.dropWhile p).rtakeWhile p, p x = true :=
    fun x hx => List.mem_rtakeWhile_imp hx
  have hback := h.append_gap hgap
  rw [List.rdropWhile_append_rtakeWhile] at hback
  rw [← hfront, words_of_spaced h, words_of_spaced hback]

theorem trim_eq_nil_iff (xs : List α) :
    (xs.dropWhile p).rdropWhile p = [] ↔ words p xs = [] := by
  rw [← words_trim, words_eq_iff, spaced_nil_iff]
  constructor
  · intro hnil
    rw [hnil]
    exact List.forall_mem_nil _
  · intro hall
    -- The last letter of what is left is no separator.
    by_contra hne
    exact List.rdropWhile_last_not _ _ hne
      (hall _ (List.getLast_mem hne))

end Spaced

end Words
