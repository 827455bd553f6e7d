import Mathlib.Data.List.Pairwise
import Mathlib.Order.Defs.LinearOrder
import Mathlib.Tactic

/-!
# Ordered maps

Finite maps over a linear order, kept as the list of their entries in
ascending key order.  The list is the iteration order of the map, so what
walks a map in order and what looks a key up in it meet in `find`.
-/

namespace OrderedMap

variable {K V : Type} [LinearOrder K]

/-- Entries in strictly ascending key order. -/
def Ascending (xs : List (K × V)) : Prop :=
  xs.Pairwise fun a b => a.1 < b.1

instance (xs : List (K × V)) : Decidable (Ascending xs) := by
  unfold Ascending
  infer_instance

/-- The value stored under a key. -/
def find : List (K × V) → K → Option V
  | [], _ => none
  | (key, value) :: xs, k => if key = k then some value else find xs k

/-- Store a value under a key, in its place in the order. -/
def store (k : K) (v : V) : List (K × V) → List (K × V)
  | [] => [(k, v)]
  | (key, value) :: xs =>
    if k < key then (k, v) :: (key, value) :: xs
    else if key < k then (key, value) :: store k v xs
    else (k, v) :: xs

/-- Remove a key. -/
def discard (k : K) (xs : List (K × V)) : List (K × V) :=
  xs.filter fun p => p.1 ≠ k

/-! ## Looking up -/

theorem find_cons (key k : K) (value : V) (xs : List (K × V)) :
    find ((key, value) :: xs) k =
      if key = k then some value else find xs k := rfl

theorem find_eq_none_iff {xs : List (K × V)} {k : K} :
    find xs k = none ↔ ∀ p ∈ xs, p.1 ≠ k := by
  induction xs with
  | nil => simp [find]
  | cons p xs ih =>
      obtain ⟨key, value⟩ := p
      rw [find_cons, List.forall_mem_cons]
      by_cases h : key = k
      · simp [h]
      · simp [h, ih]

theorem mem_of_find {xs : List (K × V)} {k : K} {v : V}
    (h : find xs k = some v) : (k, v) ∈ xs := by
  induction xs with
  | nil => cases h
  | cons p xs ih =>
      obtain ⟨key, value⟩ := p
      rw [find_cons] at h
      split_ifs at h with hkey
      · subst hkey
        rw [Option.some.inj h]
        exact List.mem_cons_self
      · exact List.mem_cons_of_mem _ (ih h)

theorem find_isSome_iff {xs : List (K × V)} {k : K} :
    (find xs k).isSome ↔ ∃ p ∈ xs, p.1 = k := by
  rw [← Option.ne_none_iff_isSome, ne_eq, find_eq_none_iff]
  push Not
  rfl

theorem find_append (xs ys : List (K × V)) (k : K) :
    find (xs ++ ys) k = (find xs k).or (find ys k) := by
  induction xs with
  | nil => rfl
  | cons p xs ih =>
      obtain ⟨key, value⟩ := p
      rw [List.cons_append, find_cons, find_cons, ih]
      split_ifs <;> rfl

section Ascending

variable {xs ys : List (K × V)} {k : K} {v : V}

theorem Ascending.tail {p : K × V} (h : Ascending (p :: xs)) :
    Ascending xs :=
  List.Pairwise.of_cons h

theorem Ascending.head_lt {p q : K × V} (h : Ascending (p :: xs))
    (hq : q ∈ xs) : p.1 < q.1 :=
  List.rel_of_pairwise_cons h hq

/-- In ascending order each key is stored once, so finding it is being
there. -/
theorem Ascending.find_eq_some_iff (h : Ascending xs) :
    find xs k = some v ↔ (k, v) ∈ xs := by
  constructor
  · exact mem_of_find
  · intro hmem
    induction xs with
    | nil => cases hmem
    | cons p xs ih =>
        obtain ⟨key, value⟩ := p
        rw [find_cons]
        rcases List.mem_cons.mp hmem with heq | hmem
        · obtain ⟨rfl, rfl⟩ := Prod.mk.inj heq
          rw [if_pos rfl]
        · have hlt : key < k := h.head_lt hmem
          rw [if_neg (ne_of_lt hlt), ih h.tail hmem]

/-- Two ascending lists that find the same values are the same list. -/
theorem Ascending.ext (hxs : Ascending xs) (hys : Ascending ys)
    (h : ∀ k, find xs k = find ys k) : xs = ys := by
  have hmem : ∀ p, p ∈ xs ↔ p ∈ ys := by
    rintro ⟨k, v⟩
    rw [← hxs.find_eq_some_iff, ← hys.find_eq_some_iff, h]
  have hnodup : ∀ {zs : List (K × V)}, Ascending zs → zs.Nodup :=
    fun hzs => List.Pairwise.imp (fun hlt heq => by simp [heq] at hlt) hzs
  have hperm : xs.Perm ys :=
    (List.perm_ext_iff_of_nodup (hnodup hxs) (hnodup hys)).mpr hmem
  exact hperm.eq_of_pairwise
    (fun a b _ _ hab hba => absurd hab (lt_asymm hba)) hxs hys

theorem mem_store {p : K × V} :
    p ∈ store k v xs → p = (k, v) ∨ p ∈ xs := by
  induction xs with
  | nil => simp [store]
  | cons q xs ih =>
      obtain ⟨key, value⟩ := q
      rw [store]
      split_ifs
      · exact fun h => (List.mem_cons.mp h).imp id id
      · intro h
        rcases List.mem_cons.mp h with rfl | h
        · exact Or.inr List.mem_cons_self
        · exact (ih h).imp id (List.mem_cons_of_mem _)
      · intro h
        rcases List.mem_cons.mp h with rfl | h
        · exact Or.inl rfl
        · exact Or.inr (List.mem_cons_of_mem _ h)

/-- A stored entry adds at most its own weight. -/
theorem sum_store_le (weight : K × V → ℕ) (k : K) (v : V)
    (xs : List (K × V)) :
    ((store k v xs).map weight).sum ≤ (xs.map weight).sum + weight (k, v) := by
  induction xs with
  | nil => simp [OrderedMap.store]
  | cons p xs ih =>
      obtain ⟨key, value⟩ := p
      rw [OrderedMap.store]
      split_ifs
      · simp only [List.map_cons, List.sum_cons]
        omega
      · simp only [List.map_cons, List.sum_cons]
        omega
      · simp only [List.map_cons, List.sum_cons]
        omega

/-- A stored entry under a new key adds all of it. -/
theorem sum_store_of_find_none (weight : K × V → ℕ) {k : K} {v : V}
    {xs : List (K × V)} (h : find xs k = none) :
    ((store k v xs).map weight).sum = (xs.map weight).sum + weight (k, v) := by
  induction xs with
  | nil => simp [OrderedMap.store]
  | cons p xs ih =>
      obtain ⟨key, value⟩ := p
      rw [find_cons] at h
      split_ifs at h with hkey
      rw [OrderedMap.store]
      split_ifs with hlt hgt
      · simp only [List.map_cons, List.sum_cons]
        omega
      · have hrest := ih h
        simp only [List.map_cons, List.sum_cons]
        omega
      · exact absurd (le_antisymm (not_lt.mp hlt) (not_lt.mp hgt)) hkey

theorem Ascending.store (h : Ascending xs) (k : K) (v : V) :
    Ascending (store k v xs) := by
  induction xs with
  | nil => exact List.pairwise_singleton _ _
  | cons q xs ih =>
      obtain ⟨key, value⟩ := q
      rw [OrderedMap.store]
      split_ifs with hlt hgt
      · refine List.pairwise_cons.mpr ⟨?_, h⟩
        intro p hp
        rcases List.mem_cons.mp hp with rfl | hp
        · exact hlt
        · exact lt_trans hlt (h.head_lt hp)
      · refine List.pairwise_cons.mpr ⟨?_, ih h.tail⟩
        intro p hp
        rcases mem_store hp with rfl | hp
        · exact hgt
        · exact h.head_lt hp
      · have heq : key = k := le_antisymm (not_lt.mp hlt) (not_lt.mp hgt)
        subst heq
        exact List.pairwise_cons.mpr ⟨fun p hp => h.head_lt hp, h.tail⟩

theorem find_store (xs : List (K × V)) (k : K) (v : V) (k' : K) :
    find (store k v xs) k' = if k = k' then some v else find xs k' := by
  induction xs with
  | nil => rfl
  | cons q xs ih =>
      obtain ⟨key, value⟩ := q
      rw [store]
      by_cases hlt : k < key
      · rw [if_pos hlt, find_cons]
      · rw [if_neg hlt]
        by_cases hgt : key < k
        · rw [if_pos hgt, find_cons, find_cons, ih]
          by_cases heq : k = k'
          · subst heq
            rw [if_neg (ne_of_lt hgt), if_pos rfl, if_pos rfl]
          · rw [if_neg heq, if_neg heq]
        · have hkey : key = k :=
            le_antisymm (not_lt.mp hlt) (not_lt.mp hgt)
          rw [if_neg hgt, find_cons, find_cons, hkey]
          split_ifs <;> rfl

theorem Ascending.filter (h : Ascending xs) (p : K × V → Bool) :
    Ascending (xs.filter p) :=
  List.Pairwise.filter p h

theorem find_discard (xs : List (K × V)) (k k' : K) :
    find (discard k xs) k' = if k = k' then none else find xs k' := by
  induction xs with
  | nil => simp [discard, find]
  | cons q xs ih =>
      obtain ⟨key, value⟩ := q
      rw [discard, List.filter_cons, find_cons]
      change find (if _ then (key, value) :: discard k xs else
        discard k xs) k' = _
      by_cases hkey : key = k
      · subst hkey
        simp [ih]
        split_ifs <;> rfl
      · rw [if_pos (by simpa using hkey), find_cons, ih]
        split_ifs with h₁ h₂ h₂
        · exact absurd (h₁.trans h₂.symm) hkey
        · rfl
        · rfl
        · rfl

theorem Ascending.map (h : Ascending xs) {W : Type} (f : V → W) :
    Ascending (xs.map fun p => (p.1, f p.2)) := by
  rw [Ascending, List.pairwise_map]
  exact h

theorem find_map {W : Type} (f : V → W) (xs : List (K × V)) (k : K) :
    find (xs.map fun p => (p.1, f p.2)) k = (find xs k).map f := by
  induction xs with
  | nil => rfl
  | cons p xs ih =>
      obtain ⟨key, value⟩ := p
      rw [List.map_cons, find_cons, find_cons, ih]
      split_ifs <;> rfl

theorem find_filter (p : K → Bool) (xs : List (K × V)) (k : K) :
    find (xs.filter fun e => p e.1) k = if p k then find xs k else none := by
  induction xs with
  | nil => simp [find]
  | cons e xs ih =>
      obtain ⟨key, value⟩ := e
      rw [List.filter_cons, find_cons]
      by_cases hkey : key = k
      · subst hkey
        cases hp : p key with
        | true => simp [find_cons]
        | false => simpa [hp] using ih
      · cases hp : p key with
        | true => simp [find_cons, hkey, ih]
        | false => simp [hkey, ih]

end Ascending

end OrderedMap

/-- A finite map over an ordered key type. -/
structure OrderedMap (K V : Type) [LinearOrder K] where
  entries : List (K × V)
  ascending : OrderedMap.Ascending entries

namespace OrderedMap

variable {K V : Type} [LinearOrder K]

instance [DecidableEq V] : DecidableEq (OrderedMap K V) := fun a b =>
  decidable_of_iff (a.entries = b.entries) <| by
    cases a
    cases b
    simp

def empty : OrderedMap K V := ⟨[], List.Pairwise.nil⟩

def get? (m : OrderedMap K V) (k : K) : Option V := find m.entries k

def insert (m : OrderedMap K V) (k : K) (v : V) : OrderedMap K V :=
  ⟨store k v m.entries, m.ascending.store k v⟩

def erase (m : OrderedMap K V) (k : K) : OrderedMap K V :=
  ⟨discard k m.entries, m.ascending.filter _⟩

def keys (m : OrderedMap K V) : List K := m.entries.map Prod.fst

def mapValues {W : Type} (f : V → W) (m : OrderedMap K V) :
    OrderedMap K W :=
  ⟨m.entries.map fun p => (p.1, f p.2), m.ascending.map f⟩

/-- The entries under some of the keys. -/
def filterKeys (p : K → Bool) (m : OrderedMap K V) : OrderedMap K V :=
  ⟨m.entries.filter fun e => p e.1, m.ascending.filter _⟩

@[simp] theorem get?_empty (k : K) :
    (empty : OrderedMap K V).get? k = none := rfl

theorem get?_insert (m : OrderedMap K V) (k : K) (v : V) (k' : K) :
    (m.insert k v).get? k' = if k = k' then some v else m.get? k' :=
  find_store m.entries k v k'

theorem get?_erase (m : OrderedMap K V) (k k' : K) :
    (m.erase k).get? k' = if k = k' then none else m.get? k' :=
  find_discard m.entries k k'

theorem get?_mapValues {W : Type} (f : V → W) (m : OrderedMap K V) (k : K) :
    (m.mapValues f).get? k = (m.get? k).map f :=
  find_map f m.entries k

theorem get?_filterKeys (p : K → Bool) (m : OrderedMap K V) (k : K) :
    (m.filterKeys p).get? k = if p k then m.get? k else none :=
  find_filter p m.entries k

theorem mem_entries_iff {m : OrderedMap K V} {k : K} {v : V} :
    (k, v) ∈ m.entries ↔ m.get? k = some v :=
  m.ascending.find_eq_some_iff.symm

theorem mem_keys_iff {m : OrderedMap K V} {k : K} :
    k ∈ m.keys ↔ (m.get? k).isSome := by
  rw [get?, find_isSome_iff, keys, List.mem_map]

theorem ext_get? {m m' : OrderedMap K V}
    (h : ∀ k, m.get? k = m'.get? k) : m = m' := by
  obtain ⟨xs, hxs⟩ := m
  obtain ⟨ys, hys⟩ := m'
  congr 1
  exact hxs.ext hys h

end OrderedMap
