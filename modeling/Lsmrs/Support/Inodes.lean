import Lsmrs.Support.OrderedMap
import Mathlib.Logic.Function.Basic

/-!
# Names and inodes

A directory as the system keeps it: names are links to inodes, and an open
descriptor is an inode, with or without a name.  Creating a file over a name
empties the inode that is there; renaming and removing move names and leave
what is open alone.
-/

namespace Inodes

open OrderedMap

/-- A directory without hard links, and the contents of its inodes. -/
structure Volume (K B : Type) [LinearOrder K] where
  names : OrderedMap K ℕ
  data : ℕ → List B
  /-- No inode from here on was ever used. -/
  next : ℕ
  single : ∀ {k k' : K} {i : ℕ}, names.get? k = some i →
    names.get? k' = some i → k = k'
  below : ∀ {k : K} {i : ℕ}, names.get? k = some i → i < next

namespace Volume

variable {K B : Type} [LinearOrder K]

def empty (K B : Type) [LinearOrder K] : Volume K B where
  names := OrderedMap.empty
  data _ := []
  next := 0
  single := nofun
  below := nofun

/-- What is read under a name. -/
def file (v : Volume K B) (k : K) : Option (List B) :=
  (v.names.get? k).map v.data

/-- All that is read under the names. -/
def files (v : Volume K B) : OrderedMap K (List B) :=
  v.names.mapValues v.data

/-- The contents of an inode are replaced. -/
def store (v : Volume K B) (i : ℕ) (bs : List B) : Volume K B :=
  { v with data := Function.update v.data i bs }

/-- `write` at the end of an open file. -/
def append (v : Volume K B) (i : ℕ) (bs : List B) : Volume K B :=
  v.store i (v.data i ++ bs)

/-- A name gets an inode that is new. -/
def allocate (v : Volume K B) (k : K) : Volume K B where
  names := v.names.insert k v.next
  data := Function.update v.data v.next []
  next := v.next + 1
  single := by
    intro a b i ha hb
    rw [get?_insert] at ha hb
    split_ifs at ha hb with hka hkb hkb
    · exact hka.symm.trans hkb
    · rw [← Option.some.inj ha] at hb
      exact absurd (v.below hb) (lt_irrefl _)
    · rw [← Option.some.inj hb] at ha
      exact absurd (v.below ha) (lt_irrefl _)
    · exact v.single ha hb
  below := by
    intro a i ha
    rw [get?_insert] at ha
    split_ifs at ha
    · rw [← Option.some.inj ha]
      exact Nat.lt_succ_self _
    · exact Nat.lt_succ_of_lt (v.below ha)

/-- `open` with `O_CREAT` and `O_TRUNC`, and the descriptor it gives. -/
def create (v : Volume K B) (k : K) : ℕ × Volume K B :=
  match v.names.get? k with
  | some i => (i, v.store i [])
  | none => (v.next, v.allocate k)

/-- An inode goes from one name to another, which gives up its own. -/
def relink (v : Volume K B) (a b : K) {i : ℕ}
    (h : v.names.get? a = some i) : Volume K B where
  names := (v.names.erase a).insert b i
  data := v.data
  next := v.next
  single := by
    have hother : ∀ {c : K}, (v.names.erase a).get? c ≠ some i := by
      intro c hc
      rw [get?_erase] at hc
      split_ifs at hc with hca
      exact hca (v.single h hc)
    intro c d j hc hd
    rw [get?_insert] at hc hd
    split_ifs at hc hd with hbc hbd hbd
    · exact hbc.symm.trans hbd
    · rw [← Option.some.inj hc] at hd
      exact absurd hd hother
    · rw [← Option.some.inj hd] at hc
      exact absurd hc hother
    · rw [get?_erase] at hc hd
      split_ifs at hc hd
      exact v.single hc hd
  below := by
    intro c j hc
    rw [get?_insert, get?_erase] at hc
    split_ifs at hc
    · rw [← Option.some.inj hc]
      exact v.below h
    · exact v.below hc

/-- `rename`, of a name that is there. -/
def rename (v : Volume K B) (a b : K) : Volume K B :=
  match h : v.names.get? a with
  | some _ => v.relink a b h
  | none => v

/-- Only some of the names are kept. -/
def keep (v : Volume K B) (p : K → Bool) : Volume K B where
  names := v.names.filterKeys p
  data := v.data
  next := v.next
  single := by
    intro a b i ha hb
    rw [get?_filterKeys] at ha hb
    split_ifs at ha hb
    exact v.single ha hb
  below := by
    intro a i ha
    rw [get?_filterKeys] at ha
    split_ifs at ha
    exact v.below ha

/-- `unlink`. -/
def unlink (v : Volume K B) (k : K) : Volume K B :=
  v.keep fun k' => k' ≠ k

/-! ## Contents -/

section Store

variable {v : Volume K B} {i j : ℕ} {k k' a b : K} {bs : List B}

theorem get?_files (v : Volume K B) (k : K) : v.files.get? k = v.file k :=
  get?_mapValues v.data v.names k

@[simp] theorem names_store : (v.store i bs).names = v.names := rfl

theorem data_store_self : (v.store i bs).data i = bs := by
  simp [store]

theorem data_store_of_ne (h : j ≠ i) :
    (v.store i bs).data j = v.data j := by
  simp [store, h]

/-- What is written under one name is not read under another. -/
theorem file_store_of_ne (h : v.names.get? k = some i) (hne : k' ≠ k) :
    (v.store i bs).file k' = v.file k' := by
  rw [file, file, names_store]
  cases hk : v.names.get? k' with
  | none => rfl
  | some j =>
      have hij : j ≠ i := by
        rintro rfl
        exact hne (v.single hk h)
      rw [Option.map_some, Option.map_some, data_store_of_ne hij]

/-! ## Creating -/

theorem get?_create_self :
    (v.create k).2.names.get? k = some (v.create k).1 := by
  unfold create
  split
  next h => exact h
  next => exact (get?_insert ..).trans (if_pos rfl)

theorem get?_create_of_ne (h : k' ≠ k) :
    (v.create k).2.names.get? k' = v.names.get? k' := by
  unfold create
  split
  next => rfl
  next => exact (get?_insert ..).trans (if_neg h.symm)

theorem data_create_self : (v.create k).2.data (v.create k).1 = [] := by
  unfold create
  split
  next => exact data_store_self
  next => exact Function.update_self ..

/-- What has no such name, and is in use, is left alone. -/
theorem create_ne (hi : i < v.next) (hname : v.names.get? k ≠ some i) :
    i ≠ (v.create k).1 := by
  unfold create
  split
  next h =>
    rintro rfl
    exact hname h
  next => exact hi.ne

theorem data_create_of_ne (h : i ≠ (v.create k).1) :
    (v.create k).2.data i = v.data i := by
  unfold create at h ⊢
  split
  next hk =>
    rw [hk] at h
    exact data_store_of_ne h
  next hk =>
    rw [hk] at h
    exact Function.update_of_ne h ..

theorem next_le_create : v.next ≤ (v.create k).2.next := by
  unfold create
  split
  next => exact le_rfl
  next => exact Nat.le_succ _

/-- Creating a file is not seen under other names. -/
theorem file_create_of_ne (h : k' ≠ k) :
    (v.create k).2.file k' = v.file k' := by
  rw [file, file, get?_create_of_ne h]
  cases hk : v.names.get? k' with
  | none => rfl
  | some i =>
      have hne : i ≠ (v.create k).1 := by
        refine create_ne (v.below hk) ?_
        intro hname
        exact h (v.single hk hname)
      rw [Option.map_some, Option.map_some, data_create_of_ne hne]

/-! ## Renaming and removing -/

theorem rename_eq (h : v.names.get? a = some i) :
    v.rename a b = v.relink a b h := by
  unfold rename
  split
  next j hj => 
    obtain rfl : j = i := Option.some.inj (hj.symm.trans h)
    rfl
  next hnone => cases hnone.symm.trans h

@[simp] theorem data_rename : (v.rename a b).data = v.data := by
  unfold rename
  split <;> rfl

@[simp] theorem next_rename : (v.rename a b).next = v.next := by
  unfold rename
  split <;> rfl

theorem get?_rename (h : v.names.get? a = some i) :
    (v.rename a b).names.get? k =
      if b = k then some i else if a = k then none else v.names.get? k := by
  rw [rename_eq h, relink, get?_insert, get?_erase]

theorem get?_unlink :
    (v.unlink k).names.get? k' = if k' = k then none else v.names.get? k' := by
  rw [unlink, keep, get?_filterKeys]
  split_ifs with h₁ h₂ h₂
  · exact absurd h₂ (of_decide_eq_true h₁)
  · rfl
  · rfl
  · exact absurd (decide_eq_true h₂) h₁

end Store

/-! ## What is open -/

/-- The inode is in use, and under no name of some kind. -/
def Apart (P : K → Prop) (v : Volume K B) (i : ℕ) : Prop :=
  i < v.next ∧ ∀ {k : K}, v.names.get? k = some i → ¬ P k

/-- Whatever happened under names of this kind, what is open otherwise is as
it was. -/
def Spares (P : K → Prop) (v v' : Volume K B) : Prop :=
  ∀ {i : ℕ}, v.Apart P i → v'.Apart P i ∧ v'.data i = v.data i

section Spares

variable {P : K → Prop} {v : Volume K B} {i j : ℕ} {k a b : K}

theorem apart_of_name (h : v.names.get? k = some i) (hk : ¬ P k) :
    v.Apart P i := by
  refine ⟨v.below h, ?_⟩
  intro k' hk'
  rwa [v.single hk' h]

theorem Apart.ne (h : v.Apart P i) (hj : v.names.get? k = some j)
    (hk : P k) : i ≠ j := by
  rintro rfl
  exact h.2 hj hk

theorem spares_refl (P : K → Prop) (v : Volume K B) : Spares P v v :=
  fun h => ⟨h, rfl⟩

theorem spares_create (hk : P k) : Spares P v (v.create k).2 := by
  intro i h
  have hne : i ≠ (v.create k).1 :=
    create_ne h.1 fun hname => h.2 hname hk
  refine ⟨⟨h.1.trans_le next_le_create, ?_⟩, data_create_of_ne hne⟩
  intro k' hk'
  by_cases heq : k' = k
  · subst heq
    rw [get?_create_self] at hk'
    exact absurd (Option.some.inj hk').symm hne
  · rw [get?_create_of_ne heq] at hk'
    exact h.2 hk'

theorem spares_append (hj : v.names.get? k = some j) (hk : P k)
    (bs : List B) : Spares P v (v.append j bs) :=
  fun h => ⟨h, data_store_of_ne (h.ne hj hk)⟩

theorem spares_rename (ha : v.names.get? a = some j) (hk : P a) (b : K) :
    Spares P v (v.rename a b) := by
  intro i h
  refine ⟨⟨h.1.trans_eq next_rename.symm, ?_⟩, by rw [data_rename]⟩
  intro k hname
  rw [get?_rename ha] at hname
  split_ifs at hname
  · exact absurd (Option.some.inj hname).symm (h.ne ha hk)
  · exact h.2 hname

theorem spares_unlink (k : K) : Spares P v (v.unlink k) := by
  intro i h
  refine ⟨⟨h.1, ?_⟩, rfl⟩
  intro k' hname
  rw [get?_unlink] at hname
  split_ifs at hname
  exact h.2 hname

end Spares

end Volume

end Inodes
