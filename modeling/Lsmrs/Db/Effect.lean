import Lsmrs.Db.Lawful

/-!
# What mutations amount to

A sequence of mutations as a layered map, and how the memtable, the replay
of the log and the plain map follow from it.
-/

namespace Lsmrs

open ByteString OrderedMap Layers

/-- What one mutation says of each key. -/
def Mutation.layer (m : Mutation) : Layer Bytes Bytes := fun k =>
  if m.key = k then some m.value else none

/-- What a sequence of mutations says of each key: its last mutation
decides. -/
def effect (ms : List Mutation) : Layer Bytes Bytes :=
  stack (ms.map Mutation.layer)

@[simp] theorem effect_nil (k : Bytes) : effect [] k = none := rfl

theorem effect_append (ms ms' : List Mutation) (k : Bytes) :
    effect (ms ++ ms') k = (effect ms' k).or (effect ms k) := by
  rw [effect, List.map_append, stack_append]
  rfl

theorem effect_concat (ms : List Mutation) (m : Mutation) (k : Bytes) :
    effect (ms ++ [m]) k =
      if m.key = k then some m.value else effect ms k := by
  have hlayer : effect [m] k = m.layer k := stack_singleton _ k
  rw [effect_append, hlayer, Mutation.layer]
  split_ifs <;> rfl

/-- Whatever a suffix says is what the whole sequence says. -/
theorem effect_suffix {ms hist : List Mutation} (h : ms <:+ hist)
    {k : Bytes} {e : Option Bytes} (he : effect ms k = some e) :
    effect hist k = some e := by
  obtain ⟨old, rfl⟩ := h
  rw [effect_append, he]
  rfl

theorem effect_of_suffix_none {old ms : List Mutation} {k : Bytes}
    (h : effect ms k = none) : effect (old ++ ms) k = effect old k := by
  rw [effect_append, h, Option.none_or]

/-- What is said of a key was said by a mutation. -/
theorem mem_of_effect {ms : List Mutation} {k : Bytes} {e : Option Bytes}
    (h : effect ms k = some e) : Mutation.ofEntry (k, e) ∈ ms := by
  induction ms with
  | nil => cases h
  | cons m ms ih =>
      rw [effect, List.map_cons, stack_cons, Option.or_eq_some_iff] at h
      rcases h with h | ⟨-, h⟩
      · exact List.mem_cons_of_mem _ (ih h)
      · rw [Mutation.layer] at h
        split_ifs at h with hkey
        rw [← hkey, ← Option.some.inj h, Mutation.ofEntry_key_value]
        exact List.mem_cons_self

/-- A live key was written. -/
theorem mem_keys_of_live {ms : List Mutation} {k : Bytes}
    (h : ((effect ms k).join).isSome) : k ∈ ms.map Mutation.key := by
  cases he : effect ms k with
  | none => rw [he] at h; cases h
  | some e =>
      refine List.mem_map.mpr ⟨_, mem_of_effect he, ?_⟩
      cases e <;> rfl

theorem plainMap_snoc (ms : List Mutation) (m : Mutation) :
    plainMap (ms ++ [m]) = m.applyTo (plainMap ms) := by
  rw [plainMap, List.foldl_append]
  rfl

theorem plainMap_eq (ms : List Mutation) (k : Bytes) :
    plainMap ms k = visible (effect ms) k := by
  suffices hgen : ∀ map : Bytes → Option Bytes,
      ms.foldl (fun map m => m.applyTo map) map k =
        if (effect ms k).isSome then visible (effect ms) k else map k by
    rw [plainMap, hgen]
    cases h : effect ms k with
    | none => simp [visible, h]
    | some e => rfl
  induction ms with
  | nil => intro map; rfl
  | cons m ms ih =>
      intro map
      have hcons : effect (m :: ms) k = (effect ms k).or (m.layer k) := rfl
      rw [List.foldl_cons, ih]
      unfold visible
      rw [hcons]
      cases h : effect ms k with
      | some e => rfl
      | none =>
          rw [Option.none_or, Mutation.layer, Mutation.applyTo]
          by_cases hkey : m.key = k
          · subst hkey
            simp
          · simp [hkey, Function.update_of_ne (Ne.symm hkey)]

/-! ## The memtable -/

theorem replayRecord_record (map : Memtable) (m : Mutation) :
    replayRecord map m.record = map.insert m.key m.value := by
  cases m <;> rfl

/-- Replaying a log gives what its mutations say. -/
theorem get?_replay (ms : List Mutation) (k : Bytes) :
    ((ms.map Mutation.record).foldl replayRecord OrderedMap.empty).get? k =
      effect ms k := by
  suffices hgen : ∀ map : Memtable,
      ((ms.map Mutation.record).foldl replayRecord map).get? k =
        (effect ms k).or (map.get? k) by
    rw [hgen, get?_empty, Option.or_none]
  induction ms with
  | nil => intro map; rfl
  | cons m ms ih =>
      intro map
      have hcons : effect (m :: ms) k = (effect ms k).or (m.layer k) := rfl
      rw [List.map_cons, List.foldl_cons, ih, replayRecord_record,
        get?_insert, hcons, Option.or_assoc, Mutation.layer]
      split_ifs <;> rfl

theorem get?_apply {F : Format} (db : Db F) (m : Mutation) (k : Bytes) :
    (db.apply m).map.get? k =
      if m.key = k then some m.value else db.map.get? k := by
  change (db.map.insert m.key m.value).get? k = _
  rw [get?_insert]
  split_ifs <;> rfl

end Lsmrs
