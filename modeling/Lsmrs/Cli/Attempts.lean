import Lsmrs.Server.Del

/-!
# Calls that may fail

A `put` or `delete`, whatever it returns, and what it makes of the memtable:
nothing, an entry, or an empty one behind a flush.
-/

namespace Lsmrs

open OrderedMap

variable {F : Format}

/-- One call of `put` or `delete`, among steps of the compactor.  One that
returns an error may have logged its record or not. -/
structure Attempt (s : State F) (m : Mutation) (result : Except IoError Unit)
    (labels : List (Label F)) (s' : State F) : Prop where
  runs : s.exec labels = some s'
  threads : ∀ l ∈ labels, l.Running
  logs : history labels = [m] ∨ (history labels = [] ∧ result ≠ .ok ())
  returns : s'.Idle

/-- A flush is under way, and the memtable is still full. -/
def Writer.Flushes : Writer F → Prop
  | .flushing => True
  | .created _ _ => True
  | .published _ _ => True
  | _ => False

/-- Where the memtable stands in a call that found it as `start`, and has
logged so much. -/
inductive Entering (start : Memtable) (m : Mutation) :
    List Mutation → Writer F → Memtable → Prop
  | before : Entering start m [] .idle start
  | logged : Entering start m [m] (.logged m) start
  | entered {w : Writer F} (hat : w = .idle ∨ w.Flushes) :
    Entering start m [m] w (start.insert m.key m.value)
  | emptied {w : Writer F} (hat : w = .idle ∨ w = .registered) :
    Entering start m [m] w OrderedMap.empty

section Entering

variable {start map : Memtable} {m : Mutation} {ms : List Mutation}

theorem Entering.of_idle (h : Entering start m ms (.idle : Writer F) map) :
    (ms = [] ∧ map = start) ∨
      (ms = [m] ∧ (map = start.insert m.key m.value ∨
        map = OrderedMap.empty)) := by
  cases h with
  | before => exact Or.inl ⟨rfl, rfl⟩
  | entered _ => exact Or.inr ⟨rfl, Or.inl rfl⟩
  | emptied _ => exact Or.inr ⟨rfl, Or.inr rfl⟩

/-- A flush empties the memtable late. -/
theorem Entering.of_flushes {w : Writer F} (h : Entering start m ms w map)
    (hw : w.Flushes) : ms = [m] ∧ map = start.insert m.key m.value := by
  cases h with
  | before => exact hw.elim
  | logged => exact hw.elim
  | entered _ => exact ⟨rfl, rfl⟩
  | emptied hat => rcases hat with rfl | rfl <;> exact hw.elim

theorem Entering.of_logged {m' : Mutation}
    (h : Entering start m ms (.logged m' : Writer F) map) :
    ms = [m] ∧ m' = m ∧ map = start := by
  cases h with
  | logged => exact ⟨rfl, rfl, rfl⟩
  | entered hat =>
      rcases hat with hat | hat
      · cases hat
      · exact hat.elim
  | emptied hat => rcases hat with hat | hat <;> cases hat

theorem Entering.of_registered
    (h : Entering start m ms (.registered : Writer F) map) :
    ms = [m] ∧ map = OrderedMap.empty := by
  cases h with
  | entered hat =>
      rcases hat with hat | hat
      · cases hat
      · exact hat.elim
  | emptied _ => exact ⟨rfl, rfl⟩

/-- A second record is never logged. -/
theorem Entering.append {m' : Mutation}
    (h : Entering start m ms (.idle : Writer F) map)
    (hms : ms ++ [m'] <+: [m]) :
    Entering start m (ms ++ [m']) (.logged m' : Writer F) map := by
  rcases h.of_idle with ⟨rfl, rfl⟩ | ⟨rfl, -⟩
  · obtain ⟨rfl, -⟩ := List.cons_prefix_cons.mp hms
    exact .logged
  · exact absurd hms.length_le (by simp)

theorem Entering.writeStep {disk disk' : Disk F} {p p' : Process F}
    {l : WriteStep F} (h : Entering start m ms p.writer p.db.map)
    (hms : ms ++ (Label.write l).logged.toList <+: [m])
    (hturn : WriteTurn disk p l disk' p') :
    Entering start m (ms ++ (Label.write l).logged.toList) p'.writer
      p'.db.map := by
  -- Most steps log nothing.
  have hsilent : ms ++ [] = ms := List.append_nil ms
  have hentered : ∀ {w w' : Writer F}, p.writer = w → w.Flushes →
      w' = .idle ∨ w'.Flushes →
        Entering start m (ms ++ []) w' p.db.map := by
    intro w w' hat hw hw'
    rw [hat] at h
    obtain ⟨rfl, hmap⟩ := h.of_flushes hw
    rw [hmap]
    exact .entered hw'
  have hemptied : ∀ {w : Writer F}, p.writer = .registered →
      w = .idle ∨ w = .registered →
        Entering start m (ms ++ []) w p.db.map := by
    intro w hat hw
    rw [hat] at h
    obtain ⟨rfl, hmap⟩ := h.of_registered
    rw [hmap]
    exact .emptied hw
  cases hturn with
  | append hidle =>
      rw [hidle] at h
      exact h.append hms
  | writeAllFails _ => rwa [← hsilent] at h
  | syncDataFails _ _ => rwa [← hsilent] at h
  | apply hlogged =>
      rw [hlogged] at h
      obtain ⟨rfl, rfl, hmap⟩ := h.of_logged
      change Entering start _ _ _ (p.db.map.insert _ _)
      rw [hmap]
      split_ifs
      · exact .entered (Or.inr trivial)
      · exact .entered (Or.inl rfl)
  | createNone hflushing hnil =>
      rw [hflushing] at h
      obtain ⟨rfl, -⟩ := h.of_flushes trivial
      have hempty : p.db.map = OrderedMap.empty := by
        apply ext_get?
        intro k
        rw [OrderedMap.get?, hnil]
        rfl
      change Entering start m [m] .registered p.db.map
      rw [hempty]
      exact .emptied (Or.inr rfl)
  | create hflushing _ _ => exact hentered hflushing trivial (Or.inr trivial)
  | rename hcreated => exact hentered hcreated trivial (Or.inr trivial)
  | register hpublished _ =>
      rw [hpublished] at h
      obtain ⟨rfl, -⟩ := h.of_flushes trivial
      exact .emptied (Or.inr rfl)
  | truncate hregistered => exact hemptied hregistered (Or.inl rfl)
  | nothingCreated hflushing => exact hentered hflushing trivial (Or.inl rfl)
  | halfCreated hflushing => exact hentered hflushing trivial (Or.inl rfl)
  | renameFails hcreated => exact hentered hcreated trivial (Or.inl rfl)
  | registerFails hpublished => exact hentered hpublished trivial (Or.inl rfl)
  | truncateFails hregistered => exact hemptied hregistered (Or.inl rfl)

/-- What a run of the threads does to the memtable that logs no more than one
record. -/
theorem Entering.exec {labels : List (Label F)} {s s' : State F}
    {p : Process F} (hp : s.process = some p)
    (h : Entering start m ms p.writer p.db.map)
    (hl : ∀ l ∈ labels, l.Running) (hms : ms ++ history labels <+: [m])
    (hrun : s.exec labels = some s') :
    ∃ p', s'.process = some p' ∧
      Entering start m (ms ++ history labels) p'.writer p'.db.map := by
  induction labels generalizing s p ms with
  | nil =>
      obtain rfl := Option.some.inj hrun
      refine ⟨p, hp, ?_⟩
      change Entering start m (ms ++ []) p.writer p.db.map
      rwa [List.append_nil]
  | cons l labels ih =>
      obtain ⟨hrunning, hlabels⟩ := List.forall_mem_cons.mp hl
      obtain ⟨⟨disk₁, process₁⟩, hstep, hrest⟩ := State.exec_cons.mp hrun
      rw [history_cons, ← List.append_assoc] at hms ⊢
      cases l with
      | write l =>
          obtain ⟨q, p₁, hq, rfl, hwrite⟩ := State.step_write hstep
          obtain rfl := Option.some.inj (hp.symm.trans hq)
          exact ih rfl (h.writeStep ((List.prefix_append _ _).trans hms)
            (writeStep_turn hwrite)) hlabels hms hrest
      | compact l =>
          obtain ⟨q, p₁, hq, hp₁, hcompact⟩ := State.step_compact hstep
          obtain rfl := Option.some.inj (hp.symm.trans hq)
          have hleaves := compactStep_leaves hcompact
          have hsilent : (Label.compact l : Label F).logged.toList = [] := rfl
          rw [hsilent, List.append_nil] at hms ⊢
          refine ih hp₁ ?_ hlabels hms hrest
          rw [hleaves.writer, hleaves.map]
          exact h
      | compactFails left =>
          obtain ⟨q, hq, hp₁, -⟩ := State.step_compactFails hstep
          obtain rfl := Option.some.inj (hp.symm.trans hq)
          have hsilent : (Label.compactFails left).logged.toList = [] := rfl
          rw [hsilent, List.append_nil] at hms ⊢
          exact ih hp₁ h hlabels hms hrest
      | crash => exact hrunning.elim
      | crashInOpen listing removed => exact hrunning.elim
      | recover config listing => exact hrunning.elim

end Entering

end Lsmrs
