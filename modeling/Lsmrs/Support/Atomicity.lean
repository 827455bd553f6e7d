import Mathlib.Logic.Function.Basic
import Mathlib.Tactic.Common

/-!
# Atomic objects

Threads call operations on one object at the same time.  What they see is
linearizable if each operation could have taken effect at once, at a point
between its call and its return: the history is one of the object that works
in such points only.  A crash ends all threads, and may cut an operation off
in its middle; what took effect before it stays.
-/

namespace Atomicity

/-- A thread calls an operation, or gets its result; or all of them end. -/
inductive Event (T Op Res : Type) where
  | call (t : T) (op : Op)
  | ret (t : T) (res : Res)
  | crash
  deriving DecidableEq, Repr

/-- What an object is for: the results that an operation may have with what
it makes of the state, and what it may make of it if it is cut off. -/
structure Object (Op Res S : Type) where
  does : S → Op → Res → S → Prop
  cuts : S → Op → S → Prop

/-- Where a thread stands: between two operations, before the point of its
operation, or behind it. -/
inductive Status (Op Res : Type) where
  | free
  | pending (op : Op)
  | settled (res : Res)

/-- The object that works in points. -/
structure Atomic (T Op Res S : Type) where
  status : T → Status Op Res
  state : S

variable {T Op Res S : Type} [DecidableEq T]

/-- No operation is under way. -/
def Atomic.start (state : S) : Atomic T Op Res S :=
  ⟨fun _ => .free, state⟩

/-- The thread comes to stand elsewhere. -/
def Atomic.moved (a : Atomic T Op Res S) (t : T) (status : Status Op Res) :
    Atomic T Op Res S :=
  { a with status := Function.update a.status t status }

/-- The operation of a thread takes effect. -/
def Atomic.took (a : Atomic T Op Res S) (t : T) (res : Res) (state : S) :
    Atomic T Op Res S :=
  ⟨Function.update a.status t (.settled res), state⟩

section Status

variable (a : Atomic T Op Res S) {t t' : T}

@[simp] theorem Atomic.moved_self (status : Status Op Res) :
    (a.moved t status).status t = status := by
  simp [Atomic.moved]

theorem Atomic.moved_of_ne (hne : t' ≠ t) (status : Status Op Res) :
    (a.moved t status).status t' = a.status t' := by
  simp [Atomic.moved, hne]

theorem Atomic.moved_same : a.moved t (a.status t) = a := by
  simp [Atomic.moved]

@[simp] theorem Atomic.took_self (res : Res) (state : S) :
    (a.took t res state).status t = .settled res := by
  simp [Atomic.took]

theorem Atomic.took_of_ne (hne : t' ≠ t) (res : Res) (state : S) :
    (a.took t res state).status t' = a.status t' := by
  simp [Atomic.took, hne]

end Status

/-- The histories of the object from one of its states to another. -/
inductive Allows (O : Object Op Res S) :
    Atomic T Op Res S → List (Event T Op Res) → Atomic T Op Res S → Prop
  | done {a : Atomic T Op Res S} : Allows O a [] a
  | call {a a' : Atomic T Op Res S} {t : T} {op : Op}
      {h : List (Event T Op Res)} (hat : a.status t = .free)
      (hrest : Allows O (a.moved t (.pending op)) h a') :
    Allows O a (.call t op :: h) a'
  | point {a a' : Atomic T Op Res S} {t : T} {op : Op} {res : Res}
      {state : S} {h : List (Event T Op Res)}
      (hat : a.status t = .pending op) (hdoes : O.does a.state op res state)
      (hrest : Allows O (a.took t res state) h a') :
    Allows O a h a'
  | ret {a a' : Atomic T Op Res S} {t : T} {res : Res}
      {h : List (Event T Op Res)} (hat : a.status t = .settled res)
      (hrest : Allows O (a.moved t .free) h a') :
    Allows O a (.ret t res :: h) a'
  | crash {a a' : Atomic T Op Res S} {h : List (Event T Op Res)}
      (hrest : Allows O (.start a.state) h a') :
    Allows O a (.crash :: h) a'
  | cutOff {a a' : Atomic T Op Res S} {t : T} {op : Op} {state : S}
      {h : List (Event T Op Res)} (hat : a.status t = .pending op)
      (hcuts : O.cuts a.state op state)
      (hrest : Allows O (.start state) h a') :
    Allows O a (.crash :: h) a'

/-- The history is one of the object, from the state on with no operation
under way. -/
def Linearizable (O : Object Op Res S) (state : S)
    (h : List (Event T Op Res)) : Prop :=
  ∃ a, Allows O (Atomic.start state) h a

variable {O : Object Op Res S}

theorem Allows.trans {a a' a'' : Atomic T Op Res S}
    {h h' : List (Event T Op Res)} (hfirst : Allows O a h a')
    (hrest : Allows O a' h' a'') : Allows O a (h ++ h') a'' := by
  induction hfirst with
  | done => exact hrest
  | call hat _ ih => exact .call hat (ih hrest)
  | point hat hdoes _ ih => exact .point hat hdoes (ih hrest)
  | ret hat _ ih => exact .ret hat (ih hrest)
  | crash _ ih => exact .crash (ih hrest)
  | cutOff hat hcuts _ ih => exact .cutOff hat hcuts (ih hrest)

/-- An object that may do more has all the histories. -/
theorem Allows.mono {O' : Object Op Res S}
    (hdoes : ∀ {state : S} {op : Op} {res : Res} {state' : S},
      O.does state op res state' → O'.does state op res state')
    (hcuts : ∀ {state : S} {op : Op} {state' : S},
      O.cuts state op state' → O'.cuts state op state')
    {a a' : Atomic T Op Res S} {h : List (Event T Op Res)}
    (hallows : Allows O a h a') : Allows O' a h a' := by
  induction hallows with
  | done => exact .done
  | call hat _ ih => exact .call hat ih
  | point hat hspec _ ih => exact .point hat (hdoes hspec) ih
  | ret hat _ ih => exact .ret hat ih
  | crash _ ih => exact .crash ih
  | cutOff hat hcut _ ih => exact .cutOff hat (hcuts hcut) ih

/-! ## Systems -/

section Systems

variable {A L E : Type}

/-- A run of a system whose steps show events. -/
def runFrom (step : A → L → Option (A × List E)) :
    A → List L → Option (A × List E)
  | s, [] => some (s, [])
  | s, l :: ls => do
    let (next, shown) ← step s l
    let (last, h) ← runFrom step next ls
    return (last, shown ++ h)

theorem runFrom_cons {step : A → L → Option (A × List E)} {s s' : A} {l : L}
    {ls : List L} {h : List E} :
    runFrom step s (l :: ls) = some (s', h) ↔
      ∃ next shown later, step s l = some (next, shown) ∧
        runFrom step next ls = some (s', later) ∧ h = shown ++ later := by
  simp only [runFrom, Option.bind_eq_bind, Option.bind_eq_some_iff,
    Prod.exists, Option.pure_def, Option.some.injEq, Prod.mk.injEq]
  constructor
  · rintro ⟨next, shown, hstep, last, later, hrest, rfl, rfl⟩
    exact ⟨next, shown, later, hstep, hrest, rfl⟩
  · rintro ⟨next, shown, later, hstep, hrest, rfl⟩
    exact ⟨next, shown, hstep, s', later, hrest, rfl, rfl⟩

theorem runFrom_append {step : A → L → Option (A × List E)} {s s' : A}
    {before after : List L} {h : List E} :
    runFrom step s (before ++ after) = some (s', h) ↔
      ∃ mid shown later, runFrom step s before = some (mid, shown) ∧
        runFrom step mid after = some (s', later) ∧ h = shown ++ later := by
  induction before generalizing s h with
  | nil =>
      constructor
      · exact fun hrun => ⟨s, [], h, rfl, hrun, rfl⟩
      · rintro ⟨mid, shown, later, hmid, hrun, rfl⟩
        obtain ⟨rfl, rfl⟩ := Prod.mk.inj (Option.some.inj hmid)
        exact hrun
  | cons l before ih =>
      rw [List.cons_append, runFrom_cons]
      constructor
      · rintro ⟨next, shown, later, hstep, hrest, rfl⟩
        obtain ⟨mid, shown', later', hbefore, hafter, rfl⟩ := ih.mp hrest
        exact ⟨mid, shown ++ shown', later',
          runFrom_cons.mpr ⟨next, shown, shown', hstep, hbefore, rfl⟩,
          hafter, (List.append_assoc ..).symm⟩
      · rintro ⟨mid, shown, later, hbefore, hafter, rfl⟩
        obtain ⟨next, shown', later', hstep, hrest, rfl⟩ :=
          runFrom_cons.mp hbefore
        exact ⟨next, shown', later' ++ later, hstep,
          ih.mpr ⟨mid, later', later, hrest, hafter, rfl⟩,
          List.append_assoc ..⟩

/-- What every step keeps, a run keeps. -/
theorem runFrom_keeps {step : A → L → Option (A × List E)} {ok : L → Prop}
    {I : A → Prop}
    (hstep : ∀ {s s' : A} {l : L} {shown : List E}, ok l → I s →
      step s l = some (s', shown) → I s')
    {s s' : A} {ls : List L} {h : List E} (hs : I s)
    (hls : ∀ l ∈ ls, ok l) (hrun : runFrom step s ls = some (s', h)) :
    I s' := by
  induction ls generalizing s h with
  | nil =>
      obtain ⟨rfl, rfl⟩ := Prod.mk.inj (Option.some.inj hrun)
      exact hs
  | cons l ls ih =>
      obtain ⟨hl, hls⟩ := List.forall_mem_cons.mp hls
      obtain ⟨next, shown, later, hfirst, hrest, rfl⟩ := runFrom_cons.mp hrun
      exact ih (hstep hl hs hfirst) hls hrest

/-- What every step keeps of the state, the steps behind it and what they
showed, a run keeps. -/
theorem runFrom_traces {step : A → L → Option (A × List E)}
    {I : List L → List E → A → Prop}
    (hstep : ∀ {ls : List L} {h : List E} {s s' : A} {l : L}
      {shown : List E}, I ls h s → step s l = some (s', shown) →
        I (ls ++ [l]) (h ++ shown) s')
    {s s' : A} {past ls : List L} {before h : List E} (hs : I past before s)
    (hrun : runFrom step s ls = some (s', h)) :
    I (past ++ ls) (before ++ h) s' := by
  induction ls generalizing s past before h with
  | nil =>
      obtain ⟨rfl, rfl⟩ := Prod.mk.inj (Option.some.inj hrun)
      rwa [List.append_nil, List.append_nil]
  | cons l ls ih =>
      obtain ⟨next, shown, later, hfirst, hrest, rfl⟩ := runFrom_cons.mp hrun
      rw [List.append_cons, ← List.append_assoc]
      exact ih (hstep hs hfirst) hrest

/-- If the object can follow every step of a system, it can follow its
runs. -/
theorem runFrom_allows
    {step : A → L → Option (A × List (Event T Op Res))} {ok : L → Prop}
    {fine : Event T Op Res → Prop} {R : A → Atomic T Op Res S → Prop}
    (hstep : ∀ {s s' : A} {l : L} {shown : List (Event T Op Res)}
      {a : Atomic T Op Res S}, ok l → (∀ e ∈ shown, fine e) → R s a →
        step s l = some (s', shown) →
          ∃ a', Allows O a shown a' ∧ R s' a')
    {s s' : A} {a : Atomic T Op Res S} {ls : List L}
    {h : List (Event T Op Res)} (hs : R s a) (hls : ∀ l ∈ ls, ok l)
    (hh : ∀ e ∈ h, fine e) (hrun : runFrom step s ls = some (s', h)) :
    ∃ a', Allows O a h a' ∧ R s' a' := by
  induction ls generalizing s a h with
  | nil =>
      obtain ⟨rfl, rfl⟩ := Prod.mk.inj (Option.some.inj hrun)
      exact ⟨a, .done, hs⟩
  | cons l ls ih =>
      obtain ⟨hl, hls⟩ := List.forall_mem_cons.mp hls
      obtain ⟨next, shown, later, hfirst, hrest, rfl⟩ := runFrom_cons.mp hrun
      obtain ⟨hshown, hlater⟩ := List.forall_mem_append.mp hh
      obtain ⟨mid, hallows, hmid⟩ := hstep hl hshown hs hfirst
      obtain ⟨a', hafter, ha'⟩ := ih hmid hls hlater hrest
      exact ⟨a', hallows.trans hafter, ha'⟩

end Systems

end Atomicity
