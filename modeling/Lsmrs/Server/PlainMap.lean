import Lsmrs.Db.Effect
import Lsmrs.Server.Arms
import Lsmrs.Support.Atomicity
import Mathlib.Logic.Relation

/-!
# The server on a plain map

What the commands do to the map that the database stands for, one after the
other: with calls that all return `Ok`, and with calls that may fail.
-/

namespace Lsmrs

open ByteString

/-- A database that is a plain map. -/
def plainOps : DbOps (Bytes → Option Bytes) where
  get map key := .ok (map key)
  put map key value := (.ok (), Function.update map key (some value))
  delete map key := (.ok (), Function.update map key none)

theorem plainOps_mutate (map : Bytes → Option Bytes) (m : Mutation) :
    plainOps.mutate map m = (.ok (), m.applyTo map) := by
  cases m <;> rfl

/-- A call of an arm on a plain map.  Where calls may fail, they return an
error, and a `put` or `delete` that does may have had its effect or not. -/
inductive Program.Goes (faulty : Prop) :
    Program × (Bytes → Option Bytes) → Program × (Bytes → Option Bytes) →
      Prop
  | get {key : Bytes} {next : Except IoError (Option Bytes) → Program}
      {map : Bytes → Option Bytes} :
    Goes faulty (.get key next, map) (next (.ok (map key)), map)
  | getFails {key : Bytes} {next : Except IoError (Option Bytes) → Program}
      {map : Bytes → Option Bytes} (hf : faulty) (e : IoError) :
    Goes faulty (.get key next, map) (next (.error e), map)
  | mutate {m : Mutation} {next : Except IoError Unit → Program}
      {map : Bytes → Option Bytes} :
    Goes faulty (.mutate m next, map) (next (.ok ()), m.applyTo map)
  | refused {m : Mutation} {next : Except IoError Unit → Program}
      {map : Bytes → Option Bytes} (hf : faulty) (e : IoError) :
    Goes faulty (.mutate m next, map) (next (.error e), map)
  | failed {m : Mutation} {next : Except IoError Unit → Program}
      {map : Bytes → Option Bytes} (hf : faulty) (e : IoError) :
    Goes faulty (.mutate m next, map) (next (.error e), m.applyTo map)

/-- An arm gets so far. -/
def Program.Reaches (faulty : Prop) (p : Program)
    (map : Bytes → Option Bytes) (rest : Program)
    (map' : Bytes → Option Bytes) : Prop :=
  Relation.ReflTransGen (Program.Goes faulty) (p, map) (rest, map')

/-- The outcomes a command may have on a map, and the maps it may leave. -/
def Serves (faulty : Prop) (map : Bytes → Option Bytes)
    (args : List Bytes) (outcome : Outcome) (map' : Bytes → Option Bytes) :
    Prop :=
  (arm args).body.Reaches faulty map (.done outcome) map'

/-- The maps that part of a command may leave. -/
def Cuts (faulty : Prop) (map : Bytes → Option Bytes) (args : List Bytes)
    (map' : Bytes → Option Bytes) : Prop :=
  ∃ rest, (arm args).body.Reaches faulty map rest map'

/-- The commands on a plain map, as operations of an object. -/
def commands (faulty : Prop) :
    Atomicity.Object (List Bytes) Outcome (Bytes → Option Bytes) :=
  ⟨Serves faulty, Cuts faulty⟩

theorem Program.run_of_goes {p rest : Program}
    {map map' : Bytes → Option Bytes}
    (h : Program.Goes False (p, map) (rest, map')) :
    p.run plainOps map = rest.run plainOps map' := by
  cases h with
  | get => rfl
  | getFails hf => exact hf.elim
  | mutate => rw [Program.run, plainOps_mutate]
  | refused hf => exact hf.elim
  | failed hf => exact hf.elim

theorem Program.reaches_iff_run {p : Program}
    {map map' : Bytes → Option Bytes} {outcome : Outcome} :
    p.Reaches False map (.done outcome) map' ↔
      p.run plainOps map = (outcome, map') := by
  constructor
  · intro h
    have hrun : ∀ {q : Program × (Bytes → Option Bytes)},
        Relation.ReflTransGen (Program.Goes False) q (.done outcome, map') →
          q.1.run plainOps q.2 = (outcome, map') := by
      intro q hq
      induction hq using Relation.ReflTransGen.head_induction_on with
      | refl => rfl
      | head hgoes _ ih => exact (Program.run_of_goes hgoes).trans ih
    exact hrun h
  · intro h
    induction p generalizing map with
    | done outcome =>
        obtain ⟨rfl, rfl⟩ := Prod.mk.inj h
        exact .refl
    | get key next ih => exact .head .get (ih _ h)
    | mutate m next ih =>
        rw [Program.run, plainOps_mutate] at h
        exact .head .mutate (ih _ h)

/-- Without failing calls, a command does to the map what `dispatch` does. -/
theorem serves_iff_dispatch {map map' : Bytes → Option Bytes}
    {args : List Bytes} {outcome : Outcome} :
    Serves False map args outcome map' ↔
      dispatch plainOps map args = (outcome, map') := by
  rw [Serves, Program.reaches_iff_run, dispatch_eq_run]

/-! ## Commands that are cut off -/

/-- The commands on a plain map: what `dispatch` does, and where a command is
cut off, what it does with the first of its arguments. -/
def plainCommands :
    Atomicity.Object (List Bytes) Outcome (Bytes → Option Bytes) where
  does map args outcome map' := dispatch plainOps map args = (outcome, map')
  cuts map args map' := ∃ n, (dispatch plainOps map (args.take n)).2 = map'

section Cut

variable {map map' : Bytes → Option Bytes} {rest : Program}

theorem Program.reaches_cases {p : Program}
    (h : p.Reaches False map rest map') :
    (p = rest ∧ map = map') ∨ ∃ next between,
      Program.Goes False (p, map) (next, between) ∧
        next.Reaches False between rest map' := by
  rcases Relation.ReflTransGen.cases_head h with heq | ⟨⟨next, between⟩,
    hgoes, hrest⟩
  · exact Or.inl (Prod.mk.inj heq)
  · exact Or.inr ⟨next, between, hgoes, hrest⟩

theorem Program.reaches_done {outcome : Outcome}
    (h : (Program.done outcome).Reaches False map rest map') :
    map' = map := by
  rcases Program.reaches_cases h with ⟨-, rfl⟩ | ⟨_, _, hgoes, -⟩
  · rfl
  · cases hgoes

theorem Program.reaches_get {key : Bytes}
    {next : Except IoError (Option Bytes) → Program}
    (h : (Program.get key next).Reaches False map rest map') :
    map' = map ∨ (next (.ok (map key))).Reaches False map rest map' := by
  rcases Program.reaches_cases h with ⟨-, rfl⟩ | ⟨_, _, hgoes, hrest⟩
  · exact Or.inl rfl
  · cases hgoes with
    | get => exact Or.inr hrest
    | getFails hf => exact hf.elim

theorem Program.reaches_mutate {m : Mutation}
    {next : Except IoError Unit → Program}
    (h : (Program.mutate m next).Reaches False map rest map') :
    map' = map ∨
      (next (.ok ())).Reaches False (m.applyTo map) rest map' := by
  rcases Program.reaches_cases h with ⟨-, rfl⟩ | ⟨_, _, hgoes, hrest⟩
  · exact Or.inl rfl
  · cases hgoes with
    | mutate => exact Or.inr hrest
    | refused hf => exact hf.elim
    | failed hf => exact hf.elim

/-- Part of the loop of `DEL` is the loop over the first keys. -/
theorem delProgram_cut {keys : List Bytes} {removed : ℤ}
    (h : (delProgram keys removed).Reaches False map rest map') :
    ∃ n, (deleteKeys plainOps map (keys.take n) removed).2 = map' := by
  induction keys generalizing map removed with
  | nil => exact ⟨0, (Program.reaches_done h).symm⟩
  | cons key keys ih =>
      rcases Program.reaches_get h with rfl | h
      · exact ⟨0, rfl⟩
      · cases hkey : map key with
        | none =>
            rw [hkey] at h
            obtain ⟨n, hn⟩ := ih h
            refine ⟨n + 1, ?_⟩
            rw [List.take_succ_cons, deleteKeys]
            simp only [plainOps, hkey]
            exact hn
        | some value =>
            rw [hkey] at h
            rcases Program.reaches_mutate h with rfl | h
            · exact ⟨0, rfl⟩
            · obtain ⟨n, hn⟩ := ih h
              refine ⟨n + 1, ?_⟩
              rw [List.take_succ_cons, deleteKeys]
              simp only [plainOps, hkey]
              exact hn

theorem delArm_cut {name : Bytes} {keys : List Bytes}
    (hname : toAsciiUppercase name = ascii "DEL")
    (h : (delArm (ascii "DEL") keys).body.Reaches False map rest map') :
    ∃ n, (dispatch plainOps map ((name :: keys).take n)).2 = map' := by
  cases keys with
  | nil => exact ⟨0, (Program.reaches_done h).symm⟩
  | cons key keys =>
      obtain ⟨n, hn⟩ := delProgram_cut h
      refine ⟨n + 1, ?_⟩
      rw [List.take_succ_cons, dispatch_eq_run, arm_del _ hname,
        run_delArm]
      cases n with
      | zero => exact hn
      | succ n => exact hn

theorem getArm_cut {name : Bytes} {rest' : List Bytes}
    (h : (getArm name rest').body.Reaches False map rest map') :
    map' = map := by
  match rest' with
  | [] | _ :: _ :: _ => exact Program.reaches_done h
  | [key] =>
      rcases Program.reaches_get h with rfl | h
      · rfl
      · cases hkey : map key with
        | none =>
            rw [hkey] at h
            exact Program.reaches_done h
        | some value =>
            rw [hkey] at h
            exact Program.reaches_done h

theorem setArm_cut {args rest' : List Bytes} {name : Bytes}
    (harm : arm args = setArm name rest')
    (h : (setArm name rest').body.Reaches False map rest map') :
    ∃ n, (dispatch plainOps map (args.take n)).2 = map' := by
  match rest' with
  | [] | [_] | _ :: _ :: _ :: _ =>
      exact ⟨0, (Program.reaches_done h).symm⟩
  | [key, value] =>
      rcases Program.reaches_mutate h with rfl | h
      · exact ⟨0, rfl⟩
      · -- The call has returned, and nothing changes the map any more.
        refine ⟨args.length, ?_⟩
        rw [List.take_length, dispatch_eq_run, harm, run_setArm]
        exact (Program.reaches_done h).symm

/-- A command that is cut off does what one with the first of its arguments
does. -/
theorem cuts_dispatch {args : List Bytes} (h : Cuts False map args map') :
    ∃ n, (dispatch plainOps map (args.take n)).2 = map' := by
  obtain ⟨rest, h⟩ := h
  cases args with
  | nil => exact ⟨0, (Program.reaches_done h).symm⟩
  | cons arg args =>
      generalize harm : arm (arg :: args) = a at h
      have hcases := harm
      rw [arm] at hcases
      split_ifs at hcases with _ _ _ _ _ _ hname
      · subst hcases
        exact ⟨0, (Program.reaches_done h).symm⟩
      · subst hcases
        exact ⟨0, (Program.reaches_done h).symm⟩
      · subst hcases
        exact ⟨0, (Program.reaches_done h).symm⟩
      · subst hcases
        exact ⟨0, (Program.reaches_done h).symm⟩
      · subst hcases
        exact ⟨0, (getArm_cut h).symm⟩
      · subst hcases
        exact setArm_cut harm h
      · subst hcases
        rw [hname] at h
        exact delArm_cut hname h
      · subst hcases
        exact ⟨0, (Program.reaches_done h).symm⟩

end Cut

/-- Without failing calls, a history of commands is one of `dispatch`. -/
theorem linearizable_plainCommands {map : Bytes → Option Bytes}
    {h : List (Atomicity.Event ℕ (List Bytes) Outcome)}
    (hlin : Atomicity.Linearizable (commands False) map h) :
    Atomicity.Linearizable plainCommands map h := by
  obtain ⟨a, hallows⟩ := hlin
  exact ⟨a, hallows.mono serves_iff_dispatch.mp cuts_dispatch⟩

/-! ## What an arm calls -/

/-- The mutations an arm may make are allowed. -/
def Program.Within (Ok : Mutation → Prop) : Program → Prop
  | .done _ => True
  | .get _ next => ∀ r, (next r).Within Ok
  | .mutate m next => Ok m ∧ ∀ r, (next r).Within Ok

/-- An arm behind this guard makes the calls that it allows. -/
def Guard.Covers : Guard → Program → Prop
  | .none, p => ∃ outcome, p = .done outcome
  | .read, p => p.Within fun _ => False
  | .write, _ => True

theorem getArm_covered (name : Bytes) (rest : List Bytes) :
    (getArm name rest).guard.Covers (getArm name rest).body := by
  match rest with
  | [] | _ :: _ :: _ => exact ⟨_, rfl⟩
  | [key] =>
      rintro (e | _ | value) <;> exact trivial

theorem setArm_covered (name : Bytes) (rest : List Bytes) :
    (setArm name rest).guard.Covers (setArm name rest).body := by
  match rest with
  | [] | [_] | _ :: _ :: _ :: _ => exact ⟨_, rfl⟩
  | [key, value] => exact trivial

theorem delArm_covered (name : Bytes) (rest : List Bytes) :
    (delArm name rest).guard.Covers (delArm name rest).body := by
  cases rest with
  | nil => exact ⟨_, rfl⟩
  | cons key keys => exact trivial

theorem arm_covered (args : List Bytes) :
    (arm args).guard.Covers (arm args).body := by
  cases args with
  | nil => exact ⟨_, rfl⟩
  | cons arg rest =>
      rw [arm]
      split_ifs
      · exact ⟨_, rfl⟩
      · exact ⟨_, rfl⟩
      · exact ⟨_, rfl⟩
      · exact ⟨_, rfl⟩
      · exact getArm_covered _ rest
      · exact setArm_covered _ rest
      · exact delArm_covered _ rest
      · exact ⟨_, rfl⟩

theorem delProgram_within {Ok : Mutation → Prop} {keys : List Bytes}
    (h : ∀ key ∈ keys, Ok (.delete key)) (removed : ℤ) :
    (delProgram keys removed).Within Ok := by
  induction keys generalizing removed with
  | nil => exact trivial
  | cons key keys ih =>
      obtain ⟨hkey, hkeys⟩ := List.forall_mem_cons.mp h
      rintro (e | _ | value)
      · exact trivial
      · exact ih hkeys removed
      · refine ⟨hkey, ?_⟩
        rintro (e | _)
        · exact trivial
        · exact ih hkeys (removed + 1)

theorem getArm_within {Ok : Mutation → Prop} (name : Bytes)
    (rest : List Bytes) : (getArm name rest).body.Within Ok := by
  match rest with
  | [] | _ :: _ :: _ => exact trivial
  | [key] =>
      rintro (e | _ | value) <;> exact trivial

theorem setArm_within {Ok : Mutation → Prop} (name : Bytes)
    {rest : List Bytes}
    (h : ∀ key ∈ rest, ∀ value ∈ rest, Ok (.insert key value)) :
    (setArm name rest).body.Within Ok := by
  match rest with
  | [] | [_] | _ :: _ :: _ :: _ => exact trivial
  | [key, value] =>
      refine ⟨h key (by simp) value (by simp), ?_⟩
      rintro (e | _) <;> exact trivial

/-- The mutations that a command may ask for are of its arguments. -/
theorem arm_within {Ok : Mutation → Prop} {args : List Bytes}
    (hinsert : ∀ key ∈ args, ∀ value ∈ args, Ok (.insert key value))
    (hdelete : ∀ key ∈ args, Ok (.delete key)) :
    (arm args).body.Within Ok := by
  cases args with
  | nil => exact trivial
  | cons arg rest =>
      rw [arm]
      split_ifs
      · exact trivial
      · exact trivial
      · exact trivial
      · exact trivial
      · exact getArm_within _ rest
      · refine setArm_within _ fun key hkey value hvalue => ?_
        exact hinsert key (List.mem_cons_of_mem _ hkey) value
          (List.mem_cons_of_mem _ hvalue)
      · cases rest with
        | nil => exact trivial
        | cons key keys =>
            exact delProgram_within (fun k hk =>
              hdelete k (List.mem_cons_of_mem _ hk)) 0
      · exact trivial

/-- Arguments within the limit for bulk strings fit into records. -/
theorem arm_within_fits {args : List Bytes}
    (h : ∀ arg ∈ args, (arg.length : ℤ) ≤ maxBulkLen) :
    (arm args).body.Within fun m => m.record.Fits := by
  apply arm_within
  · intro key hkey value hvalue
    have hk := h key hkey
    have hv := h value hvalue
    simp only [maxBulkLen] at hk hv
    simp only [Record.Fits, Mutation.record, payload_length, crcSize]
    omega
  · intro key hkey
    have hk := h key hkey
    simp only [maxBulkLen] at hk
    simp only [Record.Fits, Mutation.record, payload_length, crcSize,
      List.length_nil]
    omega

end Lsmrs
