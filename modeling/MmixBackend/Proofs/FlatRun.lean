import MmixBackend.Finite
import MmixBackend.Machine

/-!
# Runs of flat code as a relation

`Machine.run` counts its steps and keeps a position in an array. What a run comes to depends on
neither. This file says it without them:

* **`Flat.codeFrom`** — the code that control meets after a jump to a label.
* **`Machine.Halts`** — the code ahead, run from a machine, comes to an outcome. One rule for
  each way that one statement goes on.
* **`Machine.Stops`** — a run with some amount of fuel ends otherwise than by running out of it.
* **`stops_iff_halts`** — the two agree, so that a statement about runs is proved by induction
  on the rules.
-/

namespace MmixBackend

namespace Flat

/-- The code from the last definition of a label on. -/
def codeFrom (l : Label) : List Stmt → Option (List Stmt)
  | [] => none
  | s :: rest =>
    match codeFrom l rest with
    | some found => some found
    | none => if s = .label l then some (s :: rest) else none

/-- A statement that is not the label in question is passed over. -/
theorem codeFrom_cons_of_ne {l : Label} {s : Stmt} (hs : s ≠ .label l) (code : List Stmt) :
    codeFrom l (s :: code) = codeFrom l code := by
  rw [codeFrom, if_neg hs]
  cases codeFrom l code <;> rfl

@[simp] theorem codeFrom_act (l : Label) (a : Action) (code : List Stmt) :
    codeFrom l (.act a :: code) = codeFrom l code :=
  codeFrom_cons_of_ne (s := .act a) nofun code

@[simp] theorem codeFrom_transfer (l : Label) (t : Transfer) (code : List Stmt) :
    codeFrom l (.transfer t :: code) = codeFrom l code :=
  codeFrom_cons_of_ne (s := .transfer t) nofun code

/-- A label that nothing behind defines again is where its own code starts. -/
theorem codeFrom_label_of_none {l : Label} {code : List Stmt} (h : codeFrom l code = none) :
    codeFrom l (.label l :: code) = some (.label l :: code) := by
  rw [codeFrom, h]
  exact if_pos rfl

/-- The number of statements before the last definition of a label. -/
def lastPosition? (l : Label) : List Stmt → Option Nat
  | [] => none
  | s :: rest =>
    match lastPosition? l rest with
    | some i => some (i + 1)
    | none => if s = .label l then some 0 else none

/-- The code of a label starts at the last place where the label is defined. -/
theorem codeFrom_eq_drop (l : Label) (code : List Stmt) :
    codeFrom l code = (lastPosition? l code).map code.drop := by
  induction code with
  | nil => rfl
  | cons s rest ih =>
      rw [codeFrom, lastPosition?, ih]
      cases lastPosition? l rest with
      | some i => rfl
      | none =>
          by_cases hs : s = .label l
          · simp [hs]
          · simp [hs]

/-- What a jump finds starts with its label. -/
theorem head_of_codeFrom {l : Label} {code found : List Stmt} (h : codeFrom l code = some found) :
    ∃ rest, found = .label l :: rest := by
  induction code with
  | nil => cases h
  | cons s rest ih =>
      rw [codeFrom] at h
      cases hr : codeFrom l rest with
      | some found' =>
          rw [hr] at h
          obtain rfl : found' = found := Option.some.inj h
          exact ih hr
      | none =>
          rw [hr] at h
          by_cases hs : s = .label l
          · rw [if_pos hs] at h
            exact ⟨rest, by rw [← hs]; exact (Option.some.inj h).symm⟩
          · rw [if_neg hs] at h
            cases h

/-- A jump finds code exactly where the label is defined. -/
theorem codeFrom_eq_none_iff {l : Label} {code : List Stmt} :
    codeFrom l code = none ↔ Stmt.label l ∉ code := by
  induction code with
  | nil => simp [codeFrom]
  | cons s rest ih =>
      rw [codeFrom, List.mem_cons, not_or, ← ih]
      cases hr : codeFrom l rest with
      | some found => simp
      | none =>
          by_cases hs : s = .label l
          · simp [hs]
          · simp [hs, Ne.symm hs]

/-- What a jump finds is an end of the code. -/
theorem suffix_of_codeFrom {l : Label} {code found : List Stmt} (h : codeFrom l code = some found) :
    found <:+ code := by
  rw [codeFrom_eq_drop] at h
  obtain ⟨i, -, rfl⟩ := Option.map_eq_some_iff.mp h
  exact List.drop_suffix i code

end Flat

namespace Machine

open Flat

-- ── The positions of labels ──────────────────────────────────────────────────

/-- Collecting positions keeps the last one of each label. -/
theorem getElem?_foldl_positions (l : Label) (code : List Stmt) (k : Nat) (m : LabelMap Nat) :
    ((code.zipIdx k).foldl (fun m (p : Stmt × Nat) =>
        match p.1 with
        | .label l => m.insert l p.2
        | _ => m) m)[l]? =
      match lastPosition? l code with
      | some i => some (k + i)
      | none => m[l]? := by
  induction code generalizing k m with
  | nil => rfl
  | cons s rest ih =>
      rw [List.zipIdx_cons, List.foldl_cons, ih, lastPosition?]
      cases lastPosition? l rest with
      | some i =>
          show some (k + 1 + i) = some (k + (i + 1))
          rw [Nat.add_assoc, Nat.add_comm 1 i]
      | none =>
          cases s with
          | label l' =>
              by_cases hl : l' = l
              · simp [hl]
              · simp [hl, Std.ExtTreeMap.getElem?_insert]
          | act a => simp
          | transfer t => simp

/-- The table that a run looks its labels up in holds their last positions. -/
theorem getElem?_positions (l : Label) (code : List Stmt) :
    (positions code)[l]? = lastPosition? l code := by
  have h := getElem?_foldl_positions l code 0 ∅
  rw [positions]
  refine h.trans ?_
  cases lastPosition? l code with
  | some i => simp
  | none => simp

/-- The only error of an action is a division by zero. -/
theorem eq_divisionByZero_of_act {m m' : Machine} {a : Action} {e : RunError}
    (h : m.act a = (.error e, m')) : e = .divisionByZero := by
  cases a with
  | store addr src => cases h
  | call f args => cases h
  | move dst r =>
      rw [act] at h
      cases r with
      | binop op x y =>
          simp only [rhs] at h
          cases hv : op.value? (m.atom x).1 ((m.atom x).2.atom y).1 with
          | some value => simp [hv] at h
          | none =>
              simp only [hv] at h
              exact (Except.error.inj (Prod.mk.inj h).1).symm
      | _ => cases h

/-- An action never fails for want of fuel; only a run does. -/
theorem act_ne_outOfFuel (m : Machine) (a : Action) (limit : Nat) (m' : Machine) :
    m.act a ≠ (.error (.outOfFuel limit), m') := by
  intro h
  cases eq_divisionByZero_of_act h

-- ── Halting ──────────────────────────────────────────────────────────────────

/-- How a run of flat code ends. -/
abbrev Outcome := Except RunError (Option Label)

/-- Inside `code`, the statements ahead come to an outcome and leave a machine behind. -/
inductive Halts (code : List Stmt) : List Stmt → Machine → Outcome → Machine → Prop where
  /-- Control runs off the end. -/
  | nil (m : Machine) : Halts code [] m (.ok none) m
  | label {l : Label} {ahead : List Stmt} {m m' : Machine} {r : Outcome} :
      Halts code ahead m r m' → Halts code (.label l :: ahead) m r m'
  | act {a : Action} {ahead : List Stmt} {m m₁ m' : Machine} {r : Outcome} :
      m.act a = (.ok (), m₁) → Halts code ahead m₁ r m' → Halts code (.act a :: ahead) m r m'
  | fail {a : Action} {ahead : List Stmt} {m m' : Machine} {e : RunError} :
      m.act a = (.error e, m') → Halts code (.act a :: ahead) m (.error e) m'
  /-- Control goes on at a label of the code. -/
  | jump {t : Transfer} {ahead found : List Stmt} {m m' : Machine} {r : Outcome} :
      codeFrom (m.target t) code = some found → Halts code found m r m' →
        Halts code (.transfer t :: ahead) m r m'
  /-- Control leaves for a label that the code does not define. -/
  | leave {t : Transfer} {ahead : List Stmt} {m : Machine} :
      codeFrom (m.target t) code = none →
        Halts code (.transfer t :: ahead) m (.ok (some (m.target t))) m

/-- A run of the code ends, otherwise than by running out of fuel. -/
def Stops (m : Machine) (code : List Stmt) (r : Outcome) (m' : Machine) : Prop :=
  ∃ fuel, m.run code fuel = (r, m') ∧ ∀ limit, r ≠ .error (.outOfFuel limit)

theorem halts_label_iff {code ahead : List Stmt} {l : Label} {m m' : Machine} {r : Outcome} :
    Halts code (.label l :: ahead) m r m' ↔ Halts code ahead m r m' := by
  constructor
  · intro h
    cases h with
    | label h => exact h
  · exact Halts.label

-- ── Runs and halting agree ───────────────────────────────────────────────────

/-- The position that a jump goes to is where the code that it finds starts. -/
theorem codeFrom_of_positions {code : List Stmt} {l : Label} {pc : Nat}
    (h : (positions code)[l]? = some pc) : codeFrom l code = some (code.drop pc) := by
  rw [getElem?_positions] at h
  rw [codeFrom_eq_drop, h]
  rfl

/-- A label without a position has no code. -/
theorem codeFrom_of_not_positions {code : List Stmt} {l : Label}
    (h : (positions code)[l]? = none) : codeFrom l code = none := by
  rw [getElem?_positions] at h
  rw [codeFrom_eq_drop, h]
  rfl

/-- A run that ends, otherwise than by running out of fuel, halts. -/
theorem halts_of_runFrom {code : List Stmt} {limit fuel pc : Nat} {m m' : Machine} {r : Outcome}
    (h : runFrom code.toArray (positions code) limit fuel pc m = (r, m'))
    (hr : r ≠ .error (.outOfFuel limit)) : Halts code (code.drop pc) m r m' := by
  induction fuel generalizing pc m with
  | zero =>
      rw [runFrom, List.getElem?_toArray] at h
      cases hs : code[pc]? with
      | none =>
          rw [hs] at h
          obtain ⟨rfl, rfl⟩ := Prod.mk.inj h
          rw [List.drop_eq_nil_of_le (List.getElem?_eq_none_iff.mp hs)]
          exact Halts.nil m
      | some s =>
          rw [hs] at h
          -- there is a statement but no fuel
          exact absurd (Prod.mk.inj h).1.symm hr
  | succ fuel ih =>
      rw [runFrom, List.getElem?_toArray] at h
      cases hs : code[pc]? with
      | none =>
          rw [hs] at h
          obtain ⟨rfl, rfl⟩ := Prod.mk.inj h
          rw [List.drop_eq_nil_of_le (List.getElem?_eq_none_iff.mp hs)]
          exact Halts.nil m
      | some s =>
          rw [hs] at h
          rw [drop_eq_cons_iff.mpr ⟨hs, rfl⟩]
          cases s with
          | label l => exact Halts.label (ih h)
          | act a =>
              simp only at h
              split at h
              · next m₁ ha => exact Halts.act ha (ih h)
              · next e m₁ ha =>
                obtain ⟨rfl, rfl⟩ := Prod.mk.inj h
                exact Halts.fail ha
          | transfer t =>
              simp only at h
              split at h
              · next pc' hpc => exact Halts.jump (codeFrom_of_positions hpc) (ih h)
              · next hpc =>
                obtain ⟨rfl, rfl⟩ := Prod.mk.inj h
                exact Halts.leave (codeFrom_of_not_positions hpc)

/-- Code that halts is run to its end by any large enough amount of fuel. -/
theorem runFrom_of_halts {code ahead : List Stmt} {m m' : Machine} {r : Outcome}
    (h : Halts code ahead m r m') :
    ∀ pc, code.drop pc = ahead → ∃ n, ∀ fuel, n ≤ fuel → ∀ limit,
      runFrom code.toArray (positions code) limit fuel pc m = (r, m') := by
  induction h with
  | nil m =>
      intro pc hpc
      refine ⟨0, ?_⟩
      intro fuel _ limit
      rw [runFrom, List.getElem?_toArray,
        List.getElem?_eq_none_iff.mpr (List.drop_eq_nil_iff.mp hpc)]
  | label _ ih =>
      intro pc hpc
      obtain ⟨hs, hpc'⟩ := drop_eq_cons_iff.mp hpc
      obtain ⟨n, hn⟩ := ih (pc + 1) hpc'
      refine ⟨n + 1, ?_⟩
      intro fuel hfuel limit
      obtain ⟨fuel, rfl⟩ : ∃ k, fuel = k + 1 := ⟨fuel - 1, by omega⟩
      rw [runFrom, List.getElem?_toArray, hs]
      exact hn fuel (by omega) limit
  | act ha _ ih =>
      intro pc hpc
      obtain ⟨hs, hpc'⟩ := drop_eq_cons_iff.mp hpc
      obtain ⟨n, hn⟩ := ih (pc + 1) hpc'
      refine ⟨n + 1, ?_⟩
      intro fuel hfuel limit
      obtain ⟨fuel, rfl⟩ : ∃ k, fuel = k + 1 := ⟨fuel - 1, by omega⟩
      rw [runFrom, List.getElem?_toArray, hs]
      simp only [ha]
      exact hn fuel (by omega) limit
  | fail ha =>
      intro pc hpc
      obtain ⟨hs, -⟩ := drop_eq_cons_iff.mp hpc
      refine ⟨1, ?_⟩
      intro fuel hfuel limit
      obtain ⟨fuel, rfl⟩ : ∃ k, fuel = k + 1 := ⟨fuel - 1, by omega⟩
      rw [runFrom, List.getElem?_toArray, hs]
      simp only [ha]
  | @jump t _ _ m _ _ hfound _ ih =>
      intro pc hpc
      obtain ⟨hs, -⟩ := drop_eq_cons_iff.mp hpc
      cases hp : (positions code)[m.target t]? with
      | none =>
          rw [codeFrom_of_not_positions hp] at hfound
          cases hfound
      | some pc' =>
          rw [codeFrom_of_positions hp] at hfound
          -- the rest is run from where the label stands, with one step less
          obtain ⟨n, hn⟩ := ih pc' (Option.some.inj hfound)
          refine ⟨n + 1, ?_⟩
          intro fuel hfuel limit
          obtain ⟨fuel, rfl⟩ : ∃ k, fuel = k + 1 := ⟨fuel - 1, by omega⟩
          rw [runFrom, List.getElem?_toArray, hs]
          simp only [hp]
          exact hn fuel (by omega) limit
  | @leave t _ m hfound =>
      intro pc hpc
      obtain ⟨hs, -⟩ := drop_eq_cons_iff.mp hpc
      have hp : (positions code)[m.target t]? = none := by
        cases hp : (positions code)[m.target t]? with
        | none => rfl
        | some pc' =>
            rw [codeFrom_of_positions hp] at hfound
            cases hfound
      refine ⟨1, ?_⟩
      intro fuel hfuel limit
      obtain ⟨fuel, rfl⟩ : ∃ k, fuel = k + 1 := ⟨fuel - 1, by omega⟩
      rw [runFrom, List.getElem?_toArray, hs]
      simp only [hp]

/-- With enough fuel, a run of code that halts comes to its outcome. -/
theorem run_of_halts {code : List Stmt} {m m' : Machine} {r : Outcome}
    (h : Halts code code m r m') : ∃ n, ∀ fuel, n ≤ fuel → m.run code fuel = (r, m') := by
  obtain ⟨n, hn⟩ := runFrom_of_halts h 0 rfl
  exact ⟨n, fun fuel hfuel => hn fuel hfuel fuel⟩

/-- Halting never is running out of fuel. -/
theorem Halts.ne_outOfFuel {code ahead : List Stmt} {m m' : Machine} {r : Outcome}
    (h : Halts code ahead m r m') (limit : Nat) : r ≠ .error (.outOfFuel limit) := by
  induction h with
  | nil m => exact nofun
  | label _ ih => exact ih
  | act _ _ ih => exact ih
  | @fail a _ m m' e ha =>
      intro he
      obtain rfl : e = .outOfFuel limit := Except.error.inj he
      exact absurd ha (act_ne_outOfFuel m a limit m')
  | jump _ _ ih => exact ih
  | leave _ => exact nofun

/-- The runs that stop are those that halt. -/
theorem stops_iff_halts {code : List Stmt} {m m' : Machine} {r : Outcome} :
    m.Stops code r m' ↔ Halts code code m r m' := by
  constructor
  · rintro ⟨fuel, hrun, hr⟩
    exact halts_of_runFrom hrun (hr fuel)
  · intro h
    obtain ⟨n, hn⟩ := run_of_halts h
    exact ⟨n, hn n (Nat.le_refl n), h.ne_outOfFuel⟩

end Machine

end MmixBackend
