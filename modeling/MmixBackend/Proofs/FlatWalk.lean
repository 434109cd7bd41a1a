import Mathlib.Logic.Function.Iterate
import MmixBackend.Proofs.FlatRun

/-!
# Flat code statement by statement

`Machine.run` tells what a run comes to. A *walk* tells where control is after each statement, which
labels it has come by and what the machine is like there. Where control is, is told by the
statements ahead of it.

* **`Walk.step`** — one statement.
* **`Walk.run_eq`** — a run with some amount of fuel is what a walk of as many statements has come
  to. So it runs out of fuel exactly if the walk is not at an end by then.
-/

namespace MmixBackend

namespace Flat

/-- Where control is in flat code. -/
inductive Place where
  | running (ahead : List Stmt)
  /-- Gone to a label that the code does not define. -/
  | left (l : Label)
  | failed (e : RunError)
  deriving DecidableEq

/-- Where a jump to a label leads. -/
def arrival (code : List Stmt) (l : Label) : Place :=
  match codeFrom l code with
  | some found => .running found
  | none => .left l

/-- A run of flat code on its way. -/
structure Walk where
  place : Place
  machine : Machine
  /-- The labels that control has come by, in order. -/
  reached : List Label

namespace Walk

variable {code : List Stmt} {w : Walk} {m : Machine}

/-- Carries out one statement. At an end, nothing happens. -/
def step (code : List Stmt) (w : Walk) : Walk :=
  match w.place with
  | .running (.label l :: rest) => { w with place := .running rest, reached := w.reached ++ [l] }
  | .running (.act a :: rest) =>
    match w.machine.act a with
    | (.ok (), m) => { w with place := .running rest, machine := m }
    | (.error e, m) => { w with place := .failed e, machine := m }
  | .running (.transfer t :: _) => { w with place := arrival code (w.machine.target t) }
  | _ => w

/-- At the start of the code. -/
def start (code : List Stmt) (m : Machine) : Walk := ⟨.running code, m, []⟩

/-- After `n` statements. -/
def after (code : List Stmt) (m : Machine) (n : Nat) : Walk := (step code)^[n] (start code m)

/-- What a walk has come to, if no further statement is carried out. -/
def outcome (limit : Nat) (w : Walk) : Machine.Outcome × Machine :=
  match w.place with
  | .running [] => (.ok none, w.machine)
  | .running (_ :: _) => (.error (.outOfFuel limit), w.machine)
  | .left l => (.ok (some l), w.machine)
  | .failed e => (.error e, w.machine)

/-- Control has no statement ahead. -/
def Ended (w : Walk) : Prop := ∀ s rest, w.place ≠ .running (s :: rest)

/-- A walk that has ended stays where it is. -/
theorem step_of_ended (h : w.Ended) : w.step code = w := by
  rw [step]
  split
  · next l rest hplace => exact absurd hplace (h _ _)
  · next a rest hplace => exact absurd hplace (h _ _)
  · next t rest hplace => exact absurd hplace (h _ _)
  · rfl

/-- However many more steps are taken, a walk that has ended stays where it is. -/
theorem iterate_of_ended (h : w.Ended) (n : Nat) : (step code)^[n] w = w := by
  induction n with
  | zero => rfl
  | succ n ih => rw [Function.iterate_succ_apply, step_of_ended h, ih]

theorem after_succ (code : List Stmt) (m : Machine) (n : Nat) :
    after code m (n + 1) = (after code m n).step code :=
  Function.iterate_succ_apply' _ _ _

variable {m₁ : Machine} {rest : List Stmt} {reached : List Label} {a : Action}

/-- An action that goes well leads to the statement behind it. -/
theorem step_act (h : m.act a = (.ok (), m₁)) :
    step code ⟨.running (.act a :: rest), m, reached⟩ = ⟨.running rest, m₁, reached⟩ := by
  simp only [step, h]

/-- An action that fails ends the walk with its error. -/
theorem step_fail {e : RunError} (h : m.act a = (.error e, m₁)) :
    step code ⟨.running (.act a :: rest), m, reached⟩ = ⟨.failed e, m₁, reached⟩ := by
  simp only [step, h]

/-- A transfer leads to wherever its label is defined, or out of the code. -/
theorem step_transfer (code : List Stmt) (t : Transfer) (rest : List Stmt) (m : Machine)
    (reached : List Label) :
    step code ⟨.running (.transfer t :: rest), m, reached⟩ =
      ⟨arrival code (m.target t), m, reached⟩ := rfl

/-- Running with some fuel is walking as many steps; what has not ended by then is out of fuel. -/
theorem runFrom_eq (code : List Stmt) (limit fuel pc : Nat) (m : Machine) (reached : List Label) :
    Machine.runFrom code.toArray (Machine.positions code) limit fuel pc m =
      ((step code)^[fuel] ⟨.running (code.drop pc), m, reached⟩).outcome limit := by
  induction fuel generalizing pc m reached with
  | zero =>
      rw [Machine.runFrom, List.getElem?_toArray]
      cases hs : code[pc]? with
      | none =>
          rw [List.drop_eq_nil_of_le (List.getElem?_eq_none_iff.mp hs)]
          rfl
      | some s =>
          rw [drop_eq_cons_iff.mpr ⟨hs, rfl⟩]
          rfl
  | succ fuel ih =>
      rw [Machine.runFrom, List.getElem?_toArray]
      cases hs : code[pc]? with
      | none =>
          -- the end of the code: steps beyond it change nothing
          rw [List.drop_eq_nil_of_le (List.getElem?_eq_none_iff.mp hs), iterate_of_ended]
          · rfl
          · rintro s rest ⟨⟩
      | some s =>
          rw [Function.iterate_succ_apply, drop_eq_cons_iff.mpr ⟨hs, rfl⟩]
          cases s with
          | label l => exact ih (pc + 1) m (reached ++ [l])
          | act a =>
              cases ha : m.act a with
              | mk r m₁ =>
                  cases r with
                  | ok u =>
                      rw [step_act ha]
                      simp only [ha]
                      exact ih (pc + 1) m₁ reached
                  | error e =>
                      rw [step_fail ha, iterate_of_ended]
                      · simp only [ha]
                        rfl
                      · rintro s rest ⟨⟩
          | transfer t =>
              cases hp : (Machine.positions code)[m.target t]? with
              | some pc' =>
                  rw [step_transfer, arrival, Machine.codeFrom_of_positions hp]
                  simp only [hp]
                  exact ih pc' m reached
              | none =>
                  rw [step_transfer, arrival, Machine.codeFrom_of_not_positions hp,
                    iterate_of_ended]
                  · simp only [hp]
                    rfl
                  · rintro s rest ⟨⟩

/-- A run is what a walk has come to. -/
theorem run_eq (code : List Stmt) (m : Machine) (fuel : Nat) :
    m.run code fuel = (after code m fuel).outcome fuel :=
  runFrom_eq code fuel fuel 0 m []

/-- The machine that a run leaves behind is the one after as many steps of the walk. -/
theorem snd_run (code : List Stmt) (m : Machine) (n : Nat) :
    (m.run code n).2 = (after code m n).machine := by
  rw [run_eq, outcome]
  split <;> rfl

/-- A walk fails only by a division by zero. -/
theorem run_of_failed {n : Nat} {e : RunError} (h : (after code m n).place = .failed e) :
    (m.run code n).1 = .error .divisionByZero := by
  have herror : e = .divisionByZero := by
    induction n with
    | zero => cases h
    | succ n ih =>
        rw [after_succ, step] at h
        split at h
        · cases h
        · split at h
          · cases h
          · next hact =>
            cases h
            exact Machine.eq_divisionByZero_of_act hact
        · rw [arrival] at h
          split at h <;> cases h
        · exact ih h
  rw [run_eq, outcome, h, herror]

end Walk

end Flat

end MmixBackend
