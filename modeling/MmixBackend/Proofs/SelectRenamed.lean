import MmixBackend.Instr.Select
import MmixBackend.Proofs.Renaming

/-!
# Selection under other names

Selection compares a destination with the temporary that is moved to it, and a target with the label
that comes next. Under other names it finds the same and selects the same instructions.

* **`mirrors_rhs`**, **`mirrors_stmt`** — by cases of what is selected.
* **`mirrors_select`** — the code of a function.
-/

namespace MmixBackend

variable {ρ : Renaming} {d : Supply}

-- ── Single instructions ──────────────────────────────────────────────────────

theorem addPart_rename (magnitude : Nat) (dst : Temp) (part : Part) :
    (addPart magnitude dst part).map (Instr.rename ρ) = addPart magnitude (ρ.temp dst) part := by
  rw [addPart, addPart]
  split <;> rfl

/-- Loading a constant does not depend on the names. -/
theorem loadConst_rename (value : Word) (dst : Temp) :
    (loadConst value dst).map (Instr.rename ρ) = loadConst value (ρ.temp dst) := by
  have hnegate : (if value < 0 then [Instr.plain .negate [dst] [dst]] else []).map
      (Instr.rename ρ) =
        if value < 0 then [Instr.plain .negate [ρ.temp dst] [ρ.temp dst]] else [] := by
    split <;> rfl
  simp only [loadConst, List.map_append, List.map_cons, addPart_rename, hnegate]
  rfl

namespace Select

open Flat

/-- Passing arguments does not depend on the names. -/
theorem storeArgs_rename (i : Nat) (args : List Temp) :
    (storeArgs i args).map (Instr.rename ρ) = storeArgs i (args.map ρ.temp) := by
  induction args generalizing i with
  | nil => rfl
  | cons arg args ih =>
    exact congrArg (Instr.plain (.storeArg i) [ρ.temp arg] [] :: ·) (ih (i + 1))

/-- A call does not depend on the names. -/
theorem call_rename (keep : Nat) (f : Label) (args : List Temp) (dst : Option Temp) :
    (call keep f args dst).map (Instr.rename ρ) =
      call keep (ρ.label f) (args.map ρ.temp) (dst.map ρ.temp) := by
  simp only [call, List.map_append, storeArgs_rename]
  cases dst <;> rfl

-- ── Operands and operations ──────────────────────────────────────────────────

theorem mirrors_write_of_eq {items items' : List Instr}
    (h : items.map (Instr.rename ρ) = items') :
    Mirrors ρ d (Instr.rename ρ) id (Emit.write items) (Emit.write items') :=
  h ▸ mirrors_write items

/-- The destination, or else a fresh temporary, has its new name further on. -/
theorem mirrors_orFresh (dst : Option Temp) :
    Mirrors ρ d (Instr.rename ρ) ρ.temp (orFresh dst) (orFresh (dst.map ρ.temp)) := by
  cases dst with
  | none => exact mirrors_freshTemp
  | some t => exact mirrors_pure t

/-- Selecting for an operator does not depend on the names. -/
theorem mirrors_compute (dst x y : Temp) (scheme : Scheme) :
    Mirrors ρ d (Instr.rename ρ) id (compute dst x y scheme)
      (compute (ρ.temp dst) (ρ.temp x) (ρ.temp y) scheme) := by
  cases scheme with
  | direct op => exact mirrors_write _
  | remainder => exact mirrors_freshTemp.bind fun quotient => mirrors_write _
  | relation yes no => exact mirrors_freshTemp.bind fun cmp => mirrors_write _

variable [KeepsOrder ρ.temp]

/-- Selecting for an atom does not depend on the names. -/
theorem mirrors_atom (a : Atom) (dst : Option Temp) :
    Mirrors ρ d (Instr.rename ρ) ρ.temp (atom a dst) (atom (a.rename ρ) (dst.map ρ.temp)) := by
  cases a with
  | temp t =>
    cases dst with
    | none => exact mirrors_pure t
    | some dst =>
      rw [Atom.rename, Option.map_some, atom, atom]
      simp only [Renaming.temp_eq_iff]
      split
      · exact mirrors_pure t
      · exact (mirrors_write [Instr.copy dst t]).bind fun _ => mirrors_pure dst
  | const value =>
    exact (mirrors_orFresh dst).bind fun dst =>
      (mirrors_write_of_eq (loadConst_rename value dst)).bind fun _ => mirrors_pure dst
  | name l =>
    exact (mirrors_orFresh dst).bind fun dst =>
      (mirrors_write [Instr.plain (.loadAddress l) [] [dst]]).bind fun _ => mirrors_pure dst

/-- Selecting for a right-hand side does not depend on the names. -/
theorem mirrors_rhs (keep : Nat) (r : Rhs) (dst : Option Temp) :
    Mirrors ρ d (Instr.rename ρ) ρ.temp (rhs keep r dst)
      (rhs keep (r.rename ρ) (dst.map ρ.temp)) := by
  cases r with
  | atom a => exact mirrors_atom a dst
  | binop op x y =>
    exact (mirrors_atom x none).bind fun x => (mirrors_atom y none).bind fun y =>
      (mirrors_orFresh dst).bind fun dst =>
        (mirrors_compute dst x y (scheme op)).bind fun _ => mirrors_pure dst
  | unop op x =>
    refine (mirrors_atom x none).bind fun x => (mirrors_orFresh dst).bind fun dst => ?_
    cases op with
    | neg => exact (mirrors_write [Instr.plain .negate [x] [dst]]).bind fun _ => mirrors_pure dst
    | not => exact (mirrors_write [Instr.plain .flip [x] [dst]]).bind fun _ => mirrors_pure dst
  | load addr =>
    exact (mirrors_atom addr none).bind fun base => (mirrors_orFresh dst).bind fun dst =>
      (mirrors_write [Instr.plain .load [base] [dst]]).bind fun _ => mirrors_pure dst
  | call f args =>
    exact (mirrors_orFresh dst).bind fun dst =>
      (mirrors_write_of_eq (call_rename keep f args (some dst))).bind fun _ => mirrors_pure dst

-- ── Statements ───────────────────────────────────────────────────────────────

variable [KeepsOrder ρ.label]

omit [KeepsOrder ρ.temp] in
/-- A target comes next, or it does not. -/
theorem label_next_iff (next : Option Stmt) (l : Label) :
    next.map (Stmt.rename ρ) = some (.label (ρ.label l)) ↔ next = some (.label l) := by
  constructor
  · intro h
    obtain ⟨st, hst, heq⟩ := Option.map_eq_some_iff.mp h
    cases st with
    | label l' =>
      obtain rfl := Renaming.label_eq_iff.mp (Stmt.label.inj heq)
      exact hst
    | act a => cases heq
    | transfer t => cases heq
  · rintro rfl
    rfl

/-- Selecting for a statement does not depend on the names. -/
theorem mirrors_stmt (keep : Nat) (next : Option Stmt) (st : Stmt) :
    Mirrors ρ d (Instr.rename ρ) id (stmt keep next st)
      (stmt keep (next.map (Stmt.rename ρ)) (st.rename ρ)) := by
  cases st with
  | label l => exact mirrors_write _
  | transfer t =>
    cases t with
    | jump target => exact mirrors_write _
    | branch cond ifTrue ifFalse =>
      refine (mirrors_write [Instr.branch (.branchNonZero ifTrue) [cond] ifTrue]).bind fun _ => ?_
      simp only [ne_eq, label_next_iff]
      split
      · exact mirrors_write [Instr.jump ifFalse]
      · exact mirrors_pure ()
  | act a =>
    cases a with
    | move dst r => exact (mirrors_rhs keep r (some dst)).bind fun _ => mirrors_pure ()
    | store addr src =>
      exact (mirrors_atom src none).bind fun src => (mirrors_atom addr none).bind fun base =>
        mirrors_write [Instr.plain .store [src, base] []]
    | call f args => exact mirrors_write_of_eq (call_rename keep f args none)

/-- Selecting for statements does not depend on the names. By induction on the list. -/
theorem mirrors_stmts (keep : Nat) (sts : List Stmt) :
    Mirrors ρ d (Instr.rename ρ) id (stmts keep sts) (stmts keep (sts.map (Stmt.rename ρ))) := by
  induction sts with
  | nil => exact mirrors_pure ()
  | cons st sts ih =>
    rw [List.map_cons, stmts, stmts, List.head?_map]
    exact (mirrors_stmt keep sts.head? st).bind fun _ => ih

end Select

/-- The code of a function. -/
theorem Flat.Function.mirrors_select [KeepsOrder ρ.temp] [KeepsOrder ρ.label] {ω : Type}
    {item : ω → ω} (keep : Nat) (f : Flat.Function) :
    Mirrors ρ d item (Code.rename ρ) (f.select keep : Emit ω Code) ((f.rename ρ).select keep) := by
  refine (Select.mirrors_stmts keep f.stmts).collect.bind fun p => ?_
  have hempty : imageMap ρ.temp id (∅ : TempMap Nat) = ∅ := imageMap_empty
  exact mirrors_pure_of_eq (congrArg (Code.mk _ _ _ _ · _) hempty)

end MmixBackend
