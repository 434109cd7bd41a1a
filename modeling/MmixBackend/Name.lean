import Std.Data.ExtTreeMap
import Std.Data.ExtTreeSet

/-!
# Temporaries, labels and the supply of fresh ones

Code refers to values by *temporaries* and to places in code or data by *labels*. Both are
plain names with a total order, so that finite sets and maps of them are listed in one fixed
order:

* temporaries are ordered by number;
* a label chosen by a front end comes before every label minted here; named labels are
  ordered by their text and minted ones by number.

A `Supply` counts how many names of each sort were handed out. It is an ordinary value: a
pass takes the supply it starts from and gives back the one it ends with.
-/

namespace MmixBackend

-- ── Temporaries ──────────────────────────────────────────────────────────────

/-- A virtual register. -/
structure Temp where
  index : Nat
  deriving DecidableEq, Inhabited, Repr

namespace Temp

instance : Ord Temp := ⟨fun a b => compare a.index b.index⟩

theorem compare_eq (a b : Temp) : compare a b = compare a.index b.index := rfl

instance : Std.TransOrd Temp where
  eq_swap := Nat.compare_swap _ _ |>.symm
  isLE_trans {a b c} := by
    simp only [compare_eq, Nat.isLE_compare]
    exact Nat.le_trans

instance : Std.LawfulEqOrd Temp where
  compare_self := Nat.compare_eq_eq.mpr rfl
  eq_of_compare {a b} h := by
    cases a; cases b
    exact congrArg mk (Nat.compare_eq_eq.mp h)

/-- How a temporary is written where no register was assigned to it. -/
def text (t : Temp) : String := "T" ++ toString t.index

end Temp

/-- A finite set of temporaries. -/
abbrev TempSet := Std.ExtTreeSet Temp

/-- A finite map from temporaries. -/
abbrev TempMap (β : Type) := Std.ExtTreeMap Temp β

-- ── Labels ───────────────────────────────────────────────────────────────────

/-- A symbolic jump target or data address. -/
inductive Label where
  /-- Chosen outside: function entries, globals, runtime routines. -/
  | named (name : String)
  /-- Minted by a `Supply`. -/
  | fresh (index : Nat)
  deriving DecidableEq, Inhabited, Repr

namespace Label

/-- Named labels first, by text; minted labels after them, by number. -/
def order : Label → Label → Ordering
  | .named a, .named b => compare a b
  | .named _, .fresh _ => .lt
  | .fresh _, .named _ => .gt
  | .fresh a, .fresh b => compare a b

instance : Ord Label := ⟨order⟩

theorem compare_eq (a b : Label) : compare a b = order a b := rfl

instance : Std.TransOrd Label where
  eq_swap {a b} := by
    cases a <;> cases b <;> simp only [compare_eq, order]
    · exact Std.OrientedOrd.eq_swap
    · rfl
    · rfl
    · exact Std.OrientedOrd.eq_swap
  isLE_trans {a b c} h h' := by
    cases a <;> cases b <;> cases c <;> simp only [compare_eq, order] at *
    all_goals first | exact Std.TransOrd.isLE_trans h h' | contradiction | rfl

instance : Std.LawfulEqOrd Label where
  compare_self := Std.ReflOrd.compare_self
  eq_of_compare {a b} h := by
    cases a <;> cases b <;> simp [compare_eq, order] at h
    · exact congrArg _ h
    · exact congrArg _ h

/-- How a label is written. A named and a minted label may be written alike. -/
def text : Label → String
  | .named name => name
  | .fresh index => "L" ++ toString index

end Label

/-- A finite set of labels. -/
abbrev LabelSet := Std.ExtTreeSet Label

/-- A finite map from labels. -/
abbrev LabelMap (β : Type) := Std.ExtTreeMap Label β

-- ── The supply ───────────────────────────────────────────────────────────────

/-- How many temporaries and labels have been handed out. -/
structure Supply where
  temps : Nat := 0
  labels : Nat := 0
  deriving DecidableEq, Inhabited, Repr

namespace Supply

/-- The next temporary. -/
def freshTemp (s : Supply) : Temp × Supply := (⟨s.temps⟩, { s with temps := s.temps + 1 })

/-- The next label. -/
def freshLabel (s : Supply) : Label × Supply := (.fresh s.labels, { s with labels := s.labels + 1 })

/-- Hands out `temps` temporaries and `labels` labels that nobody uses. -/
def skip (temps labels : Nat) (s : Supply) : Supply :=
  { temps := s.temps + temps, labels := s.labels + labels }

end Supply

end MmixBackend
