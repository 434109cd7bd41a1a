import MmixBackend.Proofs.SpillBlocks

/-!
# The instructions that selection makes

Selected instructions are modest: they read at most two temporaries and write at most one, and one
that jumps reads at most one and writes none. They mention temporaries of the statements and fresh
ones, and no others.

* **`Tidy.bind`** — one step of selection after another.
* **`tidy_rhs`**, **`tidy_stmt`** — by cases of what is selected.
* **`modest_select`** — the code of a function.
-/

namespace MmixBackend

-- ── The temporaries of flat code ─────────────────────────────────────────────

namespace Flat

/-- The temporaries that an atom mentions. -/
def Atom.temps : Atom → List Temp
  | .const _ => []
  | .temp t => [t]
  | .name _ => []

/-- The temporaries that a right-hand side mentions. -/
def Rhs.temps : Rhs → List Temp
  | .atom a => a.temps
  | .binop _ x y => x.temps ++ y.temps
  | .unop _ x => x.temps
  | .load addr => addr.temps
  | .call _ args => args

/-- The temporaries that an action mentions. -/
def Action.temps : Action → List Temp
  | .move dst r => dst :: r.temps
  | .store addr src => addr.temps ++ src.temps
  | .call _ args => args

/-- The temporaries that a transfer mentions. -/
def Transfer.temps : Transfer → List Temp
  | .jump _ => []
  | .branch cond _ _ => [cond]

/-- The temporaries that a statement mentions. -/
def Stmt.temps : Stmt → List Temp
  | .label _ => []
  | .act a => a.temps
  | .transfer t => t.temps

end Flat

namespace Select

open Flat Spill

variable {α β : Type} {s : Supply} {i : Instr} {t x y dst : Temp}

-- ── Single instructions ──────────────────────────────────────────────────────

/-- The instruction is modest and its temporaries are numbered below `n`. -/
def ModestBelow (n : Nat) (i : Instr) : Prop := i.Modest ∧ ∀ t, Touches t i → t.index < n

/-- More temporaries may be handed out later. -/
theorem ModestBelow.mono {n m : Nat} (h : ModestBelow n i) (hle : n ≤ m) : ModestBelow m i :=
  ⟨h.1, fun t ht => (h.2 t ht).trans_le hle⟩

/-- An operation with at most two sources and one destination is modest. -/
theorem below_plain {n : Nat} {op : Operation} {uses defs : List Temp} (huses : uses.length ≤ 2)
    (hdefs : defs.length ≤ 1) (h : ∀ t ∈ uses ++ defs, t.index < n) :
    ModestBelow n (.plain op uses defs) :=
  ⟨⟨huses, hdefs, fun h => absurd rfl h⟩, fun t ht => h t (List.mem_append.mpr ht)⟩

theorem below_branch {n : Nat} {op : Operation} {uses : List Temp} {l : Label}
    (huses : uses.length ≤ 1) (h : ∀ t ∈ uses, t.index < n) :
    ModestBelow n (.branch op uses l) := by
  refine ⟨⟨huses.trans (Nat.le_succ 1), Nat.zero_le 1, fun _ => ⟨huses, rfl⟩⟩, ?_⟩
  rintro t (ht | ht)
  · exact h t ht
  · cases ht

theorem below_jump (n : Nat) (l : Label) : ModestBelow n (.jump l) := by
  refine ⟨⟨Nat.zero_le 2, Nat.zero_le 1, fun _ => ⟨Nat.zero_le 1, rfl⟩⟩, ?_⟩
  rintro t (ht | ht) <;> cases ht

theorem below_label (n : Nat) (l : Label) : ModestBelow n (.label l) := by
  refine ⟨⟨Nat.zero_le 2, Nat.zero_le 1, fun h => absurd rfl h⟩, ?_⟩
  rintro t (ht | ht) <;> cases ht

theorem below_copy {n : Nat} (hdst : dst.index < n) (ht : t.index < n) :
    ModestBelow n (.copy dst t) := by
  refine ⟨⟨Nat.le_succ 1, Nat.le_refl 1, fun h => absurd rfl h⟩, ?_⟩
  rintro u (hu | hu)
  · exact List.mem_singleton.mp hu ▸ ht
  · exact List.mem_singleton.mp hu ▸ hdst

/-- The instructions for a constant mention its destination only. -/
theorem below_loadConst {n : Nat} {value : Word} (hdst : dst.index < n)
    (hi : i ∈ loadConst value dst) : ModestBelow n i := by
  have hchange : ∀ op, ModestBelow n (.plain op [dst] [dst]) := by
    intro op
    exact below_plain (Nat.le_succ 1) (Nat.le_refl 1) (by simp [hdst])
  rcases mem_loadConst hi with ⟨field, -, rfl⟩ | ⟨part, field, -, rfl⟩ | rfl
  · exact below_plain (Nat.zero_le 2) (Nat.le_refl 1) (by simp [hdst])
  · exact hchange _
  · exact hchange _

/-- The instructions that pass arguments mention these only. -/
theorem below_storeArgs {n : Nat} {args : List Temp} (hargs : ∀ t ∈ args, t.index < n) (k : Nat)
    (hi : i ∈ storeArgs k args) : ModestBelow n i := by
  induction args generalizing k with
  | nil => cases hi
  | cons arg args ih =>
      rcases List.mem_cons.mp hi with rfl | hi
      · refine below_plain (Nat.le_succ 1) (Nat.zero_le 1) ?_
        intro t ht
        exact hargs t (List.mem_cons.mpr (.inl (List.mem_singleton.mp ht)))
      · exact ih (fun t ht => hargs t (List.mem_cons_of_mem _ ht)) (k + 1) hi

/-- The instructions for a call mention its arguments and its destination only. -/
theorem below_call {n keep : Nat} {f : Label} {args : List Temp} {dst : Option Temp}
    (hargs : ∀ t ∈ args, t.index < n) (hdst : ∀ t ∈ dst, t.index < n)
    (hi : i ∈ call keep f args dst) : ModestBelow n i := by
  unfold call at hi
  rw [List.mem_append, List.mem_append] at hi
  rcases hi with (hi | hi) | hi
  · exact below_storeArgs hargs 0 hi
  · rw [List.mem_singleton.mp hi]
    exact below_branch (Nat.zero_le 1) fun t ht => absurd ht List.not_mem_nil
  · cases dst with
    | none => cases hi
    | some dst =>
        rw [List.mem_singleton.mp hi]
        exact below_plain (Nat.zero_le 2) (Nat.le_refl 1) (by simp [hdst dst rfl])

-- ── Steps of selection ───────────────────────────────────────────────────────

/-- A step of selection from supply `s` has emitted modest instructions on temporaries that were
    handed out by then. -/
structure Tidy (s : Supply) (r : Emitted Instr α) : Prop where
  grows : s.temps ≤ r.supply.temps
  code : ∀ i ∈ r.code, ModestBelow r.supply.temps i

theorem tidy_pure (a : α) (s : Supply) : Tidy s ((pure a : Emit Instr α).run s) :=
  ⟨Nat.le_refl _, fun _ hi => absurd hi List.not_mem_nil⟩

/-- Handing out a fresh temporary is tidy. -/
theorem tidy_freshTemp (s : Supply) : Tidy s ((Emit.freshTemp : Emit Instr Temp).run s) :=
  ⟨Nat.le_succ _, fun _ hi => absurd hi List.not_mem_nil⟩

/-- Writing modest instructions is tidy. -/
theorem tidy_write {items : List Instr} (h : ∀ i ∈ items, ModestBelow s.temps i) :
    Tidy s ((Emit.write items).run s) :=
  ⟨Nat.le_refl _, h⟩

theorem tidy_write_one (h : ModestBelow s.temps i) : Tidy s ((Emit.write [i]).run s) :=
  tidy_write fun _ hj => List.mem_singleton.mp hj ▸ h

/-- What the first step has emitted stays tidy, since names are only ever taken. -/
theorem Tidy.bind {m : Emit Instr α} {f : α → Emit Instr β} (hm : Tidy s (m.run s))
    (hf : Tidy (m.run s).supply ((f (m.run s).value).run (m.run s).supply)) :
    Tidy s ((m >>= f).run s) := by
  rw [Emit.run_bind]
  refine ⟨hm.grows.trans hf.grows, ?_⟩
  intro i hi
  rcases List.mem_append.mp hi with hi | hi
  · exact (hm.code i hi).mono hf.grows
  · exact hf.code i hi

/-- A step that has a temporary for its value, which was handed out by then. -/
structure TidyTemp (s : Supply) (r : Emitted Instr Temp) : Prop extends Tidy s r where
  value : r.value.index < r.supply.temps

/-- Tidy steps one after the other are tidy. -/
theorem TidyTemp.bind {m : Emit Instr Temp} {f : Temp → Emit Instr Temp}
    (hm : TidyTemp s (m.run s))
    (hf : TidyTemp (m.run s).supply ((f (m.run s).value).run (m.run s).supply)) :
    TidyTemp s ((m >>= f).run s) := ⟨hm.toTidy.bind hf.toTidy, hf.value⟩

theorem tidyTemp_pure (ht : t.index < s.temps) : TidyTemp s ((pure t : Emit Instr Temp).run s) :=
  ⟨tidy_pure t s, ht⟩

theorem Tidy.then_return {m : Emit Instr Unit} (hm : Tidy s (m.run s)) (ht : t.index < s.temps) :
    TidyTemp s ((m >>= fun _ => pure t).run s) :=
  ⟨hm.bind (tidy_pure t _), ht.trans_le hm.grows⟩

-- ── Operands and operations ──────────────────────────────────────────────────

/-- The destination, or else a fresh temporary, is handed out by then. -/
theorem tidy_orFresh {dst : Option Temp} (h : ∀ t ∈ dst, t.index < s.temps) :
    TidyTemp s ((orFresh dst).run s) := by
  cases dst with
  | none => exact ⟨tidy_freshTemp s, Nat.lt_succ_self _⟩
  | some t => exact tidyTemp_pure (h t rfl)

/-- Selecting for an atom is tidy. -/
theorem tidy_atom {a : Atom} {dst : Option Temp} (ha : ∀ t ∈ a.temps, t.index < s.temps)
    (hdst : ∀ t ∈ dst, t.index < s.temps) : TidyTemp s ((atom a dst).run s) := by
  have hfresh := tidy_orFresh hdst
  cases a with
  | temp t =>
      have ht := ha t List.mem_cons_self
      cases dst with
      | none => exact tidyTemp_pure ht
      | some dst =>
          rw [atom]
          split
          · exact tidyTemp_pure ht
          · exact (tidy_write_one (below_copy (hdst dst rfl) ht)).then_return (hdst dst rfl)
  | const value =>
      refine hfresh.bind (Tidy.then_return ?_ hfresh.value)
      exact tidy_write fun i hi => below_loadConst hfresh.value hi
  | name l =>
      refine hfresh.bind (Tidy.then_return (tidy_write_one ?_) hfresh.value)
      exact below_plain (Nat.zero_le 2) (Nat.le_refl 1) (by simp [hfresh.value])

/-- Selecting for an operator is tidy. -/
theorem tidy_compute (hdst : dst.index < s.temps) (hx : x.index < s.temps) (hy : y.index < s.temps)
    (scheme : Scheme) : Tidy s ((compute dst x y scheme).run s) := by
  have hnew : ∀ {t : Temp}, t.index < s.temps → t.index < s.freshTemp.2.temps :=
    fun ht => ht.trans (Nat.lt_succ_self _)
  have hfresh : s.freshTemp.1.index < s.freshTemp.2.temps := Nat.lt_succ_self _
  cases scheme with
  | direct op =>
      exact tidy_write_one (below_plain (Nat.le_refl 2) (Nat.le_refl 1) (by simp [hx, hy, hdst]))
  | remainder =>
      refine (tidy_freshTemp s).bind (tidy_write (List.forall_mem_cons.mpr ⟨?_, ?_⟩))
      · refine below_plain (Nat.le_refl 2) (Nat.le_refl 1) ?_
        simp [hnew hx, hnew hy, hfresh]
      · refine List.forall_mem_singleton.mpr ?_
        exact below_plain (Nat.zero_le 2) (Nat.le_refl 1) (by simp [hnew hdst])
  | relation yes no =>
      refine (tidy_freshTemp s).bind (tidy_write (List.forall_mem_cons.mpr ⟨?_, ?_⟩))
      · refine below_plain (Nat.le_refl 2) (Nat.le_refl 1) ?_
        simp [hnew hx, hnew hy, hfresh]
      · refine List.forall_mem_cons.mpr ⟨?_, List.forall_mem_singleton.mpr ?_⟩
        · exact below_plain (Nat.le_succ 1) (Nat.le_refl 1) (by simp [hnew hdst, hfresh])
        · exact below_plain (Nat.le_refl 2) (Nat.le_refl 1) (by simp [hnew hdst, hfresh])

theorem tidy_operand {a : Atom} (ha : ∀ t ∈ a.temps, t.index < s.temps) :
    TidyTemp s ((atom a none).run s) :=
  tidy_atom ha fun _ ht => absurd ht (Option.not_mem_none _)

theorem below_of_grows {n m : Nat} {ts : List Temp} (h : ∀ t ∈ ts, t.index < n) (hle : n ≤ m) :
    ∀ t ∈ ts, t.index < m :=
  fun t ht => (h t ht).trans_le hle

/-- Selecting for a right-hand side is tidy, if its temporaries were handed out before. -/
theorem tidy_rhs (keep : Nat) {r : Rhs} {dst : Option Temp}
    (hr : ∀ t ∈ r.temps, t.index < s.temps) (hdst : ∀ t ∈ dst, t.index < s.temps) :
    TidyTemp s ((rhs keep r dst).run s) := by
  have hdst' : ∀ {s' : Supply}, s.temps ≤ s'.temps → TidyTemp s' ((orFresh dst).run s') :=
    fun hle => tidy_orFresh fun t ht => (hdst t ht).trans_le hle
  cases r with
  | atom a => exact tidy_atom hr hdst
  | binop op x y =>
      obtain ⟨hxs, hys⟩ := List.forall_mem_append.mp hr
      have hx := tidy_operand hxs
      have hy := tidy_operand (below_of_grows hys hx.grows)
      have hd := hdst' (hx.grows.trans hy.grows)
      refine hx.bind (hy.bind (hd.bind (Tidy.then_return ?_ hd.value)))
      exact tidy_compute hd.value (hx.value.trans_le (hy.grows.trans hd.grows))
        (hy.value.trans_le hd.grows) (scheme op)
  | unop op x =>
      have hx := tidy_operand hr
      have hd := hdst' hx.grows
      have hwrite : ∀ op', ModestBelow ((orFresh dst).run ((atom x none).run s).supply).supply.temps
          (.plain op' [((atom x none).run s).value]
            [((orFresh dst).run ((atom x none).run s).supply).value]) := by
        intro op'
        refine below_plain (Nat.le_succ 1) (Nat.le_refl 1) ?_
        simp [hx.value.trans_le hd.grows, hd.value]
      refine hx.bind (hd.bind ?_)
      cases op with
      | neg => exact (tidy_write_one (hwrite .negate)).then_return hd.value
      | not => exact (tidy_write_one (hwrite .flip)).then_return hd.value
  | load addr =>
      have hx := tidy_operand hr
      have hd := hdst' hx.grows
      refine hx.bind (hd.bind (Tidy.then_return (tidy_write_one ?_) hd.value))
      refine below_plain (Nat.le_succ 1) (Nat.le_refl 1) ?_
      simp [hx.value.trans_le hd.grows, hd.value]
  | call f args =>
      have hd := hdst' (Nat.le_refl s.temps)
      refine hd.bind (Tidy.then_return (tidy_write fun i hi => below_call ?_ ?_ hi) hd.value)
      · exact below_of_grows hr hd.grows
      · intro t ht
        exact Option.some.inj ht ▸ hd.value

-- ── Statements ───────────────────────────────────────────────────────────────

/-- Selecting for a statement is tidy, if its temporaries were handed out before. -/
theorem tidy_stmt (keep : Nat) (next : Option Stmt) {st : Stmt}
    (h : ∀ t ∈ st.temps, t.index < s.temps) : Tidy s ((stmt keep next st).run s) := by
  cases st with
  | label l => exact tidy_write_one (below_label _ l)
  | transfer tr =>
      cases tr with
      | jump target => exact tidy_write_one (below_jump _ target)
      | branch cond ifTrue ifFalse =>
          have hcond : ModestBelow s.temps (.branch (.branchNonZero ifTrue) [cond] ifTrue) :=
            below_branch (Nat.le_refl 1) h
          refine (tidy_write_one hcond).bind ?_
          split
          · exact tidy_write_one (below_jump _ ifFalse)
          · exact tidy_pure _ _
  | act a =>
      cases a with
      | move dst r =>
          obtain ⟨hdst, hr⟩ := List.forall_mem_cons.mp h
          have hdst' : ∀ t ∈ some dst, t.index < s.temps := fun t ht => Option.some.inj ht ▸ hdst
          exact (tidy_rhs keep hr hdst').toTidy.bind (tidy_pure _ _)
      | store addr src =>
          obtain ⟨haddr, hsrc⟩ := List.forall_mem_append.mp h
          have hx := tidy_operand hsrc
          have hy := tidy_operand (below_of_grows haddr hx.grows)
          refine hx.toTidy.bind (hy.toTidy.bind (tidy_write_one ?_))
          refine below_plain (Nat.le_refl 2) (Nat.zero_le 1) ?_
          simp [hx.value.trans_le hy.grows, hy.value]
      | call f args =>
          have hnone : ∀ t ∈ (none : Option Temp), t.index < s.temps :=
            fun t ht => absurd ht (Option.not_mem_none t)
          exact tidy_write fun i hi => below_call h hnone hi

/-- Selecting for statements is tidy. By induction on the list. -/
theorem tidy_stmts (keep : Nat) {sts : List Stmt}
    (h : ∀ st ∈ sts, ∀ t ∈ st.temps, t.index < s.temps) : Tidy s ((stmts keep sts).run s) := by
  induction sts generalizing s with
  | nil => exact tidy_pure () s
  | cons st sts ih =>
      obtain ⟨hst, hsts⟩ := List.forall_mem_cons.mp h
      have hfirst := tidy_stmt keep sts.head? hst
      exact hfirst.bind (ih fun st hst => below_of_grows (hsts st hst) hfirst.grows)

end Select

/-- Selection makes modest instructions on known temporaries. -/
theorem Flat.Function.modest_select {ω : Type} (keep : Nat) {f : Flat.Function} {s : Supply}
    (h : ∀ st ∈ f.stmts, ∀ t ∈ st.temps, t.index < s.temps) :
    s.temps ≤ ((f.select keep : Emit ω Code).run s).supply.temps ∧
      ∀ i ∈ ((f.select keep : Emit ω Code).run s).value.instrs,
        Select.ModestBelow ((f.select keep : Emit ω Code).run s).supply.temps i :=
  have htidy := Select.tidy_stmts keep h
  ⟨htidy.grows, htidy.code⟩

end MmixBackend
