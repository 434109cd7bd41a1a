import Mathlib.Data.List.Forall2
import MmixBackend.Flat.OfTree
import MmixBackend.Proofs.FlatRun

/-!
# Flattening keeps the meaning of a tree

A tree that the machine runs to its end and the flat code made from it do the same: the same
effects in the same order, the same memory, the same values in the temporaries of the tree.

The flat code has temporaries of its own, so the two machines are compared by `Agree n`, which
leaves out the temporaries numbered `n` and higher. The route:

* **`Machine.Performs`** — straight flat code leads from one machine to another. It changes no
  temporary that it does not assign (`Performs.temp_eq`).
* **`Flat.Yields`** — a step of flattening succeeds with a value, code and supply.
* **`Flat.AtomSpec`**, **`Flat.RhsSpec`** — the code of an expression, started on any machine
  that agrees with the one the tree was started on, leads to the value of the expression.
* **`yields_protectAll`** — the operands of one operation keep their values: what a later
  operand assigns is copied before, and a copy has a number that nothing before it uses.
* **`rhs_correct`** and its companions — by induction on the tree.
-/

namespace MmixBackend

-- ── The leaves of a tree ─────────────────────────────────────────────────────

namespace Tree

mutual

/-- The constants, temporaries and labels that an expression uses as values, and the
    temporaries that it assigns. -/
def Expr.leaves : Expr → List Flat.Atom
  | .const value => [.const value]
  | .temp t => [.temp t]
  | .name l => [.name l]
  | .mem addr => addr.leaves
  | .binop _ x y => x.leaves ++ y.leaves
  | .unop _ x => x.leaves
  | .call _ args => exprLeaves args
  | .seq s result => s.leaves ++ result.leaves

/-- The leaves of a statement. -/
def Stmt.leaves : Stmt → List Flat.Atom
  | .label _ => []
  | .jump _ => []
  | .branch cond _ _ => cond.leaves
  | .move dst src => dst.leaves ++ src.leaves
  | .eval e => e.leaves
  | .seq ss => stmtLeaves ss

/-- The leaves of the expressions of a list. -/
def exprLeaves : List Expr → List Flat.Atom
  | [] => []
  | e :: es => e.leaves ++ exprLeaves es

/-- The leaves of the statements of a list. -/
def stmtLeaves : List Stmt → List Flat.Atom
  | [] => []
  | s :: ss => s.leaves ++ stmtLeaves ss

end

end Tree

-- ── Running trees ────────────────────────────────────────────────────────────

/-- A failing step ends a sequence, and the state stays as that step left it. -/
theorem run_bind_state {ε σ α β : Type} (x : ExceptT ε (StateM σ) α)
    (f : α → ExceptT ε (StateM σ) β) (m : σ) :
    (x >>= f).run.run m =
      match x.run.run m with
      | (.ok a, m₁) => (f a).run.run m₁
      | (.error e, m₁) => (.error e, m₁) := by
  rw [ExceptT.run_bind, StateT.run_bind]
  show (match (x.run.run m : Except ε α × σ) with | (r, m₁) => _) = _
  rcases (x.run.run m : Except ε α × σ) with ⟨r | r, m₁⟩ <;> rfl

/-- A sequence of steps succeeds exactly if its steps do, one after the other. -/
theorem run_bind_eq_ok {ε σ α β : Type} {x : ExceptT ε (StateM σ) α}
    {f : α → ExceptT ε (StateM σ) β} {m m' : σ} {b : β} :
    (x >>= f).run.run m = (.ok b, m') ↔
      ∃ a m₁, x.run.run m = (.ok a, m₁) ∧ (f a).run.run m₁ = (.ok b, m') := by
  rw [run_bind_state]
  rcases hx : (x.run.run m : Except ε α × σ) with ⟨e | a, m₁⟩
  · constructor
    · intro h
      cases h
    · rintro ⟨a, m₂, h, -⟩
      cases h
  · constructor
    · intro h
      exact ⟨a, m₁, rfl, h⟩
    · rintro ⟨a', m₂, h, hf⟩
      cases h
      exact hf

/-- A step that only reads its state. -/
theorem eq_of_ok_eq {ε σ α : Type} {a b : α} {m m' : σ}
    (h : ((.ok a, m) : Except ε α × σ) = (.ok b, m')) : a = b ∧ m = m' :=
  ⟨Except.ok.inj (Prod.mk.inj h).1, (Prod.mk.inj h).2⟩

namespace Machine

open Flat

-- ── Straight flat code ───────────────────────────────────────────────────────

/-- Code without transfers leads from one machine to another. -/
inductive Performs : Machine → List Stmt → Machine → Prop where
  | nil (m : Machine) : Performs m [] m
  | label {l : Label} {code : List Stmt} {m m' : Machine} :
      Performs m code m' → Performs m (.label l :: code) m'
  | act {a : Action} {code : List Stmt} {m m₁ m' : Machine} :
      m.act a = (.ok (), m₁) → Performs m₁ code m' → Performs m (.act a :: code) m'

namespace Performs

/-- Code that is performed behind other code is performed from where that led. -/
theorem append {m m₁ m' : Machine} {code code' : List Stmt} (h : Performs m code m₁)
    (h' : Performs m₁ code' m') : Performs m (code ++ code') m' := by
  induction h with
  | nil m => exact h'
  | label _ ih => exact label (ih h')
  | act ha _ ih => exact act ha (ih h')

theorem single {m m' : Machine} {a : Action} (h : m.act a = (.ok (), m')) :
    Performs m [.act a] m' := act h (nil m')

/-- Straight code runs off its end. -/
theorem halts {m m' : Machine} {whole code : List Stmt} (h : Performs m code m') :
    Halts whole code m (.ok none) m' := by
  induction h with
  | nil m => exact Halts.nil m
  | label _ ih => exact Halts.label ih
  | act ha _ ih => exact Halts.act ha ih

end Performs

-- ── What reading and acting leave alone ──────────────────────────────────────

@[simp] theorem temp_setTemp_self (m : Machine) (t : Temp) (v : Word) :
    (m.setTemp t v).temp t = v := by
  simp [temp, setTemp]

/-- Setting a temporary leaves the other ones alone. -/
theorem temp_setTemp_of_ne (m : Machine) {t u : Temp} (v : Word) (h : u ≠ t) :
    (m.setTemp t v).temp u = m.temp u := by
  simp [temp, setTemp, Std.ExtTreeMap.getD_insert, Ne.symm h]

/-- Reading the address of a label may only record it. -/
theorem snd_labelAddr (m : Machine) (l : Label) :
    ∃ labels, (m.labelAddr l).2 = { m with labelAddrs := labels } := by
  rw [labelAddr]
  split
  · exact ⟨m.labelAddrs, rfl⟩
  · exact ⟨_, rfl⟩

theorem snd_atom (m : Machine) (a : Atom) :
    ∃ labels, (m.atom a).2 = { m with labelAddrs := labels } := by
  cases a with
  | name l => exact m.snd_labelAddr l
  | _ => exact ⟨m.labelAddrs, rfl⟩

/-- Computing a right-hand side other than a call may only record addresses of labels. -/
theorem snd_rhs (m : Machine) {r : Rhs} (hr : ∀ f args, r ≠ .call f args) :
    ∃ labels, (m.rhs r).2 = { m with labelAddrs := labels } := by
  cases r with
  | atom a => exact m.snd_atom a
  | binop op x y =>
      obtain ⟨labels₁, h₁⟩ := m.snd_atom x
      obtain ⟨labels₂, h₂⟩ := (m.atom x).2.snd_atom y
      rw [h₁] at h₂
      refine ⟨labels₂, ?_⟩
      rw [rhs]
      simp only
      rw [h₁]
      split <;> exact h₂
  | unop op x => exact m.snd_atom x
  | load addr => exact m.snd_atom addr
  | call f args => exact absurd rfl (hr f args)

/-- Computing a right-hand side sets no temporary. -/
theorem temps_rhs (m : Machine) (r : Rhs) : (m.rhs r).2.temps = m.temps := by
  by_cases hr : ∃ f args, r = .call f args
  · obtain ⟨f, args, rfl⟩ := hr
    rfl
  · obtain ⟨labels, h⟩ := m.snd_rhs fun f args heq => hr ⟨f, args, heq⟩
    rw [h]

/-- An action changes no temporary but the one it assigns. -/
theorem temp_act {m m' : Machine} {a : Action} {t : Temp} (h : m.act a = (.ok (), m'))
    (ht : a.def? ≠ some t) : m'.temp t = m.temp t := by
  cases a with
  | move dst r =>
      have htemps := m.temps_rhs r
      rw [act] at h
      rcases hr : m.rhs r with ⟨e | v, m₁⟩
      · rw [hr] at h
        cases h
      · rw [hr] at h htemps
        obtain rfl : m₁.setTemp dst v = m' := congrArg Prod.snd h
        have hne : t ≠ dst := fun heq => ht (congrArg some heq.symm)
        rw [temp_setTemp_of_ne m₁ v hne, temp, temp, htemps]
  | store addr src =>
      obtain rfl : ((m.atom src).2.atom addr).2.store _ _ = m' := congrArg Prod.snd h
      obtain ⟨labels₁, h₁⟩ := m.snd_atom src
      obtain ⟨labels₂, h₂⟩ := (m.atom src).2.snd_atom addr
      show ((m.atom src).2.atom addr).2.temps.getD t 0 = m.temps.getD t 0
      rw [h₂, h₁]
  | call f args =>
      obtain rfl : (m.call f (args.map m.temp)).2 = m' := congrArg Prod.snd h
      rfl

/-- Straight code changes no temporary that it does not assign. -/
theorem Performs.temp_eq {m m' : Machine} {code : List Stmt} (h : Performs m code m') {t : Temp}
    (ht : t ∉ code.filterMap Stmt.def?) : m'.temp t = m.temp t := by
  induction h with
  | nil m => rfl
  | label _ ih => exact ih ht
  | @act a code m m₁ m' ha _ ih =>
      rw [List.filterMap_cons] at ht
      cases hd : a.def? with
      | none =>
          rw [show (Stmt.act a).def? = none from hd] at ht
          rw [ih ht]
          exact temp_act ha (by rw [hd]; exact nofun)
      | some d =>
          rw [show (Stmt.act a).def? = some d from hd] at ht
          obtain ⟨hne, htail⟩ := not_or.mp (fun h => ht (List.mem_cons.mpr h))
          rw [ih htail]
          exact temp_act ha (by rw [hd]; exact fun h => hne (Option.some.inj h).symm)

-- ── Machines that agree ──────────────────────────────────────────────────────

/-- The second machine is like the first one, apart from the temporaries numbered `n` and
    higher. -/
structure Agree (n : Nat) (m m' : Machine) : Prop where
  mem : m'.mem = m.mem
  effects : m'.effects = m.effects
  labels : m'.labelAddrs = m.labelAddrs
  temp : ∀ t : Temp, t.index < n → m'.temp t = m.temp t

theorem Agree.refl (n : Nat) (m : Machine) : Agree n m m := ⟨rfl, rfl, rfl, fun _ _ => rfl⟩

namespace Agree

variable {n : Nat} {m m' : Machine}

/-- Machines that agree below a number agree below a lower one, over a machine between them. -/
theorem trans {k : Nat} {m'' : Machine} (h : Agree n m m') (h' : Agree k m' m'') (hle : n ≤ k) :
    Agree n m m'' :=
  ⟨h'.mem.trans h.mem, h'.effects.trans h.effects, h'.labels.trans h.labels, fun t ht =>
    (h'.temp t (Nat.lt_of_lt_of_le ht hle)).trans (h.temp t ht)⟩

/-- Assigning a temporary that is left out changes nothing. -/
theorem setTemp_right (h : Agree n m m') {t : Temp} (ht : n ≤ t.index) (v : Word) :
    Agree n m (m'.setTemp t v) := by
  refine ⟨h.mem, h.effects, h.labels, ?_⟩
  intro u hu
  have hne : u ≠ t := by
    rintro rfl
    omega
  rw [temp_setTemp_of_ne m' v hne]
  exact h.temp u hu

/-- Assigning the same temporary on both sides. -/
theorem setTemp (h : Agree n m m') (t : Temp) (v : Word) :
    Agree n (m.setTemp t v) (m'.setTemp t v) := by
  refine ⟨h.mem, h.effects, h.labels, ?_⟩
  intro u hu
  by_cases hut : u = t
  · rw [hut, temp_setTemp_self, temp_setTemp_self]
  · rw [temp_setTemp_of_ne m' v hut, temp_setTemp_of_ne m v hut]
    exact h.temp u hu

/-- The same store keeps machines in agreement. -/
theorem store (h : Agree n m m') (addr v : Word) : Agree n (m.store addr v) (m'.store addr v) := by
  refine ⟨?_, ?_, h.labels, h.temp⟩
  · show m'.mem.insert addr v = m.mem.insert addr v
    rw [h.mem]
  · show m'.effects.push _ = m.effects.push _
    rw [h.effects]

/-- The same call gives the same result and keeps machines in agreement. -/
theorem call (h : Agree n m m') (f : Label) (args : List Word) :
    (m'.call f args).1 = (m.call f args).1 ∧ Agree n (m.call f args).2 (m'.call f args).2 := by
  have heffects : m'.effects.push (.call f args) = m.effects.push (.call f args) := by
    rw [h.effects]
  refine ⟨?_, h.mem, heffects, h.labels, h.temp⟩
  show (1000 : Word) + Word.ofCount (m'.effects.push (.call f args)).size = _
  rw [heffects]
  rfl

/-- Machines that agree load the same words. -/
theorem load (h : Agree n m m') (addr : Word) : m'.load addr = m.load addr := by
  rw [Machine.load, Machine.load, h.mem]

end Agree

end Machine

-- ── Atoms that need no evaluation ────────────────────────────────────────────

namespace Flat

/-- A temporary is numbered below `n`, and a label has an address. -/
def Atom.Fits (n : Nat) (labels : LabelMap Word) : Atom → Prop
  | .const _ => True
  | .temp t => t.index < n
  | .name l => l ∈ labels

theorem Atom.Fits.mono {n k : Nat} {labels : LabelMap Word} {a : Atom} (h : a.Fits n labels)
    (hle : n ≤ k) : a.Fits k labels := by
  cases a with
  | const v => trivial
  | temp t => exact Nat.lt_of_lt_of_le h hle
  | name l => exact h

end Flat

namespace Machine

open Flat

/-- A label that has an address keeps it. -/
theorem labelAddr_of_mem {m : Machine} {l : Label} (h : l ∈ m.labelAddrs) :
    m.labelAddr l = (m.labelAddrs.getD l 0, m) := by
  obtain ⟨addr, haddr⟩ := Option.isSome_iff_exists.mp
    (Std.ExtTreeMap.mem_iff_isSome_getElem?.mp h)
  rw [labelAddr, haddr, Std.ExtTreeMap.getD_eq_getD_getElem?, haddr]
  rfl

/-- Reading an atom that fits changes nothing. -/
theorem atom_snd_of_fits {m : Machine} {n : Nat} {a : Atom} (h : a.Fits n m.labelAddrs) :
    (m.atom a).2 = m := by
  cases a with
  | name l =>
      show (m.labelAddr l).2 = m
      rw [labelAddr_of_mem h]
  | _ => rfl

/-- An atom has the same value on two machines that have the same label addresses and the same
    value of its temporary. -/
theorem atom_congr {m m' : Machine} {n : Nat} {labels : LabelMap Word} {a : Atom} {v : Word}
    (hfits : a.Fits n labels) (hm : m.labelAddrs = labels) (hm' : m'.labelAddrs = labels)
    (htemp : ∀ t, a = .temp t → m'.temp t = m.temp t) (h : m.atom a = (v, m)) :
    m'.atom a = (v, m') := by
  cases a with
  | const w =>
      obtain rfl : w = v := congrArg Prod.fst h
      rfl
  | temp t =>
      obtain rfl : m.temp t = v := congrArg Prod.fst h
      show (m'.temp t, m') = _
      rw [htemp t rfl]
  | name l =>
      have hl : l ∈ m.labelAddrs := by rw [hm]; exact hfits
      have hl' : l ∈ m'.labelAddrs := by rw [hm']; exact hfits
      have hv : m.labelAddr l = (v, m) := h
      rw [labelAddr_of_mem hl, hm] at hv
      show m'.labelAddr l = _
      rw [labelAddr_of_mem hl', hm', (Prod.mk.inj hv).1]

end Machine

-- ── Steps of flattening that succeed ─────────────────────────────────────────

namespace Flat

/-- From the supply `s`, the step has the value `a`, emits `code` and leaves the supply `s'`. -/
def Yields {α : Type} (x : Flatten α) (s : Supply) (a : α) (code : List Stmt) (s' : Supply) :
    Prop :=
  ∃ events, x.run.run s = ⟨.ok a, code, events, s'⟩

theorem yields_pure {α : Type} (a : α) (s : Supply) : Yields (pure a) s a [] s := ⟨[], rfl⟩

/-- Steps one after the other emit their code one behind the other. -/
theorem Yields.bind {α β : Type} {x : Flatten α} {f : α → Flatten β} {s s₁ s' : Supply} {a : α}
    {b : β} {code code' : List Stmt} (hx : Yields x s a code s₁)
    (hf : Yields (f a) s₁ b code' s') : Yields (x >>= f) s b (code ++ code') s' := by
  obtain ⟨events, hx⟩ := hx
  obtain ⟨events', hf⟩ := hf
  refine ⟨events ++ events', ?_⟩
  rw [Emit.run_bind_except, hx]
  simp only [hf]

/-- A step that emits nothing before another one. -/
theorem Yields.bind_nil {α β : Type} {x : Flatten α} {f : α → Flatten β} {s s₁ s' : Supply}
    {a : α} {b : β} {code : List Stmt} (hx : Yields x s a [] s₁)
    (hf : Yields (f a) s₁ b code s') : Yields (x >>= f) s b code s' := hx.bind hf

/-- A step before one that emits nothing. -/
theorem Yields.bind_pure {α β : Type} {x : Flatten α} {f : α → Flatten β} {s s' : Supply}
    {a : α} {b : β} {code : List Stmt} (hx : Yields x s a code s') (hf : f a = pure b) :
    Yields (x >>= f) s b code s' := by
  have h := hx.bind (f := f) (hf ▸ yields_pure b s')
  rwa [List.append_nil] at h

/-- A step of flattening goes one way. -/
theorem Yields.unique {α : Type} {x : Flatten α} {s s' s'' : Supply} {a b : α}
    {code code' : List Stmt} (h : Yields x s a code s') (h' : Yields x s b code' s'') :
    a = b ∧ code = code' ∧ s' = s'' := by
  obtain ⟨events, h⟩ := h
  obtain ⟨events', h'⟩ := h'
  have heq := h.symm.trans h'
  simp only [Emitted.mk.injEq, Except.ok.injEq] at heq
  exact ⟨heq.1, heq.2.1, heq.2.2.2⟩

/-- If a sequence of two steps succeeds, both of them do, and their code is joined. -/
theorem Yields.of_bind {α β : Type} {x : Flatten α} {f : α → Flatten β} {s s' : Supply} {b : β}
    {code : List Stmt} (h : Yields (x >>= f) s b code s') :
    ∃ a code₁ s₁ code₂, Yields x s a code₁ s₁ ∧ Yields (f a) s₁ b code₂ s' ∧
      code = code₁ ++ code₂ := by
  obtain ⟨events, h⟩ := h
  rw [Emit.run_bind_except] at h
  rcases hx : x.run.run s with ⟨e | a, code₁, events₁, s₁⟩
  · rw [hx] at h
    cases h
  · rw [hx] at h
    rcases hf : (f a).run.run s₁ with ⟨r, code₂, events₂, s₂⟩
    simp only [hf, Emitted.mk.injEq] at h
    obtain ⟨rfl, rfl, -, rfl⟩ := h
    exact ⟨a, code₁, s₁, code₂, ⟨events₁, hx⟩, ⟨events₂, hf⟩, rfl⟩

theorem yields_emit (code : List Stmt) (s : Supply) : Yields (emit code) s () code s :=
  ⟨[], by simp [emit]⟩

theorem yields_freshTemp (s : Supply) :
    Yields (ExceptT.lift Emit.freshTemp) s ⟨s.temps⟩ [] (s.skip 1 0) := ⟨[], rfl⟩

theorem yields_report (e : Event) (s : Supply) :
    Yields (ExceptT.lift (Emit.report e)) s () [] s := ⟨[e], rfl⟩

/-- The code of an operand is kept apart: capturing it emits nothing. -/
theorem yields_capture {x : Flatten Atom} {s s' : Supply} {a : Atom} {code : List Stmt}
    (h : Yields x s a code s') : Yields (capture x) s ⟨code, a⟩ [] s' := by
  obtain ⟨events, h⟩ := h
  refine ⟨events, ?_⟩
  show (Emit.collect x.run >>= fun p => pure (p.2.map (Part.mk p.1)) : Emit Stmt _).run s = _
  simp only [Emit.run_bind, Emit.run_collect, h, Emit.run_pure, List.append_nil]
  rfl

/-- Keeping the code of a step apart succeeds only if the step does. -/
theorem Yields.of_capture {x : Flatten Atom} {s s' : Supply} {p : Part} {code : List Stmt}
    (h : Yields (capture x) s p code s') : Yields x s p.atom p.code s' ∧ code = [] := by
  obtain ⟨events, hrun⟩ := h
  rcases hx : x.run.run s with ⟨e | a, code', events', s''⟩
  · have hvalue := congrArg Emitted.value hrun
    have hfails : ((capture x).run.run s).value = (x.run.run s).value.map (Part.mk _) := rfl
    rw [hfails, hx] at hvalue
    cases hvalue
  · obtain ⟨rfl, rfl, rfl⟩ := (yields_capture ⟨events', hx⟩).unique ⟨events, hrun⟩
    exact ⟨⟨events', hx⟩, rfl⟩

/-- The next temporary gets the value, and that is all the code there is. -/
theorem yields_assignFresh (r : Rhs) (s : Supply) :
    Yields (assignFresh r) s ⟨s.temps⟩ [.act (.move ⟨s.temps⟩ r)] (s.skip 1 0) :=
  (yields_freshTemp s).bind_nil ((yields_emit _ _).bind_pure rfl)

/-- What is no atom yet is moved to the next temporary. -/
theorem yields_materialize {r : Rhs} (h : ∀ a, r ≠ .atom a) (s : Supply) :
    Yields (materialize r) s (.temp ⟨s.temps⟩) [.act (.move ⟨s.temps⟩ r)] (s.skip 1 0) := by
  have hstep : materialize r = do
      let t ← ExceptT.lift Emit.freshTemp
      ExceptT.lift (Emit.report (.materialized r t))
      emit [.act (.move t r)]
      return .temp t := by
    cases r with
    | atom a => exact absurd rfl (h a)
    | _ => rfl
  rw [hstep]
  exact (yields_freshTemp s).bind_nil
    ((yields_report _ _).bind_nil ((yields_emit _ _).bind_pure rfl))

-- ── Numbers of temporaries ───────────────────────────────────────────────────

/-- The code assigns only temporaries that were handed out before or by it. -/
structure Bounded (s : Supply) (code : List Stmt) (s' : Supply) : Prop where
  le : s.temps ≤ s'.temps
  defs : ∀ d ∈ code.filterMap Stmt.def?, d.index < s'.temps

namespace Bounded

theorem nil (s : Supply) : Bounded s [] s := ⟨Nat.le_refl _, nofun⟩

/-- What two pieces of code assign was handed out before the second one has ended. -/
theorem append {s s₁ s' : Supply} {code code' : List Stmt} (h : Bounded s code s₁)
    (h' : Bounded s₁ code' s') : Bounded s (code ++ code') s' := by
  refine ⟨Nat.le_trans h.le h'.le, ?_⟩
  intro d hd
  rw [List.filterMap_append, List.mem_append] at hd
  rcases hd with hd | hd
  · exact Nat.lt_of_lt_of_le (h.defs d hd) h'.le
  · exact h'.defs d hd

theorem single {s : Supply} {a : Action} (h : ∀ d, a.def? = some d → d.index < s.temps) :
    Bounded s [.act a] s := by
  refine ⟨Nat.le_refl _, ?_⟩
  intro d hd
  obtain ⟨x, hx, hdef⟩ := List.mem_filterMap.mp hd
  obtain rfl := List.mem_singleton.mp hx
  exact h d hdef

/-- A move to the next temporary assigns one that it has handed out. -/
theorem fresh (s : Supply) (r : Rhs) : Bounded s [.act (.move ⟨s.temps⟩ r)] (s.skip 1 0) := by
  refine ⟨Nat.le_succ _, ?_⟩
  intro d hd
  obtain rfl := List.mem_singleton.mp hd
  exact Nat.lt_succ_self _

end Bounded

-- ── Operands ─────────────────────────────────────────────────────────────────

open Machine

variable {n : Nat} {labels : LabelMap Word} {m m' : Machine} {s : Supply}

/-- Started on a machine that agrees with `m`, the operand comes to the value `v` and to a machine
    that agrees with `m'`. -/
def Part.Holds (n : Nat) (m : Machine) (v : Word) (m' : Machine) (p : Part) : Prop :=
  ∀ x, Agree n m x → ∃ x', Performs x p.code x' ∧ x'.atom p.atom = (v, x') ∧ Agree n m' x'

/-- The temporaries that the operand is in and that its code assigns are numbered below `k`. -/
def Part.Below (k : Nat) (labels : LabelMap Word) (p : Part) : Prop :=
  p.atom.Fits k labels ∧ ∀ d ∈ p.defs, d.index < k

theorem Part.Below.mono {k k' : Nat} {p : Part} (h : p.Below k labels) (hle : k ≤ k') :
    p.Below k' labels :=
  ⟨h.1.mono hle, fun d hd => Nat.lt_of_lt_of_le (h.2 d hd) hle⟩

/-- An operand with a copy behind it. -/
theorem Part.Holds.copy {v : Word} {code : List Stmt} {t u : Temp} (hu : n ≤ u.index)
    (h : Part.Holds n m v m' ⟨code, .temp t⟩) :
    Part.Holds n m v m' ⟨code ++ [.act (.move u (.atom (.temp t)))], .temp u⟩ := by
  intro x hx
  obtain ⟨x', hperf, hval, hagree⟩ := h x hx
  have hv : x'.temp t = v := congrArg Prod.fst hval
  refine ⟨x'.setTemp u v, hperf.append (Performs.single ?_), ?_, hagree.setTemp_right hu v⟩
  · show (Except.ok (), x'.setTemp u (x'.temp t)) = _
    rw [hv]
  · show ((x'.setTemp u v).temp u, x'.setTemp u v) = _
    rw [temp_setTemp_self]

/-- Protecting an operand keeps its value and takes it out of the temporaries assigned later. -/
theorem yields_protect {p : Part} {v : Word} {later : List Temp} (hn : n ≤ s.temps)
    (hp : p.Below s.temps labels) (hlater : ∀ d ∈ later, d.index < s.temps)
    (h : p.Holds n m v m') :
    ∃ p' s', Yields (p.protect later) s p' [] s' ∧ s.temps ≤ s'.temps ∧
      p'.Below s'.temps labels ∧ p'.Holds n m v m' ∧ ∀ t, p'.atom = .temp t → t ∉ later := by
  obtain ⟨code, a⟩ := p
  cases a with
  | const w => exact ⟨_, s, yields_pure _ s, Nat.le_refl _, hp, h, nofun⟩
  | name l => exact ⟨_, s, yields_pure _ s, Nat.le_refl _, hp, h, nofun⟩
  | temp t =>
      by_cases ht : t ∈ later
      · refine ⟨⟨code ++ [.act (.move ⟨s.temps⟩ (.atom (.temp t)))], .temp ⟨s.temps⟩⟩, s.skip 1 0,
          ?_, Nat.le_succ _, ⟨Nat.lt_succ_self _, ?_⟩, h.copy hn, ?_⟩
        · rw [Part.protect]
          simp only [if_pos ht]
          exact (yields_freshTemp s).bind_nil (yields_pure _ _)
        · intro d hd
          rw [Part.defs, List.filterMap_append, List.mem_append] at hd
          rcases hd with hd | hd
          · exact Nat.lt_succ_of_lt (hp.2 d hd)
          · obtain rfl := List.mem_singleton.mp hd
            exact Nat.lt_succ_self _
        · rintro u hu hmem
          obtain rfl : (⟨s.temps⟩ : Temp) = u := Atom.temp.inj hu
          exact absurd (hlater _ hmem) (Nat.lt_irrefl _)
      · refine ⟨⟨code, .temp t⟩, s, ?_, Nat.le_refl _, hp, h, ?_⟩
        · rw [Part.protect]
          simp only [if_neg ht]
          exact yields_pure _ s
        · intro u hu
          obtain rfl : t = u := Atom.temp.inj hu
          exact ht

/-- Operands that are computed one after the other, each from where the one before it led. -/
inductive Chain (n : Nat) (labels : LabelMap Word) :
    Machine → List Word → Machine → List Part → Prop where
  | nil (m : Machine) : Chain n labels m [] m []
  | cons {m m₁ m' : Machine} {v : Word} {vs : List Word} {p : Part} {ps : List Part} :
      p.Holds n m v m₁ → m₁.labelAddrs = labels → Chain n labels m₁ vs m' ps →
        Chain n labels m (v :: vs) m' (p :: ps)

/-- On the machine, the operands have the values, and reading them changes nothing. -/
def HaveValues (x : Machine) (vs : List Word) (ps : List Part) : Prop :=
  List.Forall₂ (fun v p => x.atom p.atom = (v, x)) vs ps

/-- Operands keep their values where their temporaries do. -/
theorem HaveValues.congr {k : Nat} {x x' : Machine} {vs : List Word} {ps : List Part}
    (h : HaveValues x vs ps) (hps : ∀ p ∈ ps, p.atom.Fits k labels) (hx : x.labelAddrs = labels)
    (hx' : x'.labelAddrs = labels) (htemp : ∀ t : Temp, t.index < k → x'.temp t = x.temp t) :
    HaveValues x' vs ps := by
  induction h with
  | nil => exact List.Forall₂.nil
  | @cons v p vs ps hv _ ih =>
      have hp := hps p List.mem_cons_self
      refine List.Forall₂.cons (atom_congr hp hx hx' ?_ hv)
        (ih fun q hq => hps q (List.mem_cons_of_mem _ hq))
      intro t ht
      rw [ht] at hp
      exact htemp t hp

/-- After the code of all the operands, each of them still has its value. -/
def AllHold (n : Nat) (m : Machine) (vs : List Word) (m' : Machine) (ps : List Part) : Prop :=
  ∀ x, Agree n m x → ∃ x', Performs x (ps.flatMap Part.code) x' ∧ HaveValues x' vs ps ∧
    Agree n m' x'

/-- Protected operands keep their values until all of them are there. -/
theorem yields_protectAll {vs : List Word} {ps : List Part} (h : Chain n labels m vs m' ps)
    (hm' : m'.labelAddrs = labels) (hn : n ≤ s.temps) (hps : ∀ p ∈ ps, p.Below s.temps labels) :
    ∃ ps' s', Yields (Part.protectAll ps) s ps' [] s' ∧ s.temps ≤ s'.temps ∧
      (∀ p ∈ ps', p.Below s'.temps labels) ∧ AllHold n m vs m' ps' := by
  induction h with
  | nil m =>
      refine ⟨[], s, yields_pure _ s, Nat.le_refl _, nofun, ?_⟩
      intro x hx
      exact ⟨x, Performs.nil x, List.Forall₂.nil, hx⟩
  | @cons m m₁ m' v vs p ps hp hm₁ _ ih =>
      obtain ⟨ps', s₁, hyield, hle, hbelow, hall⟩ :=
        ih hm' fun q hq => hps q (List.mem_cons_of_mem _ hq)
      have hlater : ∀ d ∈ ps'.flatMap Part.defs, d.index < s₁.temps := by
        intro d hd
        obtain ⟨q, hq, hdq⟩ := List.mem_flatMap.mp hd
        exact (hbelow q hq).2 d hdq
      obtain ⟨p', s', hyield', hle', hbelow', hp', hnot⟩ :=
        yields_protect (Nat.le_trans hn hle) ((hps p List.mem_cons_self).mono hle) hlater hp
      refine ⟨p' :: ps', s', ?_, Nat.le_trans hle hle', ?_, ?_⟩
      · rw [Part.protectAll]
        exact hyield.bind_nil (hyield'.bind_nil (yields_pure _ _))
      · intro q hq
        rcases List.mem_cons.mp hq with rfl | hq
        · exact hbelow'
        · exact (hbelow q hq).mono hle'
      · intro x hx
        obtain ⟨x₁, hperf, hval, hagree⟩ := hp' x hx
        obtain ⟨x', hperf', hvals, hagree'⟩ := hall x₁ hagree
        refine ⟨x', hperf.append hperf', List.Forall₂.cons ?_ hvals, hagree'⟩
        -- the code of the later operands does not assign the temporary of this one
        refine atom_congr hbelow'.1 (hagree.labels.trans hm₁) (hagree'.labels.trans hm') ?_ hval
        intro t ht
        refine hperf'.temp_eq ?_
        rw [List.filterMap_flatMap]
        exact hnot t ht

/-- Of two operands only the first one can need protection. -/
theorem yields_protectAll_pair {p q : Part} {ps' : List Part} {s' : Supply}
    (h : Yields (Part.protectAll [p, q]) s ps' [] s') :
    ∃ p', ps' = [p', q] ∧ Yields (p.protect q.defs) s p' [] s' := by
  have hq : q.protect [] = pure q := by
    obtain ⟨code, a⟩ := q
    cases a with
    | temp t => simp [Part.protect]
    | _ => rfl
  have hall : Part.protectAll [p, q] = (fun p' => [p', q]) <$> p.protect q.defs := by
    simp [Part.protectAll, hq]
  rw [hall] at h
  obtain ⟨events, h⟩ := h
  rw [ExceptT.run_map, Emit.run_map, Emitted.mk.injEq] at h
  obtain ⟨hval, hcode, hevents, hsupply⟩ := h
  cases hp : ((p.protect q.defs).run.run s).value with
  | error e =>
      rw [hp] at hval
      cases hval
  | ok p' =>
      rw [hp] at hval
      refine ⟨p', (Except.ok.inj hval).symm, events, ?_⟩
      rw [← hp, ← hcode, ← hevents, ← hsupply]

/-- Naming an atom moves it to a fresh temporary, unless it is a temporary already. -/
theorem yields_nameAtom {a : Atom} (ha : a.Fits s.temps labels) :
    ∃ t code s', Yields (nameAtom a) s t code s' ∧ Bounded s code s' ∧ t.index < s'.temps ∧
      ∀ x v, x.atom a = (v, x) → ∃ x', Performs x code x' ∧ x'.temp t = v ∧
        Agree s.temps x x' := by
  by_cases htemp : ∃ t, a = .temp t
  · obtain ⟨t, rfl⟩ := htemp
    refine ⟨t, [], s, yields_pure t s, Bounded.nil s, ha, ?_⟩
    intro x v hx
    exact ⟨x, Performs.nil x, congrArg Prod.fst hx, Agree.refl _ x⟩
  · have hname : nameAtom a = assignFresh (.atom a) := by
      cases a with
      | temp t => exact absurd ⟨t, rfl⟩ htemp
      | _ => rfl
    rw [hname]
    refine ⟨_, _, _, yields_assignFresh _ s, Bounded.fresh s _, Nat.lt_succ_self _, ?_⟩
    intro x v hx
    have hrhs : x.rhs (.atom a) = (.ok v, x) := by
      rw [Machine.rhs, hx]
    refine ⟨x.setTemp ⟨s.temps⟩ v, Performs.single ?_, temp_setTemp_self _ _ _,
      (Agree.refl s.temps x).setTemp_right (t := ⟨s.temps⟩) (Nat.le_refl s.temps) v⟩
    rw [Machine.act, hrhs]

/-- Naming the operands of a call moves those that are not temporaries to fresh ones. -/
theorem yields_nameAtoms {ps : List Part} (hps : ∀ p ∈ ps, p.atom.Fits s.temps labels) :
    ∃ ts code s', Yields (ps.mapM fun p => nameAtom p.atom) s ts code s' ∧ Bounded s code s' ∧
      ∀ x vs, x.labelAddrs = labels → HaveValues x vs ps →
        ∃ x', Performs x code x' ∧ ts.map x'.temp = vs ∧ Agree s.temps x x' := by
  induction ps generalizing s with
  | nil =>
      refine ⟨[], [], s, yields_pure _ s, Bounded.nil s, ?_⟩
      intro x vs _ hvs
      obtain rfl : vs = [] := List.forall₂_nil_right_iff.mp hvs
      exact ⟨x, Performs.nil x, rfl, Agree.refl _ x⟩
  | cons p ps ih =>
      obtain ⟨hp, hps⟩ := List.forall_mem_cons.mp hps
      obtain ⟨t, code, s₁, hyield, hbound, ht, hrun⟩ := yields_nameAtom hp
      obtain ⟨ts, code', s', hyields, hbounds, hruns⟩ :=
        ih fun q hq => (hps q hq).mono hbound.le
      refine ⟨t :: ts, code ++ code', s', ?_, hbound.append hbounds, ?_⟩
      · rw [List.mapM_cons]
        exact hyield.bind (hyields.bind_pure rfl)
      · intro x vs hx hvs
        obtain ⟨w, ws, hw, hws, rfl⟩ := List.forall₂_cons_right_iff.mp hvs
        obtain ⟨x₁, hperf, hvalue, hagree⟩ := hrun x w hw
        have hx₁ : x₁.labelAddrs = labels := hagree.labels.trans hx
        -- a fresh temporary is none of those that the other operands are in
        obtain ⟨x', hperfs, hvalues, hagrees⟩ :=
          hruns x₁ ws hx₁ (HaveValues.congr hws hps hx hx₁ hagree.temp)
        refine ⟨x', hperf.append hperfs, ?_, hagree.trans hagrees hbound.le⟩
        rw [List.map_cons, hvalues, hagrees.temp t ht, hvalue]

-- ── Expressions ──────────────────────────────────────────────────────────────

/-- The code of an expression with the atom that then holds its value. -/
structure AtomSpec (n : Nat) (labels : LabelMap Word) (m : Machine) (v : Word) (m' : Machine)
    (s : Supply) (a : Atom) (code : List Stmt) (s' : Supply) : Prop where
  bounded : Bounded s code s'
  fits : a.Fits s'.temps labels
  holds : Part.Holds n m v m' ⟨code, a⟩

/-- The code of an expression with its outermost operation left over: carrying it out gives the
    value. -/
structure RhsSpec (n : Nat) (labels : LabelMap Word) (m : Machine) (v : Word) (m' : Machine)
    (s : Supply) (r : Rhs) (code : List Stmt) (s' : Supply) : Prop where
  bounded : Bounded s code s'
  fits : ∀ a, r = .atom a → a.Fits s'.temps labels
  computes : ∀ x, Agree n m x → ∃ x₁ x', Performs x code x₁ ∧ x₁.labelAddrs = labels ∧
    x₁.rhs r = (.ok v, x') ∧ Agree n m' x'

variable {v : Word} {s' : Supply} {code : List Stmt}

/-- A leaf is its own atom. -/
theorem rhsSpec_leaf {a : Atom} (hm : m.labelAddrs = labels) (ha : a.Fits s.temps labels)
    (h : ∀ x, Agree n m x → x.atom a = (v, x)) :
    RhsSpec n labels m v m s (.atom a) [] s := by
  refine ⟨Bounded.nil s, ?_, ?_⟩
  · intro a' ha'
    obtain rfl : a = a' := Rhs.atom.inj ha'
    exact ha
  · intro x hx
    refine ⟨x, x, Performs.nil x, hx.labels.trans hm, ?_, hx⟩
    rw [Machine.rhs, h x hx]

/-- Materializing what is left over gives an atom. -/
theorem yields_materialize_spec {r : Rhs} (hn : n ≤ s.temps)
    (h : RhsSpec n labels m v m' s r code s') :
    ∃ a code' s'', Yields (materialize r) s' a code' s'' ∧
      AtomSpec n labels m v m' s a (code ++ code') s'' := by
  by_cases hatom : ∃ a, r = .atom a
  · obtain ⟨a, rfl⟩ := hatom
    have ha : a.Fits s'.temps labels := h.fits a rfl
    refine ⟨a, [], s', yields_pure a s', ?_⟩
    rw [List.append_nil]
    refine ⟨h.bounded, ha, ?_⟩
    intro x hx
    obtain ⟨x₁, x', hperf, hlabels, hrhs, hagree⟩ := h.computes x hx
    have hsnd : (x₁.atom a).2 = x₁ := atom_snd_of_fits (n := s'.temps) (by rw [hlabels]; exact ha)
    have hpair : x₁.rhs (.atom a) = (.ok (x₁.atom a).1, (x₁.atom a).2) := rfl
    rw [hpair, hsnd] at hrhs
    obtain ⟨hfst, rfl⟩ := Prod.mk.inj hrhs
    exact ⟨x₁, hperf, Prod.ext (Except.ok.inj hfst) hsnd, hagree⟩
  · have hne : ∀ a, r ≠ .atom a := fun a ha => hatom ⟨a, ha⟩
    have hle : n ≤ s'.temps := Nat.le_trans hn h.bounded.le
    refine ⟨_, _, _, yields_materialize hne s', h.bounded.append (Bounded.fresh s' r),
      Nat.lt_succ_self _, ?_⟩
    intro x hx
    obtain ⟨x₁, x', hperf, -, hrhs, hagree⟩ := h.computes x hx
    refine ⟨x'.setTemp ⟨s'.temps⟩ v, hperf.append (Performs.single ?_), ?_,
      hagree.setTemp_right (t := ⟨s'.temps⟩) hle v⟩
    · rw [act, hrhs]
    · show ((x'.setTemp ⟨s'.temps⟩ v).temp ⟨s'.temps⟩, _) = _
      rw [temp_setTemp_self]

/-- An operation on one operand. -/
theorem AtomSpec.unary {r : Rhs} {w : Word} {a : Atom} (h : AtomSpec n labels m v m' s a code s')
    (hm' : m'.labelAddrs = labels) (hr : ∀ b, r ≠ .atom b)
    (hrhs : ∀ x, x.atom a = (v, x) → Agree n m' x → x.rhs r = (.ok w, x)) :
    RhsSpec n labels m w m' s r code s' := by
  refine ⟨h.bounded, fun b hb => absurd hb (hr b), ?_⟩
  intro x hx
  obtain ⟨x', hperf, hval, hagree⟩ := h.holds x hx
  exact ⟨x', x', hperf, hagree.labels.trans hm', hrhs x' hval hagree, hagree⟩

/-- Two operands, computed apart: once the first one is protected, their code can be emitted. -/
theorem yields_protect_pair {m₁ : Machine} {v w : Word} {s₁ : Supply} {a b : Atom}
    {code code' : List Stmt} (hn : n ≤ s.temps) (hm₁ : m₁.labelAddrs = labels)
    (hm' : m'.labelAddrs = labels) (hx : AtomSpec n labels m v m₁ s a code s₁)
    (hy : AtomSpec n labels m₁ w m' s₁ b code' s') :
    ∃ (p : Part) (s'' : Supply),
      Yields (Part.protect (Part.defs ⟨code', b⟩) ⟨code, a⟩) s' p [] s'' ∧
      Bounded s (p.code ++ code') s'' ∧
      ∀ x, Agree n m x → ∃ x', Performs x (p.code ++ code') x' ∧ x'.atom p.atom = (v, x') ∧
        x'.atom b = (w, x') ∧ Agree n m' x' := by
  have hchain : Chain n labels m [v, w] m' [⟨code, a⟩, ⟨code', b⟩] :=
    Chain.cons hx.holds hm₁ (Chain.cons hy.holds hm' (Chain.nil m'))
  have hp : Part.Below s'.temps labels ⟨code, a⟩ :=
    ⟨hx.fits.mono hy.bounded.le, fun d hd =>
      Nat.lt_of_lt_of_le (hx.bounded.defs d hd) hy.bounded.le⟩
  have hq : Part.Below s'.temps labels ⟨code', b⟩ := ⟨hy.fits, hy.bounded.defs⟩
  have hle : s.temps ≤ s'.temps := Nat.le_trans hx.bounded.le hy.bounded.le
  have hboth : ∀ r ∈ [Part.mk code a, Part.mk code' b], r.Below s'.temps labels := by
    intro r hr
    rcases List.mem_cons.mp hr with rfl | hr
    · exact hp
    · obtain rfl := List.mem_singleton.mp hr
      exact hq
  -- two operands are a list of two, of which the second one needs no protection
  obtain ⟨ps', s'', hyield, hle', hbelow, hall⟩ :=
    yields_protectAll hchain hm' (Nat.le_trans hn hle) hboth
  obtain ⟨p, rfl, hprotect⟩ := yields_protectAll_pair hyield
  refine ⟨p, s'', hprotect, ⟨Nat.le_trans hle hle', ?_⟩, ?_⟩
  · intro d hd
    rw [List.filterMap_append, List.mem_append] at hd
    rcases hd with hd | hd
    · exact (hbelow p List.mem_cons_self).2 d hd
    · exact (hq.mono hle').2 d hd
  · intro x hx
    obtain ⟨x', hperf, hvals, hagree⟩ := hall x hx
    obtain ⟨v', vs', hv, hvs, heq⟩ := List.forall₂_cons_right_iff.mp hvals
    obtain ⟨w', ws', hw, -, heq'⟩ := List.forall₂_cons_right_iff.mp hvs
    obtain ⟨rfl, rfl⟩ := List.cons.inj heq
    obtain ⟨rfl, -⟩ := List.cons.inj heq'
    refine ⟨x', ?_, hv, hw, hagree⟩
    simpa using hperf

/-- The code of a statement. -/
structure StmtSpec (n : Nat) (m m' : Machine) (s : Supply) (code : List Stmt) (s' : Supply) :
    Prop where
  bounded : Bounded s code s'
  performs : ∀ x, Agree n m x → ∃ x', Performs x code x' ∧ Agree n m' x'

/-- A statement before an expression. -/
theorem StmtSpec.append_rhs {m₁ : Machine} {s₁ : Supply} {code' : List Stmt} {r : Rhs}
    (h : StmtSpec n m m₁ s code s₁) (h' : RhsSpec n labels m₁ v m' s₁ r code' s') :
    RhsSpec n labels m v m' s r (code ++ code') s' := by
  refine ⟨h.bounded.append h'.bounded, h'.fits, ?_⟩
  intro x hx
  obtain ⟨x₁, hperf, hagree⟩ := h.performs x hx
  obtain ⟨x₂, x', hperf', hlabels, hrhs, hagree'⟩ := h'.computes x₁ hagree
  exact ⟨x₂, x', hperf.append hperf', hlabels, hrhs, hagree'⟩

/-- The code of two statements, one behind the other, does what both of them do. -/
theorem StmtSpec.append {m₁ : Machine} {s₁ : Supply} {code' : List Stmt}
    (h : StmtSpec n m m₁ s code s₁) (h' : StmtSpec n m₁ m' s₁ code' s') :
    StmtSpec n m m' s (code ++ code') s' := by
  refine ⟨h.bounded.append h'.bounded, ?_⟩
  intro x hx
  obtain ⟨x₁, hperf, hagree⟩ := h.performs x hx
  obtain ⟨x', hperf', hagree'⟩ := h'.performs x₁ hagree
  exact ⟨x', hperf.append hperf', hagree'⟩

/-- What flattening makes of an expression that has a value. -/
def RhsCorrect (n : Nat) (labels : LabelMap Word) (e : Tree.Expr) (m : Machine) (v : Word)
    (m' : Machine) (s : Supply) : Prop :=
  m'.labelAddrs = labels ∧
    ∃ r code s', Yields (rhs e) s r code s' ∧ RhsSpec n labels m v m' s r code s'

/-- With its outermost operation materialized, an expression is an atom. -/
theorem RhsCorrect.expr {e : Tree.Expr} (hn : n ≤ s.temps)
    (h : RhsCorrect n labels e m v m' s) :
    m'.labelAddrs = labels ∧ ∃ a code s', Yields (rhs e >>= materialize) s a code s' ∧
      AtomSpec n labels m v m' s a code s' := by
  obtain ⟨hm', r, code, s₁, hyield, hspec⟩ := h
  obtain ⟨a, code', s', hyield', hspec'⟩ := yields_materialize_spec hn hspec
  exact ⟨hm', a, code ++ code', s', hyield.bind hyield', hspec'⟩

/-- A call whose operands have been computed apart. -/
theorem rhsCorrect_call {f : Label} {args : List Tree.Expr} {ps : List Part} {vs : List Word}
    {m₁ : Machine} {s₁ : Supply} (hn : n ≤ s.temps) (hm₁ : m₁.labelAddrs = labels)
    (hyield : Yields (parts args) s ps [] s₁) (hle : s.temps ≤ s₁.temps)
    (hbelow : ∀ p ∈ ps, p.Below s₁.temps labels) (hchain : Chain n labels m vs m₁ ps) :
    RhsCorrect n labels (.call f args) m (m₁.call f vs).1 (m₁.call f vs).2 s := by
  obtain ⟨ps', s₂, hprotect, hle', hbelow', hall⟩ :=
    yields_protectAll hchain hm₁ (Nat.le_trans hn hle) hbelow
  obtain ⟨ts, code, s', hnames, hbound, hrun⟩ :=
    yields_nameAtoms fun p hp => (hbelow' p hp).1
  have hn₂ : n ≤ s₂.temps := Nat.le_trans hn (Nat.le_trans hle hle')
  have hcode : Bounded s (ps'.flatMap Part.code) s₂ := by
    refine ⟨Nat.le_trans hle hle', ?_⟩
    intro d hd
    rw [List.filterMap_flatMap] at hd
    obtain ⟨p, hp, hdp⟩ := List.mem_flatMap.mp hd
    exact (hbelow' p hp).2 d hdp
  refine ⟨hm₁, .call f ts, ps'.flatMap Part.code ++ code, s', ?_, hcode.append hbound, nofun,
    ?_⟩
  · rw [rhs]
    exact hyield.bind_nil (hprotect.bind_nil
      ((yields_emit _ _).bind (hnames.bind_pure rfl)))
  · intro x hx
    obtain ⟨x₁, hperf, hvals, hagree⟩ := hall x hx
    obtain ⟨x₂, hperf', hts, hagree'⟩ := hrun x₁ vs (hagree.labels.trans hm₁) hvals
    have hboth : Agree n m₁ x₂ := hagree.trans hagree' hn₂
    obtain ⟨hanswer, hafter⟩ := hboth.call f vs
    refine ⟨x₂, (x₂.call f vs).2, hperf.append hperf', hboth.labels.trans hm₁, ?_, hafter⟩
    show (Except.ok (x₂.call f (ts.map x₂.temp)).1, (x₂.call f (ts.map x₂.temp)).2) = _
    rw [hts, hanswer]

mutual

/-- Flattening an expression keeps its value and its effects. -/
theorem rhs_correct (e : Tree.Expr) {m m' : Machine} {v : Word} {s : Supply} (hn : n ≤ s.temps)
    (hm : m.labelAddrs = labels) (hfits : ∀ a ∈ e.leaves, a.Fits n labels)
    (h : (eval e).run.run m = (.ok v, m')) : RhsCorrect n labels e m v m' s := by
  cases e with
  | const w =>
      rw [eval] at h
      obtain ⟨rfl, rfl⟩ := eq_of_ok_eq h
      exact ⟨hm, _, _, s, yields_pure _ s, rhsSpec_leaf hm trivial fun x _ => rfl⟩
  | temp t =>
      have ht : (Atom.temp t).Fits n labels := hfits _ (List.mem_singleton.mpr rfl)
      rw [eval] at h
      obtain ⟨rfl, rfl⟩ := eq_of_ok_eq h
      refine ⟨hm, _, _, s, yields_pure _ s, rhsSpec_leaf hm (ht.mono hn) ?_⟩
      intro x hx
      show (x.temp t, x) = _
      rw [hx.temp t ht]
  | name l =>
      have hl : (Atom.name l).Fits n labels := hfits _ (List.mem_singleton.mpr rfl)
      -- the label has its address already, so looking it up changes nothing
      have hlm : l ∈ m.labelAddrs := by rw [hm]; exact hl
      rw [eval] at h
      have h' : ((.ok (m.labelAddr l).1, (m.labelAddr l).2) : Except RunError Word × Machine) =
          (.ok v, m') := h
      rw [labelAddr_of_mem hlm, hm] at h'
      obtain ⟨rfl, rfl⟩ := eq_of_ok_eq h'
      refine ⟨hm, _, _, s, yields_pure _ s, rhsSpec_leaf hm (hl.mono hn) ?_⟩
      intro x hx
      have hlx : l ∈ x.labelAddrs := by rw [hx.labels]; exact hlm
      show x.labelAddr l = _
      rw [labelAddr_of_mem hlx, hx.labels, hm]
  | mem addr =>
      rw [eval] at h
      obtain ⟨w, m₁, haddr, h⟩ := run_bind_eq_ok.mp h
      obtain ⟨rfl, rfl⟩ := eq_of_ok_eq h
      obtain ⟨hm', a, code, s', hyield, hspec⟩ := (rhs_correct addr hn hm hfits haddr).expr hn
      refine ⟨hm', .load a, code, s', ?_, hspec.unary hm' (fun _ => nofun) ?_⟩
      · rw [rhs, ← bind_assoc]
        exact hyield.bind_pure rfl
      · intro x hx hagree
        rw [Machine.rhs, hx]
        show (Except.ok (x.load w), x) = _
        rw [hagree.load]
  | unop op e =>
      rw [eval] at h
      obtain ⟨w, m₁, he, h⟩ := run_bind_eq_ok.mp h
      obtain ⟨rfl, rfl⟩ := eq_of_ok_eq h
      obtain ⟨hm', a, code, s', hyield, hspec⟩ := (rhs_correct e hn hm hfits he).expr hn
      refine ⟨hm', .unop op a, code, s', ?_, hspec.unary hm' (fun _ => nofun) ?_⟩
      · rw [rhs, ← bind_assoc]
        exact hyield.bind_pure rfl
      · intro x hx _
        rw [Machine.rhs, hx]
  | binop op x y =>
      rw [eval] at h
      obtain ⟨w₁, m₁, hx, h⟩ := run_bind_eq_ok.mp h
      obtain ⟨w₂, m₂, hy, h⟩ := run_bind_eq_ok.mp h
      -- the tree did not divide by zero, so neither does the flat code
      obtain ⟨hvalue, rfl⟩ : op.value? w₁ w₂ = some v ∧ m₂ = m' := by
        rw [divide] at h
        cases hv : op.value? w₁ w₂ with
        | some w =>
            rw [hv] at h
            obtain ⟨rfl, rfl⟩ := eq_of_ok_eq h
            exact ⟨rfl, rfl⟩
        | none =>
            rw [hv] at h
            cases h
      obtain ⟨hm₁, a, code, s₁, hyx, hsx⟩ := (rhs_correct x hn hm
        (fun a ha => hfits a (List.mem_append_left _ ha)) hx).expr hn
      have hn₁ : n ≤ s₁.temps := Nat.le_trans hn hsx.bounded.le
      obtain ⟨hm', b, code', s₂, hyy, hsy⟩ := (rhs_correct y hn₁ hm₁
        (fun a ha => hfits a (List.mem_append_right _ ha)) hy).expr hn₁
      obtain ⟨p, s', hprotect, hbound, hrun⟩ := yields_protect_pair hn hm₁ hm' hsx hsy
      refine ⟨hm', .binop op p.atom b, p.code ++ code', s', ?_, hbound, nofun, ?_⟩
      · rw [rhs]
        exact (yields_capture hyx).bind_nil ((yields_capture hyy).bind_nil
          (hprotect.bind_nil ((yields_emit _ _).bind_pure rfl)))
      · intro z hz
        obtain ⟨z', hperf, hz₁, hz₂, hagree⟩ := hrun z hz
        refine ⟨z', z', hperf, hagree.labels.trans hm', ?_, hagree⟩
        rw [Machine.rhs, hz₁]
        simp only [hz₂, hvalue]
  | call f args =>
      rw [eval] at h
      obtain ⟨vs, m₁, hargs, h⟩ := run_bind_eq_ok.mp h
      have h' : ((.ok (m₁.call f vs).1, (m₁.call f vs).2) : Except RunError Word × Machine) =
          (.ok v, m') := h
      obtain ⟨rfl, rfl⟩ := eq_of_ok_eq h'
      obtain ⟨hm₁, ps, s₁, hyield, hle, hbelow, hchain⟩ := parts_correct args hn hm hfits hargs
      exact rhsCorrect_call hn hm₁ hyield hle hbelow hchain
  | seq st result =>
      rw [eval] at h
      obtain ⟨⟨⟩, m₁, hst, h⟩ := run_bind_eq_ok.mp h
      obtain ⟨hm₁, code, s₁, hyield, hspec⟩ := stmt_correct st hn hm
        (fun a ha => hfits a (List.mem_append_left _ ha)) hst
      have hn₁ : n ≤ s₁.temps := Nat.le_trans hn hspec.bounded.le
      obtain ⟨hm', r, code', s', hyield', hspec'⟩ := rhs_correct result hn₁ hm₁
        (fun a ha => hfits a (List.mem_append_right _ ha)) h
      refine ⟨hm', r, code ++ code', s', ?_, hspec.append_rhs hspec'⟩
      rw [rhs]
      exact hyield.bind hyield'

/-- The operands of a call are computed one after the other. -/
theorem parts_correct (es : List Tree.Expr) {m m' : Machine} {vs : List Word} {s : Supply}
    (hn : n ≤ s.temps) (hm : m.labelAddrs = labels)
    (hfits : ∀ a ∈ Tree.exprLeaves es, a.Fits n labels)
    (h : (evalAll es).run.run m = (.ok vs, m')) :
    m'.labelAddrs = labels ∧ ∃ ps s', Yields (parts es) s ps [] s' ∧ s.temps ≤ s'.temps ∧
      (∀ p ∈ ps, p.Below s'.temps labels) ∧ Chain n labels m vs m' ps := by
  cases es with
  | nil =>
      rw [evalAll] at h
      obtain ⟨rfl, rfl⟩ := eq_of_ok_eq h
      exact ⟨hm, [], s, yields_pure _ s, Nat.le_refl _, nofun, Chain.nil m⟩
  | cons e es =>
      rw [evalAll] at h
      obtain ⟨w, m₁, he, h⟩ := run_bind_eq_ok.mp h
      obtain ⟨ws, m₂, hes, h⟩ := run_bind_eq_ok.mp h
      obtain ⟨rfl, rfl⟩ := eq_of_ok_eq h
      obtain ⟨hm₁, a, code, s₁, hyield, hspec⟩ := (rhs_correct e hn hm
        (fun a ha => hfits a (List.mem_append_left _ ha)) he).expr hn
      obtain ⟨hm', ps, s', hyield', hle, hbelow, hchain⟩ :=
        parts_correct es (Nat.le_trans hn hspec.bounded.le) hm₁
          (fun a ha => hfits a (List.mem_append_right _ ha)) hes
      refine ⟨hm', ⟨code, a⟩ :: ps, s', ?_, Nat.le_trans hspec.bounded.le hle, ?_,
        Chain.cons hspec.holds hm₁ hchain⟩
      · rw [parts]
        exact (yields_capture hyield).bind_nil (hyield'.bind_nil (yields_pure _ _))
      · intro p hp
        rcases List.mem_cons.mp hp with rfl | hp
        · exact Part.Below.mono ⟨hspec.fits, hspec.bounded.defs⟩ hle
        · exact hbelow p hp

/-- Flattening a statement keeps what it does. -/
theorem stmt_correct (st : Tree.Stmt) {m m' : Machine} {s : Supply} (hn : n ≤ s.temps)
    (hm : m.labelAddrs = labels) (hfits : ∀ a ∈ st.leaves, a.Fits n labels)
    (h : (exec st).run.run m = (.ok (), m')) :
    m'.labelAddrs = labels ∧
      ∃ code s', Yields (stmt st) s () code s' ∧ StmtSpec n m m' s code s' := by
  cases st with
  | label l =>
      rw [exec] at h
      obtain ⟨-, rfl⟩ := eq_of_ok_eq h
      refine ⟨hm, [.label l], s, yields_emit _ s, ⟨Nat.le_refl _, nofun⟩, ?_⟩
      intro x hx
      exact ⟨x, Performs.label (Performs.nil x), hx⟩
  -- the machine for trees cannot jump, so there is nothing to match
  | jump l =>
      rw [exec] at h
      cases h
  | branch cond ifTrue ifFalse =>
      rw [exec] at h
      cases h
  | move dst src =>
      cases dst with
      | temp t =>
          have ht : (Atom.temp t).Fits n labels := hfits _ List.mem_cons_self
          rw [exec] at h
          obtain ⟨w, m₁, hsrc, h⟩ := run_bind_eq_ok.mp h
          obtain ⟨-, rfl⟩ := eq_of_ok_eq h
          obtain ⟨hm₁, r, code, s', hyield, hspec⟩ := rhs_correct src hn hm
            (fun a ha => hfits a (List.mem_append_right _ ha)) hsrc
          have hlt : t.index < s'.temps :=
            Nat.lt_of_lt_of_le ht (Nat.le_trans hn hspec.bounded.le)
          refine ⟨hm₁, code ++ [.act (.move t r)], s', ?_, hspec.bounded.append
            (Bounded.single fun d hd => Option.some.inj hd ▸ hlt), ?_⟩
          · rw [stmt]
            exact hyield.bind (yields_emit _ _)
          · intro x hx
            obtain ⟨x₁, x', hperf, -, hrhs, hagree⟩ := hspec.computes x hx
            refine ⟨x'.setTemp t w, hperf.append (Performs.single ?_), hagree.setTemp t w⟩
            rw [act, hrhs]
      | mem addr =>
          rw [exec] at h
          obtain ⟨w, m₁, hsrc, h⟩ := run_bind_eq_ok.mp h
          obtain ⟨w', m₂, haddr, h⟩ := run_bind_eq_ok.mp h
          obtain ⟨-, rfl⟩ := eq_of_ok_eq h
          obtain ⟨hm₁, a, code, s₁, hys, hss⟩ := (rhs_correct src hn hm
            (fun a ha => hfits a (List.mem_append_right _ ha)) hsrc).expr hn
          have hn₁ : n ≤ s₁.temps := Nat.le_trans hn hss.bounded.le
          obtain ⟨hm₂, b, code', s₂, hya, hsa⟩ := (rhs_correct addr hn₁ hm₁
            (fun a ha => hfits a (List.mem_append_left _ ha)) haddr).expr hn₁
          -- the source comes first, and its value must survive the address
          obtain ⟨p, s', hprotect, hbound, hrun⟩ := yields_protect_pair hn hm₁ hm₂ hss hsa
          refine ⟨hm₂, (p.code ++ code') ++ [.act (.store b p.atom)], s', ?_,
            hbound.append (Bounded.single fun d hd => by cases hd), ?_⟩
          · rw [stmt]
            exact (yields_capture hys).bind_nil ((yields_capture hya).bind_nil
              (hprotect.bind_nil ((yields_emit _ _).bind (yields_emit _ _))))
          · intro x hx
            obtain ⟨x', hperf, hx₁, hx₂, hagree⟩ := hrun x hx
            refine ⟨x'.store w' w, hperf.append (Performs.single ?_), hagree.store w' w⟩
            rw [act, hx₁]
            simp only [hx₂]
      | _ =>
          rw [exec] at h
          · cases h
          · exact nofun
          · exact nofun
  | eval e =>
      rw [exec] at h
      obtain ⟨w, m₁, he, h⟩ := run_bind_eq_ok.mp h
      obtain ⟨-, rfl⟩ := eq_of_ok_eq h
      obtain ⟨hm₁, r, code, s', hyield, hspec⟩ := rhs_correct e hn hm hfits he
      by_cases hcall : ∃ f args, r = .call f args
      · obtain ⟨f, args, rfl⟩ := hcall
        refine ⟨hm₁, code ++ [.act (.call f args)], s', ?_,
          hspec.bounded.append (Bounded.single fun d hd => by cases hd), ?_⟩
        · rw [stmt]
          exact hyield.bind (yields_emit _ _)
        · intro x hx
          obtain ⟨x₁, x', hperf, -, hrhs, hagree⟩ := hspec.computes x hx
          refine ⟨x', hperf.append (Performs.single ?_), hagree⟩
          have hx' : (x₁.call f (args.map x₁.temp)).2 = x' := congrArg Prod.snd hrhs
          rw [act, hx']
      · -- the operation that is left over has no effect, so dropping it is harmless
        refine ⟨hm₁, code, s', ?_, hspec.bounded, ?_⟩
        · rw [stmt]
          refine hyield.bind_pure ?_
          split
          · next f args => exact absurd ⟨f, args, rfl⟩ hcall
          · rfl
        · intro x hx
          obtain ⟨x₁, x', hperf, hlabels, hrhs, hagree⟩ := hspec.computes x hx
          obtain ⟨labels', hx'⟩ := x₁.snd_rhs fun f args heq => hcall ⟨f, args, heq⟩
          rw [hrhs] at hx'
          obtain rfl : x' = { x₁ with labelAddrs := labels' } := hx'
          exact ⟨x₁, hperf, hagree.mem, hagree.effects, hlabels.trans hm₁.symm, hagree.temp⟩
  | seq sts =>
      rw [exec] at h
      obtain ⟨hm', code, s', hyield, hspec⟩ := stmts_correct sts hn hm hfits h
      exact ⟨hm', code, s', by rw [stmt]; exact hyield, hspec⟩

/-- Flattening a list of statements keeps what they do. -/
theorem stmts_correct (sts : List Tree.Stmt) {m m' : Machine} {s : Supply} (hn : n ≤ s.temps)
    (hm : m.labelAddrs = labels) (hfits : ∀ a ∈ Tree.stmtLeaves sts, a.Fits n labels)
    (h : (execAll sts).run.run m = (.ok (), m')) :
    m'.labelAddrs = labels ∧
      ∃ code s', Yields (stmts sts) s () code s' ∧ StmtSpec n m m' s code s' := by
  cases sts with
  | nil =>
      rw [execAll] at h
      obtain ⟨-, rfl⟩ := eq_of_ok_eq h
      exact ⟨hm, [], s, yields_pure _ s, Bounded.nil s, fun x hx => ⟨x, Performs.nil x, hx⟩⟩
  | cons st sts =>
      rw [execAll] at h
      obtain ⟨⟨⟩, m₁, hst, h⟩ := run_bind_eq_ok.mp h
      obtain ⟨hm₁, code, s₁, hyield, hspec⟩ := stmt_correct st hn hm
        (fun a ha => hfits a (List.mem_append_left _ ha)) hst
      obtain ⟨hm', code', s', hyield', hspec'⟩ :=
        stmts_correct sts (Nat.le_trans hn hspec.bounded.le) hm₁
          (fun a ha => hfits a (List.mem_append_right _ ha)) h
      refine ⟨hm', code ++ code', s', ?_, hspec.append hspec'⟩
      rw [stmts]
      exact hyield.bind hyield'

end

/-- **Flattening keeps the meaning of a tree.** If the machine runs a statement to its end, then
    flattening the statement succeeds, and with enough fuel a run of the flat code from the same
    machine falls off its end with the same effects, the same memory and the same values in all
    temporaries handed out before. A jump in a tree is an error of its run, so only straight
    trees are concerned. -/
theorem flatten_keeps_meaning (st : Tree.Stmt) (names : Supply) (m m' : Machine)
    (htemps : ∀ t, .temp t ∈ st.leaves → t.index < names.temps)
    (hlabels : ∀ l, .name l ∈ st.leaves → l ∈ m.labelAddrs)
    (hexec : (exec st).run.run m = (.ok (), m')) :
    ((stmt st).run.run names).value = .ok () ∧
      ∃ x : Machine,
        (∃ n, ∀ fuel, n ≤ fuel →
          m.run ((stmt st).run.run names).code fuel = (.ok none, x)) ∧
        x.effects = m'.effects ∧ x.mem = m'.mem ∧
        ∀ t : Temp, t.index < names.temps → x.temp t = m'.temp t := by
  have hfits : ∀ a ∈ st.leaves, a.Fits names.temps m.labelAddrs := by
    intro a ha
    cases a with
    | const v => trivial
    | temp t => exact htemps t ha
    | name l => exact hlabels l ha
  obtain ⟨-, code, s', ⟨events, hyield⟩, hspec⟩ :=
    stmt_correct st (Nat.le_refl names.temps) rfl hfits hexec
  obtain ⟨x, hperf, hagree⟩ := hspec.performs m (Agree.refl _ m)
  rw [hyield]
  exact ⟨rfl, x, run_of_halts hperf.halts, hagree.effects, hagree.mem, hagree.temp⟩

/-- A sum whose second operand calls a function and assigns the first one. -/
theorem flatten_keeps_meaning_reassigned_operand :
    ∃ x : Machine,
      (∃ n, ∀ fuel, n ≤ fuel →
        Machine.run { temps := {(⟨0⟩, 7)}, labelAddrs := {(.fresh 0, 64)} }
          ((stmt (.move (.mem (.name (.fresh 0))) (.binop .add (.temp ⟨0⟩)
            (.seq (.move (.temp ⟨0⟩) (.call (.fresh 1) [.temp ⟨0⟩])) (.temp ⟨0⟩))))).run.run
              { temps := 1, labels := 2 }).code fuel = (.ok none, x)) ∧
      x.effects = #[.call (.fresh 1) [7], .store 64 1008] ∧ x.temp ⟨0⟩ = 1001 := by
  obtain ⟨-, x, hrun, heffects, -, htemp⟩ := flatten_keeps_meaning
    (.move (.mem (.name (.fresh 0))) (.binop .add (.temp ⟨0⟩)
      (.seq (.move (.temp ⟨0⟩) (.call (.fresh 1) [.temp ⟨0⟩])) (.temp ⟨0⟩))))
    { temps := 1, labels := 2 } { temps := {(⟨0⟩, 7)}, labelAddrs := {(.fresh 0, 64)} } _
    (by
      intro t ht
      simp [Tree.Stmt.leaves, Tree.Expr.leaves, Tree.exprLeaves] at ht
      simp [ht])
    (by
      intro l hl
      simp [Tree.Stmt.leaves, Tree.Expr.leaves, Tree.exprLeaves] at hl
      simp [hl])
    rfl
  exact ⟨x, hrun, heffects, htemp ⟨0⟩ (by decide)⟩

end Flat

end MmixBackend
