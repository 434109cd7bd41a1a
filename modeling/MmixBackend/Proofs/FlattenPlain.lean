import MmixBackend.Proofs.FlattenMeaning

/-!
# Flattening plain expressions

An expression is plain if no statement is nested in it. Whether or not it has a value, flattening
it succeeds, takes no label and emits actions only.

* **`Smooth.bind`** — one step of flattening after another.
* **`smooth_rhs`** — by induction on the expression.
-/

namespace MmixBackend

namespace Tree

mutual

/-- No statement is nested in the expression. -/
def Expr.Plain : Expr → Prop
  | .const _ => True
  | .temp _ => True
  | .name _ => True
  | .mem addr => addr.Plain
  | .binop _ x y => x.Plain ∧ y.Plain
  | .unop _ x => x.Plain
  | .call _ args => PlainExprs args
  | .seq _ _ => False

/-- No statement is nested in the expressions. -/
def PlainExprs : List Expr → Prop
  | [] => True
  | e :: es => e.Plain ∧ PlainExprs es

end

end Tree

namespace Flat

variable {α β : Type} {P : α → Prop} {Q : β → Prop}

/-- The code has neither labels nor transfers. -/
def Acts (code : List Stmt) : Prop := ∀ st ∈ code, ∃ a, st = .act a

theorem Acts.append {code code' : List Stmt} (h : Acts code) (h' : Acts code') :
    Acts (code ++ code') := List.forall_mem_append.mpr ⟨h, h'⟩

theorem acts_single (a : Action) : Acts [.act a] :=
  List.forall_mem_singleton.mpr ⟨a, rfl⟩

theorem acts_nil : Acts [] := List.forall_mem_nil _

/-- From every supply, the step succeeds with such a value, takes no label and emits actions
    only. -/
def Smooth (P : α → Prop) (x : Flatten α) : Prop :=
  ∀ s, ∃ a code s', Yields x s a code s' ∧ P a ∧ Acts code ∧ s'.labels = s.labels ∧
    s.temps ≤ s'.temps

/-- A step that only returns its value is smooth. -/
theorem smooth_pure {a : α} (h : P a) : Smooth P (pure a) :=
  fun s => ⟨a, [], s, yields_pure a s, h, acts_nil, rfl, Nat.le_refl _⟩

/-- Smooth steps one after the other are smooth. -/
theorem Smooth.bind {x : Flatten α} {f : α → Flatten β} (hx : Smooth P x)
    (hf : ∀ a, P a → Smooth Q (f a)) : Smooth Q (x >>= f) := by
  intro s
  obtain ⟨a, code, s₁, hyields, ha, hacts, hlabels, hle⟩ := hx s
  obtain ⟨b, code', s', hyields', hb, hacts', hlabels', hle'⟩ := hf a ha s₁
  exact ⟨b, code ++ code', s', hyields.bind hyields', hb, hacts.append hacts',
    hlabels'.trans hlabels, Nat.le_trans hle hle'⟩

theorem smooth_freshTemp : Smooth (fun _ => True) (ExceptT.lift Emit.freshTemp : Flatten Temp) :=
  fun s => ⟨_, [], _, yields_freshTemp s, trivial, acts_nil, rfl, Nat.le_succ _⟩

theorem smooth_report (e : Event) :
    Smooth (fun _ => True) (ExceptT.lift (Emit.report e) : Flatten Unit) :=
  fun s => ⟨_, [], s, yields_report e s, trivial, acts_nil, rfl, Nat.le_refl _⟩

/-- Emitting actions is smooth. -/
theorem smooth_emit {code : List Stmt} (h : Acts code) : Smooth (fun _ => True) (emit code) :=
  fun s => ⟨(), code, s, yields_emit code s, trivial, h, rfl, Nat.le_refl _⟩

/-- Code that is kept apart becomes part of the value. -/
theorem smooth_capture {P : Atom → Prop} {x : Flatten Atom} (h : Smooth P x) :
    Smooth (fun p => Acts p.code) (capture x) := by
  intro s
  obtain ⟨a, code, s', hyields, -, hacts, hlabels, hle⟩ := h s
  exact ⟨⟨code, a⟩, [], s', yields_capture hyields, hacts, acts_nil, hlabels, hle⟩

theorem smooth_assignFresh (r : Rhs) : Smooth (fun _ => True) (assignFresh r) :=
  smooth_freshTemp.bind fun _ _ => (smooth_emit (acts_single _)).bind fun _ _ => smooth_pure trivial

/-- Naming a right-hand side takes at most a temporary and a move. -/
theorem smooth_materialize (r : Rhs) : Smooth (fun _ => True) (materialize r) := by
  cases r with
  | atom a => exact smooth_pure trivial
  | _ =>
      exact smooth_freshTemp.bind fun _ _ => (smooth_report _).bind fun _ _ =>
        (smooth_emit (acts_single _)).bind fun _ _ => smooth_pure trivial

/-- Naming an argument takes at most a temporary and a move. -/
theorem smooth_nameAtom (a : Atom) : Smooth (fun _ => True) (nameAtom a) := by
  cases a with
  | temp t => exact smooth_pure trivial
  | _ => exact smooth_assignFresh _

/-- Copying an operand adds a move to its code. -/
theorem smooth_protect {p : Part} (hp : Acts p.code) (later : List Temp) :
    Smooth (fun p => Acts p.code) (p.protect later) := by
  obtain ⟨code, a⟩ := p
  cases a with
  | temp t =>
      rw [Part.protect]
      dsimp only
      split
      · exact smooth_freshTemp.bind fun _ _ => smooth_pure (hp.append (acts_single _))
      · exact smooth_pure hp
  | _ => exact smooth_pure hp

/-- Copies of operands are moves, each behind the code of its operand. -/
theorem smooth_protectAll {ps : List Part} (hps : ∀ p ∈ ps, Acts p.code) :
    Smooth (fun ps => ∀ p ∈ ps, Acts p.code) (Part.protectAll ps) := by
  induction ps with
  | nil => exact smooth_pure (List.forall_mem_nil _)
  | cons p ps ih =>
      obtain ⟨hp, hps⟩ := List.forall_mem_cons.mp hps
      rw [Part.protectAll]
      refine (ih hps).bind fun ps hps => (smooth_protect hp _).bind fun p hp => ?_
      exact smooth_pure (List.forall_mem_cons.mpr ⟨hp, hps⟩)

/-- The arguments of a call are named by moves only. -/
theorem smooth_nameAtoms (ps : List Part) :
    Smooth (fun _ => True) (ps.mapM fun p => nameAtom p.atom) := by
  induction ps with
  | nil =>
      rw [List.mapM_nil]
      exact smooth_pure trivial
  | cons p ps ih =>
      rw [List.mapM_cons]
      exact (smooth_nameAtom p.atom).bind fun _ _ => ih.bind fun _ _ => smooth_pure trivial

mutual

/-- A plain expression is flattened to actions and an operation that is left over. -/
theorem smooth_rhs {e : Tree.Expr} (he : e.Plain) : Smooth (fun _ => True) (rhs e) := by
  cases e with
  | const value => exact smooth_pure trivial
  | temp t => exact smooth_pure trivial
  | name l => exact smooth_pure trivial
  | mem addr =>
      have haddr : addr.Plain := he
      rw [rhs]
      refine (smooth_rhs haddr).bind fun r _ => (smooth_materialize r).bind fun a _ => ?_
      exact smooth_pure trivial
  | unop op x =>
      have hx : x.Plain := he
      rw [rhs]
      refine (smooth_rhs hx).bind fun r _ => (smooth_materialize r).bind fun a _ => ?_
      exact smooth_pure trivial
  | binop op x y =>
      have hx := smooth_capture ((smooth_rhs he.1).bind fun r _ => smooth_materialize r)
      have hy := smooth_capture ((smooth_rhs he.2).bind fun r _ => smooth_materialize r)
      rw [rhs]
      refine hx.bind fun p hp => hy.bind fun q hq => ?_
      refine (smooth_protect hp q.defs).bind fun p' hp' => ?_
      exact (smooth_emit (hp'.append hq)).bind fun _ _ => smooth_pure trivial
  | call f args =>
      rw [rhs]
      refine (smooth_parts he).bind fun ps hps => (smooth_protectAll hps).bind fun ps' hps' => ?_
      refine (smooth_emit ?_).bind fun _ _ => (smooth_nameAtoms ps').bind fun _ _ =>
        smooth_pure trivial
      intro st hst
      obtain ⟨p, hp, hst⟩ := List.mem_flatMap.mp hst
      exact hps' p hp st hst
  | seq s result => exact absurd he id

/-- Operands without nested statements are computed by actions only. -/
theorem smooth_parts {es : List Tree.Expr} (hes : Tree.PlainExprs es) :
    Smooth (fun ps => ∀ p ∈ ps, Acts p.code) (parts es) := by
  cases es with
  | nil => exact smooth_pure (List.forall_mem_nil _)
  | cons e es =>
      have he := smooth_capture ((smooth_rhs hes.1).bind fun r _ => smooth_materialize r)
      rw [parts]
      refine he.bind fun p hp => (smooth_parts hes.2).bind fun ps hps => ?_
      exact smooth_pure (List.forall_mem_cons.mpr ⟨hp, hps⟩)

end

end Flat

end MmixBackend
