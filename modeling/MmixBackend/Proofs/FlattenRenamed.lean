import MmixBackend.Flat.OfTree
import MmixBackend.Proofs.Renaming

/-!
# Flattening under other names

Flattening compares names for equality and does nothing else with them. So if the names of a tree
are left alone and all fresh ones are moved, its flat code is the same under the other names, and it
is refused for the same reason.

* **`Tree.Function.Below`** — the names of a function were handed out before.
* **`tracks_protectAll`** — the operands that are copied are the same.
* **`tracks_rhs`** and its companions — by induction on the tree.
* **`tracks_ofTree`** — a function.
-/

namespace MmixBackend

-- ── The names of a tree ──────────────────────────────────────────────────────

namespace Tree

mutual

/-- The temporaries and minted labels of an expression were handed out before. -/
def Expr.Below (s : Supply) : Expr → Prop
  | .const _ => True
  | .temp t => t.index < s.temps
  | .name l => l.Below s
  | .mem addr => addr.Below s
  | .binop _ x y => x.Below s ∧ y.Below s
  | .unop _ x => x.Below s
  | .call f args => f.Below s ∧ ExprsBelow s args
  | .seq st result => st.Below s ∧ result.Below s

/-- The temporaries and minted labels of a statement were handed out before. -/
def Stmt.Below (s : Supply) : Stmt → Prop
  | .label l => l.Below s
  | .jump l => l.Below s
  | .branch cond ifTrue ifFalse => cond.Below s ∧ ifTrue.Below s ∧ ifFalse.Below s
  | .move dst src => dst.Below s ∧ src.Below s
  | .eval e => e.Below s
  | .seq ss => StmtsBelow s ss

/-- The same for all expressions of a list. -/
def ExprsBelow (s : Supply) : List Expr → Prop
  | [] => True
  | e :: es => e.Below s ∧ ExprsBelow s es

/-- The same for all statements of a list. -/
def StmtsBelow (s : Supply) : List Stmt → Prop
  | [] => True
  | st :: ss => st.Below s ∧ StmtsBelow s ss

end

/-- The names of the function and of its frame were handed out before. -/
structure Function.Below (f : Function) (s : Supply) : Prop where
  label : f.frame.label.Below s
  result : f.frame.result.index < s.temps
  pointer : f.frame.pointer.index < s.temps
  body : f.body.Below s

mutual

/-- What two supplies have handed out for an expression is what both have. By induction on the
    tree. -/
theorem Expr.below_inf {s s' : Supply} :
    ∀ e : Expr, e.Below s → e.Below s' → e.Below (s.inf s')
  | .const _, _, _ => trivial
  | .temp _, h, h' => Nat.lt_min.mpr ⟨h, h'⟩
  | .name l, h, h' => l.below_inf h h'
  | .mem addr, h, h' => Expr.below_inf addr h h'
  | .binop _ x y, h, h' => ⟨Expr.below_inf x h.1 h'.1, Expr.below_inf y h.2 h'.2⟩
  | .unop _ x, h, h' => Expr.below_inf x h h'
  | .call f args, h, h' => ⟨f.below_inf h.1 h'.1, exprsBelow_inf args h.2 h'.2⟩
  | .seq st result, h, h' => ⟨Stmt.below_inf st h.1 h'.1, Expr.below_inf result h.2 h'.2⟩

theorem Stmt.below_inf {s s' : Supply} :
    ∀ st : Stmt, st.Below s → st.Below s' → st.Below (s.inf s')
  | .label l, h, h' => l.below_inf h h'
  | .jump l, h, h' => l.below_inf h h'
  | .branch cond ifTrue ifFalse, h, h' =>
    ⟨Expr.below_inf cond h.1 h'.1, ifTrue.below_inf h.2.1 h'.2.1, ifFalse.below_inf h.2.2 h'.2.2⟩
  | .move dst src, h, h' => ⟨Expr.below_inf dst h.1 h'.1, Expr.below_inf src h.2 h'.2⟩
  | .eval e, h, h' => Expr.below_inf e h h'
  | .seq ss, h, h' => stmtsBelow_inf ss h h'

theorem exprsBelow_inf {s s' : Supply} :
    ∀ es : List Expr, ExprsBelow s es → ExprsBelow s' es → ExprsBelow (s.inf s') es
  | [], _, _ => trivial
  | e :: es, h, h' => ⟨Expr.below_inf e h.1 h'.1, exprsBelow_inf es h.2 h'.2⟩

theorem stmtsBelow_inf {s s' : Supply} :
    ∀ ss : List Stmt, StmtsBelow s ss → StmtsBelow s' ss → StmtsBelow (s.inf s') ss
  | [], _, _ => trivial
  | st :: ss, h, h' => ⟨Stmt.below_inf st h.1 h'.1, stmtsBelow_inf ss h.2 h'.2⟩

end

/-- What two supplies have handed out for a function is what both have. -/
theorem Function.Below.inf {f : Function} {s s' : Supply} (h : f.Below s) (h' : f.Below s') :
    f.Below (s.inf s') where
  label := f.frame.label.below_inf h.label h'.label
  result := Nat.lt_min.mpr ⟨h.result, h'.result⟩
  pointer := Nat.lt_min.mpr ⟨h.pointer, h'.pointer⟩
  body := Stmt.below_inf f.body h.body h'.body

/-- A renaming that leaves alone what was handed out leaves the frame alone. -/
theorem Function.Below.frame_rename {f : Function} {s : Supply} {ρ : Renaming} (h : f.Below s)
    (hρ : ρ.Fixes s) : f.frame.rename ρ = f.frame := by
  rw [Frame.rename, hρ.label _ h.label, hρ.temp _ h.result, hρ.temp _ h.pointer]

end Tree

-- ── Operands ─────────────────────────────────────────────────────────────────

namespace Flat

variable {ρ : Renaming} {d : Supply}

/-- An operand under other names. -/
def Part.rename (ρ : Renaming) (p : Part) : Part := ⟨p.code.map (Stmt.rename ρ), p.atom.rename ρ⟩

theorem defs_rename (p : Part) : (p.rename ρ).defs = p.defs.map ρ.temp := by
  simp only [Part.defs, Part.rename, List.filterMap_map, List.map_filterMap]
  exact congrArg (List.filterMap · p.code) (funext Stmt.def?_rename)

/-- Emitting statements does not depend on the names. -/
theorem tracks_emit (code : List Stmt) :
    Tracks ρ d (Stmt.rename ρ) id (emit code) (emit (code.map (Stmt.rename ρ))) :=
  (mirrors_write code).lift

theorem tracks_emit_of_eq {code code' : List Stmt} (h : code.map (Stmt.rename ρ) = code') :
    Tracks ρ d (Stmt.rename ρ) id (emit code) (emit code') := h ▸ tracks_emit code

/-- A fresh temporary has its new name further on. -/
theorem tracks_freshTemp :
    Tracks ρ d (Stmt.rename ρ) ρ.temp (ExceptT.lift Emit.freshTemp : Flatten Temp)
      (ExceptT.lift Emit.freshTemp) := mirrors_freshTemp.lift

/-- Assigning to a fresh temporary does not depend on the names. -/
theorem tracks_assignFresh (r : Rhs) :
    Tracks ρ d (Stmt.rename ρ) ρ.temp (assignFresh r) (assignFresh (r.rename ρ)) :=
  tracks_freshTemp.bind fun t => (tracks_emit [.act (.move t r)]).bind fun _ => tracks_pure t

/-- Making an atom of a right-hand side does not depend on the names. -/
theorem tracks_materialize (r : Rhs) :
    Tracks ρ d (Stmt.rename ρ) (Atom.rename ρ) (materialize r) (materialize (r.rename ρ)) := by
  have hfresh : Tracks ρ d (Stmt.rename ρ) (Atom.rename ρ)
      (do
        let t ← ExceptT.lift Emit.freshTemp
        ExceptT.lift (Emit.report (.materialized r t))
        emit [.act (.move t r)]
        return .temp t : Flatten Atom)
      (do
        let t ← ExceptT.lift Emit.freshTemp
        ExceptT.lift (Emit.report (.materialized (r.rename ρ) t))
        emit [.act (.move t (r.rename ρ))]
        return .temp t) :=
    tracks_freshTemp.bind fun t => (mirrors_reportAll _ _).lift.bind fun _ =>
      (tracks_emit [.act (.move t r)]).bind fun _ => tracks_pure (Atom.temp t)
  cases r with
  | atom a => exact tracks_pure a
  | binop op x y => exact hfresh
  | unop op x => exact hfresh
  | load addr => exact hfresh
  | call f args => exact hfresh

theorem tracks_materialized {x y : Flatten Rhs}
    (h : Tracks ρ d (Stmt.rename ρ) (Rhs.rename ρ) x y) :
    Tracks ρ d (Stmt.rename ρ) (Atom.rename ρ) (x >>= materialize) (y >>= materialize) :=
  h.bind tracks_materialize

theorem tracks_nameAtom (a : Atom) :
    Tracks ρ d (Stmt.rename ρ) ρ.temp (nameAtom a) (nameAtom (a.rename ρ)) := by
  cases a with
  | temp t => exact tracks_pure t
  | const value => exact tracks_assignFresh (.atom (.const value))
  | name l => exact tracks_assignFresh (.atom (.name l))

/-- Keeping the code of an operand does not depend on the names. -/
theorem tracks_capture {x y : Flatten Atom}
    (h : Tracks ρ d (Stmt.rename ρ) (Atom.rename ρ) x y) :
    Tracks ρ d (Stmt.rename ρ) (Part.rename ρ) (capture x) (capture y) := by
  refine Mirrors.bind (Mirrors.collect h) fun p => ?_
  obtain ⟨code, r⟩ := p
  cases r with
  | error e => exact mirrors_pure (Except.error e : Except Error Part)
  | ok a => exact mirrors_pure (Except.ok ⟨code, a⟩ : Except Error Part)

section Operands

variable [KeepsOrder ρ.temp]

/-- Protecting an operand from later ones does not depend on the names. -/
theorem tracks_protect (later : List Temp) (p : Part) :
    Tracks ρ d (Stmt.rename ρ) (Part.rename ρ) (p.protect later)
      ((p.rename ρ).protect (later.map ρ.temp)) := by
  obtain ⟨code, atom⟩ := p
  cases atom with
  | const value => exact tracks_pure _
  | name l => exact tracks_pure _
  | temp t =>
    simp only [Part.protect, Part.rename, Atom.rename, Renaming.temp_mem_map]
    split
    · refine tracks_freshTemp.bind fun copy => ?_
      exact tracks_pure_of_eq (congrArg (Part.mk · (.temp (ρ.temp copy))) List.map_append)
    · exact tracks_pure (Part.mk code (.temp t))

/-- Protecting operands from each other does not depend on the names. By induction on the list. -/
theorem tracks_protectAll (ps : List Part) :
    Tracks ρ d (Stmt.rename ρ) (List.map (Part.rename ρ)) (Part.protectAll ps)
      (Part.protectAll (ps.map (Part.rename ρ))) := by
  induction ps with
  | nil => exact tracks_pure []
  | cons p ps ih =>
    refine ih.bind fun ps' => ?_
    have hdefs : (ps'.map (Part.rename ρ)).flatMap Part.defs =
        (ps'.flatMap Part.defs).map ρ.temp := by
      rw [List.flatMap_map, List.map_flatMap]
      exact congrArg (List.flatMap · ps') (funext defs_rename)
    rw [hdefs]
    exact (tracks_protect _ p).bind fun p' => tracks_pure (p' :: ps')

/-- Flattening two operands does not depend on the names. -/
theorem tracks_operands {x y x' y' : Flatten Atom}
    (hx : Tracks ρ d (Stmt.rename ρ) (Atom.rename ρ) x x')
    (hy : Tracks ρ d (Stmt.rename ρ) (Atom.rename ρ) y y') {α : Type} {φ : α → α}
    (f : Atom → Atom → Flatten α)
    (hf : ∀ a b, Tracks ρ d (Stmt.rename ρ) φ (f a b) (f (a.rename ρ) (b.rename ρ))) :
    Tracks ρ d (Stmt.rename ρ) φ
      (do
        let x ← capture x
        let y ← capture y
        let x ← x.protect y.defs
        emit (x.code ++ y.code)
        f x.atom y.atom)
      (do
        let x ← capture x'
        let y ← capture y'
        let x ← x.protect y.defs
        emit (x.code ++ y.code)
        f x.atom y.atom) := by
  refine (tracks_capture hx).bind fun p => (tracks_capture hy).bind fun q => ?_
  rw [defs_rename]
  refine (tracks_protect q.defs p).bind fun p' => ?_
  have hcode : (p'.rename ρ).code ++ (q.rename ρ).code =
      (p'.code ++ q.code).map (Stmt.rename ρ) := List.map_append.symm
  rw [hcode]
  exact (tracks_emit _).bind fun _ => hf p'.atom q.atom

end Operands

-- ── Trees ────────────────────────────────────────────────────────────────────

variable {s₀ : Supply}

mutual

/-- Flattening an expression does not depend on the names that are handed out. By induction on the
    tree, together with the next three. -/
theorem tracks_rhs [KeepsOrder ρ.temp] (hρ : ρ.Fixes s₀) (e : Tree.Expr) (he : e.Below s₀) :
    Tracks ρ d (Stmt.rename ρ) (Rhs.rename ρ) (rhs e) (rhs e) := by
  cases e with
  | const value => exact tracks_pure (Rhs.atom (.const value))
  | temp t => exact tracks_pure_of_eq (congrArg (fun t => Rhs.atom (.temp t)) (hρ.temp t he))
  | name l => exact tracks_pure_of_eq (congrArg (fun l => Rhs.atom (.name l)) (hρ.label l he))
  | mem addr =>
    rw [rhs]
    exact (tracks_rhs hρ addr he).bind fun r => (tracks_materialize r).bind fun a =>
      tracks_pure (Rhs.load a)
  | binop op x y =>
    have hx := tracks_materialized (tracks_rhs hρ x he.1)
    have hy := tracks_materialized (tracks_rhs hρ y he.2)
    rw [rhs]
    exact tracks_operands (φ := Rhs.rename ρ) hx hy (fun a b => pure (.binop op a b))
      fun a b => tracks_pure (Rhs.binop op a b)
  | unop op x =>
    rw [rhs]
    exact (tracks_rhs hρ x he).bind fun r => (tracks_materialize r).bind fun a =>
      tracks_pure (Rhs.unop op a)
  | call f args =>
    rw [rhs]
    refine (tracks_parts hρ args he.2).bind fun ps => (tracks_protectAll ps).bind fun ps' => ?_
    have hcode : (ps'.map (Part.rename ρ)).flatMap Part.code =
        (ps'.flatMap Part.code).map (Stmt.rename ρ) := by
      rw [List.flatMap_map, List.map_flatMap]
      rfl
    rw [hcode]
    refine (tracks_emit _).bind fun _ => ?_
    refine (tracks_mapM (fun p => tracks_nameAtom p.atom) ps').bind fun ts => ?_
    exact tracks_pure_of_eq (congrArg (Rhs.call · _) (hρ.label f he.1))
  | seq st result =>
    rw [rhs]
    exact (tracks_stmt hρ st he.1).bind fun _ => tracks_rhs hρ result he.2

theorem tracks_parts [KeepsOrder ρ.temp] (hρ : ρ.Fixes s₀) (es : List Tree.Expr)
    (hes : Tree.ExprsBelow s₀ es) :
    Tracks ρ d (Stmt.rename ρ) (List.map (Part.rename ρ)) (parts es) (parts es) := by
  cases es with
  | nil => exact tracks_pure []
  | cons e es =>
    rw [parts]
    exact (tracks_capture (tracks_materialized (tracks_rhs hρ e hes.1))).bind fun p =>
      (tracks_parts hρ es hes.2).bind fun ps => tracks_pure (p :: ps)

/-- Flattening a statement does not depend on the names that are handed out. -/
theorem tracks_stmt [KeepsOrder ρ.temp] (hρ : ρ.Fixes s₀) (st : Tree.Stmt) (hst : st.Below s₀) :
    Tracks ρ d (Stmt.rename ρ) id (stmt st) (stmt st) := by
  cases st with
  | label l => exact tracks_emit_of_eq (congrArg (fun l => [Stmt.label l]) (hρ.label l hst))
  | jump l =>
    exact tracks_emit_of_eq (congrArg (fun l => [Stmt.transfer (.jump l)]) (hρ.label l hst))
  | branch cond ifTrue ifFalse =>
    rw [stmt]
    refine (tracks_rhs hρ cond hst.1).bind fun r => (tracks_materialize r).bind fun a =>
      (tracks_nameAtom a).bind fun t => mirrors_freshLabel.lift.bind fun neg => ?_
    refine tracks_emit_of_eq ?_
    simp only [List.map_cons, List.map_nil, Stmt.rename, Transfer.rename,
      hρ.label ifTrue hst.2.1, hρ.label ifFalse hst.2.2]
  | move dst src =>
    cases dst with
    | temp t =>
      rw [stmt]
      refine (tracks_rhs hρ src hst.2).bind fun r => ?_
      exact tracks_emit_of_eq
        (congrArg (fun t => [Stmt.act (.move t (r.rename ρ))]) (hρ.temp t hst.1))
    | mem addr =>
      have hsrc := tracks_materialized (tracks_rhs hρ src hst.2)
      have haddr := tracks_materialized (tracks_rhs hρ addr hst.1)
      rw [stmt]
      exact tracks_operands hsrc haddr (fun a b => emit [.act (.store b a)])
        fun a b => tracks_emit [.act (.store b a)]
    | _ => exact tracks_throw _
  | eval e =>
    rw [stmt]
    refine (tracks_rhs hρ e hst).bind fun r => ?_
    cases r with
    | call f args => exact tracks_emit [.act (.call f args)]
    | _ => exact tracks_pure ()
  | seq ss =>
    rw [stmt]
    exact tracks_stmts hρ ss hst

theorem tracks_stmts [KeepsOrder ρ.temp] (hρ : ρ.Fixes s₀) (ss : List Tree.Stmt)
    (hss : Tree.StmtsBelow s₀ ss) :
    Tracks ρ d (Stmt.rename ρ) id (stmts ss) (stmts ss) := by
  cases ss with
  | nil => exact tracks_pure ()
  | cons st ss =>
    rw [stmts]
    exact (tracks_stmt hρ st hss.1).bind fun _ => tracks_stmts hρ ss hss.2

end

/-- The flat form of a function. -/
theorem tracks_ofTree [KeepsOrder ρ.temp] {ω : Type} {item : ω → ω} (hρ : ρ.Fixes s₀)
    {f : Tree.Function} (hf : f.Below s₀) :
    Tracks ρ d item (Function.rename ρ) (Function.ofTree f : ExceptT Error (Emit ω) Function)
      (Function.ofTree f) := by
  refine mirrors_freshLabel.lift.bind fun entry => mirrors_freshLabel.lift.bind fun exit => ?_
  refine (Mirrors.lift (Mirrors.collect (tracks_stmt hρ f.body hf.body))).bind fun p => ?_
  obtain ⟨body, outcome⟩ := p
  cases outcome with
  | error e => exact tracks_throw e
  | ok _ =>
    refine tracks_pure_of_eq ?_
    simp only [Function.rename, hf.frame_rename hρ, List.map_append, List.map_cons, List.map_nil]
    rfl

end Flat

end MmixBackend
