import MmixBackend.Emit
import MmixBackend.Error

/-!
# Flattening trees

Operands are evaluated from left to right. An operation that is an operand gets a fresh
temporary of its own (`materialize`); an operand that already is a temporary is copied only if
a later sibling assigns that temporary before the operation happens (`Part.protect`).

The operands of one operation are computed apart, each as a `Part`. Only when all of them are
there is their code emitted, so nothing of a failed operation is.
-/

namespace MmixBackend

namespace Flat

/-- Flattening emits flat statements and stops at a move that has no destination. -/
abbrev Flatten := ExceptT Error (Emit Stmt)

/-- Emits statements. -/
def emit (stmts : List Stmt) : Flatten Unit := ExceptT.lift (Emit.write stmts)

/-- A fresh temporary that the right-hand side is moved to. -/
def assignFresh (rhs : Rhs) : Flatten Temp := do
  let t ← ExceptT.lift Emit.freshTemp
  emit [.act (.move t rhs)]
  return t

/-- An atom with the value of a right-hand side. -/
def materialize : Rhs → Flatten Atom
  | .atom a => return a
  | rhs => do
    let t ← ExceptT.lift Emit.freshTemp
    ExceptT.lift (Emit.report (.materialized rhs t))
    emit [.act (.move t rhs)]
    return .temp t

/-- A temporary with the value of an atom. -/
def nameAtom : Atom → Flatten Temp
  | .temp t => return t
  | a => assignFresh (.atom a)

-- ── Operands ─────────────────────────────────────────────────────────────────

/-- An operand: the code that computes it and the atom that then holds its value. -/
structure Part where
  code : List Stmt
  atom : Atom

namespace Part

/-- The temporaries that the code of an operand assigns. -/
def defs (p : Part) : List Temp := p.code.filterMap Stmt.def?

/-- Copies the atom at the end of the operand's code if it is one of the temporaries that are
    assigned later. -/
def protect (later : List Temp) (p : Part) : Flatten Part :=
  match p.atom with
  | .temp t =>
    if t ∈ later then do
      let copy ← ExceptT.lift Emit.freshTemp
      return ⟨p.code ++ [.act (.move copy (.atom (.temp t)))], .temp copy⟩
    else return p
  | _ => return p

/-- Protects each operand from those to its right, the last operand first. -/
def protectAll : List Part → Flatten (List Part)
  | [] => return []
  | p :: ps => do
    let ps ← protectAll ps
    let p ← p.protect (ps.flatMap defs)
    return p :: ps

end Part

/-- The operand that a step computes, with the code kept apart. -/
def capture (x : Flatten Atom) : Flatten Part :=
  ExceptT.mk do
    let (code, atom) ← Emit.collect x.run
    return atom.map (Part.mk code)

-- ── Trees ────────────────────────────────────────────────────────────────────

mutual

/-- Emits the effects of an expression; its outermost operation is left to the caller. -/
def rhs : Tree.Expr → Flatten Rhs
  | .const value => return .atom (.const value)
  | .temp t => return .atom (.temp t)
  | .name l => return .atom (.name l)
  | .mem addr => do
    return .load (← materialize (← rhs addr))
  | .binop op x y => do
    let x ← capture (rhs x >>= materialize)
    let y ← capture (rhs y >>= materialize)
    let x ← x.protect y.defs
    emit (x.code ++ y.code)
    return .binop op x.atom y.atom
  | .unop op x => do
    return .unop op (← materialize (← rhs x))
  | .call f args => do
    let args ← Part.protectAll (← parts args)
    emit (args.flatMap Part.code)
    return .call f (← args.mapM fun arg => nameAtom arg.atom)
  | .seq s result => do
    stmt s
    rhs result

/-- The operands of a call, each computed apart. -/
def parts : List Tree.Expr → Flatten (List Part)
  | [] => return []
  | e :: es => do
    let p ← capture (rhs e >>= materialize)
    let ps ← parts es
    return p :: ps

/-- Emits the flat form of a statement. A branch keeps only its positive target; the negative
    one is reached by a jump behind a fresh label, where layout can move it. A store computes
    the value before the address. -/
def stmt : Tree.Stmt → Flatten Unit
  | .label l => emit [.label l]
  | .jump l => emit [.transfer (.jump l)]
  | .branch cond ifTrue ifFalse => do
    let cond ← nameAtom (← materialize (← rhs cond))
    let neg ← ExceptT.lift Emit.freshLabel
    emit [.transfer (.branch cond ifTrue neg), .label neg, .transfer (.jump ifFalse)]
  | .move (.temp dst) src => do
    let src ← rhs src
    emit [.act (.move dst src)]
  | .move (.mem addr) src => do
    let src ← capture (rhs src >>= materialize)
    let addr ← capture (rhs addr >>= materialize)
    let src ← src.protect addr.defs
    emit (src.code ++ addr.code)
    emit [.act (.store addr.atom src.atom)]
  | .move dst _ => throw (.badDestination dst)
  | .eval e => do
    match ← rhs e with
    | .call f args => emit [.act (.call f args)]
    | _ => return ()
  | .seq ss => stmts ss

/-- Emits the flat forms of statements in order. -/
def stmts : List Tree.Stmt → Flatten Unit
  | [] => return ()
  | s :: ss => do
    stmt s
    stmts ss

end

/-- Emits the effects of an expression and gives an atom with its value. -/
def expr (e : Tree.Expr) : Flatten Atom := rhs e >>= materialize

/-- The flat form of a function: a fresh entry label, the body, and a jump to a fresh exit
    label, which is defined nowhere. -/
def Function.ofTree {ω : Type} (f : Tree.Function) : ExceptT Error (Emit ω) Function := do
  let entry ← ExceptT.lift Emit.freshLabel
  let exit ← ExceptT.lift Emit.freshLabel
  let (body, outcome) ← ExceptT.lift (Emit.collect (stmt f.body).run)
  match outcome with
  | .error e => throw e
  | .ok () =>
    return {
      frame := f.frame
      stmts := .label entry :: body ++ [.transfer (.jump exit)]
      entry
      exit }

end Flat

end MmixBackend
