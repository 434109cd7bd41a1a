import MmixBackend.Data
import MmixBackend.Error
import MmixBackend.Source

/-!
# Lowering source trees

Lowering turns the source of a function into tree code. Reading a place is reading memory at
its address. A variable of an enclosing function is reached through static links: the word at
the frame pointer of a function is the frame pointer of the function around it. A call passes
the callee's static link as argument 0.

Conditionals and loops become labels and jumps, three fresh labels each, taken after the
condition was lowered and before the bodies are.
-/

namespace MmixBackend.Source

/-- Lowering takes labels and literals from the context, and keeps what it took if it fails. -/
abbrev Lower := ExceptT Error (StateM Context)

/-- A fresh label. -/
def freshLabel : Lower Label := modifyGet Context.freshLabel

/-- The label of a string literal. -/
def internString (text : String) : Lower Label := modifyGet (Context.internString text)

/-- The frame pointer, after following a number of static links. -/
def followLinks (pointer : Temp) : Nat → Tree.Expr
  | 0 => .temp pointer
  | hops + 1 => .mem (followLinks pointer hops)

namespace Scope

/-- The frame pointer of the function around this one that was declared at `depth`. -/
def frameAt (scope : Scope) (depth : Nat) : Except Error Tree.Expr :=
  if depth ≤ scope.frame.depth then
    .ok (followLinks scope.frame.pointer (scope.frame.depth - depth))
  else .error (.hiddenFrame scope.frame.label scope.frame.depth depth)

/-- The address of a variable. -/
def varAddr (scope : Scope) (name : String) : Except Error Tree.Expr :=
  match scope.accesses[name]? with
  | none => .error (.missingAccess name)
  | some (.absolute l) => .ok (.name l)
  | some (.relative offset depth) => do
    return .binop .add (← scope.frameAt depth) (.const offset)

end Scope

mutual

/-- The address of a place. -/
def addr (scope : Scope) : Place → Lower Tree.Expr
  | .var name => ExceptT.mk (pure (scope.varAddr name))
  | .index array index elemSize => do
    let base ← addr scope array
    let index ← value scope index
    return .binop .add base (.binop .mul index (.const elemSize))
  | .field record offset => do
    let base ← addr scope record
    return .binop .add base (.const offset)
  | .deref ptr => value scope ptr

/-- The value of an operand. -/
def value (scope : Scope) : Operand → Lower Tree.Expr
  | .int value => return .const value
  | .str text => return .name (← internString text)
  | .read place => return .mem (← addr scope place)
  | .addrOf place => addr scope place
  | .binop op x y => do
    let x ← value scope x
    let y ← value scope y
    return .binop op x y
  | .unop op x => return .unop op (← value scope x)
  | .call f depth args => do
    let link ← ExceptT.mk (pure (scope.frameAt (depth - 1)))
    let args ← values scope args
    return .call f (link :: args)

/-- The values of operands, from left to right. -/
def values (scope : Scope) : List Operand → Lower (List Tree.Expr)
  | [] => return []
  | x :: xs => do
    let x ← value scope x
    let xs ← values scope xs
    return x :: xs

end

mutual

/-- The statement that a command becomes. -/
def command (scope : Scope) : Command → Lower Tree.Stmt
  | .assign place src => do
    let dst ← addr scope place
    let src ← value scope src
    return .move (.mem dst) src
  | .eval x => return .eval (← value scope x)
  | .cond cond thenCmds elseCmds => do
    let cond ← value scope cond
    let thenLabel ← freshLabel
    let elseLabel ← freshLabel
    let endLabel ← freshLabel
    let thenStmts ← commands scope thenCmds
    let elseStmts ← commands scope elseCmds
    return .seq ([.branch cond thenLabel elseLabel, .label thenLabel] ++ thenStmts ++
      [.jump endLabel, .label elseLabel] ++ elseStmts ++ [.jump endLabel, .label endLabel])
  | .loop cond body => do
    let cond ← value scope cond
    let condLabel ← freshLabel
    let bodyLabel ← freshLabel
    let endLabel ← freshLabel
    let bodyStmts ← commands scope body
    return .seq ([.label condLabel, .branch cond bodyLabel endLabel, .label bodyLabel] ++
      bodyStmts ++ [.jump condLabel, .label endLabel])

/-- The statements that commands become. -/
def commands (scope : Scope) : List Command → Lower (List Tree.Stmt)
  | [] => return []
  | c :: cs => do
    let s ← command scope c
    let ss ← commands scope cs
    return s :: ss

end

/-- A whole function: run the commands, then leave the result in the frame's result
    temporary. -/
def function (scope : Scope) (body : List Command) (result : Operand) : Lower Tree.Function := do
  let stmts ← commands scope body
  let result ← value scope result
  return {
    frame := scope.frame
    body := .move (.temp scope.frame.result) (.seq (.seq stmts) result) }

end MmixBackend.Source
