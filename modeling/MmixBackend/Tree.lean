import MmixBackend.Frame
import MmixBackend.Operator

/-!
# Tree code

The code of a function as a front end builds it: one statement tree, whose expressions may
contain calls and, through `Expr.seq`, further statements. The only destinations that make
sense in a move are a temporary and a memory word; a tree may still hold another one, and then
flattening refuses it.
-/

namespace MmixBackend.Tree

mutual

/-- An expression. -/
inductive Expr where
  | const (value : Word)
  | temp (t : Temp)
  /-- The address that a label stands for. -/
  | name (l : Label)
  /-- The word at an address. -/
  | mem (addr : Expr)
  | binop (op : BinOp) (x y : Expr)
  | unop (op : UnOp) (x : Expr)
  | call (f : Label) (args : List Expr)
  /-- Run the statement, then take the value of the expression. -/
  | seq (s : Stmt) (result : Expr)

/-- A statement. -/
inductive Stmt where
  | label (l : Label)
  | jump (l : Label)
  | branch (cond : Expr) (ifTrue ifFalse : Label)
  | move (dst src : Expr)
  /-- Evaluate for the effects alone. -/
  | eval (e : Expr)
  | seq (ss : List Stmt)

end

/-- A function as a tree. -/
structure Function where
  frame : Frame
  body : Stmt

instance : Inhabited Expr := ⟨.const 0⟩

instance : Inhabited Stmt := ⟨.seq []⟩

mutual

/-- How an expression is written. -/
def Expr.text : Expr → String
  | .const value => Word.text value
  | .temp t => t.text
  | .name l => ":" ++ l.text
  | .mem addr => "M[" ++ addr.text ++ "]"
  | .binop op x y => "(" ++ x.text ++ " " ++ op.symbol ++ " " ++ y.text ++ ")"
  | .unop op x => "(" ++ op.symbol ++ x.text ++ ")"
  | .call f args => f.text ++ "(" ++ String.intercalate ", " (exprTexts args) ++ ")"
  | .seq s result => "\x7b " ++ s.text ++ "; " ++ result.text ++ " \x7d"

/-- How a statement is written. -/
def Stmt.text : Stmt → String
  | .label l => l.text ++ ":"
  | .jump l => "jmp " ++ l.text
  | .branch cond ifTrue ifFalse =>
    "if " ++ cond.text ++ " then " ++ ifTrue.text ++ " else " ++ ifFalse.text
  | .move dst src => dst.text ++ " <- " ++ src.text
  | .eval e => "_ <- " ++ e.text
  | .seq ss => String.intercalate "; " (stmtTexts ss)

/-- The texts of the expressions of a list. -/
def exprTexts : List Expr → List String
  | [] => []
  | e :: es => e.text :: exprTexts es

/-- The texts of the statements of a list. -/
def stmtTexts : List Stmt → List String
  | [] => []
  | s :: ss => s.text :: stmtTexts ss

end

end MmixBackend.Tree
