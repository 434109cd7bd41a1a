import MmixBackend.Frame
import MmixBackend.Operator

/-!
# Flat code

Flat code is a list of statements without nesting: a right-hand side applies at most one
operation, and only to *atoms*, which need no evaluation. A statement is a label, an *action*
(after which control goes on to the next statement) or a *transfer* (after which it never
does).
-/

namespace MmixBackend.Flat

/-- An operand that needs no evaluation. -/
inductive Atom where
  | const (value : Word)
  | temp (t : Temp)
  /-- The address that a label stands for. -/
  | name (l : Label)
  deriving DecidableEq, Repr

/-- At most one operation, applied to atoms. -/
inductive Rhs where
  | atom (a : Atom)
  | binop (op : BinOp) (x y : Atom)
  | unop (op : UnOp) (x : Atom)
  /-- The word at an address. -/
  | load (addr : Atom)
  | call (f : Label) (args : List Temp)
  deriving DecidableEq, Repr

/-- A statement that control leaves at its end. -/
inductive Action where
  | move (dst : Temp) (rhs : Rhs)
  | store (addr src : Atom)
  /-- A call whose result nobody reads. -/
  | call (f : Label) (args : List Temp)
  deriving DecidableEq, Repr

/-- A statement that control leaves by a jump. -/
inductive Transfer where
  | jump (target : Label)
  | branch (cond : Temp) (ifTrue ifFalse : Label)
  deriving DecidableEq, Repr

/-- A flat statement. -/
inductive Stmt where
  | label (l : Label)
  | act (a : Action)
  | transfer (t : Transfer)
  deriving DecidableEq, Repr

/-- A function as flat code. -/
structure Function where
  frame : Frame
  stmts : List Stmt
  entry : Label
  /-- Where control leaves the function; defined nowhere. -/
  exit : Label

-- ── What statements define and where they lead ───────────────────────────────

/-- The temporary that an action assigns. -/
def Action.def? : Action → Option Temp
  | .move dst _ => some dst
  | .store .. => none
  | .call .. => none

/-- The labels a transfer may lead to. -/
def Transfer.targets : Transfer → List Label
  | .jump target => [target]
  | .branch _ ifTrue ifFalse => [ifTrue, ifFalse]

/-- The label that an unconditional jump leads to. -/
def Transfer.jump? : Transfer → Option Label
  | .jump target => some target
  | .branch .. => none

/-- The label that a branch leads to when its condition is zero. -/
def Transfer.negative? : Transfer → Option Label
  | .jump _ => none
  | .branch _ _ ifFalse => some ifFalse

/-- Replaces the labels a transfer leads to. -/
def Transfer.retarget (f : Label → Label) : Transfer → Transfer
  | .jump target => .jump (f target)
  | .branch cond ifTrue ifFalse => .branch cond (f ifTrue) (f ifFalse)

namespace Stmt

/-- The temporary that a statement assigns. -/
def def? : Stmt → Option Temp
  | .act a => a.def?
  | _ => none

/-- The label that a statement defines. -/
def label? : Stmt → Option Label
  | .label l => some l
  | _ => none

/-- The labels a statement may jump to. -/
def targets : Stmt → List Label
  | .transfer t => t.targets
  | _ => []

/-- Does control leave the statement by a jump? -/
def isTransfer : Stmt → Bool
  | .transfer _ => true
  | _ => false

/-- Replaces the labels a statement jumps to; a label it defines stays. -/
def retarget (f : Label → Label) : Stmt → Stmt
  | .transfer t => .transfer (t.retarget f)
  | s => s

end Stmt

-- ── Text ─────────────────────────────────────────────────────────────────────

/-- How an atom is written. -/
def Atom.text : Atom → String
  | .const value => Word.text value
  | .temp t => t.text
  | .name l => ":" ++ l.text

/-- How a call is written. -/
def callText (f : Label) (args : List Temp) : String :=
  f.text ++ "(" ++ String.intercalate ", " (args.map Temp.text) ++ ")"

/-- How a right-hand side is written. -/
def Rhs.text : Rhs → String
  | .atom a => a.text
  | .binop op x y => x.text ++ " " ++ op.symbol ++ " " ++ y.text
  | .unop op x => op.symbol ++ x.text
  | .load addr => "M[" ++ addr.text ++ "]"
  | .call f args => callText f args

/-- How an action is written. -/
def Action.text : Action → String
  | .move dst rhs => dst.text ++ " <- " ++ rhs.text
  | .store addr src => "M[" ++ addr.text ++ "] <- " ++ src.text
  | .call f args => "_ <- " ++ callText f args

/-- How a transfer is written. -/
def Transfer.text : Transfer → String
  | .jump target => "jmp " ++ target.text
  | .branch cond ifTrue ifFalse =>
    "if " ++ cond.text ++ " then " ++ ifTrue.text ++ " else " ++ ifFalse.text

/-- How a statement is written. -/
def Stmt.text : Stmt → String
  | .label l => l.text ++ ":"
  | .act a => a.text
  | .transfer t => t.text

end MmixBackend.Flat
