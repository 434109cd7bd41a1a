import MmixBackend.Frame
import MmixBackend.Operator

/-!
# Source trees

The body of a function as a front end hands it over, with structured control flow: *places*
denote memory locations, *operands* have values, *commands* do something. Variables are
names; where each of them lives is told by the accesses of the function.
-/

namespace MmixBackend.Source

mutual

/-- Something that denotes a memory location. -/
inductive Place where
  | var (name : String)
  /-- An element of an array. -/
  | index (array : Place) (index : Operand) (elemSize : Word)
  /-- A field of a record. -/
  | field (record : Place) (offset : Word)
  /-- Where a pointer points to. -/
  | deref (ptr : Operand)

/-- Something that has a value. -/
inductive Operand where
  | int (value : Word)
  | str (text : String)
  /-- The word at a place. -/
  | read (place : Place)
  /-- The address of a place. -/
  | addrOf (place : Place)
  | binop (op : BinOp) (x y : Operand)
  | unop (op : UnOp) (x : Operand)
  /-- A call of a function declared at depth `depth`. -/
  | call (f : Label) (depth : Nat) (args : List Operand)

end

/-- A step of a function. -/
inductive Command where
  | assign (place : Place) (src : Operand)
  /-- Evaluate for the effects alone. -/
  | eval (x : Operand)
  | cond (cond : Operand) (thenCmds elseCmds : List Command)
  | loop (cond : Operand) (body : List Command)

instance : Inhabited Operand := ⟨.int 0⟩

instance : Inhabited Place := ⟨.var ""⟩

instance : Inhabited Command := ⟨.eval default⟩

/-- What the names in a function refer to. -/
structure Scope where
  frame : Frame
  accesses : Accesses

end MmixBackend.Source
