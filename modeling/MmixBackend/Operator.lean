import MmixBackend.Word

/-!
# Operators

The binary and unary operators that expressions of every level share, with their symbols and
their meaning on words. Arithmetic wraps; a relation gives 0 or 1; quotient and remainder go
toward zero and have no value when the divisor is 0; negating a truth value flips the lowest
bit.
-/

namespace MmixBackend

/-- A binary operator. -/
inductive BinOp where
  | or | and | xor
  | eq | ne | lt | gt | le | ge
  | add | sub | mul | div | mod
  deriving DecidableEq, Repr

/-- A unary operator. -/
inductive UnOp where
  | neg
  | not
  deriving DecidableEq, Repr

namespace BinOp

/-- How the operator is written. -/
def symbol : BinOp → String
  | .or => "|"
  | .and => "&"
  | .xor => "^"
  | .eq => "=="
  | .ne => "!="
  | .lt => "<"
  | .gt => ">"
  | .le => "<="
  | .ge => ">="
  | .add => "+"
  | .sub => "-"
  | .mul => "*"
  | .div => "/"
  | .mod => "%"

/-- All binary operators. -/
def all : List BinOp := [or, and, xor, eq, ne, lt, gt, le, ge, add, sub, mul, div, mod]

/-- The operator written `s`. -/
def ofSymbol? (s : String) : Option BinOp := all.find? (·.symbol == s)

/-- The result on two words; none for a division by zero. -/
def value? (op : BinOp) (x y : Word) : Option Word :=
  match op with
  | .or => some (x ||| y)
  | .and => some (x &&& y)
  | .xor => some (x ^^^ y)
  | .eq => some (.ofBool (x == y))
  | .ne => some (.ofBool (x != y))
  | .lt => some (.ofBool (x < y))
  | .gt => some (.ofBool (y < x))
  | .le => some (.ofBool (x ≤ y))
  | .ge => some (.ofBool (y ≤ x))
  | .add => some (x + y)
  | .sub => some (x - y)
  | .mul => some (x * y)
  | .div => if y = 0 then none else some (x / y)
  | .mod => if y = 0 then none else some (x % y)

end BinOp

namespace UnOp

/-- How the operator is written. -/
def symbol : UnOp → String
  | .neg => "-"
  | .not => "!"

/-- The operator written `s`. -/
def ofSymbol? (s : String) : Option UnOp := [neg, not].find? (·.symbol == s)

/-- The result on a word. -/
def value (op : UnOp) (x : Word) : Word :=
  match op with
  | .neg => -x
  | .not => x ^^^ 1

end UnOp

end MmixBackend
