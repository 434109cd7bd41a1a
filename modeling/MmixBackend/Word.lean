import MmixBackend.Fault

/-!
# Machine words

A word has 64 bits and is read as a signed number. Programs compute modulo `2 ^ 64`, which is
the arithmetic of `Int64`. The sizes and offsets that lay out a stack frame are words too, but
there a result that does not fit is a fault: `Word.addExact`, `Word.mulExact` and
`Word.negExact` give the exact result or stop.
-/

namespace MmixBackend

/-- A signed 64-bit word. -/
abbrev Word := Int64

namespace Word

/-- Bytes per word. -/
def size : Word := 8

/-- The word of value `x`, if `x` fits. -/
def exact (op : Arith) (x : Int) : Except Fault Word :=
  if Int64.minValue.toInt ≤ x ∧ x ≤ Int64.maxValue.toInt then .ok (Int64.ofInt x)
  else .error (.overflow op)

/-- The sum, if it fits. -/
def addExact (x y : Word) : Except Fault Word := exact .add (x.toInt + y.toInt)

/-- The product, if it fits. -/
def mulExact (x y : Word) : Except Fault Word := exact .mul (x.toInt * y.toInt)

/-- The opposite, if it fits. -/
def negExact (x : Word) : Except Fault Word := exact .neg (-x.toInt)

/-- A count as a word, modulo `2 ^ 64`. -/
def ofCount (n : Nat) : Word := Int64.ofNat n

/-- A truth value as a word. -/
def ofBool (b : Bool) : Word := if b then 1 else 0

/-- A word in decimal. -/
def text (x : Word) : String := toString x.toInt

end Word

end MmixBackend
