import MmixBackend.Name
import MmixBackend.Text.Quoted

/-!
# Faults

A fault is a broken internal promise: a number that outgrew its word, an instruction text that
refers to an operand it does not have, a question about a temporary nobody recorded. Nothing
recovers from one; a computation that meets a fault stops there.
-/

namespace MmixBackend

/-- An operation on words whose exact result may not fit in a word. -/
inductive Arith where
  | add
  | mul
  | neg
  deriving DecidableEq, Repr

/-- What made a computation stop for good. -/
inductive Fault where
  /-- The exact result of the operation does not fit in a word. -/
  | overflow (op : Arith)
  /-- The template refers to an operand that the instruction does not have. -/
  | badReference (template : String)
  /-- The temporary is no node of the graph. -/
  | unknownTemp (t : Temp)
  deriving DecidableEq, Repr

/-- The verb used when the operation overflows. -/
def Arith.verb : Arith → String
  | .add => "add"
  | .mul => "multiply"
  | .neg => "negate"

/-- The text a fault is reported with. -/
def Fault.message : Fault → String
  | .overflow op => "attempt to " ++ op.verb ++ " with overflow"
  | .badReference template => "bad operand reference in template " ++ Text.quote template
  | .unknownTemp t => "Unknown temporary: " ++ t.text

/-- A computation that went through has a result. -/
theorem exists_ok_of_isOk {ε α : Type} {x : Except ε α} (h : x.isOk = true) : ∃ a, x = .ok a := by
  cases x with
  | ok a => exact ⟨a, rfl⟩
  | error e => cases h

end MmixBackend
