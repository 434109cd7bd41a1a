import MmixBackend.Tree

/-!
# Errors

What a pass of the backend can refuse, by cause, and the text of each refusal. A fault is
among them, so that a pass which may meet either has one type of failure.
-/

namespace MmixBackend

/-- Why register allocation gave up. -/
inductive Stall where
  | tooManyAttempts
  /-- The temporary came from an earlier spill, so spilling it again would never end. -/
  | spilledAgain (t : Temp)
  /-- No instruction mentions the temporary. -/
  | nothingAdded (t : Temp)
  deriving DecidableEq, Repr

/-- The reason as it is reported. -/
def Stall.message : Stall → String
  | .tooManyAttempts => "too many allocation attempts"
  | .spilledAgain t => t.text ++ " was introduced by spilling and needs spilling again"
  | .nothingAdded t => "spilling " ++ t.text ++ " did not add any instructions"

/-- The largest number of registers that may be handed out; those above are reserved. -/
def maxRegisters : Nat := 251

/-- What a pass of the backend refuses. -/
inductive Error where
  /-- A move into something other than a temporary or a memory word. -/
  | badDestination (dst : Tree.Expr)
  /-- The function, at its depth, has no way to the frame at depth `target`. -/
  | hiddenFrame (function : Label) (depth target : Nat)
  /-- A variable without a place. -/
  | missingAccess (name : String)
  /-- Register allocation of the function gave up. -/
  | stalled (function : Label) (reason : Stall)
  /-- A number of registers outside `2 ≤ n ≤ maxRegisters`. -/
  | registerCount (n : Nat)
  | fault (f : Fault)

/-- The text an error is reported with. -/
def Error.message : Error → String
  | .badDestination dst => "malformed IR: cannot assign to \x60" ++ dst.text ++ "\x60"
  | .hiddenFrame function depth target =>
    "malformed IR: " ++ function.text ++ " at depth " ++ toString depth ++
      " cannot see a frame at depth " ++ toString target
  | .missingAccess name => "no frame access recorded for variable \x60" ++ name ++ "\x60"
  | .stalled function reason =>
    "register allocation for \x60" ++ function.text ++ "\x60 did not converge: " ++ reason.message
  | .registerCount n =>
    "invalid configuration: number of registers must be between 2 and " ++
      toString maxRegisters ++ ", got " ++ toString n
  | .fault f => f.message

/-- Checks a number of registers. -/
def checkRegisters (n : Nat) : Except Error Unit :=
  if 2 ≤ n ∧ n ≤ maxRegisters then .ok () else .error (.registerCount n)

end MmixBackend
