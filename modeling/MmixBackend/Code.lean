import MmixBackend.Instr

/-!
# The code of a function

A function as a list of instructions, with its frame, its entry and exit labels, and what
register allocation finds out: a register for each temporary and the bytes of spill slots.
-/

namespace MmixBackend

/-- The instructions of one function. -/
structure Code where
  frame : Frame
  instrs : List Instr
  entry : Label
  exit : Label
  /-- The register of each temporary. -/
  registers : TempMap Nat := ∅
  /-- The bytes of the spill slots. -/
  spillSize : Word := 0

namespace Code

/-- The bytes of the frame. -/
def frameSize (code : Code) : Except Fault Word := code.frame.size code.spillSize

/-- One line of the listing: a label stands at the margin, an instruction does not. -/
def lineText (registers : TempMap Nat) (instr : Instr) : Except Fault String := do
  let text ← instr.render registers
  return match instr with
    | .label _ => text ++ "\n"
    | _ => "    " ++ text ++ "\n"

/-- The instructions, one on each line. -/
def listing (code : Code) : Except Fault String := do
  return String.join (← code.instrs.mapM (lineText code.registers))

end Code

end MmixBackend
