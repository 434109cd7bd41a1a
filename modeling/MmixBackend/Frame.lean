import MmixBackend.Word

/-!
# Stack frames

A frame grows downwards from the frame pointer FP:

* FP + 8 i is argument `i`; argument 0 is the static link and later the result;
* the locals lie directly below FP;
* below them the caller's frame pointer and the return address, one word each;
* then the spill slots, one word each;
* at the bottom the arguments of the calls this function makes.

All sizes and offsets are exact: one that does not fit in a word is a fault.
-/

namespace MmixBackend

/-- The register of the stack pointer. -/
def stackPointer : Nat := 252

/-- The register of the frame pointer. -/
def framePointer : Nat := 253

/-- The frame of one function. -/
structure Frame where
  label : Label
  /-- Static nesting level; a function of the outermost level has depth 1. -/
  depth : Nat
  localsSize : Word
  argsSize : Word
  /-- Holds the result when control reaches the exit label. -/
  result : Temp
  /-- Stands for the frame pointer register and is never allocated. -/
  pointer : Temp
  deriving DecidableEq, Repr

/-- Where a variable lives. -/
inductive Access where
  /-- A global, at its label. -/
  | absolute (l : Label)
  /-- At an offset from the frame pointer of the function declared at `depth`. -/
  | relative (offset : Word) (depth : Nat)
  deriving DecidableEq, Repr

/-- The places of the variables a function can name. -/
abbrev Accesses := Std.ExtTreeMap String Access

/-- The bytes of the saved frame pointer and return address. -/
def bookkeepingSize : Word := 16

/-- The bytes of `n` words. -/
def wordsSize (n : Nat) : Except Fault Word := Word.mulExact (Word.ofCount n) Word.size

namespace Frame

/-- A frame whose result and frame pointer are fresh temporaries. -/
def fresh (label : Label) (depth : Nat) (localsSize argsSize : Word) (s : Supply) :
    Frame × Supply :=
  let (result, s) := s.freshTemp
  let (pointer, s) := s.freshTemp
  ({ label, depth, localsSize, argsSize, result, pointer }, s)

/-- The bytes of the frame when its spill slots take `spillSize` of them. -/
def size (frame : Frame) (spillSize : Word) : Except Fault Word := do
  let fixed ← Word.addExact frame.localsSize bookkeepingSize
  let withSlots ← Word.addExact fixed spillSize
  Word.addExact withSlots frame.argsSize

/-- How far below the frame pointer a spill slot lies. -/
def slotDistance (frame : Frame) (slot : Nat) : Except Fault Word := do
  let fixed ← Word.addExact frame.localsSize bookkeepingSize
  let upTo ← Word.addExact (Word.ofCount slot) 1
  let slots ← Word.mulExact upTo Word.size
  Word.addExact fixed slots

/-- Parameter `i`; number 0 is the static link. -/
def param (frame : Frame) (i : Nat) : Except Fault Access := do
  return .relative (← Word.mulExact (Word.ofCount i) Word.size) frame.depth

/-- The local number `i`, one word wide. -/
def localVar (frame : Frame) (i : Nat) : Except Fault Access := do
  let upTo ← Word.addExact (Word.ofCount i) 1
  let below ← Word.negExact upTo
  return .relative (← Word.mulExact below Word.size) frame.depth

/-- One-word locals for the names, in order. A repeated name has its last place. -/
def localVars (frame : Frame) (names : List String) : Except Fault Accesses :=
  names.zipIdx.foldlM (fun accesses (name, i) => do
    return accesses.insert name (← frame.localVar i)) ∅

end Frame

end MmixBackend
