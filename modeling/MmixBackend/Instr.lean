import MmixBackend.Frame

/-!
# Instructions

An instruction is an *operation* with the temporaries it reads and writes. The text of an
operation is a template in which a backquote, `s` or `d`, and a digit refer to an operand: `s0`
is the first temporary read, `d0` the first one written. Operations of the target machine have
fixed templates; `Operation.verbatim` stands for any other one.

`Instr.render` fills the template. It is a fault for a template to contain a backquote that
does not start a reference to an operand the instruction has.
-/

namespace MmixBackend

-- ── Operations of the machine ────────────────────────────────────────────────

/-- The sixteen-bit parts of a register above the lowest one. -/
inductive Part where
  | mediumLow
  | mediumHigh
  | high
  deriving DecidableEq, Repr

/-- An operation on two registers with a result in a third. -/
inductive Alu where
  | add | sub | mul | div | and | or | xor
  /-- Signed comparison: -1, 0 or 1. -/
  | cmp
  deriving DecidableEq, Repr

/-- A condition on the sign of a register. -/
inductive SignTest where
  | zero | nonZero | negative | nonNegative | positive | nonPositive
  deriving DecidableEq, Repr

/-- What an instruction does, apart from the choice of its operands. -/
inductive Operation where
  /-- Copy a register. -/
  | copy
  /-- Set a register to a sixteen-bit number. -/
  | setLow (field : Nat)
  /-- Add a sixteen-bit number to a part of a register. -/
  | increase (part : Part) (field : Nat)
  /-- Subtract a register from zero. -/
  | negate
  /-- Flip the lowest bit. -/
  | flip
  /-- The address of a label. -/
  | loadAddress (l : Label)
  | alu (op : Alu)
  /-- The remainder that the last division left behind. -/
  | remainder
  /-- Set a register to 1 or 0 if another one passes the test, else leave it. -/
  | setIf (test : SignTest) (value : Bool)
  /-- Load the word at an address. -/
  | load
  /-- Store a word at an address. -/
  | store
  /-- Store outgoing argument `i`. -/
  | storeArg (i : Nat)
  /-- Load the result that a callee left behind. -/
  | loadResult
  /-- Go to the label if the register is not zero. -/
  | branchNonZero (target : Label)
  | jump (target : Label)
  /-- Call a function, keeping the registers below `keep`. -/
  | call (keep : Nat) (f : Label)
  /-- Any other operation, given by its template. -/
  | verbatim (template : String)
  deriving DecidableEq, Repr

namespace Part

/-- The mnemonic that increases the part. -/
def mnemonic : Part → String
  | .mediumLow => "INCML"
  | .mediumHigh => "INCMH"
  | .high => "INCH"

/-- The number of the part's lowest bit. -/
def shift : Part → Nat
  | .mediumLow => 16
  | .mediumHigh => 32
  | .high => 48

end Part

/-- The mnemonic of the operation. -/
def Alu.mnemonic : Alu → String
  | .add => "ADD"
  | .sub => "SUB"
  | .mul => "MUL"
  | .div => "DIV"
  | .and => "AND"
  | .or => "OR"
  | .xor => "XOR"
  | .cmp => "CMP"

namespace SignTest

/-- The mnemonic that sets a register under the test. -/
def mnemonic : SignTest → String
  | .zero => "CSZ"
  | .nonZero => "CSNZ"
  | .negative => "CSN"
  | .nonNegative => "CSNN"
  | .positive => "CSP"
  | .nonPositive => "CSNP"

/-- Does the word pass the test? -/
def holds (test : SignTest) (x : Word) : Bool :=
  match test with
  | .zero => x == 0
  | .nonZero => x != 0
  | .negative => x < 0
  | .nonNegative => 0 ≤ x
  | .positive => 0 < x
  | .nonPositive => x ≤ 0

end SignTest

/-- The text of an operation, with references to its operands. -/
def Operation.template : Operation → String
  | .copy => "SET `d0,`s0"
  | .setLow field => "SETL `d0," ++ toString field
  | .increase part field => part.mnemonic ++ " `d0," ++ toString field
  | .negate => "NEG `d0,0,`s0"
  | .flip => "XOR `d0,`s0,1"
  | .loadAddress l => "LDA `d0," ++ l.text
  | .alu op => op.mnemonic ++ " `d0,`s0,`s1"
  | .remainder => "GET `d0,rR"
  | .setIf test value => test.mnemonic ++ " `d0,`s0," ++ (if value then "1" else "0")
  | .load => "LDO `d0,`s0,0"
  | .store => "STO `s0,`s1,0"
  | .storeArg i => "STO `s0,$" ++ toString stackPointer ++ "," ++ toString (i * 8)
  | .loadResult => "LDO `d0,$" ++ toString stackPointer ++ ",0"
  | .branchNonZero target => "BNZ `s0," ++ target.text
  | .jump target => "JMP " ++ target.text
  | .call keep f => "PUSHJ $" ++ toString keep ++ "," ++ f.text
  | .verbatim template => template

-- ── Templates ────────────────────────────────────────────────────────────────

/-- A piece of a template. -/
inductive Piece where
  | char (c : Char)
  /-- A reference to a temporary that is read. -/
  | source (i : Nat)
  /-- A reference to a temporary that is written. -/
  | target (i : Nat)
  deriving DecidableEq, Repr

namespace Piece

/-- The reference of a kind and an index, if it is one. -/
def reference? (kind digit : Char) : Option Piece :=
  if digit.isDigit then
    if kind = 's' then some (.source (digit.toNat - '0'.toNat))
    else if kind = 'd' then some (.target (digit.toNat - '0'.toNat))
    else none
  else none

/-- Cuts a template into pieces; none if a backquote starts no reference. -/
def ofChars? : List Char → Option (List Piece)
  | [] => some []
  | c :: rest =>
    if c = '\x60' then
      match rest with
      | kind :: digit :: rest => do
        let piece ← reference? kind digit
        return piece :: (← ofChars? rest)
      | _ => none
    else do
      return .char c :: (← ofChars? rest)

/-- The text of a piece, given the temporaries read and written and the text of each. -/
def fill? (name : Temp → String) (uses defs : List Temp) : Piece → Option String
  | .char c => some (String.singleton c)
  | .source i => uses[i]?.map name
  | .target i => defs[i]?.map name

end Piece

/-- Fills in the operands of a template. -/
def fillTemplate (name : Temp → String) (template : String) (uses defs : List Temp) :
    Except Fault String :=
  match (do (← Piece.ofChars? template.toList).mapM (Piece.fill? name uses defs)) with
  | some texts => .ok (String.join texts)
  | none => .error (.badReference template)

-- ── Instructions ─────────────────────────────────────────────────────────────

/-- An instruction, or a label between instructions. -/
inductive Instr where
  | label (l : Label)
  /-- A copy from one temporary to another. -/
  | move (op : Operation) (dst src : Temp)
  | oper (op : Operation) (uses defs : List Temp) (jumps : List Label) (fallsThrough : Bool)
  deriving DecidableEq, Repr

namespace Instr

/-- An instruction that control leaves at its end. -/
def plain (op : Operation) (uses defs : List Temp) : Instr := .oper op uses defs [] true

/-- An instruction after which control goes on or to the target. -/
def branch (op : Operation) (uses : List Temp) (target : Label) : Instr :=
  .oper op uses [] [target] true

/-- A jump. -/
def jump (target : Label) : Instr := .oper (.jump target) [] [] [target] false

/-- A copy between registers. -/
def copy (dst src : Temp) : Instr := .move .copy dst src

/-- The temporaries read. -/
def uses : Instr → List Temp
  | .label _ => []
  | .move _ _ src => [src]
  | .oper _ uses _ _ _ => uses

/-- The temporaries written. -/
def defs : Instr → List Temp
  | .label _ => []
  | .move _ dst _ => [dst]
  | .oper _ _ defs _ _ => defs

/-- The labels control may go to. -/
def jumps : Instr → List Label
  | .label _ => []
  | .move .. => []
  | .oper _ _ _ jumps _ => jumps

/-- May control go on to the next instruction? -/
def fallsThrough : Instr → Bool
  | .label _ => true
  | .move .. => true
  | .oper _ _ _ _ fallsThrough => fallsThrough

/-- The label defined here. -/
def label? : Instr → Option Label
  | .label l => some l
  | _ => none

/-- Replaces a temporary among those read. -/
def replaceUses (old new : Temp) : Instr → Instr
  | .label l => .label l
  | .move op dst src => .move op dst (if src = old then new else src)
  | .oper op uses defs jumps falls =>
    .oper op (uses.map fun t => if t = old then new else t) defs jumps falls

/-- Replaces a temporary among those written. -/
def replaceDefs (old new : Temp) : Instr → Instr
  | .label l => .label l
  | .move op dst src => .move op (if dst = old then new else dst) src
  | .oper op uses defs jumps falls =>
    .oper op uses (defs.map fun t => if t = old then new else t) jumps falls

/-- How a temporary is written under a register assignment. -/
def operandText (registers : TempMap Nat) (t : Temp) : String :=
  match registers[t]? with
  | some r => "$" ++ toString r
  | none => t.text

/-- The instruction under a register assignment. -/
def render (registers : TempMap Nat) : Instr → Except Fault String
  | .label l => .ok l.text
  | .move op dst src => fillTemplate (operandText registers) op.template [src] [dst]
  | .oper op uses defs _ _ => fillTemplate (operandText registers) op.template uses defs

/-- The instruction over temporaries; a label is marked by a colon. -/
def text : Instr → Except Fault String
  | .label l => .ok (l.text ++ ":")
  | instr => instr.render ∅

end Instr

end MmixBackend
