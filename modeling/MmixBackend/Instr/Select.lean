import MmixBackend.Emit
import MmixBackend.Code

/-!
# Selecting instructions

Each flat statement becomes a few instructions. Operands are computed from left to right, then
the destination is chosen, then the operation follows:

* a constant is loaded by its magnitude, sixteen bits at a time, and negated if need be;
* a relation compares, sets the destination to 1 if it holds and then to 0 if it does not;
* a remainder is what a division leaves behind;
* a call stores its arguments above the stack pointer, where it later finds its result;
* a branch needs no jump to its negative target if that label comes next.
-/

namespace MmixBackend

open Flat

-- ── Constants ────────────────────────────────────────────────────────────────

/-- Sixteen bits of a magnitude, from bit number `shift` up. -/
def constField (magnitude shift : Nat) : Nat := (magnitude >>> shift) % 65536

/-- The instruction that adds a part of a magnitude to `dst`, unless that part is zero. -/
def addPart (magnitude : Nat) (dst : Temp) (part : Part) : List Instr :=
  if constField magnitude part.shift = 0 then []
  else [.plain (.increase part (constField magnitude part.shift)) [dst] [dst]]

/-- Loads a constant into `dst`. -/
def loadConst (value : Word) (dst : Temp) : List Instr :=
  let magnitude := value.toInt.natAbs
  .plain (.setLow (constField magnitude 0)) [] [dst] ::
    addPart magnitude dst .mediumLow ++ addPart magnitude dst .mediumHigh ++
    addPart magnitude dst .high ++
    if value < 0 then [.plain .negate [dst] [dst]] else []

/-- A part of a constant fits in its field. -/
theorem constField_lt (magnitude shift : Nat) : constField magnitude shift < 65536 :=
  Nat.mod_lt _ (by decide)

/-- A constant is loaded by three kinds of instructions. -/
theorem mem_loadConst {value : Word} {dst : Temp} {i : Instr} (hi : i ∈ loadConst value dst) :
    (∃ field < 65536, i = .plain (.setLow field) [] [dst]) ∨
      (∃ part, ∃ field < 65536, i = .plain (.increase part field) [dst] [dst]) ∨
      i = .plain .negate [dst] [dst] := by
  simp only [loadConst, addPart, List.mem_cons, List.mem_append] at hi
  grind [constField_lt]

-- ── Statements ───────────────────────────────────────────────────────────────

namespace Select

/-- The given destination, or else a fresh one. -/
def orFresh : Option Temp → Emit Instr Temp
  | some dst => return dst
  | none => Emit.freshTemp

/-- A temporary with the value of an atom: the destination if one is given. -/
def atom : Atom → Option Temp → Emit Instr Temp
  | .temp t, none => return t
  | .temp t, some dst =>
    if dst = t then return t
    else do
      Emit.write [.copy dst t]
      return dst
  | .const value, dst => do
    let dst ← orFresh dst
    Emit.write (loadConst value dst)
    return dst
  | .name l, dst => do
    let dst ← orFresh dst
    Emit.write [.plain (.loadAddress l) [] [dst]]
    return dst

/-- How an operator is computed. -/
inductive Scheme where
  | direct (op : Alu)
  /-- By a division, whose remainder is wanted. -/
  | remainder
  /-- By a comparison whose sign passes one of two tests. -/
  | relation (yes no : SignTest)
  deriving DecidableEq, Repr

/-- How each operator is computed. -/
def scheme : BinOp → Scheme
  | .or => .direct .or
  | .and => .direct .and
  | .xor => .direct .xor
  | .add => .direct .add
  | .sub => .direct .sub
  | .mul => .direct .mul
  | .div => .direct .div
  | .mod => .remainder
  | .eq => .relation .zero .nonZero
  | .ne => .relation .nonZero .zero
  | .lt => .relation .negative .nonNegative
  | .ge => .relation .nonNegative .negative
  | .gt => .relation .positive .nonPositive
  | .le => .relation .nonPositive .positive

/-- Computes a scheme on two temporaries. The second conditional set also reads `dst`, since it
    leaves it alone when the first one has set it. -/
def compute (dst x y : Temp) : Scheme → Emit Instr Unit
  | .direct op => Emit.write [.plain (.alu op) [x, y] [dst]]
  | .remainder => do
    let quotient ← Emit.freshTemp
    Emit.write [.plain (.alu .div) [x, y] [quotient], .plain .remainder [] [dst]]
  | .relation yes no => do
    let cmp ← Emit.freshTemp
    Emit.write
      [.plain (.alu .cmp) [x, y] [cmp],
        .plain (.setIf yes true) [cmp] [dst],
        .plain (.setIf no false) [cmp, dst] [dst]]

/-- Stores the arguments, from argument number `i` on. -/
def storeArgs (i : Nat) : List Temp → List Instr
  | [] => []
  | arg :: args => .plain (.storeArg i) [arg] [] :: storeArgs (i + 1) args

/-- Calls a function that keeps the registers below `keep`; its result goes to the destination
    if one is given. -/
def call (keep : Nat) (f : Label) (args : List Temp) (dst : Option Temp) : List Instr :=
  storeArgs 0 args ++ [.branch (.call keep f) [] f] ++
    match dst with
    | some dst => [.plain .loadResult [] [dst]]
    | none => []

/-- A temporary with the value of a right-hand side: the destination if one is given. -/
def rhs (keep : Nat) (r : Rhs) (dst : Option Temp) : Emit Instr Temp :=
  match r with
  | .atom a => atom a dst
  | .binop op x y => do
    let x ← atom x none
    let y ← atom y none
    let dst ← orFresh dst
    compute dst x y (scheme op)
    return dst
  | .unop op x => do
    let x ← atom x none
    let dst ← orFresh dst
    match op with
    | .neg => Emit.write [.plain .negate [x] [dst]]
    | .not => Emit.write [.plain .flip [x] [dst]]
    return dst
  | .load addr => do
    let base ← atom addr none
    let dst ← orFresh dst
    Emit.write [.plain .load [base] [dst]]
    return dst
  | .call f args => do
    let dst ← orFresh dst
    Emit.write (call keep f args (some dst))
    return dst

/-- The instructions of a statement, given the statement that comes next. -/
def stmt (keep : Nat) (next : Option Stmt) : Stmt → Emit Instr Unit
  | .label l => Emit.write [.label l]
  | .transfer (.jump target) => Emit.write [.jump target]
  | .transfer (.branch cond ifTrue ifFalse) => do
    Emit.write [.branch (.branchNonZero ifTrue) [cond] ifTrue]
    if next ≠ some (.label ifFalse) then Emit.write [.jump ifFalse]
  | .act (.move dst r) => do
    let _ ← rhs keep r (some dst)
  | .act (.store addr src) => do
    let src ← atom src none
    let base ← atom addr none
    Emit.write [.plain .store [src, base] []]
  | .act (.call f args) => Emit.write (call keep f args none)

/-- The instructions of statements in order. -/
def stmts (keep : Nat) : List Stmt → Emit Instr Unit
  | [] => return ()
  | s :: rest => do
    stmt keep rest.head? s
    stmts keep rest

end Select

/-- The instructions of a function. -/
def Flat.Function.select {ω : Type} (keep : Nat) (f : Flat.Function) : Emit ω Code := do
  let (instrs, _) ← Emit.collect (Select.stmts keep f.stmts)
  return { frame := f.frame, instrs, entry := f.entry, exit := f.exit }

end MmixBackend
