import MmixBackend.Flat
import MmixBackend.Tree

/-!
# The reference machine

A machine runs tree code and flat code, so that the two can be compared. Its state is the
values of the temporaries and of memory, which are 0 where nothing was written, and the list of
its effects: the stores and calls, in order. Calls are not carried out. A call is recorded and
answers with a number that no other call gets, so that the order of calls shows in what is
computed from them. A label that is used as a value gets an address at its first use.

Tree code is run as long as it is straight: a jump in it is an error. Flat code is run for a
bounded number of steps, until control runs off its end or jumps to a label that the code does
not define.
-/

namespace MmixBackend

/-- Something a program did that can be seen from outside. -/
inductive Effect where
  | store (addr value : Word)
  | call (f : Label) (args : List Word)
  deriving DecidableEq, Repr

/-- Why a run stopped early. -/
inductive RunError where
  | divisionByZero
  /-- A jump in code that has no list of statements to jump in. -/
  | jump (l : Label)
  /-- A move into something other than a temporary or a memory word. -/
  | badMove
  /-- More steps than allowed. -/
  | outOfFuel (limit : Nat)
  deriving DecidableEq, Repr

/-- The text a run error is reported with. -/
def RunError.message : RunError → String
  | .divisionByZero => "division by zero"
  | .jump l => "\x60" ++ l.text ++ "\x60 cannot be executed without a statement list to jump in"
  | .badMove => "a move into something other than a temporary or memory"
  | .outOfFuel limit => "gave up after " ++ toString limit ++ " steps"

/-- The state of a machine. -/
structure Machine where
  temps : TempMap Word := ∅
  mem : Std.ExtTreeMap Word Word := ∅
  effects : Array Effect := #[]
  /-- The addresses of the labels that were used as values. -/
  labelAddrs : LabelMap Word := ∅
  deriving DecidableEq

namespace Machine

/-- The value of a temporary. -/
def temp (m : Machine) (t : Temp) : Word := m.temps.getD t 0

/-- The machine with another value of a temporary. -/
def setTemp (m : Machine) (t : Temp) (value : Word) : Machine :=
  { m with temps := m.temps.insert t value }

/-- The word at an address. -/
def load (m : Machine) (addr : Word) : Word := m.mem.getD addr 0

/-- Stores a word. -/
def store (m : Machine) (addr value : Word) : Machine :=
  { m with mem := m.mem.insert addr value, effects := m.effects.push (.store addr value) }

/-- The address of the label that is the `n`-th one to get an address. -/
def labelAddress (n : Nat) : Word := 0x20000000 + Word.ofCount n * 0x1000

/-- The address of a label. -/
def labelAddr (m : Machine) (l : Label) : Word × Machine :=
  match m.labelAddrs[l]? with
  | some addr => (addr, m)
  | none =>
    let addr := labelAddress m.labelAddrs.size
    (addr, { m with labelAddrs := m.labelAddrs.insert l addr })

/-- Records a call; the answer is its number among the effects, counted from 1001. -/
def call (m : Machine) (f : Label) (args : List Word) : Word × Machine :=
  let effects := m.effects.push (.call f args)
  (1000 + Word.ofCount effects.size, { m with effects })

-- ── Tree code ────────────────────────────────────────────────────────────────

/-- A step that changes the machine and may stop early; the machine stays as the step left it. -/
abbrev Exec := ExceptT RunError (StateM Machine)

/-- The result of an operator, if the divisor is not zero. -/
def divide (op : BinOp) (x y : Word) : Exec Word :=
  match op.value? x y with
  | some value => return value
  | none => throw .divisionByZero

mutual

/-- The value of an expression. -/
def eval : Tree.Expr → Exec Word
  | .const value => return value
  | .temp t => return (← get).temp t
  | .name l => modifyGet (·.labelAddr l)
  | .mem addr => do
    let addr ← eval addr
    return (← get).load addr
  | .binop op x y => do
    let x ← eval x
    let y ← eval y
    divide op x y
  | .unop op x => return op.value (← eval x)
  | .call f args => do
    let args ← evalAll args
    modifyGet (·.call f args)
  | .seq s result => do
    exec s
    eval result

/-- The values of expressions, from left to right. -/
def evalAll : List Tree.Expr → Exec (List Word)
  | [] => return []
  | e :: es => do
    let value ← eval e
    let values ← evalAll es
    return value :: values

/-- Runs a statement. A label does nothing; a store computes the value before the address. -/
def exec : Tree.Stmt → Exec Unit
  | .label _ => return ()
  | .jump l => throw (.jump l)
  | .branch _ ifTrue _ => throw (.jump ifTrue)
  | .move (.temp dst) src => do
    let value ← eval src
    modify (·.setTemp dst value)
  | .move (.mem addr) src => do
    let value ← eval src
    let addr ← eval addr
    modify (·.store addr value)
  | .move _ _ => throw .badMove
  | .eval e => do
    let _ ← eval e
  | .seq ss => execAll ss

/-- Runs statements in order. -/
def execAll : List Tree.Stmt → Exec Unit
  | [] => return ()
  | s :: ss => do
    exec s
    execAll ss

end

-- ── Flat code ────────────────────────────────────────────────────────────────

/-- The value of an atom. -/
def atom (m : Machine) : Flat.Atom → Word × Machine
  | .const value => (value, m)
  | .temp t => (m.temp t, m)
  | .name l => m.labelAddr l

/-- The value of a right-hand side. -/
def rhs (m : Machine) : Flat.Rhs → Except RunError Word × Machine
  | .atom a =>
    let (value, m) := m.atom a
    (.ok value, m)
  | .binop op x y =>
    let (x, m) := m.atom x
    let (y, m) := m.atom y
    match op.value? x y with
    | some value => (.ok value, m)
    | none => (.error .divisionByZero, m)
  | .unop op x =>
    let (x, m) := m.atom x
    (.ok (op.value x), m)
  | .load addr =>
    let (addr, m) := m.atom addr
    (.ok (m.load addr), m)
  | .call f args =>
    let (value, m) := m.call f (args.map m.temp)
    (.ok value, m)

/-- Carries out an action. -/
def act (m : Machine) : Flat.Action → Except RunError Unit × Machine
  | .move dst r =>
    match m.rhs r with
    | (.ok value, m) => (.ok (), m.setTemp dst value)
    | (.error e, m) => (.error e, m)
  | .store addr src =>
    let (value, m) := m.atom src
    let (addr, m) := m.atom addr
    (.ok (), m.store addr value)
  | .call f args => (.ok (), (m.call f (args.map m.temp)).2)

/-- Where a transfer leads. -/
def target (m : Machine) : Flat.Transfer → Label
  | .jump l => l
  | .branch cond ifTrue ifFalse => if m.temp cond ≠ 0 then ifTrue else ifFalse

/-- The position of each label; the last one counts if there are several. -/
def positions (stmts : List Flat.Stmt) : LabelMap Nat :=
  stmts.zipIdx.foldl (fun m (s, i) =>
    match s with
    | .label l => m.insert l i
    | _ => m) ∅

/-- Runs flat code from position `pc` for at most `fuel` steps. The label is the one that
    control went to, if the code does not define it. -/
def runFrom (stmts : Array Flat.Stmt) (labels : LabelMap Nat) (limit : Nat) :
    Nat → Nat → Machine → Except RunError (Option Label) × Machine
  | fuel, pc, m =>
    match stmts[pc]? with
    | none => (.ok none, m)
    | some s =>
      match fuel with
      | 0 => (.error (.outOfFuel limit), m)
      | fuel + 1 =>
        match s with
        | .label _ => runFrom stmts labels limit fuel (pc + 1) m
        | .act a =>
          match m.act a with
          | (.ok (), m) => runFrom stmts labels limit fuel (pc + 1) m
          | (.error e, m) => (.error e, m)
        | .transfer t =>
          let l := m.target t
          match labels[l]? with
          | some pc => runFrom stmts labels limit fuel pc m
          | none => (.ok (some l), m)

/-- Runs flat code from its start for at most `fuel` steps. -/
def run (m : Machine) (stmts : List Flat.Stmt) (fuel : Nat) :
    Except RunError (Option Label) × Machine :=
  runFrom stmts.toArray (positions stmts) fuel fuel 0 m

end Machine

end MmixBackend
