import MmixBackend.Code
import MmixBackend.Event

/-!
# Liveness

A temporary is live where its present value may still be read. `Flow` is what matters of a
function for that: which temporaries each instruction reads and writes, where control may go
from it, and whether it may leave the function, where the result of the function is read.

The live sets are the least solution of two equations:

* live-out of an instruction is the union of live-in over its successors, and the result of
  the function if control may leave;
* live-in is what the instruction reads and what is live-out and not written.

`Flow.settle` starts from empty sets and sweeps over the instructions, the last one first,
until a sweep adds nothing. Each sweep but the last one uses up some of the room that is left
in the sets, so the sweeps come to an end.
-/

namespace MmixBackend

-- ── Control flow ─────────────────────────────────────────────────────────────

/-- What liveness needs to know of an instruction. -/
structure Point where
  uses : List Temp
  defs : List Temp
  /-- The numbers of the instructions control may go to. -/
  succs : List Nat
  /-- May control leave the function? -/
  exits : Bool
  deriving DecidableEq, Repr

/-- What liveness needs to know of a function. -/
structure Flow where
  points : Array Point
  /-- The temporary that is read when control leaves. -/
  result : Temp

namespace Code

/-- The number of the first instruction that defines a label. -/
def position? (code : Code) (l : Label) : Option Nat :=
  code.instrs.findIdx? (·.label? = some l)

/-- The numbers of the instructions control may go to from instruction `i`: the next one, then
    those that the labels stand for, each of them once. A label that is defined nowhere in the
    function leads nowhere. -/
def successors (code : Code) (i : Nat) (instr : Instr) : List Nat :=
  let next := if instr.fallsThrough && i + 1 < code.instrs.length then [i + 1] else []
  (instr.jumps.filterMap code.position?).foldl
    (fun succs j => if j ∈ succs then succs else succs ++ [j]) next

/-- Instruction `i` as a point of the flow. -/
def point (code : Code) (i : Nat) (instr : Instr) : Point where
  uses := instr.uses
  defs := instr.defs
  succs := code.successors i instr
  exits := code.exit ∈ instr.jumps

/-- The flow of a function. -/
def flow (code : Code) : Flow where
  points := (code.instrs.zipIdx.map fun (instr, i) => code.point i instr).toArray
  result := code.frame.result

end Code

-- ── Live sets ────────────────────────────────────────────────────────────────

/-- The temporaries live before and after one instruction. -/
structure Live where
  liveIn : TempSet := ∅
  liveOut : TempSet := ∅
  deriving DecidableEq, Inhabited

/-- The live temporaries of each instruction. -/
abbrev LiveSets := Array Live

namespace LiveSets

/-- The temporaries live before instruction `i`. -/
def liveIn (sets : LiveSets) (i : Nat) : TempSet := (sets.getD i {}).liveIn

/-- The temporaries live after instruction `i`. -/
def liveOut (sets : LiveSets) (i : Nat) : TempSet := (sets.getD i {}).liveOut

/-- The number of entries in all the sets. -/
def weight (sets : LiveSets) : Nat :=
  sets.foldr (fun l n => l.liveIn.size + l.liveOut.size + n) 0

end LiveSets

namespace Flow

/-- What is live after a point, as far as the sets tell. -/
def liveOutAt (flow : Flow) (sets : LiveSets) (p : Point) : TempSet :=
  let joined := p.succs.foldl (fun live j => live ∪ sets.liveIn j) ∅
  if p.exits then joined.insert flow.result else joined

/-- What is live before a point, given what is live after it. -/
def liveInAt (p : Point) (liveOut : TempSet) : TempSet :=
  Std.ExtTreeSet.ofList p.uses ∪ liveOut.filter (· ∉ p.defs)

/-- Adds to the sets of instruction `i` what its equations ask for. -/
def update (flow : Flow) (i : Nat) (sets : LiveSets) : LiveSets :=
  match flow.points[i]? with
  | none => sets
  | some p =>
    let liveOut := sets.liveOut i ∪ flow.liveOutAt sets p
    let liveIn := sets.liveIn i ∪ liveInAt p liveOut
    sets.setIfInBounds i { liveIn, liveOut }

/-- Updates the sets of all instructions, the last one first. -/
def sweep (flow : Flow) (sets : LiveSets) : LiveSets :=
  (List.range flow.points.size).foldr flow.update sets

/-- The temporaries that can be live. -/
def temps (flow : Flow) : TempSet :=
  flow.points.foldl (fun s p => s ∪ Std.ExtTreeSet.ofList p.uses) {flow.result}

/-- How much the sets can still grow. -/
def room (flow : Flow) (sets : LiveSets) : Nat :=
  2 * flow.points.size * flow.temps.size - sets.weight

/-- Sweeps until nothing is added; also tells the number of sweeps. -/
def settle (flow : Flow) (sets : LiveSets) : LiveSets × Nat :=
  let swept := flow.sweep sets
  if flow.room swept < flow.room sets then
    let (settled, sweeps) := flow.settle swept
    (settled, sweeps + 1)
  else (swept, 1)
termination_by flow.room sets

end Flow

namespace Code

/-- The live sets of a function and the number of sweeps they took. -/
def liveness (code : Code) : LiveSets × Nat :=
  let flow := code.flow
  flow.settle (Array.replicate flow.points.size {})

/-- The live sets of a function. -/
def liveSets (code : Code) : LiveSets := code.liveness.1

end Code

/-- The instructions of a function with their live sets. -/
def Code.liveRows (code : Code) (sets : LiveSets) : List LiveRow :=
  code.instrs.zipIdx.map fun (instr, i) =>
    { instr, liveIn := (sets.liveIn i).toList, liveOut := (sets.liveOut i).toList }

end MmixBackend
