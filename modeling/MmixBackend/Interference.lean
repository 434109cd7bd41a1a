import MmixBackend.Liveness

/-!
# Interference

Two temporaries interfere if they cannot share a register: they are live together before or
after some instruction, or an instruction writes one of them while the other one is live after
it or is written by it as well. A temporary that is written and never read is in no live set,
yet writing it still changes its register.

Every temporary that the code mentions is a node of the graph, with or without neighbours.
-/

namespace MmixBackend

/-- A symmetric graph on temporaries. -/
structure Interference where
  neighbours : TempMap TempSet := ∅
  deriving DecidableEq

namespace Interference

/-- Adds a node. -/
def addNode (g : Interference) (t : Temp) : Interference :=
  ⟨g.neighbours.insertIfNew t ∅⟩

/-- Adds `b` to the neighbours of `a`. -/
def addNeighbour (a b : Temp) (nbrs : TempMap TempSet) : TempMap TempSet :=
  nbrs.insert a ((nbrs.getD a ∅).insert b)

/-- Adds an edge; a temporary does not interfere with itself. -/
def addEdge (g : Interference) (a b : Temp) : Interference :=
  if a = b then g else ⟨addNeighbour b a (addNeighbour a b g.neighbours)⟩

/-- All pairs of a list. -/
def pairs : List Temp → List (Temp × Temp)
  | [] => []
  | a :: rest => rest.map (a, ·) ++ pairs rest

/-- The temporaries that an instruction and its live sets mention. -/
def mentioned (instr : Instr) (live : Live) : List Temp :=
  instr.uses ++ instr.defs ++ live.liveIn.toList ++ live.liveOut.toList

/-- The edges that an instruction makes. -/
def edgesAt (instr : Instr) (live : Live) : List (Temp × Temp) :=
  pairs live.liveIn.toList ++ pairs live.liveOut.toList ++
    instr.defs.flatMap fun d => (live.liveOut.toList ++ instr.defs).map (d, ·)

/-- The interference graph of instructions with their live sets. -/
def compute (instrs : List Instr) (sets : LiveSets) : Interference :=
  let rows := instrs.zip sets.toList
  let nodes := rows.foldl (fun g (instr, live) => (mentioned instr live).foldl addNode g) {}
  rows.foldl (fun g (instr, live) =>
    (edgesAt instr live).foldl (fun g (a, b) => g.addEdge a b) g) nodes

/-- The nodes with their neighbours. -/
def rows (g : Interference) : List GraphRow :=
  g.neighbours.toList.map fun (temp, nbrs) =>
    { temp, register := none, neighbours := nbrs.toList }

/-- The graph as text. -/
def text (g : Interference) : String := graphText g.rows

end Interference

/-- The interference graph of a function. -/
def Code.interference (code : Code) : Interference :=
  Interference.compute code.instrs code.liveSets

end MmixBackend
