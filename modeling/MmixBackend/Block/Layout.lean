import MmixBackend.Block.Merge
import MmixBackend.Flat.OfTree

/-!
# Laying blocks out again

`BlockGraph.linearize` writes a block graph as flat code: first the chain of the entry, then
the chains of the blocks that are behind no other block, in order. A block is written once, at
the first place that asks for it.

`Flat.Function.layOut` takes a function through all the steps: folding labels, cutting blocks,
merging them and writing them again.
-/

namespace MmixBackend

open Flat

namespace BlockGraph

/-- The code of the chain that starts with `l`, out of the blocks not written yet, and the
    blocks that are left. -/
def writeChain (next : LabelMap Label) (blocks : LabelMap Block) (l : Label) :
    List Stmt × LabelMap Block :=
  match h : blocks[l]? with
  | none => ([], blocks)
  | some b =>
    have := size_erase_lt_of_mem (mem_of_getElem?_eq_some h)
    match next[l]? with
    | none => (b.stmts, blocks.erase l)
    | some l' =>
      let (rest, left) := writeChain next (blocks.erase l) l'
      (b.stmts ++ rest, left)
termination_by blocks.size

/-- The code of the chains that start with the labels. -/
def writeChains (next : LabelMap Label) (blocks : LabelMap Block) : List Label → List Stmt
  | [] => []
  | l :: ls =>
    let (stmts, left) := writeChain next blocks l
    stmts ++ writeChains next left ls

/-- The labels that chains start with: the entry, the other blocks that are behind no block,
    and, for chains that go in a circle, all others. -/
def heads (g : BlockGraph) : List Label :=
  g.entry :: g.order.filter (fun l => l ≠ g.entry && !g.isChained l) ++ g.order.filter g.isChained

/-- Writes the blocks as flat code. -/
def linearize (g : BlockGraph) : List Stmt := writeChains g.next g.blocks g.heads

end BlockGraph

-- ── Reports ──────────────────────────────────────────────────────────────────

/-- What a move is reported as. -/
def BlockGraph.Move.event : BlockGraph.Move → Event
  | .place a b => .placed b a
  | .absorb a b => .absorbed b a

/-- Reports the labels that folding drops. -/
def foldEvents (stmts : List Stmt) : List Event :=
  (labelAliases none stmts).map fun (l, kept) => .foldedLabel l kept

/-- Reports the statements that cutting blocks drops. -/
def cutEvents (stmts : List Stmt) : List Event := (deadStmts false stmts).map .droppedStmt

/-- Reports the blocks that merging drops and the moves it makes. -/
def mergeEvents (g : BlockGraph) (moves : List BlockGraph.Move) : List Event :=
  g.unreachable.keys.map .droppedBlock ++ moves.map (·.event)

-- ── A whole function ─────────────────────────────────────────────────────────

namespace Flat.Function

variable {ω : Type}

/-- The merged blocks of a function. -/
def buildBlocks (f : Function) : Emit ω BlockGraph := do
  let folded := foldLabels f.stmts
  let g ← Emit.ofSupply (BlockGraph.ofStmts folded f.exit)
  let (moves, merged) := g.merge
  Emit.reportAll (foldEvents f.stmts ++ cutEvents folded ++ mergeEvents g moves ++
    [.merged f.frame.label g.size merged.size])
  return merged

/-- The function with its blocks merged and laid out again. -/
def layOut (f : Function) : Emit ω Function := do
  return { f with stmts := (← f.buildBlocks).linearize }

end Flat.Function

end MmixBackend
