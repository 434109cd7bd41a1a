import MmixBackend.Flat

/-!
# Basic blocks

A block is a label, actions, and the transfer that ends it. A `BlockGraph` holds the blocks of
one function, the order in which they first appeared, and the chains: `next[a] = b` promises
that `b` is laid out directly behind `a`.

Flat code becomes blocks in two steps:

* `foldLabels` drops a label directly behind another one and sends its jumps to the one kept;
* `BlockGraph.ofStmts` cuts the code at its labels and transfers. Statements between a
  transfer and the next label are dropped, and a block that control would leave at its end
  gets a jump to the next label, the last one a jump to the exit.

Labels may be defined more than once: then the last block wins, and `order` still holds the
label as often as it was defined.
-/

namespace MmixBackend

open Flat

-- ── Folding labels ───────────────────────────────────────────────────────────

/-- The labels directly behind another label, each with the first label of its run. `kept` is
    the label that the statements follow directly. -/
def labelAliases (kept : Option Label) : List Stmt → List (Label × Label)
  | [] => []
  | .label l :: rest =>
    match kept with
    | some k => (l, k) :: labelAliases kept rest
    | none => labelAliases (some l) rest
  | _ :: rest => labelAliases none rest

/-- The statements without the labels directly behind another label. -/
def dropAliases (kept : Option Label) : List Stmt → List Stmt
  | [] => []
  | .label l :: rest =>
    match kept with
    | some _ => dropAliases kept rest
    | none => .label l :: dropAliases (some l) rest
  | s :: rest => s :: dropAliases none rest

/-- Drops each label directly behind another one and sends its jumps to the one kept. -/
def foldLabels (stmts : List Stmt) : List Stmt :=
  let aliases : LabelMap Label := Std.ExtTreeMap.ofList (labelAliases none stmts)
  (dropAliases none stmts).map (·.retarget fun l => aliases.getD l l)

-- ── Blocks ───────────────────────────────────────────────────────────────────

/-- A basic block. -/
structure Block where
  label : Label
  body : List Action
  last : Transfer
  deriving DecidableEq, Repr

namespace Block

/-- The labels control may go to from the block. -/
def successors (b : Block) : List Label := b.last.targets

/-- The statements of the block. -/
def stmts (b : Block) : List Stmt := .label b.label :: b.body.map .act ++ [.transfer b.last]

end Block

mutual

/-- The blocks of code inside the block `l`, whose actions so far are `body`. -/
def cutBlock (exit l : Label) (body : List Action) : List Stmt → List Block
  | [] => [⟨l, body, .jump exit⟩]
  | .label l' :: rest =>
    if l' = l ∧ body = [] then cutBlock exit l body rest
    else ⟨l, body, .jump l'⟩ :: cutBlock exit l' [] rest
  | .act a :: rest => cutBlock exit l (body ++ [a]) rest
  | .transfer t :: rest => ⟨l, body, t⟩ :: cutDead exit rest

/-- The blocks of code behind a transfer. -/
def cutDead (exit : Label) : List Stmt → List Block
  | [] => []
  | .label l :: rest => cutBlock exit l [] rest
  | _ :: rest => cutDead exit rest

end

/-- The statements between a transfer and the next label. `dead` tells whether the code starts
    behind a transfer. -/
def deadStmts (dead : Bool) : List Stmt → List Stmt
  | [] => []
  | .label _ :: rest => deadStmts false rest
  | s :: rest =>
    if dead then s :: deadStmts true rest
    else deadStmts s.isTransfer rest

-- ── The graph ────────────────────────────────────────────────────────────────

/-- The blocks of one function. -/
structure BlockGraph where
  entry : Label
  /-- The labels of the blocks, in the order of the code. -/
  order : List Label
  blocks : LabelMap Block
  /-- `next[a] = b`: the block `b` has to follow `a` directly. -/
  next : LabelMap Label
  deriving DecidableEq

namespace BlockGraph

/-- Adds a block behind the others; a block of the same label is replaced. -/
def insert (g : BlockGraph) (b : Block) : BlockGraph :=
  { g with order := g.order ++ [b.label], blocks := g.blocks.insert b.label b }

/-- The graph of a list of blocks. -/
def ofBlocks (entry : Label) (bs : List Block) : BlockGraph :=
  bs.foldl insert { entry, order := [], blocks := ∅, next := ∅ }

/-- Cuts flat code into blocks. The entry is the label the code starts with, or a fresh one. -/
def ofStmts (stmts : List Stmt) (exit : Label) (s : Supply) : BlockGraph × Supply :=
  match stmts with
  | .label l :: _ => (ofBlocks l (cutBlock exit l [] stmts), s)
  | _ =>
    let (l, s) := s.freshLabel
    (ofBlocks l (cutBlock exit l [] stmts), s)

/-- The blocks in order. -/
def inOrder (g : BlockGraph) : List Block := g.order.filterMap (g.blocks[·]?)

/-- The number of blocks. -/
def size (g : BlockGraph) : Nat := g.blocks.size

/-- The text of one block, with the block that has to follow it. -/
def blockText (g : BlockGraph) (b : Block) : String :=
  let follows := match g.next[b.label]? with
    | some l => "  (then " ++ l.text ++ ")"
    | none => ""
  b.label.text ++ ":" ++ follows ++ "\n" ++
    String.join (b.body.map fun a => "    " ++ a.text ++ "\n") ++
    "    " ++ b.last.text ++ "\n"

/-- The text of the blocks in order. -/
def text (g : BlockGraph) : String := String.join (g.inOrder.map g.blockText)

end BlockGraph

end MmixBackend
