import MmixBackend.Block
import MmixBackend.Finite

/-!
# Merging blocks

Two moves make code shorter without changing what it does:

* `place a b`: the negative target `b` of the branch that ends `a` is chained behind `a`;
* `absorb a b`: the block `b` that `a` jumps to becomes the end of `a`.

Both need `b` to have no other way in, and no chain may become a circle (`canMerge`).
`BlockGraph.merge` drops the blocks that no path from the entry reaches and then makes moves
until none is left. It tells the moves it made, in order: all placings that are possible, then
all absorbings, and again as long as something was absorbed.

A placing leaves one block fewer without a chain, and an absorbing one block fewer, so merging
ends.
-/

namespace MmixBackend

open Flat

namespace BlockGraph

-- ── Reachability ─────────────────────────────────────────────────────────────

/-- The blocks of `unseen` that no path from `todo` through `unseen` reaches. -/
def unreached (unseen : LabelMap Block) (todo : List Label) : LabelMap Block :=
  match todo with
  | [] => unseen
  | l :: todo =>
    match h : unseen[l]? with
    | none => unreached unseen todo
    | some b =>
      have := size_erase_lt_of_mem (mem_of_getElem?_eq_some h)
      unreached (unseen.erase l) (b.successors ++ todo)
termination_by (unseen.size, todo.length)

/-- The blocks that no path from the entry reaches. -/
def unreachable (g : BlockGraph) : LabelMap Block := unreached g.blocks [g.entry]

/-- Drops the blocks that no path from the entry reaches. -/
def dropUnreachable (g : BlockGraph) : BlockGraph :=
  let lost := g.unreachable
  { g with
    order := g.order.filter (· ∉ lost)
    blocks := g.blocks.filter fun l _ => l ∉ lost }

-- ── When two blocks may be joined ────────────────────────────────────────────

/-- The number of jumps to a label. -/
def incoming (g : BlockGraph) (l : Label) : Nat :=
  (g.blocks.toList.flatMap fun (_, b) => b.successors).count l

/-- The block that certainly comes after `l`, if there is one. -/
def onlySuccessor? (g : BlockGraph) (l : Label) : Option Label :=
  g.next[l]? <|> (g.blocks[l]?.bind (·.last.jump?)).filter (· ∈ g.blocks)

/-- Does the way on from `l` come to `goal`, or does it go on for more than `n` blocks? -/
def leadsTo (g : BlockGraph) (goal : Label) : Nat → Label → Bool
  | 0, _ => true
  | n + 1, l =>
    if l = goal then true
    else match g.onlySuccessor? l with
      | some l' => leadsTo g goal n l'
      | none => false

/-- Is the block chained behind another one? -/
def isChained (g : BlockGraph) (l : Label) : Bool := g.next.any fun _ n => n = l

/-- May `b` be joined to the end of `a`? -/
def canMerge (g : BlockGraph) (a b : Label) : Bool :=
  b ∈ g.blocks && b ≠ g.entry && b ≠ a && g.incoming b = 1 && a ∉ g.next && !g.isChained b &&
    !g.leadsTo a (g.size + 1) b

-- ── Moves ────────────────────────────────────────────────────────────────────

/-- A way to join two blocks. -/
inductive Move where
  /-- Chain `b` behind `a`. -/
  | place (a b : Label)
  /-- Move the contents of `b` to the end of `a`. -/
  | absorb (a b : Label)
  deriving DecidableEq, Repr

/-- Chains `b` behind `a`. -/
def place (g : BlockGraph) (a b : Label) : BlockGraph := { g with next := g.next.insert a b }

/-- Moves the contents of `b` to the end of `a`, with the chain behind `b`. -/
def absorb (g : BlockGraph) (a b : Label) : BlockGraph :=
  match g.blocks[b]? with
  | none => g
  | some taken =>
    { g with
      order := g.order.filter (· ≠ b)
      blocks := (g.blocks.erase b).modify a fun block =>
        { block with body := block.body ++ taken.body, last := taken.last }
      next := match g.next[b]? with
        | some n => (g.next.erase b).insert a n
        | none => g.next }

/-- The pair of `a` and a label of its last transfer, if the two blocks may be joined. -/
def joinable? (g : BlockGraph) (pick : Transfer → Option Label) (a : Label) :
    Option (Label × Label) := do
  let block ← g.blocks[a]?
  let b ← pick block.last
  if g.canMerge a b then some (a, b) else none

/-- The first block whose branch has a negative target that can be placed, with that target. -/
def placeable? (g : BlockGraph) : Option (Label × Label) :=
  g.order.findSome? (g.joinable? Transfer.negative?)

/-- The first block whose jump leads to a block that can be absorbed, with that block. -/
def absorbable? (g : BlockGraph) : Option (Label × Label) :=
  g.order.findSome? (g.joinable? Transfer.jump?)

-- ── Why the moves come to an end ─────────────────────────────────────────────

/-- The number of blocks, in order, that have no chain behind them. -/
def unchained (g : BlockGraph) : Nat := g.order.countP (· ∉ g.next)

/-- Two blocks that are found can be merged. -/
theorem canMerge_of_joinable? {g : BlockGraph} {pick : Transfer → Option Label} {x a b : Label}
    (h : g.joinable? pick x = some (a, b)) : x = a ∧ g.canMerge a b := by
  simp only [joinable?, Option.bind_eq_bind, Option.bind_eq_some_iff] at h
  obtain ⟨block, -, y, -, hif⟩ := h
  split at hif
  · rename_i hm
    cases hif
    exact ⟨rfl, hm⟩
  · cases hif

theorem placeable?_spec {g : BlockGraph} {a b : Label} (h : g.placeable? = some (a, b)) :
    a ∈ g.order ∧ g.canMerge a b := by
  obtain ⟨x, hx, hf⟩ := List.exists_of_findSome?_eq_some h
  obtain ⟨rfl, hm⟩ := canMerge_of_joinable? hf
  exact ⟨hx, hm⟩

theorem absorbable?_spec {g : BlockGraph} {a b : Label} (h : g.absorbable? = some (a, b)) :
    a ∈ g.order ∧ g.canMerge a b := by
  obtain ⟨x, hx, hf⟩ := List.exists_of_findSome?_eq_some h
  obtain ⟨rfl, hm⟩ := canMerge_of_joinable? hf
  exact ⟨hx, hm⟩

/-- Only a block that is there is merged. -/
theorem mem_blocks_of_canMerge {g : BlockGraph} {a b : Label} (h : g.canMerge a b) :
    b ∈ g.blocks := by
  simp only [canMerge, Bool.and_eq_true, decide_eq_true_eq] at h
  exact h.1.1.1.1.1.1

/-- Nothing is merged behind a block that has another one placed there. -/
theorem not_mem_next_of_canMerge {g : BlockGraph} {a b : Label} (h : g.canMerge a b) :
    a ∉ g.next := by
  simp only [canMerge, Bool.and_eq_true, decide_eq_true_eq] at h
  exact h.1.1.2

/-- Placing a block leaves fewer blocks with none behind them. -/
theorem unchained_place_lt {g : BlockGraph} {a b : Label} (ha : a ∈ g.order) (hn : a ∉ g.next) :
    (g.place a b).unchained < g.unchained := by
  refine countP_lt_countP ?_ ha ?_ ?_
  · intro x _ hx
    simp only [place, Std.ExtTreeMap.mem_insert, decide_eq_true_eq] at hx ⊢
    exact fun h => hx (Or.inr h)
  · simpa using hn
  · simp [place]

/-- Absorbing a block leaves fewer blocks. -/
theorem size_absorb_lt {g : BlockGraph} {a b : Label} (hb : b ∈ g.blocks) :
    (g.absorb a b).size < g.size := by
  have hlt := size_erase_lt_of_mem hb
  rw [Std.ExtTreeMap.mem_iff_isSome_getElem?] at hb
  obtain ⟨taken, htaken⟩ := Option.isSome_iff_exists.mp hb
  simpa [absorb, htaken, size, Std.ExtTreeMap.size_modify] using hlt

-- ── Merging ──────────────────────────────────────────────────────────────────

/-- Places blocks until no block can be placed. -/
def placeAll (g : BlockGraph) : List Move × BlockGraph :=
  match h : g.placeable? with
  | none => ([], g)
  | some (a, b) =>
    have := unchained_place_lt (placeable?_spec h).1
      (not_mem_next_of_canMerge (placeable?_spec h).2) (b := b)
    let (moves, g') := placeAll (g.place a b)
    (.place a b :: moves, g')
termination_by g.unchained

/-- Absorbs blocks until no block can be absorbed. -/
def absorbAll (g : BlockGraph) : List Move × BlockGraph :=
  match h : g.absorbable? with
  | none => ([], g)
  | some (a, b) =>
    have := size_absorb_lt (mem_blocks_of_canMerge (absorbable?_spec h).2) (a := a)
    let (moves, g') := absorbAll (g.absorb a b)
    (.absorb a b :: moves, g')
termination_by g.size

/-- Placing blocks keeps their number. -/
theorem size_placeAll (g : BlockGraph) : g.placeAll.2.size = g.size := by
  fun_induction placeAll g with
  | case1 g h => rfl
  | case2 g a b h _ moves g' heq ih =>
    rw [heq] at ih
    exact ih

theorem size_absorbAll_le (g : BlockGraph) : g.absorbAll.2.size ≤ g.size := by
  fun_induction absorbAll g with
  | case1 g h => exact Nat.le_refl _
  | case2 g a b h hlt moves g' heq ih =>
    rw [heq] at ih
    exact Nat.le_of_lt (Nat.lt_of_le_of_lt ih hlt)

/-- If anything is absorbed, fewer blocks are left. -/
theorem size_absorbAll_lt {g : BlockGraph} (h : g.absorbAll.1 ≠ []) :
    g.absorbAll.2.size < g.size := by
  revert h
  fun_cases absorbAll g with
  | case1 hnone => exact fun h => absurd rfl h
  | case2 a b hsome hlt moves g' heq =>
    intro _
    have := size_absorbAll_le (g.absorb a b)
    rw [heq] at this
    exact Nat.lt_of_le_of_lt this hlt

/-- Makes moves until none is left. -/
def mergeAll (g : BlockGraph) : List Move × BlockGraph :=
  let placed := g.placeAll
  let absorbed := placed.2.absorbAll
  if h : absorbed.1 = [] then (placed.1, absorbed.2)
  else
    have : absorbed.2.size < g.size :=
      Nat.lt_of_lt_of_eq (size_absorbAll_lt h) (size_placeAll g)
    let rest := mergeAll absorbed.2
    (placed.1 ++ absorbed.1 ++ rest.1, rest.2)
termination_by g.size

/-- Drops the blocks that cannot be reached and joins the others as far as possible. -/
def merge (g : BlockGraph) : List Move × BlockGraph := g.dropUnreachable.mergeAll

end BlockGraph

end MmixBackend
