import MmixBackend.Finite
import MmixBackend.Interference

/-!
# Colouring the interference graph

Registers are the colours of the interference graph. Colouring takes two phases:

* `ColorGraph.simplify` takes nodes off the graph one by one. A node with fewer neighbours
  left than there are colours is easy: whatever colours its neighbours get, one is left for it.
  When no node is easy, a risky one is taken: preferably none that spilling introduced, then
  the one of highest degree, then the one of longest live range.
* `ColorGraph.selectAll` puts the nodes back, the last one first, each with the lowest colour
  that no neighbour has. It stops at a risky node for which there is none.

A node that has its colour from the start is never taken, and its colour is one of those that
its neighbours cannot have.
-/

namespace MmixBackend

/-- A temporary in the graph. -/
structure Node where
  /-- The neighbours that are still to be taken. -/
  degreeNbrs : TempSet
  /-- All neighbours. -/
  colorNbrs : TempSet
  register : Option Nat
  deriving DecidableEq

/-- A graph that is being coloured. -/
structure ColorGraph where
  nodes : TempMap Node
  /-- The nodes still to be taken. -/
  active : TempSet
  /-- The number of colours. -/
  colors : Nat
  deriving DecidableEq

namespace ColorGraph

/-- The graph at the start: only the nodes of `precolored` have a register. -/
def ofInterference (g : Interference) (colors : Nat) (precolored : TempMap Nat) : ColorGraph where
  nodes := g.neighbours.map fun t nbrs =>
    { degreeNbrs := nbrs.filter (· ∉ precolored)
      colorNbrs := nbrs
      register := precolored[t]? }
  active := Std.ExtTreeSet.ofList (g.neighbours.keys.filter (· ∉ precolored))
  colors

/-- The number of neighbours still to be taken. -/
def degree (g : ColorGraph) (t : Temp) : Nat :=
  match g.nodes[t]? with
  | some node => node.degreeNbrs.size
  | none => 0

/-- Are there more colours than neighbours still to be taken? -/
def isEasy (g : ColorGraph) (t : Temp) : Bool := g.degree t < g.colors

/-- A node without `t` among the neighbours still to be taken. -/
def Node.forget (t : Temp) (node : Node) : Node :=
  { node with degreeNbrs := node.degreeNbrs.erase t }

/-- Takes `t` off the graph. -/
def take (g : ColorGraph) (t : Temp) : ColorGraph :=
  match g.nodes[t]? with
  | none => { g with active := g.active.erase t }
  | some node =>
    { g with
      active := g.active.erase t
      nodes := node.degreeNbrs.foldl (fun nodes nbr => nodes.modify nbr (Node.forget t))
        (g.nodes.insert t { node with degreeNbrs := ∅ }) }

/-- The first easy node still to be taken. -/
def easy? (g : ColorGraph) : Option Temp := g.active.toList.find? g.isEasy

-- ── Risky nodes ──────────────────────────────────────────────────────────────

/-- What decides between nodes that may need spilling. -/
structure Risk where
  /-- Did spilling not introduce the node? -/
  genuine : Bool
  degree : Nat
  /-- The length of the live range. -/
  span : Nat
  deriving DecidableEq, Repr

/-- Is the second node the better one to spill? -/
def Risk.lt (x y : Risk) : Bool :=
  if x.genuine = y.genuine then
    if x.degree = y.degree then x.span < y.span else x.degree < y.degree
  else y.genuine

/-- What decides whether to spill `t`. -/
def risk (g : ColorGraph) (spans : TempMap Nat) (spillTemps : TempSet) (t : Temp) : Risk where
  genuine := t ∉ spillTemps
  degree := g.degree t
  span := spans.getD t 0

/-- The best node of a list to spill, the first one among equals. -/
def riskiestOf (risk : Temp → Risk) : List Temp → Option Temp
  | [] => none
  | t :: ts =>
    match riskiestOf risk ts with
    | none => some t
    | some u => if (risk t).lt (risk u) then some u else some t

/-- The node to take when none is easy. -/
def riskiest? (g : ColorGraph) (spans : TempMap Nat) (spillTemps : TempSet) : Option Temp :=
  riskiestOf (g.risk spans spillTemps) g.active.toList

-- ── Simplify ─────────────────────────────────────────────────────────────────

/-- Why a node was taken. -/
inductive Pick where
  | easy (t : Temp)
  | risky (t : Temp) (degree : Nat) (span : Option Nat)
  deriving DecidableEq, Repr

/-- The node that was taken. -/
def Pick.temp : Pick → Temp
  | .easy t => t
  | .risky t _ _ => t

/-- What a pick is reported as. -/
def Pick.events : Pick → List Event
  | .easy t => [.simplified t]
  | .risky t degree span => [.candidate t degree span, .risked t]

/-- An easy node is still to be taken. -/
theorem mem_active_of_easy? {g : ColorGraph} {t : Temp} (h : g.easy? = some t) : t ∈ g.active :=
  Std.ExtTreeSet.mem_toList.mp (List.mem_of_find?_eq_some h)

theorem mem_of_riskiestOf {risk : Temp → Risk} {ts : List Temp} {t : Temp}
    (h : riskiestOf risk ts = some t) : t ∈ ts := by
  induction ts generalizing t with
  | nil => cases h
  | cons a ts ih =>
    simp only [riskiestOf] at h
    split at h
    · cases h
      exact List.mem_cons_self
    · rename_i u hu
      split at h
      · cases h
        exact List.mem_cons_of_mem _ (ih hu)
      · cases h
        exact List.mem_cons_self

/-- So is the riskiest one. -/
theorem mem_active_of_riskiest? {g : ColorGraph} {spans : TempMap Nat} {spillTemps : TempSet}
    {t : Temp} (h : g.riskiest? spans spillTemps = some t) : t ∈ g.active :=
  Std.ExtTreeSet.mem_toList.mp (mem_of_riskiestOf h)

@[simp] theorem active_take (g : ColorGraph) (t : Temp) :
    (g.take t).active = g.active.erase t := by
  unfold take
  split <;> rfl

/-- Takes all nodes off the graph; tells them in the order in which they were taken. -/
def simplify (g : ColorGraph) (spans : TempMap Nat) (spillTemps : TempSet) :
    List Pick × ColorGraph :=
  match h : g.easy? with
  | some t =>
    have := card_erase_lt_of_mem (mem_active_of_easy? h)
    let (picks, rest) := (g.take t).simplify spans spillTemps
    (.easy t :: picks, rest)
  | none =>
    match h : g.riskiest? spans spillTemps with
    | some t =>
      have := card_erase_lt_of_mem (mem_active_of_riskiest? h)
      let (picks, rest) := (g.take t).simplify spans spillTemps
      (.risky t (g.degree t) spans[t]? :: picks, rest)
    | none => ([], g)
termination_by g.active.size

/-- Only nodes still to be taken are taken. -/
theorem mem_active_of_mem_simplify {g : ColorGraph} {spans : TempMap Nat} {spillTemps : TempSet}
    {p : Pick} (h : p ∈ (g.simplify spans spillTemps).1) : p.temp ∈ g.active := by
  fun_induction simplify g spans spillTemps with
  | case1 g t ht _ picks rest heq ih =>
    rcases List.mem_cons.mp h with rfl | h
    · exact mem_active_of_easy? ht
    · rw [heq] at ih
      have hp := ih h
      rw [active_take] at hp
      exact Std.ExtTreeSet.mem_of_mem_erase hp
  | case2 g _ t ht _ picks rest heq ih =>
    rcases List.mem_cons.mp h with rfl | h
    · exact mem_active_of_riskiest? ht
    · rw [heq] at ih
      have hp := ih h
      rw [active_take] at hp
      exact Std.ExtTreeSet.mem_of_mem_erase hp
  | case3 g _ _ => cases h

/-- A node that has its colour from the start is not to be taken. -/
theorem not_mem_active_of_precolored {g : Interference} {colors : Nat} {precolored : TempMap Nat}
    {t : Temp} (h : t ∈ precolored) : t ∉ (ofInterference g colors precolored).active := by
  simp [ofInterference, Std.ExtTreeSet.mem_ofList, h]

-- ── Select ───────────────────────────────────────────────────────────────────

/-- The least number from `r` on that is not in the ascending list. -/
def firstGap (r : Nat) : List Nat → Nat
  | [] => r
  | x :: xs => if x = r then firstGap (r + 1) xs else if x < r then firstGap r xs else r

/-- The registers that the neighbours of `t` have. -/
def registersAround (g : ColorGraph) (t : Temp) : Std.ExtTreeSet Nat :=
  match g.nodes[t]? with
  | none => ∅
  | some node =>
    Std.ExtTreeSet.ofList (node.colorNbrs.toList.filterMap fun nbr =>
      g.nodes[nbr]?.bind (·.register))

/-- The lowest register that no neighbour of `t` has. -/
def freeRegister? (g : ColorGraph) (t : Temp) : Option Nat :=
  let r := firstGap 0 (g.registersAround t).toList
  if r < g.colors then some r else none

/-- Gives `t` a register. -/
def assign (g : ColorGraph) (t : Temp) (r : Nat) : ColorGraph :=
  { g with nodes := g.nodes.modify t fun node => { node with register := some r } }

/-- What putting back nodes came to. -/
structure Selection where
  /-- The registers given, in order. -/
  given : List (Temp × Nat)
  /-- The node for which there was no register. -/
  stuck : Option Temp
  graph : ColorGraph

/-- Gives registers to temporaries in order, up to the first one for which there is none. -/
def selectAll (g : ColorGraph) : List Temp → Selection
  | [] => { given := [], stuck := none, graph := g }
  | t :: ts =>
    match g.freeRegister? t with
    | none => { given := [], stuck := some t, graph := g }
    | some r =>
      let rest := (g.assign t r).selectAll ts
      { rest with given := (t, r) :: rest.given }

/-- Only a temporary that was to get a register can be left without one. -/
theorem mem_of_stuck_selectAll {g : ColorGraph} {ts : List Temp} {t : Temp}
    (h : (g.selectAll ts).stuck = some t) : t ∈ ts := by
  induction ts generalizing g with
  | nil => cases h
  | cons u ts ih =>
    rw [selectAll] at h
    split at h
    · cases h
      exact List.mem_cons_self
    · exact List.mem_cons_of_mem _ (ih h)

/-- What a selection is reported as. -/
def Selection.events (s : Selection) : List Event :=
  s.given.map (fun (t, r) => .selected t r) ++ s.stuck.toList.map .noRegister

/-- The registers of the nodes that have one. -/
def assignments (g : ColorGraph) : TempMap Nat := g.nodes.filterMap fun _ node => node.register

/-- The nodes with their registers and neighbours. -/
def rows (g : ColorGraph) : List GraphRow :=
  g.nodes.toList.map fun (temp, node) =>
    { temp, register := node.register, neighbours := node.colorNbrs.toList }

/-- The graph as text. -/
def text (g : ColorGraph) : String := graphText g.rows

-- ── Single steps ─────────────────────────────────────────────────────────────

/-- Is the temporary a node of the graph? -/
def known (g : ColorGraph) (t : Temp) : Except Fault Unit :=
  if t ∈ g.nodes then .ok () else .error (.unknownTemp t)

/-- Takes the first easy node, if there is one. -/
def takeEasy (g : ColorGraph) : Option Temp × ColorGraph :=
  match g.easy? with
  | some t => (some t, g.take t)
  | none => (none, g)

/-- Takes the best node to spill, if there is a node left. -/
def takeRiskiest (g : ColorGraph) (spans : TempMap Nat) (spillTemps : TempSet) :
    Option Pick × ColorGraph :=
  match g.riskiest? spans spillTemps with
  | some t => (some (.risky t (g.degree t) spans[t]?), g.take t)
  | none => (none, g)

/-- Gives `t` the lowest register that no neighbour has, if there is one. -/
def selectOnce (g : ColorGraph) (t : Temp) : Option Nat × ColorGraph :=
  match g.freeRegister? t with
  | some r => (some r, g.assign t r)
  | none => (none, g)

end ColorGraph

-- ── Live ranges ──────────────────────────────────────────────────────────────

/-- The number of the first instruction that writes each temporary. -/
def firstDefs (instrs : List Instr) : TempMap Nat :=
  instrs.zipIdx.foldl (fun m (instr, i) => instr.defs.foldl (fun m t => m.insertIfNew t i) m) ∅

/-- The number of the last instruction that reads each temporary. -/
def lastUses (instrs : List Instr) : TempMap Nat :=
  instrs.zipIdx.foldl (fun m (instr, i) => instr.uses.foldl (fun m t => m.insert t i) m) ∅

/-- The distance from the first write of each temporary to its last read. A temporary that is
    never written counts from the start, and one that is never read has length 0. -/
def liveSpans (instrs : List Instr) : TempMap Nat :=
  let defs := firstDefs instrs
  let spans := (lastUses instrs).map fun t last => last - defs.getD t 0
  defs.keys.foldl (fun m t => m.insertIfNew t 0) spans

end MmixBackend
