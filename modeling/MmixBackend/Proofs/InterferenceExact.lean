import MmixBackend.Proofs.RegisterCollision

/-!
# The interference graph is exactly the relation it stands for

The nodes and the neighbourhoods are all there is to an interference graph, so a graph that is made
by adding edges depends only on which temporaries are joined: not on the order of the edges, nor on
how often or which way round each of them is added.

* **`eq_of_same`** — graphs with the same nodes and the same neighbours are equal.
* **`addEdges_congr`** — lists of edges that join the same temporaries make the same graph.
* **`Code.mem_interference_iff`** — the nodes of the graph of a function.
* **`interference_exact`** — nodes, edges, and that the order of the edges does not matter.
-/

namespace MmixBackend

namespace Interference

variable {g g' : Interference} {a b x y : Temp}

/-- The list has an edge between the two temporaries, one way round or the other. -/
def Joins (es : List (Temp × Temp)) (a b : Temp) : Prop := (a, b) ∈ es ∨ (b, a) ∈ es

/-- Adds edges, the first one first. -/
def addEdges (es : List (Temp × Temp)) (g : Interference) : Interference :=
  es.foldl (fun g e => g.addEdge e.1 e.2) g

theorem getElem?_neighbours_of_mem (h : x ∈ g.neighbours) :
    g.neighbours[x]? = some (g.neighbours.getD x ∅) := by
  rw [Std.ExtTreeMap.mem_iff_isSome_getElem?] at h
  obtain ⟨nbrs, hnbrs⟩ := Option.isSome_iff_exists.mp h
  rw [Std.ExtTreeMap.getD_eq_getD_getElem?, hnbrs]
  rfl

/-- A graph is its nodes and their neighbours. -/
theorem eq_of_same (hnodes : ∀ x, x ∈ g.neighbours ↔ x ∈ g'.neighbours)
    (hadj : ∀ x y, g.Adj x y ↔ g'.Adj x y) : g = g' := by
  have hmaps : g.neighbours = g'.neighbours := by
    refine Std.ExtTreeMap.ext_getElem? fun x => ?_
    by_cases hx : x ∈ g.neighbours
    · rw [getElem?_neighbours_of_mem hx, getElem?_neighbours_of_mem ((hnodes x).mp hx)]
      exact congrArg some (Std.ExtTreeSet.ext_mem (hadj x))
    · have hx' : x ∉ g'.neighbours := fun h => hx ((hnodes x).mpr h)
      rw [Std.ExtTreeMap.getElem?_eq_none hx, Std.ExtTreeMap.getElem?_eq_none hx']
  cases g
  cases g'
  exact congrArg mk hmaps

/-- A temporary is an end of some proper edge exactly if it is joined to another one. -/
theorem exists_edge_iff {es : List (Temp × Temp)} :
    (∃ e ∈ es, e.1 ≠ e.2 ∧ (x = e.1 ∨ x = e.2)) ↔ ∃ y, x ≠ y ∧ Joins es x y := by
  constructor
  · rintro ⟨⟨a, b⟩, he, hne, rfl | rfl⟩
    · exact ⟨b, hne, .inl he⟩
    · exact ⟨a, hne.symm, .inr he⟩
  · rintro ⟨y, hne, h | h⟩
    · exact ⟨(x, y), h, hne, .inl rfl⟩
    · exact ⟨(y, x), h, hne.symm, .inr rfl⟩

/-- Which edges are added counts; their order, their number and their direction do not. -/
theorem addEdges_congr {es es' : List (Temp × Temp)}
    (h : ∀ a b, a ≠ b → (Joins es a b ↔ Joins es' a b)) (g : Interference) :
    addEdges es g = addEdges es' g := by
  refine eq_of_same ?_ ?_
  · intro x
    refine (mem_addEdges es g).trans (.trans ?_ (mem_addEdges es' g).symm)
    rw [exists_edge_iff, exists_edge_iff]
    exact or_congr_right (exists_congr fun y => and_congr_right (h x y))
  · intro x y
    refine (adj_addEdges es g).trans (.trans ?_ (adj_addEdges es' g).symm)
    exact or_congr_right (and_congr_right (h x y))

end Interference

namespace Code

open Interference

/-- The nodes are the temporaries that occur at some instruction. -/
theorem mem_interference_iff {code : Code} {t : Temp} :
    t ∈ code.interference.neighbours ↔ ∃ pc i, code.instrs[pc]? = some i ∧
      (t ∈ i.uses ∨ t ∈ i.defs ∨ t ∈ code.liveSets.liveIn pc ∨ t ∈ code.liveSets.liveOut pc) := by
  constructor
  · intro h
    obtain ⟨row, hrow, hmem⟩ := mem_compute_iff.mp h
    obtain ⟨pc, hi, hlive⟩ := getElem?_of_mem_rows hrow
    rw [← hlive] at hmem
    exact ⟨pc, row.1, hi, mem_mentioned.mp hmem⟩
  · rintro ⟨pc, i, hi, h⟩
    exact mem_interference hi h

/-- **The interference graph is exact.** Its nodes are the temporaries that some instruction reads
    or writes or that are live before or behind one. Two temporaries are neighbours exactly if they
    differ and meet at some instruction: they are live together before it or behind it, or it writes
    one of them and the other one is live behind it or is written by it as well. The graph is
    symmetric, and no temporary is its own neighbour. And whatever graph edges are added to, lists
    that join the same temporaries make the same graph of it. -/
theorem interference_exact (code : Code) :
    (∀ t, t ∈ code.interference.neighbours ↔ ∃ pc i, code.instrs[pc]? = some i ∧
      (t ∈ i.uses ∨ t ∈ i.defs ∨ t ∈ code.liveSets.liveIn pc ∨
        t ∈ code.liveSets.liveOut pc)) ∧
    (∀ a b, code.interference.Adj a b ↔
      a ≠ b ∧ ∃ pc i, code.instrs[pc]? = some i ∧ code.MeetAt pc i a b) ∧
    (∀ a b, code.interference.Adj a b → code.interference.Adj b a) ∧
    (∀ a, ¬ code.interference.Adj a a) ∧
    (∀ (g : Interference) (es es' : List (Temp × Temp)),
      (∀ a b, a ≠ b → (Joins es a b ↔ Joins es' a b)) → addEdges es g = addEdges es' g) := by
  have hbuilt := built_compute code.instrs code.liveSets
  refine ⟨fun t => mem_interference_iff, fun a b => adj_interference_iff, ?_, ?_, ?_⟩
  · intro a b h
    exact hbuilt.symm h
  · intro a
    exact hbuilt.irrefl
  · intro g es es' h
    exact addEdges_congr h g

/-- The second number is set and never read. -/
def deadDefinition : Code where
  frame := ⟨.named "f", 1, 0, 0, ⟨0⟩, ⟨1⟩⟩
  entry := .named "f"
  exit := .named "exit"
  instrs := [.plain (.setLow 1) [] [⟨2⟩], .plain (.setLow 2) [] [⟨3⟩], .copy ⟨0⟩ ⟨2⟩,
    .jump (.named "exit")]

/-- What is set and never read interferes all the same. The result takes over the first number where
    that one is no longer live, so these two do not. The only edge makes this graph whichever way
    round it is added, and however often. -/
theorem interference_exact_dead_definition :
    (⟨3⟩ : Temp) ∈ deadDefinition.interference.neighbours ∧
    deadDefinition.interference.Adj ⟨3⟩ ⟨2⟩ ∧ ¬ deadDefinition.interference.Adj ⟨2⟩ ⟨0⟩ ∧
    addEdges [(⟨2⟩, ⟨3⟩)] deadDefinition.interference =
      addEdges [(⟨3⟩, ⟨2⟩), (⟨2⟩, ⟨3⟩), (⟨3⟩, ⟨2⟩)] deadDefinition.interference := by
  obtain ⟨hnodes, hadj, -, -, horder⟩ := interference_exact deadDefinition
  have hdef : deadDefinition.instrs[1]? = some (.plain (.setLow 2) [] [⟨3⟩]) := rfl
  have hmeet : deadDefinition.MeetAt 1 (.plain (.setLow 2) [] [⟨3⟩]) ⟨3⟩ ⟨2⟩ :=
    .inr (.inr (.inl ⟨by decide, .inl (by decide +kernel)⟩))
  refine ⟨(hnodes ⟨3⟩).mpr ⟨1, _, hdef, .inr (.inl (by decide))⟩,
    (hadj ⟨3⟩ ⟨2⟩).mpr ⟨by decide, 1, _, hdef, hmeet⟩, ?_, horder _ _ _ ?_⟩
  · unfold Adj
    decide +kernel
  · intro a b _
    simp only [Joins, List.mem_cons, List.not_mem_nil, Prod.mk.injEq]
    grind

end Code

end MmixBackend
