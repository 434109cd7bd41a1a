import MmixBackend.Interference

/-!
# Which temporaries interfere

The interference graph is made by adding nodes and edges one by one. Seen through neighbourhood,
nodes add nothing, an edge adds itself in both directions, and so the graph of a function has the
edges of its instructions and no others.

* **`adj_compute_iff`** — two temporaries are neighbours exactly if they differ and some
  instruction makes an edge between them.
* **`mem_compute_iff`** — the nodes are what some instruction or its live sets mention.
* **`adj_of_def_of_liveOut`** — what an instruction writes is a neighbour of everything else that is
  live after it.
-/

namespace MmixBackend

namespace Interference

variable {g : Interference} {a b t x y : Temp}

-- ── Single nodes and edges ───────────────────────────────────────────────────

/-- The second temporary is a neighbour of the first one. -/
def Adj (g : Interference) (a b : Temp) : Prop := b ∈ g.neighbours.getD a ∅

theorem adj_empty : ¬ Adj {} a b := by
  intro h
  simp [Adj] at h

/-- Adding a node adds this node only. -/
theorem mem_addNode : x ∈ (g.addNode t).neighbours ↔ x = t ∨ x ∈ g.neighbours := by
  rw [addNode, Std.ExtTreeMap.mem_insertIfNew, Std.LawfulEqCmp.compare_eq_iff_eq, eq_comm]

/-- Adding a node adds no edge. -/
theorem adj_addNode : (g.addNode t).Adj x y ↔ g.Adj x y := by
  rw [Adj, Adj, addNode, Std.ExtTreeMap.getD_insertIfNew]
  split
  · next h =>
    -- a new node has no neighbours, as before it was a node
    obtain ⟨hcmp, hnot⟩ := h
    obtain rfl : t = x := Std.LawfulEqCmp.eq_of_compare hcmp
    rw [Std.ExtTreeMap.getD_eq_fallback hnot]
  · rfl

/-- One way round, an edge adds one neighbour. -/
theorem mem_getD_addNeighbour {nbrs : TempMap TempSet} :
    y ∈ (addNeighbour a b nbrs).getD x ∅ ↔ (x = a ∧ y = b) ∨ y ∈ nbrs.getD x ∅ := by
  rw [addNeighbour, Std.ExtTreeMap.getD_insert]
  split
  · next hcmp =>
    obtain rfl : a = x := Std.LawfulEqCmp.eq_of_compare hcmp
    rw [Std.ExtTreeSet.mem_insert, Std.LawfulEqCmp.compare_eq_iff_eq]
    simp [eq_comm]
  · next hcmp =>
    have hne : x ≠ a := fun h => hcmp (h ▸ Std.ReflCmp.compare_self)
    simp [hne]

/-- Adding an edge joins its ends, if they differ, and no others. -/
theorem adj_addEdge :
    (g.addEdge a b).Adj x y ↔ g.Adj x y ∨ x ≠ y ∧ ((x, y) = (a, b) ∨ (y, x) = (a, b)) := by
  rw [addEdge]
  split
  · next hab =>
    obtain rfl := hab
    constructor
    · exact Or.inl
    · rintro (h | ⟨hne, h | h⟩)
      · exact h
      · obtain ⟨rfl, rfl⟩ := Prod.mk.inj h
        exact absurd rfl hne
      · obtain ⟨rfl, rfl⟩ := Prod.mk.inj h
        exact absurd rfl hne
  · next hab =>
    rw [Adj, mem_getD_addNeighbour, mem_getD_addNeighbour]
    constructor
    · rintro (⟨rfl, rfl⟩ | ⟨rfl, rfl⟩ | h)
      · exact .inr ⟨fun h => hab h.symm, .inr rfl⟩
      · exact .inr ⟨hab, .inl rfl⟩
      · exact .inl h
    · rintro (h | ⟨-, h | h⟩)
      · exact .inr (.inr h)
      · obtain ⟨rfl, rfl⟩ := Prod.mk.inj h
        exact .inr (.inl ⟨rfl, rfl⟩)
      · obtain ⟨rfl, rfl⟩ := Prod.mk.inj h
        exact .inl ⟨rfl, rfl⟩

/-- The ends of an edge become nodes, if they differ. -/
theorem mem_addEdge :
    x ∈ (g.addEdge a b).neighbours ↔ x ∈ g.neighbours ∨ a ≠ b ∧ (x = a ∨ x = b) := by
  rw [addEdge]
  split
  · next hab => simp [hab]
  · next hab =>
    simp only [addNeighbour, Std.ExtTreeMap.mem_insert, Std.LawfulEqCmp.compare_eq_iff_eq]
    constructor
    · rintro (rfl | rfl | h)
      · exact .inr ⟨hab, .inr rfl⟩
      · exact .inr ⟨hab, .inl rfl⟩
      · exact .inl h
    · rintro (h | ⟨-, rfl | rfl⟩)
      · exact .inr (.inr h)
      · exact .inr (.inl rfl)
      · exact .inl rfl

/-- The graphs that adding nodes and edges can make. -/
inductive Built : Interference → Prop where
  | empty : Built {}
  | addNode {g : Interference} (h : Built g) (t : Temp) : Built (g.addNode t)
  | addEdge {g : Interference} (h : Built g) (a b : Temp) : Built (g.addEdge a b)

/-- Neighbours are neighbours of each other. -/
theorem Built.symm (h : g.Built) (hadj : g.Adj x y) : g.Adj y x := by
  induction h with
  | empty => exact absurd hadj adj_empty
  | addNode _ t ih => exact adj_addNode.mpr (ih (adj_addNode.mp hadj))
  | addEdge _ a b ih =>
      rcases adj_addEdge.mp hadj with hold | ⟨hne, hnew⟩
      · exact adj_addEdge.mpr (.inl (ih hold))
      · exact adj_addEdge.mpr (.inr ⟨hne.symm, hnew.symm⟩)

/-- No node is its own neighbour. -/
theorem Built.irrefl (h : g.Built) : ¬ g.Adj x x := by
  intro hadj
  induction h with
  | empty => exact adj_empty hadj
  | addNode _ t ih => exact ih (adj_addNode.mp hadj)
  | addEdge _ a b ih =>
      rcases adj_addEdge.mp hadj with hold | ⟨hne, -⟩
      · exact ih hold
      · exact hne rfl

/-- What has a neighbour is a node. -/
theorem mem_of_adj (h : g.Adj x y) : x ∈ g.neighbours := by
  refine Decidable.byContradiction fun hnot => ?_
  rw [Adj, Std.ExtTreeMap.getD_eq_fallback hnot] at h
  exact Std.ExtTreeSet.not_mem_empty h

-- ── All of them ──────────────────────────────────────────────────────────────

theorem built_addNodes (h : g.Built) (ts : List Temp) : (ts.foldl addNode g).Built := by
  induction ts generalizing g with
  | nil => exact h
  | cons t ts ih => exact ih (h.addNode t)

theorem built_addEdges (h : g.Built) (es : List (Temp × Temp)) :
    (es.foldl (fun g (a, b) => g.addEdge a b) g).Built := by
  induction es generalizing g with
  | nil => exact h
  | cons e es ih => exact ih (h.addEdge e.1 e.2)

/-- Adding nodes adds no edge. -/
theorem adj_addNodes (ts : List Temp) (g : Interference) :
    (ts.foldl addNode g).Adj x y ↔ g.Adj x y := by
  induction ts generalizing g with
  | nil => rfl
  | cons t ts ih => rw [List.foldl_cons, ih, adj_addNode]

/-- Adding nodes adds just these. -/
theorem mem_addNodes (ts : List Temp) (g : Interference) :
    x ∈ (ts.foldl addNode g).neighbours ↔ x ∈ ts ∨ x ∈ g.neighbours := by
  induction ts generalizing g with
  | nil => simp
  | cons t ts ih =>
      rw [List.foldl_cons, ih, mem_addNode, List.mem_cons]
      constructor
      · rintro (h | h | h)
        · exact .inl (.inr h)
        · exact .inl (.inl h)
        · exact .inr h
      · rintro ((h | h) | h)
        · exact .inr (.inl h)
        · exact .inl h
        · exact .inr (.inr h)

/-- Adding edges joins the ends of each, if they differ, and no others. -/
theorem adj_addEdges (es : List (Temp × Temp)) (g : Interference) :
    (es.foldl (fun g (a, b) => g.addEdge a b) g).Adj x y ↔
      g.Adj x y ∨ x ≠ y ∧ ((x, y) ∈ es ∨ (y, x) ∈ es) := by
  induction es generalizing g with
  | nil => simp
  | cons e es ih =>
      rw [List.foldl_cons, ih, adj_addEdge, List.mem_cons, List.mem_cons]
      constructor
      · rintro ((h | ⟨hne, h | h⟩) | ⟨hne, h | h⟩)
        · exact .inl h
        · exact .inr ⟨hne, .inl (.inl h)⟩
        · exact .inr ⟨hne, .inr (.inl h)⟩
        · exact .inr ⟨hne, .inl (.inr h)⟩
        · exact .inr ⟨hne, .inr (.inr h)⟩
      · rintro (h | ⟨hne, (h | h) | (h | h)⟩)
        · exact .inl (.inl h)
        · exact .inl (.inr ⟨hne, .inl h⟩)
        · exact .inr ⟨hne, .inl h⟩
        · exact .inl (.inr ⟨hne, .inr h⟩)
        · exact .inr ⟨hne, .inr h⟩

/-- The ends of added edges become nodes, if they differ. -/
theorem mem_addEdges (es : List (Temp × Temp)) (g : Interference) :
    x ∈ (es.foldl (fun g (a, b) => g.addEdge a b) g).neighbours ↔
      x ∈ g.neighbours ∨ ∃ e ∈ es, e.1 ≠ e.2 ∧ (x = e.1 ∨ x = e.2) := by
  induction es generalizing g with
  | nil => simp
  | cons e es ih =>
      rw [List.foldl_cons, ih, mem_addEdge, or_assoc]
      simp only [List.mem_cons, exists_eq_or_imp]

/-- The graph of a function: first its nodes, then its edges. -/
theorem compute_eq (instrs : List Instr) (sets : LiveSets) :
    compute instrs sets =
      ((instrs.zip sets.toList).flatMap fun row => edgesAt row.1 row.2).foldl
        (fun g (a, b) => g.addEdge a b)
        (((instrs.zip sets.toList).flatMap fun row => mentioned row.1 row.2).foldl addNode {}) := by
  rw [List.foldl_flatMap, List.foldl_flatMap]
  rfl

/-- The graph of a function is made by adding nodes and edges. -/
theorem built_compute (instrs : List Instr) (sets : LiveSets) : (compute instrs sets).Built := by
  rw [compute_eq]
  exact built_addEdges (built_addNodes .empty _) _

/-- Temporaries are neighbours exactly if they differ and some instruction has an edge between
    them. -/
theorem adj_compute_iff {instrs : List Instr} {sets : LiveSets} :
    (compute instrs sets).Adj x y ↔
      x ≠ y ∧ ∃ row ∈ instrs.zip sets.toList,
        (x, y) ∈ edgesAt row.1 row.2 ∨ (y, x) ∈ edgesAt row.1 row.2 := by
  rw [compute_eq, adj_addEdges, adj_addNodes, List.mem_flatMap, List.mem_flatMap]
  constructor
  · rintro (h | ⟨hne, ⟨row, hrow, h⟩ | ⟨row, hrow, h⟩⟩)
    · exact absurd h adj_empty
    · exact ⟨hne, row, hrow, .inl h⟩
    · exact ⟨hne, row, hrow, .inr h⟩
  · rintro ⟨hne, row, hrow, h | h⟩
    · exact .inr ⟨hne, .inl ⟨row, hrow, h⟩⟩
    · exact .inr ⟨hne, .inr ⟨row, hrow, h⟩⟩

/-- Neighbours in the graph of a function are neighbours of each other. -/
theorem adj_compute_symm {instrs : List Instr} {sets : LiveSets}
    (h : (compute instrs sets).Adj x y) : (compute instrs sets).Adj y x := by
  obtain ⟨hne, row, hrow, h⟩ := adj_compute_iff.mp h
  exact adj_compute_iff.mpr ⟨hne.symm, row, hrow, h.symm⟩

-- ── What an instruction adds ─────────────────────────────────────────────────

/-- Pairs are made of members of the list. -/
theorem mem_of_mem_pairs {ts : List Temp} (h : (a, b) ∈ pairs ts) : a ∈ ts ∧ b ∈ ts := by
  induction ts with
  | nil => cases h
  | cons t ts ih =>
      rw [pairs, List.mem_append] at h
      rcases h with h | h
      · obtain ⟨u, hu, heq⟩ := List.mem_map.mp h
        obtain ⟨rfl, rfl⟩ := Prod.mk.inj heq
        exact ⟨List.mem_cons_self, List.mem_cons_of_mem _ hu⟩
      · obtain ⟨ha, hb⟩ := ih h
        exact ⟨List.mem_cons_of_mem _ ha, List.mem_cons_of_mem _ hb⟩

/-- Every two different members of a list make a pair, one way round or the other. -/
theorem mem_pairs_of_mem {ts : List Temp} (hne : a ≠ b) (ha : a ∈ ts) (hb : b ∈ ts) :
    (a, b) ∈ pairs ts ∨ (b, a) ∈ pairs ts := by
  induction ts with
  | nil => cases ha
  | cons t ts ih =>
      rw [pairs, List.mem_append, List.mem_append]
      rcases List.mem_cons.mp ha with rfl | ha'
      · rcases List.mem_cons.mp hb with rfl | hb'
        · exact absurd rfl hne
        · exact .inl (.inl (List.mem_map.mpr ⟨b, hb', rfl⟩))
      · rcases List.mem_cons.mp hb with rfl | hb'
        · exact .inr (.inl (List.mem_map.mpr ⟨a, ha', rfl⟩))
        · exact (ih ha' hb').imp .inr .inr

/-- The edges of an instruction join what is live together before it or behind it, and what it
    writes with what is live behind it or written as well. -/
theorem mem_edgesAt {i : Instr} {live : Live} :
    (a, b) ∈ edgesAt i live ↔ (a, b) ∈ pairs live.liveIn.toList ∨
      (a, b) ∈ pairs live.liveOut.toList ∨ a ∈ i.defs ∧ (b ∈ live.liveOut ∨ b ∈ i.defs) := by
  rw [edgesAt, List.mem_append, List.mem_append, or_assoc, List.mem_flatMap]
  refine or_congr_right (or_congr_right ?_)
  constructor
  · rintro ⟨d, hd, h⟩
    obtain ⟨u, hu, heq⟩ := List.mem_map.mp h
    obtain ⟨rfl, rfl⟩ := Prod.mk.inj heq
    exact ⟨hd, (List.mem_append.mp hu).imp_left Std.ExtTreeSet.mem_toList.mp⟩
  · rintro ⟨ha, hb⟩
    refine ⟨a, ha, List.mem_map.mpr ⟨b, List.mem_append.mpr ?_, rfl⟩⟩
    exact hb.imp_left Std.ExtTreeSet.mem_toList.mpr

theorem mem_mentioned {i : Instr} {live : Live} :
    t ∈ mentioned i live ↔
      t ∈ i.uses ∨ t ∈ i.defs ∨ t ∈ live.liveIn ∨ t ∈ live.liveOut := by
  simp only [mentioned, List.mem_append, Std.ExtTreeSet.mem_toList, or_assoc]

/-- Both ends of an edge are mentioned at the instruction. -/
theorem mentioned_of_mem_edgesAt {i : Instr} {live : Live} (h : (a, b) ∈ edgesAt i live) :
    a ∈ mentioned i live ∧ b ∈ mentioned i live := by
  rw [mem_mentioned, mem_mentioned]
  rcases mem_edgesAt.mp h with h | h | ⟨ha, hb⟩
  · obtain ⟨ha, hb⟩ := mem_of_mem_pairs h
    exact ⟨.inr (.inr (.inl (Std.ExtTreeSet.mem_toList.mp ha))),
      .inr (.inr (.inl (Std.ExtTreeSet.mem_toList.mp hb)))⟩
  · obtain ⟨ha, hb⟩ := mem_of_mem_pairs h
    exact ⟨.inr (.inr (.inr (Std.ExtTreeSet.mem_toList.mp ha))),
      .inr (.inr (.inr (Std.ExtTreeSet.mem_toList.mp hb)))⟩
  · refine ⟨.inr (.inl ha), ?_⟩
    rcases hb with hb | hb
    · exact .inr (.inr (.inr hb))
    · exact .inr (.inl hb)

/-- The nodes are what instructions and their live sets mention; an edge adds no others. -/
theorem mem_compute_iff {instrs : List Instr} {sets : LiveSets} :
    t ∈ (compute instrs sets).neighbours ↔
      ∃ row ∈ instrs.zip sets.toList, t ∈ mentioned row.1 row.2 := by
  rw [compute_eq, mem_addEdges, mem_addNodes, List.mem_flatMap]
  constructor
  · rintro ((h | h) | ⟨e, he, -, ht⟩)
    · exact h
    · exact absurd h Std.ExtTreeMap.not_mem_empty
    · obtain ⟨row, hrow, hmem⟩ := List.mem_flatMap.mp he
      obtain ⟨ha, hb⟩ := mentioned_of_mem_edgesAt hmem
      rcases ht with rfl | rfl
      · exact ⟨row, hrow, ha⟩
      · exact ⟨row, hrow, hb⟩
  · intro h
    exact .inl (.inl h)

/-- What an instruction writes interferes with everything else that is live behind it. -/
theorem adj_of_def_of_liveOut {instrs : List Instr} {sets : LiveSets} {instr : Instr} {live : Live}
    (hrow : (instr, live) ∈ instrs.zip sets.toList) (hdef : a ∈ instr.defs)
    (hlive : b ∈ live.liveOut) (hne : a ≠ b) : (compute instrs sets).Adj a b := by
  refine adj_compute_iff.mpr ⟨hne, (instr, live), hrow, .inl ?_⟩
  refine List.mem_append_right _ (List.mem_flatMap.mpr ⟨a, hdef, ?_⟩)
  exact List.mem_map.mpr ⟨b, List.mem_append_left _ (Std.ExtTreeSet.mem_toList.mpr hlive), rfl⟩

end Interference

end MmixBackend
