import MmixBackend.Proofs.OptimisticColoring

/-!
# Colour graphs under calls in any order

Colouring takes all nodes and then puts them back. The operations it is made of can be called in any
other order too: a node can be taken twice, put back while it is still to be taken, or put back
again, and a node that has its register from the start can be taken. Whatever the order, the graph
stays the interference graph that it was made from, the degrees of the nodes still to be taken count
their neighbours still to be taken, and neighbours have different registers.

A node that was taken, or never was to be taken, need not know its neighbours: its own set goes
stale. Only the nodes still to be taken are in the invariant.

* **`Tracks.take_of_not_mem`** — taking a node that is not to be taken changes no degree that
  counts.
* **`Consistent.take`**, **`Consistent.assign`** — the two changes there are.
* **`Consistent.perform`**, **`Consistent.run`** — one call, and all of them.
* **`calls_keep_graph_consistent`** — graphs made from interference.
-/

namespace MmixBackend

namespace ColorGraph

variable {g g' : ColorGraph} {t u : Temp} {r : Nat} {i : Interference} {k : Nat}
  {pre : TempMap Nat}

-- ── Neighbours still to be taken ─────────────────────────────────────────────

/-- A node that is not to be taken is in no set of neighbours that counts. So taking it changes
    none, whatever its own set has become. -/
theorem Tracks.take_of_not_mem (h : g.Tracks) (ht : t ∉ g.active) : (g.take t).Tracks := by
  refine ⟨?_, ?_⟩
  · intro a b
    rw [nbrs_take, nbrs_take]
    exact h.symm a b
  · intro u hu v
    rw [active_take, Std.ExtTreeSet.mem_erase] at hu
    have hut : u ≠ t := fun heq => ht (heq ▸ hu.2)
    rw [mem_leftAt_take hut, h.left u hu.2, nbrs_take, active_take, Std.ExtTreeSet.mem_erase]
    constructor
    · rintro ⟨⟨hnbr, hv⟩, -⟩
      exact ⟨hnbr, fun hcmp => ht (Std.LawfulEqCmp.eq_of_compare hcmp ▸ hv), hv⟩
    · rintro ⟨hnbr, -, hv⟩
      exact ⟨⟨hnbr, hv⟩, fun heq => ht (heq.1 ▸ hv)⟩

/-- Assigning a register does not change which neighbours are counted. -/
theorem leftAt_assign (g : ColorGraph) (t u : Temp) (r : Nat) :
    leftAt (g.assign t r).nodes u = leftAt g.nodes u := by
  rw [leftAt, leftAt, assign, Std.ExtTreeMap.getElem?_modify]
  split
  · next hcmp =>
    obtain rfl : t = u := Std.LawfulEqCmp.eq_of_compare hcmp
    rw [Option.map_map]
    rfl
  · rfl

theorem Tracks.assign (h : g.Tracks) (t : Temp) (r : Nat) : (g.assign t r).Tracks := by
  refine ⟨?_, ?_⟩
  · intro a b
    rw [nbrs_assign, nbrs_assign]
    exact h.symm a b
  · intro u hu v
    rw [leftAt_assign, nbrs_assign]
    exact h.left u hu v

/-- A node to be taken counts just those neighbours that are to be taken. -/
theorem Tracks.leftAt_eq (h : g.Tracks) (ht : t ∈ g.active) :
    leftAt g.nodes t = g.nbrs t ∩ g.active := by
  refine Std.ExtTreeSet.ext_mem fun u => ?_
  rw [h.left t ht u, Std.ExtTreeSet.mem_inter_iff]

-- ── Consistent graphs ────────────────────────────────────────────────────────

/-- The graph was made from the interference graph, for `k` colours and with the registers of `pre`,
    and is being coloured. -/
structure Consistent (i : Interference) (k : Nat) (pre : TempMap Nat) (g : ColorGraph) : Prop
    extends Sound g, Tracks g where
  colors : g.colors = k
  /-- The neighbours are those of the interference graph. -/
  neighbours : ∀ t : Temp, g.nodes[t]?.map Node.colorNbrs = i.neighbours[t]?
  /-- Only nodes are neighbours. -/
  closed : ∀ t, ∀ u ∈ g.nbrs t, u ∈ g.nodes
  /-- Only nodes that have no register from the start are to be taken. -/
  active : ∀ t ∈ g.active, t ∈ g.nodes ∧ t ∉ pre
  registers : ∀ t r, g.register? t = some r → r < k ∨ pre[t]? = some r

theorem map_look (g : ColorGraph) (t : Temp) :
    (g.look t).map (·.1) = g.nodes[t]?.map Node.colorNbrs := by
  rw [look, Option.map_map]
  rfl

/-- A graph is consistent with the interference graph it is made from. -/
theorem consistent_ofInterference (hi : i.Built)
    (hpre : ∀ a b, i.Adj a b → ∀ r, pre[a]? = some r → pre[b]? ≠ some r) :
    (ofInterference i k pre).Consistent i k pre where
  toSound := sound_ofInterference (fun _ _ => hi.symm) (fun _ => hi.irrefl) hpre
  left := (tracks_ofInterference fun _ _ => hi.symm).left
  colors := rfl
  neighbours := by
    intro t
    rw [← map_look, look_ofInterference, Option.map_map]
    exact Option.map_id'
  closed := by
    intro t u hu
    exact mem_nodes_ofInterference.mpr
      (Interference.mem_of_adj (hi.symm (mem_nbrs_ofInterference.mp hu)))
  active := by
    intro t ht
    obtain ⟨hnode, hnot⟩ := mem_active_ofInterference.mp ht
    exact ⟨mem_nodes_ofInterference.mpr hnode, hnot⟩
  registers := fun _ _ h => .inr (register?_ofInterference h)

namespace Consistent

theorem mem_nodes_iff (h : g.Consistent i k pre) : t ∈ g.nodes ↔ t ∈ i.neighbours := by
  rw [Std.ExtTreeMap.mem_iff_isSome_getElem?, Std.ExtTreeMap.mem_iff_isSome_getElem?,
    ← h.neighbours, Option.isSome_map]

/-- What does not look at the neighbours still to be taken stays as long as colouring sees the same
    of each node. -/
theorem of_look (h : g.Consistent i k pre) (hlook : ∀ t, g'.look t = g.look t)
    (htracks : g'.Tracks) (hcolors : g'.colors = g.colors)
    (hactive : ∀ t ∈ g'.active, t ∈ g.active) : g'.Consistent i k pre where
  toSound := h.toSound.of_look hlook
  left := htracks.left
  colors := hcolors.trans h.colors
  neighbours := by
    intro t
    rw [← map_look, hlook, map_look, h.neighbours]
  closed := by
    intro t u hu
    rw [nbrs, hlook] at hu
    rw [ColorGraph.mem_nodes_iff, hlook, ← ColorGraph.mem_nodes_iff]
    exact h.closed t u hu
  active := by
    intro t ht
    rw [ColorGraph.mem_nodes_iff, hlook, ← ColorGraph.mem_nodes_iff]
    exact h.active t (hactive t ht)
  registers := by
    intro t r hr
    rw [register?, hlook] at hr
    exact h.registers t r hr

/-- Taking a node, whether or not it is still to be taken. -/
theorem take (h : g.Consistent i k pre) (t : Temp) : (g.take t).Consistent i k pre := by
  refine h.of_look (look_take g t) ?_ (colors_take g t) ?_
  · by_cases ht : t ∈ g.active
    · exact h.toTracks.take ht
    · exact h.toTracks.take_of_not_mem ht
  · intro u hu
    rw [active_take] at hu
    exact Std.ExtTreeSet.mem_of_mem_erase hu

/-- Giving a node a register that no neighbour has, whether or not it had one before. -/
theorem assign (h : g.Consistent i k pre) (hfree : g.freeRegister? t = some r) :
    (g.assign t r).Consistent i k pre where
  toSound := h.toSound.assign hfree
  left := (h.toTracks.assign t r).left
  colors := h.colors
  neighbours := by
    intro u
    rw [← h.neighbours u, ← map_look, ← map_look, look_assign]
    split
    · rw [Option.map_map]
      rfl
    · rfl
  closed := by
    intro u v hv
    rw [nbrs_assign] at hv
    exact mem_nodes_assign.mpr (h.closed u v hv)
  active := by
    intro u hu
    obtain ⟨hnode, hnot⟩ := h.active u hu
    exact ⟨mem_nodes_assign.mpr hnode, hnot⟩
  registers := by
    intro u q hq
    by_cases htu : t = u
    · obtain rfl := htu
      have hnode : t ∈ g.nodes := mem_nodes_assign.mp (mem_nodes_of_register? hq)
      rw [register?_assign_self hnode] at hq
      obtain rfl := Option.some.inj hq
      exact .inl (h.colors ▸ freeRegister?_lt hfree)
    · rw [register?_assign_of_ne htu] at hq
      exact h.registers u q hq

/-- Taking an easy node keeps a graph consistent. -/
theorem takeEasy (h : g.Consistent i k pre) : g.takeEasy.2.Consistent i k pre := by
  rw [ColorGraph.takeEasy]
  split
  · exact h.take _
  · exact h

/-- So does taking the riskiest one. -/
theorem takeRiskiest (h : g.Consistent i k pre) (spans : TempMap Nat) (spillTemps : TempSet) :
    (g.takeRiskiest spans spillTemps).2.Consistent i k pre := by
  rw [ColorGraph.takeRiskiest]
  split
  · exact h.take _
  · exact h

/-- So does putting back a node. -/
theorem selectOnce (h : g.Consistent i k pre) (t : Temp) :
    (g.selectOnce t).2.Consistent i k pre := by
  rw [ColorGraph.selectOnce]
  split
  · next r hr => exact h.assign hr
  · exact h

end Consistent

-- ── Calls ────────────────────────────────────────────────────────────────────

/-- A call of one of the operations that change a graph. -/
inductive Call where
  | take (t : Temp)
  | takeEasy
  | takeRiskiest (spans : TempMap Nat) (spillTemps : TempSet)
  | select (t : Temp)

namespace Call

/-- The temporaries that the caller names. -/
def args : Call → List Temp
  | .take t | .select t => [t]
  | .takeEasy | .takeRiskiest _ _ => []

/-- The temporaries that are looked up in the graph. -/
def lookups (g : ColorGraph) : Call → List Temp
  | .take t => [t]
  | .takeEasy | .takeRiskiest _ _ => g.active.toList
  | .select t => t :: (g.nbrs t).toList

/-- The graph after the call. -/
def result (g : ColorGraph) : Call → ColorGraph
  | .take t => g.take t
  | .takeEasy => g.takeEasy.2
  | .takeRiskiest spans spillTemps => (g.takeRiskiest spans spillTemps).2
  | .select t => (g.selectOnce t).2

/-- The call, which fails if a temporary that it looks up is unknown. -/
def perform (g : ColorGraph) (c : Call) : Except Fault ColorGraph := do
  (c.lookups g).forM g.known
  return c.result g

end Call

theorem known_of_mem (h : t ∈ g.nodes) : g.known t = .ok () := if_pos h

/-- Looking up nodes does not fail. -/
theorem forM_known {ts : List Temp} (h : ∀ t ∈ ts, t ∈ g.nodes) : ts.forM g.known = .ok () := by
  induction ts with
  | nil => rfl
  | cons t ts ih =>
      show (g.known t >>= fun _ => ts.forM g.known) = _
      rw [known_of_mem (h t List.mem_cons_self)]
      exact ih fun u hu => h u (List.mem_cons_of_mem _ hu)

namespace Consistent

/-- A call that names known temporaries looks up known temporaries only. -/
theorem mem_nodes_of_mem_lookups (h : g.Consistent i k pre) {c : Call}
    (hc : ∀ t ∈ c.args, t ∈ i.neighbours) (ht : t ∈ c.lookups g) : t ∈ g.nodes := by
  have hactive : t ∈ g.active.toList → t ∈ g.nodes := fun ht =>
    (h.active t (Std.ExtTreeSet.mem_toList.mp ht)).1
  cases c with
  | take u => exact h.mem_nodes_iff.mpr (hc t ht)
  | takeEasy => exact hactive ht
  | takeRiskiest spans spillTemps => exact hactive ht
  | select u =>
      rcases List.mem_cons.mp ht with rfl | ht
      · exact h.mem_nodes_iff.mpr (hc t List.mem_cons_self)
      · exact h.closed u t (Std.ExtTreeSet.mem_toList.mp ht)

/-- A call that names known temporaries succeeds and keeps the graph consistent. -/
theorem perform (h : g.Consistent i k pre) {c : Call} (hc : ∀ t ∈ c.args, t ∈ i.neighbours) :
    ∃ g', c.perform g = .ok g' ∧ g'.Consistent i k pre := by
  refine ⟨c.result g, ?_, ?_⟩
  · rw [Call.perform, forM_known fun t ht => h.mem_nodes_of_mem_lookups hc ht]
    rfl
  · cases c with
    | take t => exact h.take t
    | takeEasy => exact h.takeEasy
    | takeRiskiest spans spillTemps => exact h.takeRiskiest spans spillTemps
    | select t => exact h.selectOnce t

/-- So do calls one after the other. By induction on the calls. -/
theorem run (h : g.Consistent i k pre) {calls : List Call}
    (hcalls : ∀ c ∈ calls, ∀ t ∈ c.args, t ∈ i.neighbours) :
    ∃ g', calls.foldlM Call.perform g = .ok g' ∧ g'.Consistent i k pre := by
  induction calls generalizing g with
  | nil => exact ⟨g, rfl, h⟩
  | cons c calls ih =>
      obtain ⟨g₁, hstep, h₁⟩ := h.perform (hcalls c List.mem_cons_self)
      obtain ⟨g', hrun, h'⟩ := ih h₁ fun c hc => hcalls c (List.mem_cons_of_mem _ hc)
      refine ⟨g', ?_, h'⟩
      rw [List.foldlM_cons, hstep]
      exact hrun

end Consistent

/-- **Graphs stay consistent.** Take any interference graph, any number of colours and any registers
    for some nodes from the start that differ between neighbours. Calls that name nodes only never
    fail, in any order and number: they look up no unknown temporary, be it as a neighbour. After
    them the neighbours are those of the interference graph, symmetric, irreflexive, and all of them
    nodes. A node still to be taken has no register from the start, it knows exactly those of its
    neighbours that are still to be taken, and its degree counts them. Neighbours have different
    registers, and a register that is not there from the start is one of the colours. -/
theorem calls_keep_graph_consistent (hi : i.Built) (k : Nat) (pre : TempMap Nat)
    (hpre : ∀ a b, i.Adj a b → ∀ r, pre[a]? = some r → pre[b]? ≠ some r) (calls : List Call)
    (hcalls : ∀ c ∈ calls, ∀ t ∈ c.args, t ∈ i.neighbours) :
    ∃ g, calls.foldlM Call.perform (ofInterference i k pre) = .ok g ∧
      g.Consistent i k pre ∧
      (∀ t, ∀ u ∈ g.nbrs t, g.known u = .ok ()) ∧
      (∀ t ∈ g.active, leftAt g.nodes t = g.nbrs t ∩ g.active ∧
        g.degree t = (g.nbrs t ∩ g.active).size) ∧
      (∀ t r, (g.selectOnce t).1 = some r → r < k) := by
  obtain ⟨g, hrun, h⟩ := (consistent_ofInterference hi hpre).run hcalls
  refine ⟨g, hrun, h, ?_, ?_, ?_⟩
  · intro t u hu
    exact known_of_mem (h.closed t u hu)
  · intro t ht
    have hleft := h.toTracks.leftAt_eq ht
    exact ⟨hleft, by rw [degree_eq, hleft]⟩
  · intro t r hr
    rw [fst_selectOnce] at hr
    exact h.colors ▸ freeRegister?_lt hr

/-- Two words next to the frame pointer are added up. -/
def sumOfLocals : Code where
  frame := ⟨.named "f", 1, 16, 0, ⟨0⟩, ⟨1⟩⟩
  entry := .named "f"
  exit := .named "exit"
  instrs := [.plain .load [⟨1⟩] [⟨2⟩], .plain .load [⟨1⟩] [⟨3⟩],
    .plain (.alu .add) [⟨2⟩, ⟨3⟩] [⟨0⟩], .jump (.named "exit")]

/-- A node with a register from the start is taken, one node is taken twice and one is put back
    twice, before and after it is taken. -/
def mixedCalls : List Call :=
  [.take ⟨1⟩, .select ⟨3⟩, .takeEasy, .take ⟨2⟩, .take ⟨2⟩, .select ⟨2⟩, .takeRiskiest ∅ ∅,
    .select ⟨3⟩]

/-- All eight calls succeed. The two words get different registers, and no further call gives a
    third one. -/
theorem calls_keep_graph_consistent_mixed :
    ∃ g, mixedCalls.foldlM Call.perform
        (ofInterference sumOfLocals.interference 2 (Attempt.precolored sumOfLocals)) = .ok g ∧
      g.register? ⟨2⟩ = some 1 ∧ g.register? ⟨3⟩ = some 0 ∧
      ∀ t r, (g.selectOnce t).1 = some r → r < 2 := by
  have hbuilt : sumOfLocals.interference.Built := Interference.built_compute _ _
  have hpre : ∀ a b, sumOfLocals.interference.Adj a b → ∀ r,
      (Attempt.precolored sumOfLocals)[a]? = some r →
      (Attempt.precolored sumOfLocals)[b]? ≠ some r := by
    intro a b hadj r ha hb
    rw [Attempt.getElem?_precolored] at ha hb
    split at ha
    · next hpa =>
      split at hb
      · next hpb => exact hbuilt.irrefl (hpa.symm.trans hpb ▸ hadj)
      · cases hb
    · cases ha
  obtain ⟨g, hrun, -, -, -, hgiven⟩ := calls_keep_graph_consistent hbuilt 2
    (Attempt.precolored sumOfLocals) hpre mixedCalls (by decide +kernel)
  have hregisters : (mixedCalls.foldlM Call.perform
      (ofInterference sumOfLocals.interference 2 (Attempt.precolored sumOfLocals))).map
        (fun g => (g.register? ⟨2⟩, g.register? ⟨3⟩)) = .ok (some 1, some 0) := by decide +kernel
  rw [hrun] at hregisters
  obtain ⟨h₂, h₃⟩ := Prod.mk.inj (Except.ok.inj hregisters)
  exact ⟨g, hrun, h₂, h₃, hgiven⟩

end ColorGraph

end MmixBackend
