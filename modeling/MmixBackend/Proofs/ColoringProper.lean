import MmixBackend.Allocate
import MmixBackend.Proofs.InterferenceEdges

/-!
# Neighbours get different registers

Taking nodes off the graph changes neither who is a neighbour of whom nor who has a register.
Putting them back gives each one a register that no neighbour has. So a colouring that does not get
stuck leaves every node with a register of its own among its neighbours.

* **`firstGap_not_mem`** — the register that is tried is not in the list of those in use.
* **`look_simplify`** — simplifying keeps what colouring sees of each node.
* **`Sound.assign`**, **`Sound.selectAll`** — one node put back, and all of them.
* **`Attempt.proper_assignments`** — neighbours in the interference graph of a function get
  different registers, and **`Attempt.mem_assignments`** — every node gets one.
-/

namespace MmixBackend

namespace ColorGraph

variable {g g' : ColorGraph} {t u a b : Temp} {r : Nat}

-- ── What colouring sees of a node ────────────────────────────────────────────

/-- The part of a node that taking nodes does not change. -/
def Node.fixed (node : Node) : TempSet × Option Nat := (node.colorNbrs, node.register)

/-- What colouring sees of a node: its neighbours and its register. -/
def look (g : ColorGraph) (t : Temp) : Option (TempSet × Option Nat) := g.nodes[t]?.map Node.fixed

/-- The register of a node, if it has one. -/
def register? (g : ColorGraph) (t : Temp) : Option Nat := (g.look t).bind (·.2)

/-- All neighbours of a node. -/
def nbrs (g : ColorGraph) (t : Temp) : TempSet := ((g.look t).map (·.1)).getD ∅

/-- Colouring sees something of exactly the nodes. -/
theorem mem_nodes_iff : t ∈ g.nodes ↔ (g.look t).isSome = true := by
  rw [look, Option.isSome_map, Std.ExtTreeMap.mem_iff_isSome_getElem?]

theorem bind_register (g : ColorGraph) (t : Temp) :
    g.nodes[t]?.bind (·.register) = g.register? t := by
  rw [register?, look]
  cases g.nodes[t]? with
  | none => rfl
  | some node => rfl

/-- The assignments are the registers of the nodes. -/
theorem getElem?_assignments (g : ColorGraph) (t : Temp) :
    g.assignments[t]? = g.register? t := by
  rw [assignments, Std.ExtTreeMap.getElem?_filterMap', bind_register]

-- ── Taking nodes ─────────────────────────────────────────────────────────────

theorem fixed_forgetAll (ts : List Temp) (nodes : TempMap Node) :
    (ts.foldl (fun nodes nbr => nodes.modify nbr (Node.forget t)) nodes)[u]?.map Node.fixed =
      nodes[u]?.map Node.fixed := by
  induction ts generalizing nodes with
  | nil => rfl
  | cons v ts ih =>
      rw [List.foldl_cons, ih, Std.ExtTreeMap.getElem?_modify]
      split
      · next hcmp =>
        obtain rfl : v = u := Std.LawfulEqCmp.eq_of_compare hcmp
        rw [Option.map_map]
        rfl
      · rfl

/-- Taking a node does not change what colouring sees. -/
theorem look_take (g : ColorGraph) (t u : Temp) : (g.take t).look u = g.look u := by
  rw [look, take]
  split
  · rfl
  · next node hnode =>
    show (node.degreeNbrs.foldl _ _)[u]?.map Node.fixed = _
    rw [Std.ExtTreeSet.foldl_eq_foldl_toList, fixed_forgetAll, Std.ExtTreeMap.getElem?_insert]
    split
    · next hcmp =>
      obtain rfl : t = u := Std.LawfulEqCmp.eq_of_compare hcmp
      rw [look, hnode]
      rfl
    · rfl

/-- Simplification does not change what colouring sees. -/
theorem look_simplify (g : ColorGraph) (spans : TempMap Nat) (spillTemps : TempSet) (u : Temp) :
    (g.simplify spans spillTemps).2.look u = g.look u := by
  fun_induction simplify g spans spillTemps with
  | case1 g t _ _ picks rest heq ih =>
      rw [heq] at ih
      exact ih.trans (look_take g t u)
  | case2 g _ t _ _ picks rest heq ih =>
      rw [heq] at ih
      exact ih.trans (look_take g t u)
  | case3 g _ _ => rfl

theorem riskiestOf_eq_none {risk : Temp → Risk} {ts : List Temp}
    (h : riskiestOf risk ts = none) : ts = [] := by
  cases ts with
  | nil => rfl
  | cons t ts =>
      rw [riskiestOf] at h
      split at h
      · cases h
      · split at h <;> cases h

/-- Taking a node leaves the others to be taken. -/
theorem mem_active_take (hne : u ≠ t) (h : t ∈ g.active) : t ∈ (g.take u).active := by
  rw [active_take]
  exact Std.ExtTreeSet.mem_erase.mpr ⟨fun hcmp => hne (Std.LawfulEqCmp.eq_of_compare hcmp), h⟩

/-- All nodes that are to be taken are taken. -/
theorem mem_simplify_of_mem_active {spans : TempMap Nat} {spillTemps : TempSet}
    (h : t ∈ g.active) : ∃ p ∈ (g.simplify spans spillTemps).1, p.temp = t := by
  fun_induction simplify g spans spillTemps with
  | case1 g v hv _ picks rest heq ih =>
      rw [heq] at ih
      by_cases htv : v = t
      · exact ⟨.easy v, List.mem_cons_self, htv⟩
      · obtain ⟨p, hp, hpt⟩ := ih (mem_active_take htv h)
        exact ⟨p, List.mem_cons_of_mem _ hp, hpt⟩
  | case2 g _ v hv _ picks rest heq ih =>
      rw [heq] at ih
      by_cases htv : v = t
      · exact ⟨.risky v (g.degree v) spans[v]?, List.mem_cons_self, htv⟩
      · obtain ⟨p, hp, hpt⟩ := ih (mem_active_take htv h)
        exact ⟨p, List.mem_cons_of_mem _ hp, hpt⟩
  | case3 g _ hnone =>
      have hmem := Std.ExtTreeSet.mem_toList.mpr h
      rw [riskiestOf_eq_none hnone] at hmem
      cases hmem

-- ── A register that no neighbour has ─────────────────────────────────────────

theorem le_firstGap (r : Nat) (l : List Nat) : r ≤ firstGap r l := by
  induction l generalizing r with
  | nil => exact Nat.le_refl r
  | cons x l ih =>
      rw [firstGap]
      split
      · exact Nat.le_of_succ_le (ih (r + 1))
      · split
        · exact ih r
        · exact Nat.le_refl r

/-- The first gap of a sorted list is not in it. -/
theorem firstGap_not_mem {l : List Nat} (h : l.Pairwise (· < ·)) (r : Nat) : firstGap r l ∉ l := by
  induction l generalizing r with
  | nil => exact List.not_mem_nil
  | cons x l ih =>
      obtain ⟨hx, hl⟩ := List.pairwise_cons.mp h
      have hlt := le_firstGap (r + 1) l
      have hle := le_firstGap r l
      rw [firstGap, List.mem_cons, not_or]
      split
      · exact ⟨by omega, ih hl (r + 1)⟩
      · split
        · exact ⟨by omega, ih hl r⟩
        · refine ⟨by omega, fun hmem => ?_⟩
          have hlarger := hx r hmem
          omega

/-- The registers around a node are those of its neighbours. -/
theorem mem_registersAround :
    r ∈ g.registersAround t ↔ ∃ u ∈ g.nbrs t, g.register? u = some r := by
  rw [registersAround, nbrs, look]
  split
  · next hnone =>
    rw [hnone]
    simp
  · next node hnode =>
    rw [hnode, Std.ExtTreeSet.mem_ofList, List.contains_iff_mem, List.mem_filterMap]
    simp only [bind_register, Std.ExtTreeSet.mem_toList]
    rfl

/-- No neighbour has the register that is free for a node. -/
theorem register?_ne_of_freeRegister? (h : g.freeRegister? t = some r) (hu : u ∈ g.nbrs t) :
    g.register? u ≠ some r := by
  intro hr
  have hsorted : (g.registersAround t).toList.Pairwise (· < ·) := by
    refine Std.ExtTreeSet.ordered_toList.imp ?_
    intro x y hxy
    exact Nat.compare_eq_lt.mp hxy
  rw [freeRegister?] at h
  split at h
  · obtain rfl := Option.some.inj h
    refine firstGap_not_mem hsorted 0 ?_
    exact Std.ExtTreeSet.mem_toList.mpr (mem_registersAround.mpr ⟨u, hu, hr⟩)
  · cases h

/-- Assigning a register changes what colouring sees of this node only. -/
theorem look_assign (g : ColorGraph) (t u : Temp) (r : Nat) :
    (g.assign t r).look u =
      if t = u then (g.look u).map fun v => (v.1, some r) else g.look u := by
  rw [look, assign, Std.ExtTreeMap.getElem?_modify]
  by_cases htu : t = u
  · obtain rfl := htu
    rw [if_pos Std.ReflCmp.compare_self, if_pos rfl, look, Option.map_map, Option.map_map]
    rfl
  · rw [if_neg fun hcmp => htu (Std.LawfulEqCmp.eq_of_compare hcmp), if_neg htu]
    rfl

theorem nbrs_assign (g : ColorGraph) (t u : Temp) (r : Nat) :
    (g.assign t r).nbrs u = g.nbrs u := by
  rw [nbrs, look_assign]
  split
  · rw [Option.map_map]
    rfl
  · rfl

theorem register?_assign_self (h : t ∈ g.nodes) : (g.assign t r).register? t = some r := by
  obtain ⟨v, hv⟩ := Option.isSome_iff_exists.mp (mem_nodes_iff.mp h)
  rw [register?, look_assign, if_pos rfl, hv]
  rfl

theorem register?_assign_of_ne (h : t ≠ u) : (g.assign t r).register? u = g.register? u := by
  rw [register?, look_assign, if_neg h]
  rfl

/-- Only nodes have registers. -/
theorem mem_nodes_of_register? (h : g.register? t = some r) : t ∈ g.nodes := by
  rw [mem_nodes_iff]
  cases hlook : g.look t with
  | none =>
      rw [register?, hlook] at h
      cases h
  | some v => rfl

theorem mem_nodes_assign : u ∈ (g.assign t r).nodes ↔ u ∈ g.nodes := by
  rw [assign]
  exact Std.ExtTreeMap.mem_modify

-- ── Putting nodes back ───────────────────────────────────────────────────────

/-- Neighbourhood is symmetric, and no neighbours have the same register. -/
structure Sound (g : ColorGraph) : Prop where
  symm : ∀ a b, b ∈ g.nbrs a → a ∈ g.nbrs b
  irrefl : ∀ a, a ∉ g.nbrs a
  proper : ∀ a b, b ∈ g.nbrs a → ∀ r, g.register? a = some r → g.register? b ≠ some r

/-- Soundness depends only on what colouring sees. -/
theorem Sound.of_look (h : g.Sound) (hlook : ∀ t, g'.look t = g.look t) : g'.Sound := by
  have hnbrs : ∀ t, g'.nbrs t = g.nbrs t := by
    intro t
    rw [nbrs, nbrs, hlook]
  have hregister : ∀ t, g'.register? t = g.register? t := by
    intro t
    rw [register?, register?, hlook]
  refine ⟨?_, ?_, ?_⟩
  · intro a b
    rw [hnbrs, hnbrs]
    exact h.symm a b
  · intro a
    rw [hnbrs]
    exact h.irrefl a
  · intro a b
    rw [hnbrs, hregister, hregister]
    exact h.proper a b

/-- Assigning a free register is sound. -/
theorem Sound.assign (h : g.Sound) (hfree : g.freeRegister? t = some r) : (g.assign t r).Sound := by
  have hnew : ∀ u ∈ g.nbrs t, ∀ q, (g.assign t r).register? t = some q →
      (g.assign t r).register? u ≠ some q := by
    intro u hu q hq
    have hne : t ≠ u := fun heq => h.irrefl t (heq ▸ hu)
    have hnode : t ∈ g.nodes := mem_nodes_assign.mp (mem_nodes_of_register? hq)
    rw [register?_assign_self hnode] at hq
    rw [register?_assign_of_ne hne, ← hq]
    exact register?_ne_of_freeRegister? hfree hu
  refine ⟨?_, ?_, ?_⟩
  · intro a b
    rw [nbrs_assign, nbrs_assign]
    exact h.symm a b
  · intro a
    rw [nbrs_assign]
    exact h.irrefl a
  · intro a b hb q hq hq'
    rw [nbrs_assign] at hb
    by_cases hta : t = a
    · obtain rfl := hta
      exact hnew b hb q hq hq'
    · by_cases htb : t = b
      · obtain rfl := htb
        exact hnew a (h.symm a t hb) q hq' hq
      · rw [register?_assign_of_ne hta] at hq
        rw [register?_assign_of_ne htb] at hq'
        exact h.proper a b hb q hq hq'

/-- Putting back nodes, as many as can be, is sound. By induction on the list. -/
theorem Sound.selectAll (h : g.Sound) (ts : List Temp) : (g.selectAll ts).graph.Sound := by
  induction ts generalizing g with
  | nil => exact h
  | cons t ts ih =>
      rw [ColorGraph.selectAll]
      split
      · exact h
      · next r hr => exact ih (h.assign hr)

/-- Putting back nodes keeps all neighbours. -/
theorem nbrs_selectAll (g : ColorGraph) (ts : List Temp) (u : Temp) :
    (g.selectAll ts).graph.nbrs u = g.nbrs u := by
  induction ts generalizing g with
  | nil => rfl
  | cons t ts ih =>
      rw [ColorGraph.selectAll]
      split
      · rfl
      · next r hr => exact (ih (g.assign t r)).trans (nbrs_assign g t u r)

/-- If none is left without one, all that were put back have a register, and so do those that had
    one before. -/
theorem isSome_register?_selectAll {ts : List Temp} (hstuck : (g.selectAll ts).stuck = none)
    (hnode : t ∈ g.nodes) (h : t ∈ ts ∨ (g.register? t).isSome = true) :
    ((g.selectAll ts).graph.register? t).isSome = true := by
  induction ts generalizing g with
  | nil =>
      rcases h with h | h
      · cases h
      · exact h
  | cons u ts ih =>
      rw [ColorGraph.selectAll] at hstuck ⊢
      split at hstuck
      · cases hstuck
      · next r hr =>
        refine ih hstuck (mem_nodes_assign.mpr hnode) ?_
        by_cases hut : u = t
        · obtain rfl := hut
          rw [register?_assign_self hnode]
          exact .inr rfl
        · rw [register?_assign_of_ne hut]
          refine h.imp ?_ id
          intro hmem
          exact (List.mem_cons.mp hmem).resolve_left fun heq => hut heq.symm

-- ── The graph at the start ───────────────────────────────────────────────────

variable {i : Interference} {k : Nat} {pre : TempMap Nat}

/-- At first, colouring sees the neighbours in the interference graph and the registers given from
    the start. -/
theorem look_ofInterference (i : Interference) (k : Nat) (pre : TempMap Nat) (t : Temp) :
    (ofInterference i k pre).look t = i.neighbours[t]?.map fun nbrs => (nbrs, pre[t]?) := by
  rw [look, ofInterference, Std.ExtTreeMap.getElem?_map, Option.map_map]
  rfl

/-- The neighbours are those of the interference graph. -/
theorem mem_nbrs_ofInterference : b ∈ (ofInterference i k pre).nbrs a ↔ i.Adj a b := by
  rw [nbrs, look_ofInterference, Interference.Adj, Option.map_map,
    Std.ExtTreeMap.getD_eq_getD_getElem?]
  cases i.neighbours[a]? with
  | none => rfl
  | some nbrs => rfl

theorem register?_ofInterference (h : (ofInterference i k pre).register? t = some r) :
    pre[t]? = some r := by
  rw [register?, look_ofInterference] at h
  cases hnbrs : i.neighbours[t]? with
  | none =>
      rw [hnbrs] at h
      cases h
  | some nbrs =>
      rw [hnbrs] at h
      exact h

theorem mem_nodes_ofInterference : t ∈ (ofInterference i k pre).nodes ↔ t ∈ i.neighbours := by
  rw [mem_nodes_iff, look_ofInterference, Option.isSome_map,
    Std.ExtTreeMap.mem_iff_isSome_getElem?]

/-- At first, the nodes without a register are to be taken. -/
theorem mem_active_ofInterference :
    t ∈ (ofInterference i k pre).active ↔ t ∈ i.neighbours ∧ t ∉ pre := by
  simp [ofInterference, Std.ExtTreeSet.mem_ofList]

/-- The graph is sound at first if the registers given from the start are. -/
theorem sound_ofInterference (hsymm : ∀ a b, i.Adj a b → i.Adj b a) (hirrefl : ∀ a, ¬ i.Adj a a)
    (hpre : ∀ a b, i.Adj a b → ∀ r, pre[a]? = some r → pre[b]? ≠ some r) :
    (ofInterference i k pre).Sound := by
  refine ⟨?_, ?_, ?_⟩
  · intro a b h
    exact mem_nbrs_ofInterference.mpr (hsymm a b (mem_nbrs_ofInterference.mp h))
  · intro a h
    exact hirrefl a (mem_nbrs_ofInterference.mp h)
  · intro a b h r ha hb
    exact hpre a b (mem_nbrs_ofInterference.mp h) r (register?_ofInterference ha)
      (register?_ofInterference hb)

end ColorGraph

-- ── Colouring a function ─────────────────────────────────────────────────────

namespace Attempt

open ColorGraph

variable {k : Nat} {spillTemps : TempSet} {code : Code}

/-- The frame pointer has its register from the start. -/
def precolored (code : Code) : TempMap Nat := {(code.frame.pointer, framePointer)}

/-- The graph from which an attempt starts. -/
def start (k : Nat) (code : Code) : ColorGraph :=
  ofInterference code.interference k (precolored code)

/-- An attempt simplifies the graph from which it starts and puts the nodes back in reverse. -/
theorem selection_make (k : Nat) (spillTemps : TempSet) (code : Code) :
    (make k spillTemps code).selection =
      ((start k code).simplify (liveSpans code.instrs) spillTemps).2.selectAll
        (((start k code).simplify (liveSpans code.instrs) spillTemps).1.map (·.temp)).reverse := rfl

/-- The frame pointer alone has a register from the start. -/
theorem getElem?_precolored {t : Temp} :
    (precolored code)[t]? = if code.frame.pointer = t then some framePointer else none := by
  show ((∅ : TempMap Nat).insert code.frame.pointer framePointer)[t]? = _
  rw [Std.ExtTreeMap.getElem?_insert]
  simp only [Std.LawfulEqCmp.compare_eq_iff_eq, Std.ExtTreeMap.getElem?_empty]

/-- The graph from which an attempt starts is sound. -/
theorem sound_start (k : Nat) (code : Code) : (start k code).Sound := by
  have hirrefl : ∀ a, ¬ code.interference.Adj a a := by
    intro a h
    exact (Interference.adj_compute_iff.mp h).1 rfl
  refine sound_ofInterference (fun a b => Interference.adj_compute_symm) hirrefl ?_
  intro a b hadj r ha hb
  -- only one temporary has a register, and it is not its own neighbour
  rw [getElem?_precolored] at ha hb
  split at ha
  · next hpa =>
    split at hb
    · next hpb =>
      obtain rfl : a = b := hpa.symm.trans hpb
      exact hirrefl a hadj
    · cases hb
  · cases ha

/-- No two temporaries that interfere are assigned the same register. -/
theorem proper_assignments {a b : Temp} {r : Nat} (h : code.interference.Adj a b)
    (ha : (make k spillTemps code).selection.graph.assignments[a]? = some r) :
    (make k spillTemps code).selection.graph.assignments[b]? ≠ some r := by
  have hlook := look_simplify (start k code) (liveSpans code.instrs) spillTemps
  have hnbr : b ∈ (make k spillTemps code).selection.graph.nbrs a := by
    rw [selection_make, nbrs_selectAll, nbrs, hlook]
    exact mem_nbrs_ofInterference.mpr h
  rw [getElem?_assignments] at ha ⊢
  exact (((sound_start k code).of_look hlook).selectAll _).proper a b hnbr r ha

/-- If colouring is not stuck, every node is assigned a register. -/
theorem mem_assignments {t : Temp} (hstuck : (make k spillTemps code).selection.stuck = none)
    (ht : t ∈ code.interference.neighbours) :
    t ∈ (make k spillTemps code).selection.graph.assignments := by
  have hlook := look_simplify (start k code) (liveSpans code.instrs) spillTemps
  have hnode : t ∈ (start k code).nodes := mem_nodes_ofInterference.mpr ht
  rw [Std.ExtTreeMap.mem_iff_isSome_getElem?, getElem?_assignments]
  rw [selection_make] at hstuck ⊢
  refine isSome_register?_selectAll hstuck ?_ ?_
  · rw [mem_nodes_iff, hlook, ← mem_nodes_iff]
    exact hnode
  · by_cases hpre : t ∈ precolored code
    · right
      rw [register?, hlook, start, look_ofInterference]
      rw [Std.ExtTreeMap.mem_iff_isSome_getElem?] at ht
      obtain ⟨nbrs, hnbrs⟩ := Option.isSome_iff_exists.mp ht
      rw [hnbrs]
      exact Std.ExtTreeMap.mem_iff_isSome_getElem?.mp hpre
    · left
      obtain ⟨p, hp, hpt⟩ := mem_simplify_of_mem_active (mem_active_ofInterference.mpr ⟨ht, hpre⟩)
      exact List.mem_reverse.mpr (List.mem_map.mpr ⟨p, hp, hpt⟩)

end Attempt

namespace Allocation

variable {ω : Type} {k n : Nat} {a a' : Allocation} {s : Supply}

/-- Allocation that succeeds ends with an attempt that does not get stuck, on code that has whatever
    spilling keeps. -/
theorem attemptFrom_invariant {P : Allocation → Prop}
    (hkept : ∀ {a a' : Allocation} {t : Temp} {s : Supply}, P a →
      ((a.spill t : Emit ω _).run s).value = (.ok (), a') → P a')
    (ha : P a) (h : ((attemptFrom k n a : Emit ω _).run s).value = (.ok (), a')) :
    ∃ a₁ : Allocation, P a₁ ∧ (Attempt.make k a₁.spills.temps a₁.code).selection.stuck = none ∧
      a' = a₁.finish (Attempt.make k a₁.spills.temps a₁.code).selection.graph.assignments := by
  induction hsize : a.pending.size using Nat.strongRecOn generalizing n a s with
  | ind size ih =>
      rw [Emit.run, attemptFrom] at h
      split at h
      · cases h
      · dsimp only at h
        split at h
        · next hstuck => exact ⟨a, ha, hstuck, (Prod.mk.inj h).2.symm⟩
        · next t hstuck =>
          split at h
          · cases h
          · next htemp =>
            split at h
            · cases h
            · next a₂ hspill =>
              have hlt := size_pending_spill_lt (Attempt.stuck_ne_pointer hstuck) htemp hspill
              exact ih _ (hsize ▸ hlt) (hkept ha hspill) h rfl

/-- Allocation that succeeds ends with an attempt that is not stuck and takes its assignments. -/
theorem attemptFrom_eq_ok (h : ((attemptFrom k n a : Emit ω _).run s).value = (.ok (), a')) :
    ∃ a₁ : Allocation, (Attempt.make k a₁.spills.temps a₁.code).selection.stuck = none ∧
      a' = a₁.finish (Attempt.make k a₁.spills.temps a₁.code).selection.graph.assignments := by
  obtain ⟨a₁, -, hstuck, hfinish⟩ := attemptFrom_invariant (P := fun _ => True)
    (fun _ _ => trivial) trivial h
  exact ⟨a₁, hstuck, hfinish⟩

end Allocation

end MmixBackend
