import MmixBackend.Proofs.AllocationBound
import MmixBackend.Proofs.ColoringOrder

/-!
# Only risky nodes are spilled

Colouring is optimistic: a node that is not easy is taken off the graph all the same, and whether
there is a register for it shows when it is put back. An easy node needs no luck. Its degree counts
the neighbours taken after it, and those are the ones with a register below `k` when its turn comes;
the others have none yet, or have one from the start that is not below `k`. So temporaries are
spilled only from among the risky nodes, and code with no risky node is coloured at once.

* **`Picks.nodup`** — no node is picked twice.
* **`selectOnce_of_easy`** — an easy node gets a register.
* **`mem_risky_of_stuck`** — a node without a register was risky.
* **`stuck_eq_none_of_peels`** — if in every set of nodes one has fewer than `k` neighbours, then
  every node gets a register.
* **`only_risky_nodes_spill`** — all of this, and what it means for allocation.
-/

namespace MmixBackend

/-- In every set of nodes to be coloured there is one with fewer than `k` neighbours in the set. -/
def Interference.Peels (i : Interference) (k : Nat) (pre : TempMap Nat) : Prop :=
  ∀ S : TempSet, S ≠ ∅ → (∀ t ∈ S, t ∈ i.neighbours ∧ t ∉ pre) →
    ∃ t ∈ S, (i.neighbours.getD t ∅ ∩ S).size < k

namespace ColorGraph

variable {g g' : ColorGraph} {i : Interference} {k : Nat} {pre : TempMap Nat} {t u : Temp}
  {spans : TempMap Nat} {spillTemps : TempSet} {picks : List Pick}

-- ── Taking all nodes ─────────────────────────────────────────────────────────

/-- After all picks nothing is left to be taken. -/
theorem Picks.active_eq_empty (h : Picks spans spillTemps g picks g') : g'.active = ∅ := by
  induction h with
  | done hempty => exact hempty
  | pick _ _ ih => exact ih

/-- No node is picked twice. -/
theorem Picks.nodup (h : Picks spans spillTemps g picks g') : (picks.map (·.temp)).Nodup := by
  induction h with
  | done _ => exact List.nodup_nil
  | @pick g _ p picks _ hrest ih =>
      refine List.nodup_cons.mpr ⟨?_, ih⟩
      rw [← hrest.mem_active_iff, active_take, Std.ExtTreeSet.mem_erase]
      exact fun h => h.1 Std.ReflCmp.compare_self

-- ── Putting them back ────────────────────────────────────────────────────────

/-- A node that is put back is given the free register, if there is one. -/
theorem fst_selectOnce (g : ColorGraph) (t : Temp) : (g.selectOnce t).1 = g.freeRegister? t := by
  rw [selectOnce]
  cases g.freeRegister? t with
  | none => rfl
  | some r => rfl

/-- Once the nodes picked after it are back, an easy node gets a register. -/
theorem selectOnce_of_easy (h : g.Tracks) (hpre : ∀ u r, g.register? u = some r → g.colors ≤ r)
    {before later : List Pick}
    (heq : (g.simplify spans spillTemps).1 = before ++ .easy t :: later) :
    ∃ r < g.colors, (((g.simplify spans spillTemps).2.selectAll
      (later.map (·.temp)).reverse).graph.selectOnce t).1 = some r := by
  obtain ⟨g', hchosen, heasy⟩ := (picks_simplify g spans spillTemps).split h heq
  obtain ⟨r, hr⟩ := freeRegister?_of_easy hpre hchosen heasy
  have hlt := freeRegister?_lt hr
  rw [colors_selectAll, colors_simplify] at hlt
  exact ⟨r, hlt, (fst_selectOnce _ t).trans hr⟩

/-- A node without a register was picked because it was risky, and not because it was easy. -/
theorem mem_risky_of_stuck (h : g.Tracks) (hpre : ∀ u r, g.register? u = some r → g.colors ≤ r)
    (hstuck : ((g.simplify spans spillTemps).2.selectAll
      ((g.simplify spans spillTemps).1.map (·.temp)).reverse).stuck = some t) :
    (∃ degree span, .risky t degree span ∈ (g.simplify spans spillTemps).1) ∧
      .easy t ∉ (g.simplify spans spillTemps).1 := by
  obtain ⟨before, degree, span, later, -, hpicks, -⟩ := risky_of_stuck h hpre hstuck
  have hmem : .risky t degree span ∈ (g.simplify spans spillTemps).1 := by
    rw [hpicks]
    exact List.mem_append_right _ List.mem_cons_self
  refine ⟨⟨degree, span, hmem⟩, ?_⟩
  intro heasy
  have hsame := List.inj_on_of_nodup_map (picks_simplify g spans spillTemps).nodup hmem heasy rfl
  cases hsame

/-- If the graph peels, every node gets a register. -/
theorem stuck_eq_none_of_peels (hsymm : ∀ a b, i.Adj a b → i.Adj b a)
    (hpre : ∀ (t : Temp) (r : Nat), pre[t]? = some r → k ≤ r) (hpeels : i.Peels k pre)
    (spans : TempMap Nat) (spillTemps : TempSet) :
    (((ofInterference i k pre).simplify spans spillTemps).2.selectAll
      (((ofInterference i k pre).simplify spans spillTemps).1.map (·.temp)).reverse).stuck =
        none := by
  refine Option.eq_none_iff_forall_ne_some.mpr ?_
  intro t hstuck
  obtain ⟨before, degree, span, later, g', hpicks, hchosen, hnone, -⟩ :=
    risky_of_stuck (tracks_ofInterference hsymm)
      (fun u r hr => hpre u r (register?_ofInterference hr)) hstuck
  have ht : t ∈ g'.active := (hchosen.active t).mpr (.inl rfl)
  have hnodes : ∀ u ∈ g'.active, u ∈ i.neighbours ∧ u ∉ pre := by
    intro u hu
    have hmem : u ∈ ((ofInterference i k pre).simplify spans spillTemps).1.map (·.temp) := by
      rw [hpicks, List.map_append, List.map_cons]
      exact List.mem_append_right _ (List.mem_cons.mpr ((hchosen.active u).mp hu))
    exact mem_active_ofInterference.mp ((picks_simplify _ spans spillTemps).mem_active_iff.mpr hmem)
  have hsome : g'.active ≠ ∅ := fun hempty => Std.ExtTreeSet.not_mem_empty (hempty ▸ ht)
  obtain ⟨u, hu, hfew⟩ := hpeels g'.active hsome hnodes
  have hmany := colors_le_degree hnone hu
  rw [hchosen.colors, degree_eq] at hmany
  have hsub : (leftAt g'.nodes u).size ≤ (i.neighbours.getD u ∅ ∩ g'.active).size := by
    refine card_le_of_subset ?_
    intro v hv
    rw [hchosen.tracks.left u hu, hchosen.nbrs] at hv
    exact Std.ExtTreeSet.mem_inter_iff.mpr ⟨mem_nbrs_ofInterference.mp hv.1, hv.2⟩
  exact absurd (Nat.lt_of_le_of_lt (Nat.le_trans hmany hsub) hfew) (Nat.lt_irrefl k)

end ColorGraph

-- ── Allocation without a spill ───────────────────────────────────────────────

namespace Allocation

open ColorGraph

variable {ω : Type} {k : Nat} {a : Allocation} {s : Supply}

/-- If the first attempt does not get stuck, it is the only one. -/
theorem allocate_of_not_stuck (hs : 0 < s.temps)
    (hstuck : (Attempt.make k a.spills.temps a.code).selection.stuck = none) :
    ∃ es, (∀ e ∈ es, Event.Minor e) ∧ (a.allocate k : Emit ω _).run s =
      ⟨(.ok (), a.finish (Attempt.make k a.spills.temps a.code).selection.graph.assignments), [],
        .attempt 1 a.code.frame.label :: es, s⟩ := by
  have hround : Round k 1 a s ((a.allocate k : Emit ω _).run s) := attemptFrom_round k 1 a s
  generalize (a.allocate k : Emit ω _).run s = r at hround
  cases hround with
  | exhausted h => exact absurd h (Nat.not_lt.mpr hs)
  | colored _ es hes _ => exact ⟨es, hes, rfl⟩
  | refused _ _ _ t h _ => cases hstuck.symm.trans h
  | failed _ _ _ _ _ t _ _ h _ _ => cases hstuck.symm.trans h
  | again _ _ _ _ _ t _ h _ _ => cases hstuck.symm.trans h

/-- **Only risky nodes are spilled.** Let a graph be coloured with `k` registers, where no node has
    one of these from the start. All nodes without a register are picked, each of them once, and
    none is left. When the nodes picked after it are back, a node that was picked because it was
    easy gets one of the registers; so if there is none for a node, it was picked as a risky one.
    Hence, if in every set of temporaries of a code one has fewer than `k` neighbours, allocation
    succeeds at the first attempt, and all it does to the code is to give it registers, which are
    those that come out when the interference graph of the code is coloured in this way. -/
theorem only_risky_nodes_spill (k : Nat) :
    (∀ (i : Interference) (pre : TempMap Nat) (spans : TempMap Nat) (spillTemps : TempSet),
      i.Built → (∀ (t : Temp) (r : Nat), pre[t]? = some r → k ≤ r) →
      let simplified := (ofInterference i k pre).simplify spans spillTemps
      (simplified.1.map (·.temp)).Nodup ∧
      (∀ t, t ∈ simplified.1.map (·.temp) ↔ t ∈ i.neighbours ∧ t ∉ pre) ∧
      simplified.2.active = ∅ ∧
      (∀ before t later, simplified.1 = before ++ .easy t :: later →
        ∃ r < k, ((simplified.2.selectAll (later.map (·.temp)).reverse).graph.selectOnce t).1 =
          some r) ∧
      ∀ t, (simplified.2.selectAll (simplified.1.map (·.temp)).reverse).stuck = some t →
        (∃ degree span, .risky t degree span ∈ simplified.1) ∧ .easy t ∉ simplified.1) ∧
    ∀ (code : Code) (names : Supply), k ≤ framePointer → 0 < names.temps →
      code.interference.Peels k (Attempt.precolored code) →
      let simplified := (ofInterference code.interference k (Attempt.precolored code)).simplify
        (liveSpans code.instrs) ∅
      let colored := simplified.2.selectAll (simplified.1.map (·.temp)).reverse
      let allocated := (Allocation.allocate k ⟨code, {}⟩ : Emit ω _).run names
      allocated.value =
        (.ok (), ⟨{ code with registers := colored.graph.assignments, spillSize := 0 }, {}⟩) ∧
      attemptCount allocated.events = 1 ∧ spilledTemps allocated.events = [] ∧
      allocated.supply = names := by
  refine ⟨?_, ?_⟩
  · intro i pre spans spillTemps hi hpre simplified
    have htracks : (ofInterference i k pre).Tracks := tracks_ofInterference fun _ _ => hi.symm
    have hregister : ∀ u r, (ofInterference i k pre).register? u = some r → k ≤ r :=
      fun u r hr => hpre u r (register?_ofInterference hr)
    have hpicks := picks_simplify (ofInterference i k pre) spans spillTemps
    refine ⟨hpicks.nodup, ?_, hpicks.active_eq_empty, ?_, ?_⟩
    · intro t
      exact hpicks.mem_active_iff.symm.trans mem_active_ofInterference
    · intro before t later heq
      exact selectOnce_of_easy htracks hregister heq
    · intro t hstuck
      exact mem_risky_of_stuck htracks hregister hstuck
  · intro code names hk hnames hpeels simplified colored allocated
    have hstuck : (Attempt.make k ∅ code).selection.stuck = none :=
      stuck_eq_none_of_peels (fun _ _ => Interference.adj_compute_symm)
        (fun _ _ hr => Attempt.le_of_getElem?_precolored hk hr) hpeels _ _
    obtain ⟨es, hes, hrun⟩ := allocate_of_not_stuck (ω := ω) (a := ⟨code, {}⟩) hnames hstuck
    rw [show allocated = _ from hrun]
    exact ⟨rfl, attemptCount_last hes _, spilledTemps_last hes _, rfl⟩

/-- Three temporaries that all interfere. -/
def triangle : Interference :=
  ((({} : Interference).addEdge ⟨0⟩ ⟨1⟩).addEdge ⟨1⟩ ⟨2⟩).addEdge ⟨2⟩ ⟨0⟩

theorem built_triangle : triangle.Built := .addEdge (.addEdge (.addEdge .empty _ _) _ _) _ _

/-- One temporary is needed all the time and interferes with three others, which are needed one
    after the other. -/
def hub : Code where
  frame := ⟨.named "f", 1, 0, 0, ⟨0⟩, ⟨1⟩⟩
  entry := .named "f"
  exit := .named "exit"
  instrs := [.plain (.setLow 1) [] [⟨2⟩], .plain (.setLow 2) [] [⟨3⟩],
    .plain (.alu .add) [⟨2⟩, ⟨3⟩] [⟨4⟩], .plain (.alu .add) [⟨2⟩, ⟨4⟩] [⟨5⟩],
    .plain (.alu .add) [⟨2⟩, ⟨5⟩] [⟨0⟩], .jump (.named "exit")]

/-- Among any of its temporaries there is one with at most one neighbour, since only the one needed
    all the time has more. -/
theorem peels_hub : hub.interference.Peels 2 (Attempt.precolored hub) := by
  intro S hS hnodes
  have hfew : ∀ t ∈ hub.interference.neighbours.keys, t ≠ ⟨2⟩ →
      (hub.interference.neighbours.getD t ∅).size ≤ 1 := by decide +kernel
  by_cases h : ∃ t ∈ S, t ≠ ⟨2⟩
  · obtain ⟨t, ht, hne⟩ := h
    have hle := hfew t (Std.ExtTreeMap.mem_keys.mpr (hnodes t ht).1) hne
    have hinter : (hub.interference.neighbours.getD t ∅ ∩ S).size ≤
        (hub.interference.neighbours.getD t ∅).size := Std.ExtTreeSet.size_inter_le_size_left
    exact ⟨t, ht, by omega⟩
  · -- the temporary in the middle alone has no neighbours
    have honly : ∀ t ∈ S, t ∈ ({⟨2⟩} : TempSet) := by
      intro t ht
      have heq : t = ⟨2⟩ := Decidable.byContradiction fun hne => h ⟨t, ht, hne⟩
      simp [heq]
    obtain ⟨t, ht⟩ : ∃ t, t ∈ S :=
      not_forall_not.mp fun hnone => hS (Std.ExtTreeSet.eq_empty_iff_forall_not_mem.mpr hnone)
    have hle := card_le_of_subset honly
    have hinter : (hub.interference.neighbours.getD t ∅ ∩ S).size ≤ S.size :=
      Std.ExtTreeSet.size_inter_le_size_right
    have hone : ({⟨2⟩} : TempSet).size = 1 := by decide
    exact ⟨t, ht, by omega⟩

/-- Of three temporaries that all interfere, one cannot get one of two registers. Two registers are
    enough where the others come one after the other, even though one temporary has three
    neighbours. That one gets the second register, and the others share the first. -/
theorem only_risky_nodes_spill_hub :
    (∃ degree span, .risky ⟨0⟩ degree span ∈ ((ofInterference triangle 2 ∅).simplify ∅ ∅).1) ∧
    (hub.interference.neighbours.getD ⟨2⟩ ∅).size = 3 ∧
    ∃ registers, ((Allocation.allocate 2 ⟨hub, {}⟩ : Emit Instr _).run { temps := 6 }).value =
      (.ok (), ⟨{ hub with registers, spillSize := 0 }, {}⟩) ∧
      registers.toList = [(⟨0⟩, 0), (⟨2⟩, 1), (⟨3⟩, 0), (⟨4⟩, 0), (⟨5⟩, 0)] := by
  obtain ⟨hgraph, hcode⟩ := only_risky_nodes_spill (ω := Instr) 2
  obtain ⟨-, -, -, -, hstuck⟩ := hgraph triangle ∅ ∅ ∅ built_triangle (by simp)
  exact ⟨(hstuck ⟨0⟩ (by decide +kernel)).1, by decide +kernel, _,
    (hcode hub { temps := 6 } (by decide) (by decide) peels_hub).1, by decide +kernel⟩

end Allocation

end MmixBackend
