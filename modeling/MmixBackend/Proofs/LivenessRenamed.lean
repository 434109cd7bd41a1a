import MmixBackend.Interference
import MmixBackend.Proofs.Renaming

/-!
# Live sets and interference under other names

The flow of a function depends on labels only through the places they stand for, and the live sets
are computed by union, insertion and removal of temporaries. So under other names the live sets are
the images of the live sets, after as many sweeps, and the interference graph is the image of the
interference graph.

* **`successors_rename`** — control goes to the same instructions.
* **`liveness_rename`** — the live sets, by induction on the sweeps.
* **`interference_rename`** — the graph.
-/

namespace MmixBackend

variable {ρ : Renaming}

-- ── Control flow ─────────────────────────────────────────────────────────────

/-- A point of the flow under other names. -/
def Point.rename (ρ : Renaming) (p : Point) : Point :=
  { p with uses := p.uses.map ρ.temp, defs := p.defs.map ρ.temp }

/-- The flow of a function under other names. -/
def Flow.rename (ρ : Renaming) (flow : Flow) : Flow :=
  ⟨flow.points.map (Point.rename ρ), ρ.temp flow.result⟩

/-- Live temporaries under other names. -/
def Live.rename (ρ : Renaming) (live : Live) : Live :=
  ⟨imageSet ρ.temp live.liveIn, imageSet ρ.temp live.liveOut⟩

/-- Live sets under other names. -/
def LiveSets.rename (ρ : Renaming) (sets : LiveSets) : LiveSets := sets.map (Live.rename ρ)

namespace Code

variable [KeepsOrder ρ.label]

theorem position?_rename (code : Code) (l : Label) :
    (code.rename ρ).position? (ρ.label l) = code.position? l := by
  rw [position?, rename, List.findIdx?_map, position?]
  refine congrArg (List.findIdx? · code.instrs) (funext fun i => ?_)
  refine decide_eq_decide.mpr ?_
  rw [Instr.label?_rename]
  cases i.label? with
  | none => simp
  | some l' => simp

/-- Control goes to the same places under any names. -/
theorem successors_rename (code : Code) (i : Nat) (instr : Instr) :
    (code.rename ρ).successors i (instr.rename ρ) = code.successors i instr := by
  have hplaces : (instr.rename ρ).jumps.filterMap (code.rename ρ).position? =
      instr.jumps.filterMap code.position? := by
    rw [Instr.jumps_rename, List.filterMap_map]
    exact congrArg (List.filterMap · instr.jumps) (funext (position?_rename code))
  have hlength : (code.rename ρ).instrs.length = code.instrs.length := List.length_map ..
  rw [successors, successors, hplaces, hlength, Instr.fallsThrough_rename]

theorem point_rename (code : Code) (i : Nat) (instr : Instr) :
    (code.rename ρ).point i (instr.rename ρ) = (code.point i instr).rename ρ := by
  simp only [point, Point.rename, successors_rename, Instr.uses_rename, Instr.defs_rename,
    Instr.jumps_rename, Point.mk.injEq, true_and]
  exact decide_eq_decide.mpr Renaming.label_mem_map

/-- The flow of renamed code is the renamed flow. -/
theorem flow_rename (code : Code) : (code.rename ρ).flow = code.flow.rename ρ := by
  have hpoints : (code.rename ρ).instrs.zipIdx.map (fun p => (code.rename ρ).point p.2 p.1) =
      (code.instrs.zipIdx.map fun p => code.point p.2 p.1).map (Point.rename ρ) := by
    rw [rename, List.zipIdx_map, List.map_map, List.map_map]
    exact List.map_congr_left fun p _ => point_rename code p.2 p.1
  show Flow.mk ((code.rename ρ).instrs.zipIdx.map
    fun p => (code.rename ρ).point p.2 p.1).toArray _ = _
  rw [hpoints, ← List.map_toArray]
  rfl

end Code

-- ── Live sets ────────────────────────────────────────────────────────────────

namespace LiveSets

variable (sets : LiveSets) (i : Nat)

theorem getD_rename : (sets.rename ρ).getD i {} = (sets.getD i {}).rename ρ := by
  have hempty : (({} : Live).rename ρ) = {} := by
    rw [Live.rename, imageSet_empty]
  rw [Array.getD_eq_getD_getElem?, Array.getD_eq_getD_getElem?, rename, Array.getElem?_map,
    ← hempty, Option.getD_map, hempty]

/-- What is live before an instruction is the same under its new names. -/
theorem liveIn_rename : (sets.rename ρ).liveIn i = imageSet ρ.temp (sets.liveIn i) :=
  congrArg Live.liveIn (getD_rename sets i)

/-- What is live behind an instruction is the same under its new names. -/
theorem liveOut_rename : (sets.rename ρ).liveOut i = imageSet ρ.temp (sets.liveOut i) :=
  congrArg Live.liveOut (getD_rename sets i)

/-- Live sets weigh the same under other names. -/
theorem weight_rename [KeepsOrder ρ.temp] : (sets.rename ρ).weight = sets.weight := by
  rw [weight, weight, ← Array.foldr_toList, ← Array.foldr_toList, rename, Array.toList_map,
    List.foldr_map]
  simp only [Live.rename, size_imageSet]

end LiveSets

namespace Flow

variable [KeepsOrder ρ.temp]

omit [KeepsOrder ρ.temp] in
/-- What a point asks for behind it is the same under its new names. -/
theorem liveOutAt_rename (flow : Flow) (sets : LiveSets) (p : Point) :
    (flow.rename ρ).liveOutAt (sets.rename ρ) (p.rename ρ) =
      imageSet ρ.temp (flow.liveOutAt sets p) := by
  have hjoined : ∀ (succs : List Nat) (live : TempSet),
      succs.foldl (fun live j => live ∪
          (sets.rename ρ).liveIn j) (imageSet ρ.temp live) =
        imageSet ρ.temp (succs.foldl (fun live j => live ∪ sets.liveIn j) live) := by
    intro succs
    induction succs with
    | nil => exact fun live => rfl
    | cons j succs ih =>
      intro live
      rw [List.foldl_cons, List.foldl_cons, LiveSets.liveIn_rename, ← imageSet_union, ih]
  have hstart := hjoined p.succs ∅
  rw [imageSet_empty] at hstart
  simp only [liveOutAt, Point.rename, rename, hstart]
  split
  · exact imageSet_insert.symm
  · rfl

/-- What a point asks for before it is the same under its new names. -/
theorem liveInAt_rename (p : Point) (liveOut : TempSet) :
    liveInAt (p.rename ρ) (imageSet ρ.temp liveOut) = imageSet ρ.temp (liveInAt p liveOut) := by
  have hfilter := imageSet_filter (f := ρ.temp) (s := liveOut) (p := (· ∉ p.defs))
    (q := (· ∉ p.defs.map ρ.temp)) fun t =>
      decide_eq_decide.mpr (not_congr Renaming.temp_mem_map)
  rw [liveInAt, liveInAt, imageSet_union, imageSet_ofList, hfilter]
  rfl

/-- An update does not depend on the names. -/
theorem update_rename (flow : Flow) (i : Nat) (sets : LiveSets) :
    (flow.rename ρ).update i (sets.rename ρ) =
      (flow.update i sets).rename ρ := by
  have hpoint : (flow.rename ρ).points[i]? = flow.points[i]?.map (Point.rename ρ) :=
    Array.getElem?_map
  rw [update, update, hpoint]
  cases flow.points[i]? with
  | none => rfl
  | some p =>
    dsimp only [Option.map_some]
    rw [LiveSets.liveOut_rename, liveOutAt_rename, ← imageSet_union, liveInAt_rename,
      LiveSets.liveIn_rename, ← imageSet_union, LiveSets.rename, LiveSets.rename,
      Array.map_setIfInBounds]
    rfl

/-- A sweep does not depend on the names. -/
theorem sweep_rename (flow : Flow) (sets : LiveSets) :
    (flow.rename ρ).sweep (sets.rename ρ) = (flow.sweep sets).rename ρ := by
  have hsize : (flow.rename ρ).points.size = flow.points.size := Array.size_map
  rw [sweep, sweep, hsize]
  induction List.range flow.points.size with
  | nil => rfl
  | cons i is ih => rw [List.foldr_cons, List.foldr_cons, ih, update_rename]

omit [KeepsOrder ρ.temp] in
theorem temps_rename (flow : Flow) : (flow.rename ρ).temps = imageSet ρ.temp flow.temps := by
  have hfold : ∀ (ps : List Point) (s : TempSet),
      (ps.map (Point.rename ρ)).foldl (fun s p => s ∪ Std.ExtTreeSet.ofList p.uses)
          (imageSet ρ.temp s) =
        imageSet ρ.temp (ps.foldl (fun s p => s ∪ Std.ExtTreeSet.ofList p.uses) s) := by
    intro ps
    induction ps with
    | nil => exact fun s => rfl
    | cons p ps ih =>
      intro s
      rw [List.map_cons, List.foldl_cons, List.foldl_cons, ← ih, imageSet_union, imageSet_ofList]
      rfl
  have hresult : ({ρ.temp flow.result} : TempSet) = imageSet ρ.temp {flow.result} := by
    refine Std.ExtTreeSet.ext_mem fun x => ?_
    simp
  rw [temps, temps, ← Array.foldl_toList, ← Array.foldl_toList]
  dsimp only [rename]
  rw [Array.toList_map, hresult, hfold]

/-- How much live sets can still grow does not depend on the names. -/
theorem room_rename (flow : Flow) (sets : LiveSets) :
    (flow.rename ρ).room (sets.rename ρ) = flow.room sets := by
  have hsize : (flow.rename ρ).points.size = flow.points.size := Array.size_map
  rw [room, room, hsize, temps_rename, size_imageSet, LiveSets.weight_rename]

/-- As many sweeps lead to the live sets under other names. -/
theorem settle_rename (flow : Flow) (sets : LiveSets) :
    (flow.rename ρ).settle (sets.rename ρ) =
      ((flow.settle sets).1.rename ρ, (flow.settle sets).2) := by
  fun_induction settle flow sets with
  | case1 sets swept hless settled sweeps heq ih =>
    rw [settle, sweep_rename]
    dsimp only
    rw [room_rename, room_rename, if_pos hless, ih, heq]
  | case2 sets swept hnot =>
    rw [settle, sweep_rename]
    dsimp only
    rw [room_rename, room_rename, if_neg hnot]

end Flow

/-- Liveness takes as many sweeps under other names and comes to the renamed sets. -/
theorem Code.liveness_rename [KeepsOrder ρ.temp] [KeepsOrder ρ.label] (code : Code) :
    (code.rename ρ).liveness = (code.liveness.1.rename ρ, code.liveness.2) := by
  have hstart : (Array.replicate (code.flow.rename ρ).points.size ({} : Live)) =
      LiveSets.rename ρ (Array.replicate code.flow.points.size {}) := by
    rw [LiveSets.rename, Array.map_replicate, Flow.rename, Array.size_map, Live.rename,
      imageSet_empty]
  rw [liveness, flow_rename, hstart, Flow.settle_rename]
  rfl

-- ── Interference ─────────────────────────────────────────────────────────────

namespace Interference

/-- A graph on temporaries under other names. -/
def rename (ρ : Renaming) (g : Interference) : Interference :=
  ⟨imageMap ρ.temp (imageSet ρ.temp) g.neighbours⟩

/-- The pairs of a renamed list are the renamed pairs. -/
theorem pairs_rename (ts : List Temp) :
    pairs (ts.map ρ.temp) = (pairs ts).map fun p => (ρ.temp p.1, ρ.temp p.2) := by
  induction ts with
  | nil => rfl
  | cons t ts ih =>
    rw [List.map_cons, pairs, ih, pairs, List.map_append, List.map_map, List.map_map]
    rfl

variable [KeepsOrder ρ.temp]

/-- What is mentioned at an instruction is the same under its new names. -/
theorem mentioned_rename (instr : Instr) (live : Live) :
    mentioned (instr.rename ρ) (live.rename ρ) = (mentioned instr live).map ρ.temp := by
  simp [mentioned, Live.rename]

/-- The edges of an instruction are the same under their new names. -/
theorem edgesAt_rename (instr : Instr) (live : Live) :
    edgesAt (instr.rename ρ) (live.rename ρ) =
      (edgesAt instr live).map fun p => (ρ.temp p.1, ρ.temp p.2) := by
  simp [edgesAt, Live.rename, pairs_rename, List.flatMap_map, List.map_flatMap, Function.comp_def]

theorem addNode_rename (g : Interference) (t : Temp) :
    (g.rename ρ).addNode (ρ.temp t) = (g.addNode t).rename ρ := by
  simp [addNode, rename]

theorem addNeighbour_rename (a b : Temp) (nbrs : TempMap TempSet) :
    addNeighbour (ρ.temp a) (ρ.temp b) (imageMap ρ.temp (imageSet ρ.temp) nbrs) =
      imageMap ρ.temp (imageSet ρ.temp) (addNeighbour a b nbrs) := by
  have hget : (imageMap ρ.temp (imageSet ρ.temp) nbrs).getD (ρ.temp a) ∅ =
      imageSet ρ.temp (nbrs.getD a ∅) := by
    rw [← imageSet_empty (f := ρ.temp), getD_imageMap, imageSet_empty]
  rw [addNeighbour, hget, addNeighbour, imageMap_insert, imageSet_insert]

/-- Adding an edge does not depend on the names. -/
theorem addEdge_rename (g : Interference) (a b : Temp) :
    (g.rename ρ).addEdge (ρ.temp a) (ρ.temp b) = (g.addEdge a b).rename ρ := by
  rw [addEdge, addEdge]
  simp only [Renaming.temp_eq_iff]
  split
  · rfl
  · rw [rename, addNeighbour_rename, addNeighbour_rename]
    rfl

theorem addNodes_rename (instr : Instr) (live : Live) (g : Interference) :
    (mentioned (instr.rename ρ) (live.rename ρ)).foldl addNode (g.rename ρ) =
      ((mentioned instr live).foldl addNode g).rename ρ := by
  rw [mentioned_rename]
  exact foldl_images addNode_rename _ g

theorem addEdges_rename (instr : Instr) (live : Live) (g : Interference) :
    (edgesAt (instr.rename ρ) (live.rename ρ)).foldl (fun g p => g.addEdge p.1 p.2) (g.rename ρ) =
      ((edgesAt instr live).foldl (fun g p => g.addEdge p.1 p.2) g).rename ρ := by
  rw [edgesAt_rename]
  exact foldl_images (fun g p => addEdge_rename g p.1 p.2) _ g

/-- The interference graph of renamed code is the renamed graph. -/
theorem compute_rename (instrs : List Instr) (sets : LiveSets) :
    compute (instrs.map (Instr.rename ρ)) (sets.rename ρ) =
      (compute instrs sets).rename ρ := by
  have hrows : (instrs.map (Instr.rename ρ)).zip (sets.rename ρ).toList =
      (instrs.zip sets.toList).map fun row => (row.1.rename ρ, row.2.rename ρ) := by
    rw [LiveSets.rename, Array.toList_map, List.zip_map]
    rfl
  have hnodes := foldl_images (f := fun row : Instr × Live => (row.1.rename ρ, row.2.rename ρ))
    (q := fun g row => (mentioned row.1 row.2).foldl addNode g)
    (fun g row => addNodes_rename row.1 row.2 g) (instrs.zip sets.toList) {}
  have hedges := foldl_images (f := fun row : Instr × Live => (row.1.rename ρ, row.2.rename ρ))
    (q := fun g row => (edgesAt row.1 row.2).foldl (fun g p => addEdge g p.1 p.2) g)
    (fun g row => addEdges_rename row.1 row.2 g) (instrs.zip sets.toList)
  have hempty : ({} : Interference).rename ρ = {} := congrArg Interference.mk imageMap_empty
  rw [hempty] at hnodes
  rw [compute, compute, hrows]
  dsimp only
  rw [hnodes, hedges]

end Interference

end MmixBackend
