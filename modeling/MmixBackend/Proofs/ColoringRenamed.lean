import MmixBackend.Allocate
import MmixBackend.Proofs.LivenessRenamed

/-!
# Colouring under other names

Colouring goes through the nodes in their order and compares degrees, live ranges and registers. A
renaming that keeps the order leads it through the same nodes in the same order, so every node gets
the register it gets under its old name, and the node without a register is the same.

* **`simplify_rename`** — the nodes are taken in the same order.
* **`selectAll_rename`** — they get the same registers.
* **`Attempt.selection_rename`** — a whole attempt.
-/

namespace MmixBackend

variable {ρ : Renaming}

/-- A node under other names. -/
def Node.rename (ρ : Renaming) (node : Node) : Node :=
  ⟨imageSet ρ.temp node.degreeNbrs, imageSet ρ.temp node.colorNbrs, node.register⟩

namespace ColorGraph

/-- A graph that is being coloured, under other names. -/
def rename (ρ : Renaming) (g : ColorGraph) : ColorGraph where
  nodes := imageMap ρ.temp (Node.rename ρ) g.nodes
  active := imageSet ρ.temp g.active
  colors := g.colors

/-- A pick under other names. -/
def Pick.rename (ρ : Renaming) : Pick → Pick
  | .easy t => .easy (ρ.temp t)
  | .risky t degree span => .risky (ρ.temp t) degree span

theorem Pick.temp_rename (p : Pick) : (p.rename ρ).temp = ρ.temp p.temp := by
  cases p <;> rfl

/-- What putting back nodes came to, under other names. -/
def Selection.rename (ρ : Renaming) (s : Selection) : Selection where
  given := s.given.map fun p => (ρ.temp p.1, p.2)
  stuck := s.stuck.map ρ.temp
  graph := s.graph.rename ρ

variable [KeepsOrder ρ.temp]

theorem getElem?_nodes_rename (g : ColorGraph) (t : Temp) :
    (g.rename ρ).nodes[ρ.temp t]? = g.nodes[t]?.map (Node.rename ρ) := getElem?_imageMap

/-- The graph to be coloured does not depend on the names. -/
theorem ofInterference_rename (g : Interference) (colors : Nat) (precolored : TempMap Nat) :
    ofInterference (g.rename ρ) colors (imageMap ρ.temp id precolored) =
      (ofInterference g colors precolored).rename ρ := by
  have hpre : ∀ t, decide (ρ.temp t ∉ imageMap ρ.temp id precolored) = decide (t ∉ precolored) :=
    fun t => decide_eq_decide.mpr (not_congr apply_mem_imageMap)
  have hnodes := imageMap_map (f := ρ.temp) (g := imageSet ρ.temp) (m := g.neighbours)
    (p := Node.rename ρ)
    (h := fun t nbrs =>
      { degreeNbrs := nbrs.filter (· ∉ precolored), colorNbrs := nbrs, register := precolored[t]? })
    (q := fun t nbrs =>
      { degreeNbrs := nbrs.filter (· ∉ imageMap ρ.temp id precolored)
        colorNbrs := nbrs
        register := (imageMap ρ.temp id precolored)[t]? })
    fun t nbrs => by
      rw [Node.rename, imageSet_filter (q := (· ∉ imageMap ρ.temp id precolored)) hpre,
        getElem?_imageMap, Option.map_id_apply]
  have hactive : (g.rename ρ).neighbours.keys.filter (· ∉ imageMap ρ.temp id precolored) =
      (g.neighbours.keys.filter (· ∉ precolored)).map ρ.temp := by
    rw [Interference.rename, keys_imageMap]
    exact filter_images hpre _
  rw [ofInterference, ofInterference, hactive, rename, hnodes, imageSet_ofList]
  rfl

-- ── Taking nodes off ─────────────────────────────────────────────────────────

theorem degree_rename (g : ColorGraph) (t : Temp) :
    (g.rename ρ).degree (ρ.temp t) = g.degree t := by
  rw [degree, degree, getElem?_nodes_rename]
  cases g.nodes[t]? with
  | none => rfl
  | some node => exact size_imageSet

theorem isEasy_rename (g : ColorGraph) (t : Temp) :
    (g.rename ρ).isEasy (ρ.temp t) = g.isEasy t := by
  rw [isEasy, isEasy, degree_rename]
  rfl

theorem forget_rename (t : Temp) (node : Node) :
    Node.forget (ρ.temp t) (node.rename ρ) = (Node.forget t node).rename ρ := by
  rw [Node.forget, Node.forget, Node.rename, Node.rename, imageSet_erase]

theorem forgetAll_rename (t : Temp) (nbrs : List Temp) (nodes : TempMap Node) :
    (nbrs.map ρ.temp).foldl (fun nodes nbr => nodes.modify nbr (Node.forget (ρ.temp t)))
        (imageMap ρ.temp (Node.rename ρ) nodes) =
      imageMap ρ.temp (Node.rename ρ)
        (nbrs.foldl (fun nodes nbr => nodes.modify nbr (Node.forget t)) nodes) :=
  foldl_images (fun _ _ => (imageMap_modify (forget_rename t)).symm) nbrs nodes

/-- Taking a node does not depend on the names. -/
theorem take_rename (g : ColorGraph) (t : Temp) :
    (g.rename ρ).take (ρ.temp t) = (g.take t).rename ρ := by
  rw [take, take, getElem?_nodes_rename]
  cases g.nodes[t]? with
  | none => simp [rename]
  | some node =>
    have hnode : imageMap ρ.temp (Node.rename ρ) (g.nodes.insert t { node with degreeNbrs := ∅ }) =
        (g.rename ρ).nodes.insert (ρ.temp t) { node.rename ρ with degreeNbrs := ∅ } := by
      rw [imageMap_insert, Node.rename, imageSet_empty]
      rfl
    simp only [Option.map_some, Std.ExtTreeSet.foldl_eq_foldl_toList]
    rw [← hnode]
    simp only [Node.rename, toList_imageSet]
    rw [forgetAll_rename]
    exact congrArg (ColorGraph.mk _ · _) imageSet_erase.symm

/-- The easy node is the same under its new name: the order of the nodes is kept. -/
theorem easy?_rename (g : ColorGraph) : (g.rename ρ).easy? = g.easy?.map ρ.temp := by
  rw [easy?, easy?, rename, toList_imageSet, List.find?_map]
  exact congrArg (fun p => (g.active.toList.find? p).map ρ.temp) (funext (isEasy_rename g))

/-- The risk of spilling a temporary does not depend on its name. -/
theorem risk_rename (g : ColorGraph) (spans : TempMap Nat) (spillTemps : TempSet) (t : Temp) :
    (g.rename ρ).risk (imageMap ρ.temp id spans) (imageSet ρ.temp spillTemps) (ρ.temp t) =
      g.risk spans spillTemps t := by
  have hspan : (imageMap ρ.temp id spans).getD (ρ.temp t) 0 = spans.getD t 0 :=
    getD_imageMap (g := id)
  rw [risk, risk, degree_rename, hspan]
  simp only [apply_mem_imageSet]

omit [KeepsOrder ρ.temp] in
/-- The riskiest of temporaries in order is the same under its new name. -/
theorem riskiestOf_map {risk risk' : Temp → Risk} (h : ∀ t, risk' (ρ.temp t) = risk t)
    (ts : List Temp) : riskiestOf risk' (ts.map ρ.temp) = (riskiestOf risk ts).map ρ.temp := by
  induction ts with
  | nil => rfl
  | cons t ts ih =>
    rw [List.map_cons, riskiestOf, riskiestOf, ih]
    cases riskiestOf risk ts with
    | none => rfl
    | some u =>
      simp only [Option.map_some, h]
      split <;> rfl

/-- The riskiest node is the same under its new name. -/
theorem riskiest?_rename (g : ColorGraph) (spans : TempMap Nat) (spillTemps : TempSet) :
    (g.rename ρ).riskiest? (imageMap ρ.temp id spans) (imageSet ρ.temp spillTemps) =
      (g.riskiest? spans spillTemps).map ρ.temp := by
  rw [riskiest?, riskiest?, show (g.rename ρ).active = imageSet ρ.temp g.active from rfl,
    toList_imageSet, riskiestOf_map (risk_rename g spans spillTemps)]

section Simplify

variable {g : ColorGraph} {spans : TempMap Nat} {spillTemps : TempSet} {t : Temp}

/-- Simplification takes an easy node first. -/
theorem simplify_of_easy (h : g.easy? = some t) :
    g.simplify spans spillTemps = (.easy t :: ((g.take t).simplify spans spillTemps).1,
      ((g.take t).simplify spans spillTemps).2) := by
  rw [simplify]
  split
  · next heasy =>
    rw [h] at heasy
    cases heasy
    rfl
  · next hnone =>
    rw [h] at hnone
    cases hnone

/-- If no node is easy, it takes the riskiest one. -/
theorem simplify_of_risky (h : g.easy? = none) (hrisky : g.riskiest? spans spillTemps = some t) :
    g.simplify spans spillTemps =
      (.risky t (g.degree t) spans[t]? :: ((g.take t).simplify spans spillTemps).1,
        ((g.take t).simplify spans spillTemps).2) := by
  rw [simplify]
  split
  · next heasy =>
    rw [h] at heasy
    cases heasy
  · split
    · next hsome =>
      rw [hrisky] at hsome
      cases hsome
      rfl
    · next hnone =>
      rw [hrisky] at hnone
      cases hnone

/-- It ends when no node is left. -/
theorem simplify_of_none (h : g.easy? = none) (hnone : g.riskiest? spans spillTemps = none) :
    g.simplify spans spillTemps = ([], g) := by
  rw [simplify]
  split
  · next heasy =>
    rw [h] at heasy
    cases heasy
  · split
    · next hsome =>
      rw [hnone] at hsome
      cases hsome
    · rfl

end Simplify

/-- Simplification makes the same picks under their new names. By induction on the picks. -/
theorem simplify_rename (g : ColorGraph) (spans : TempMap Nat) (spillTemps : TempSet) :
    (g.rename ρ).simplify (imageMap ρ.temp id spans) (imageSet ρ.temp spillTemps) =
      ((g.simplify spans spillTemps).1.map (Pick.rename ρ),
        (g.simplify spans spillTemps).2.rename ρ) := by
  fun_induction simplify g spans spillTemps with
  | case1 g t heasy _ picks rest heq ih =>
    rw [simplify_of_easy (by rw [easy?_rename, heasy, Option.map_some]), take_rename, ih, heq]
    rfl
  | case2 g hnone t hrisky _ picks rest heq ih =>
    rw [simplify_of_risky (by rw [easy?_rename, hnone, Option.map_none])
      (by rw [riskiest?_rename, hrisky, Option.map_some]), take_rename, ih, heq, degree_rename,
      getElem?_imageMap, Option.map_id_apply]
    rfl
  | case3 g hnone hnone' =>
    rw [simplify_of_none (by rw [easy?_rename, hnone, Option.map_none])
      (by rw [riskiest?_rename, hnone', Option.map_none])]
    rfl

-- ── Putting nodes back ───────────────────────────────────────────────────────

/-- The registers around a node do not depend on the names. -/
theorem registersAround_rename (g : ColorGraph) (t : Temp) :
    (g.rename ρ).registersAround (ρ.temp t) = g.registersAround t := by
  rw [registersAround, registersAround, getElem?_nodes_rename]
  cases g.nodes[t]? with
  | none => rfl
  | some node =>
    dsimp only [Option.map_some, Node.rename]
    rw [toList_imageSet, List.filterMap_map]
    have hregister : ∀ nbr, ((g.rename ρ).nodes[ρ.temp nbr]?).bind (·.register) =
        g.nodes[nbr]?.bind (·.register) := by
      intro nbr
      rw [getElem?_nodes_rename]
      cases g.nodes[nbr]? <;> rfl
    exact congrArg (fun f => (Std.ExtTreeSet.ofList (node.colorNbrs.toList.filterMap f) compare))
      (funext hregister)

/-- The free register of a node does not depend on the names. -/
theorem freeRegister?_rename (g : ColorGraph) (t : Temp) :
    (g.rename ρ).freeRegister? (ρ.temp t) = g.freeRegister? t := by
  rw [freeRegister?, freeRegister?, registersAround_rename]
  rfl

theorem assign_rename (g : ColorGraph) (t : Temp) (r : Nat) :
    (g.rename ρ).assign (ρ.temp t) r = (g.assign t r).rename ρ := by
  rw [assign, assign, rename, rename]
  refine congrArg (ColorGraph.mk · _ _) (Eq.symm (imageMap_modify ?_))
  exact fun node => rfl

/-- Putting back nodes gives them the same registers under their new names. By induction on the
    list. -/
theorem selectAll_rename (g : ColorGraph) (ts : List Temp) :
    (g.rename ρ).selectAll (ts.map ρ.temp) = (g.selectAll ts).rename ρ := by
  induction ts generalizing g with
  | nil => rfl
  | cons t ts ih =>
    rw [List.map_cons, selectAll, selectAll, freeRegister?_rename]
    cases g.freeRegister? t with
    | none => rfl
    | some r =>
      dsimp only
      rw [assign_rename, ih]
      rfl

/-- The assignments of a renamed graph are the renamed assignments. -/
theorem assignments_rename (g : ColorGraph) :
    (g.rename ρ).assignments = imageMap ρ.temp id g.assignments := by
  rw [assignments, assignments, rename]
  exact (imageMap_filterMap fun t node => (Option.map_id_apply ..).symm).symm

end ColorGraph

-- ── Live ranges ──────────────────────────────────────────────────────────────

section Spans

variable [KeepsOrder ρ.temp]

/-- Recording something for each instruction of a list goes over if it does for one. -/
theorem foldl_instrs_imageMap {f : TempMap Nat → Instr × Nat → TempMap Nat}
    (hf : ∀ m i n, f (imageMap ρ.temp id m) (i.rename ρ, n) = imageMap ρ.temp id (f m (i, n)))
    (instrs : List Instr) :
    (instrs.map (Instr.rename ρ)).zipIdx.foldl f ∅ =
      imageMap ρ.temp id (instrs.zipIdx.foldl f ∅) := by
  have hfold := foldl_images (f := fun row : Instr × Nat => (row.1.rename ρ, row.2)) (q := f)
    (fun m row => hf m row.1 row.2) instrs.zipIdx ∅
  rw [imageMap_empty] at hfold
  rw [List.zipIdx_map]
  exact hfold

theorem firstDefs_rename (instrs : List Instr) :
    firstDefs (instrs.map (Instr.rename ρ)) = imageMap ρ.temp id (firstDefs instrs) := by
  refine foldl_instrs_imageMap (fun m i n => ?_) instrs
  dsimp only
  rw [Instr.defs_rename]
  exact foldl_images (fun m t => imageMap_insertIfNew.symm) i.defs m

theorem lastUses_rename (instrs : List Instr) :
    lastUses (instrs.map (Instr.rename ρ)) = imageMap ρ.temp id (lastUses instrs) := by
  refine foldl_instrs_imageMap (fun m i n => ?_) instrs
  dsimp only
  rw [Instr.uses_rename]
  exact foldl_images (fun m t => imageMap_insert.symm) i.uses m

/-- The spans of temporaries do not depend on their names. -/
theorem liveSpans_rename (instrs : List Instr) :
    liveSpans (instrs.map (Instr.rename ρ)) = imageMap ρ.temp id (liveSpans instrs) := by
  have hspans := imageMap_map (f := ρ.temp) (g := (id : Nat → Nat)) (p := (id : Nat → Nat))
    (m := lastUses instrs)
    (h := fun t last => last - (firstDefs instrs).getD t 0)
    (q := fun t last => last - (imageMap ρ.temp id (firstDefs instrs)).getD t 0)
    fun t last => congrArg (last - ·) (getD_imageMap (g := id))
  rw [liveSpans, firstDefs_rename, lastUses_rename, ← hspans, keys_imageMap]
  exact foldl_images (fun m t => imageMap_insertIfNew.symm) _ _

end Spans

-- ── A whole attempt ──────────────────────────────────────────────────────────

/-- An attempt gives the same registers, or gets stuck on the same temporary. -/
theorem Attempt.selection_rename [KeepsOrder ρ.temp] [KeepsOrder ρ.label] (k : Nat)
    (spillTemps : TempSet) (code : Code) :
    (make k (imageSet ρ.temp spillTemps) (code.rename ρ)).selection =
      (make k spillTemps code).selection.rename ρ := by
  have hpre : ({(ρ.temp code.frame.pointer, framePointer)} : TempMap Nat) =
      imageMap ρ.temp id {(code.frame.pointer, framePointer)} := by
    show (∅ : TempMap Nat).insert _ _ = imageMap ρ.temp id ((∅ : TempMap Nat).insert _ _)
    rw [imageMap_insert, imageMap_empty]
    rfl
  have htemps : ∀ picks : List ColorGraph.Pick,
      ((picks.map (ColorGraph.Pick.rename ρ)).map (·.temp)).reverse =
        (picks.map (·.temp)).reverse.map ρ.temp := by
    intro picks
    rw [List.map_map, List.map_reverse, List.map_map]
    exact congrArg List.reverse (List.map_congr_left fun p _ => p.temp_rename)
  simp only [make, Code.liveness_rename]
  rw [show (code.rename ρ).instrs = code.instrs.map (Instr.rename ρ) from rfl,
    show (code.rename ρ).frame.pointer = ρ.temp code.frame.pointer from rfl, hpre,
    Interference.compute_rename, ColorGraph.ofInterference_rename, liveSpans_rename,
    ColorGraph.simplify_rename]
  dsimp only
  rw [htemps, ColorGraph.selectAll_rename]

end MmixBackend
