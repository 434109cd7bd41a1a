import MmixBackend.Block.Layout
import MmixBackend.Proofs.Renaming

/-!
# Blocks under other names

Folding labels, cutting blocks, joining and writing them look labels up and compare them. Under
other names they make the same decisions in the same order, so the code that is laid out in the end
is the same under the other names.

* **`foldLabels_rename`**, **`cutBlock_rename`** — from code to blocks.
* **`canMerge_rename`** — the same blocks may be joined, and **`mergeAll_rename`** the same are.
* **`linearize_rename`** — from blocks to code.
* **`mirrors_layOut`** — a function.
-/

namespace MmixBackend

open Flat

variable {ρ : Renaming}

-- ── Statements ───────────────────────────────────────────────────────────────

@[simp] theorem targets_rename (t : Transfer) : (t.rename ρ).targets = t.targets.map ρ.label := by
  cases t <;> rfl

@[simp] theorem jump?_rename (t : Transfer) : (t.rename ρ).jump? = t.jump?.map ρ.label := by
  cases t <;> rfl

@[simp] theorem negative?_rename (t : Transfer) :
    (t.rename ρ).negative? = t.negative?.map ρ.label := by
  cases t <;> rfl

/-- Other targets, chosen by old or by new names. -/
theorem retarget_rename {f f' : Label → Label} (h : ∀ l, f' (ρ.label l) = ρ.label (f l))
    (st : Stmt) : (st.retarget f).rename ρ = (st.rename ρ).retarget f' := by
  cases st with
  | label l => rfl
  | act a => rfl
  | transfer t => cases t <;> simp [Stmt.retarget, Stmt.rename, Transfer.retarget,
      Transfer.rename, h]

/-- The labels in a row are the same under their new names. -/
theorem labelAliases_rename (kept : Option Label) (stmts : List Stmt) :
    labelAliases (kept.map ρ.label) (stmts.map (Stmt.rename ρ)) =
      (labelAliases kept stmts).map fun p => (ρ.label p.1, ρ.label p.2) := by
  induction stmts generalizing kept with
  | nil => rfl
  | cons st stmts ih =>
    cases st with
    | label l =>
      cases kept with
      | none => exact ih (some l)
      | some k => exact congrArg ((ρ.label l, ρ.label k) :: ·) (ih (some k))
    | act a => exact ih none
    | transfer t => exact ih none

theorem dropAliases_rename (kept : Option Label) (stmts : List Stmt) :
    dropAliases (kept.map ρ.label) (stmts.map (Stmt.rename ρ)) =
      (dropAliases kept stmts).map (Stmt.rename ρ) := by
  induction stmts generalizing kept with
  | nil => rfl
  | cons st stmts ih =>
    cases st with
    | label l =>
      cases kept with
      | none => exact congrArg (Stmt.label (ρ.label l) :: ·) (ih (some l))
      | some k => exact ih (some k)
    | act a => exact congrArg (Stmt.act (a.rename ρ) :: ·) (ih none)
    | transfer t => exact congrArg (Stmt.transfer (t.rename ρ) :: ·) (ih none)

/-- Folding labels does not depend on the names. -/
theorem foldLabels_rename [KeepsOrder ρ.label] (stmts : List Stmt) :
    foldLabels (stmts.map (Stmt.rename ρ)) = (foldLabels stmts).map (Stmt.rename ρ) := by
  have haliases := labelAliases_rename (ρ := ρ) none stmts
  have hdrop := dropAliases_rename (ρ := ρ) none stmts
  rw [Option.map_none] at haliases hdrop
  rw [foldLabels, foldLabels, haliases, hdrop, ← imageMap_ofList, List.map_map, List.map_map]
  refine List.map_congr_left fun st _ => ?_
  refine (retarget_rename (fun l => ?_) st).symm
  exact getD_imageMap

-- ── Blocks ───────────────────────────────────────────────────────────────────

/-- A block under other names. -/
def Block.rename (ρ : Renaming) (b : Block) : Block :=
  ⟨ρ.label b.label, b.body.map (Action.rename ρ), b.last.rename ρ⟩

@[simp] theorem successors_rename (b : Block) :
    (b.rename ρ).successors = b.successors.map ρ.label := targets_rename b.last

theorem stmts_rename (b : Block) : (b.rename ρ).stmts = b.stmts.map (Stmt.rename ρ) := by
  simp [Block.stmts, Block.rename, Stmt.rename, Function.comp_def]

mutual

/-- Cutting a block off does not depend on the names. By induction on the statements, together with
    the next one. -/
theorem cutBlock_rename [KeepsOrder ρ.label] (exit l : Label) (body : List Action) :
    ∀ stmts : List Stmt,
      cutBlock (ρ.label exit) (ρ.label l) (body.map (Action.rename ρ)) (stmts.map (Stmt.rename ρ)) =
        (cutBlock exit l body stmts).map (Block.rename ρ)
  | [] => rfl
  | .label l' :: rest => by
    have hsame := cutBlock_rename exit l body rest
    have hnext := cutBlock_rename exit l' [] rest
    rw [List.map_cons, Stmt.rename, cutBlock, cutBlock]
    simp only [Renaming.label_eq_iff, List.map_eq_nil_iff]
    split
    · exact hsame
    · exact congrArg (Block.rename ρ ⟨l, body, .jump l'⟩ :: ·) hnext
  | .act a :: rest => by
    have h := cutBlock_rename exit l (body ++ [a]) rest
    rw [List.map_append] at h
    exact h
  | .transfer t :: rest => congrArg (Block.rename ρ ⟨l, body, t⟩ :: ·) (cutDead_rename exit rest)

theorem cutDead_rename [KeepsOrder ρ.label] (exit : Label) :
    ∀ stmts : List Stmt,
      cutDead (ρ.label exit) (stmts.map (Stmt.rename ρ)) =
        (cutDead exit stmts).map (Block.rename ρ)
  | [] => rfl
  | .label l :: rest => cutBlock_rename exit l [] rest
  | .act _ :: rest => cutDead_rename exit rest
  | .transfer _ :: rest => cutDead_rename exit rest

end

namespace BlockGraph

/-- A graph of blocks under other names. -/
def rename (ρ : Renaming) (g : BlockGraph) : BlockGraph where
  entry := ρ.label g.entry
  order := g.order.map ρ.label
  blocks := imageMap ρ.label (Block.rename ρ) g.blocks
  next := imageMap ρ.label ρ.label g.next

variable [KeepsOrder ρ.label]

theorem insert_rename (g : BlockGraph) (b : Block) :
    (g.rename ρ).insert (b.rename ρ) = (g.insert b).rename ρ := by
  simp [insert, rename, Block.rename]

/-- The graph of blocks does not depend on the names. -/
theorem ofBlocks_rename (entry : Label) (bs : List Block) :
    ofBlocks (ρ.label entry) (bs.map (Block.rename ρ)) = (ofBlocks entry bs).rename ρ := by
  have hfold := foldl_images (insert_rename (ρ := ρ)) bs
    { entry, order := [], blocks := ∅, next := ∅ }
  rw [rename, imageMap_empty, imageMap_empty] at hfold
  exact hfold

/-- Cutting statements into blocks does not depend on the names. -/
theorem mirrors_ofStmts {ω : Type} {d : Supply} {item : ω → ω} (stmts : List Stmt) (exit : Label) :
    Mirrors ρ d item (rename ρ) (Emit.ofSupply (ofStmts stmts exit))
      (Emit.ofSupply (ofStmts (stmts.map (Stmt.rename ρ)) (ρ.label exit))) := by
  have hcut := fun l => cutBlock_rename (ρ := ρ) exit l [] stmts
  have hold : ∀ l, ofBlocks (ρ.label l)
      (cutBlock (ρ.label exit) (ρ.label l) [] (stmts.map (Stmt.rename ρ))) =
        (ofBlocks l (cutBlock exit l [] stmts)).rename ρ := by
    intro l
    rw [← ofBlocks_rename, ← hcut, List.map_nil]
  have hfresh : Mirrors ρ d item (rename ρ)
      (Emit.freshLabel >>= fun l => pure (ofBlocks l (cutBlock exit l [] stmts)) : Emit ω _)
      (Emit.freshLabel >>= fun l =>
        pure (ofBlocks l (cutBlock (ρ.label exit) l [] (stmts.map (Stmt.rename ρ))))) := by
    refine mirrors_freshLabel.bind fun l => ?_
    rw [hold]
    exact mirrors_pure _
  cases stmts with
  | nil => exact hfresh
  | cons st stmts =>
    cases st with
    | label l => exact mirrors_pure_of_eq (hold l).symm
    | act a => exact hfresh
    | transfer t => exact hfresh

-- ── Blocks that are reached ──────────────────────────────────────────────────

section Reached

variable {unseen : LabelMap Block} {l : Label} {todo : List Label} {b : Block}

/-- A label without a block to be seen is passed over. -/
theorem unreached_of_none (h : unseen[l]? = none) :
    unreached unseen (l :: todo) = unreached unseen todo := by
  rw [unreached]
  split
  · rfl
  · next hsome =>
    rw [h] at hsome
    cases hsome

/-- A block that is reached is taken away, and its successors are reached as well. -/
theorem unreached_of_some (h : unseen[l]? = some b) :
    unreached unseen (l :: todo) = unreached (unseen.erase l) (b.successors ++ todo) := by
  rw [unreached]
  split
  · next hnone =>
    rw [h] at hnone
    cases hnone
  · next hsome =>
    rw [h] at hsome
    cases hsome
    rfl

end Reached

/-- What is not reached is the same under its new names. By induction on the search. -/
theorem unreached_rename (unseen : LabelMap Block) (todo : List Label) :
    unreached (imageMap ρ.label (Block.rename ρ) unseen) (todo.map ρ.label) =
      imageMap ρ.label (Block.rename ρ) (unreached unseen todo) := by
  fun_induction unreached unseen todo with
  | case1 unseen => rw [List.map_nil, unreached]
  | case2 unseen l todo hnone ih =>
    rw [List.map_cons, unreached_of_none (by rw [getElem?_imageMap, hnone, Option.map_none]), ih]
  | case3 unseen l todo b hsome _ ih =>
    rw [List.map_cons, unreached_of_some (by rw [getElem?_imageMap, hsome, Option.map_some]),
      ← ih, imageMap_erase, successors_rename, List.map_append]

theorem unreachable_rename (g : BlockGraph) :
    (g.rename ρ).unreachable = imageMap ρ.label (Block.rename ρ) g.unreachable :=
  unreached_rename g.blocks [g.entry]

/-- Dropping what is not reachable does not depend on the names. -/
theorem dropUnreachable_rename (g : BlockGraph) :
    (g.rename ρ).dropUnreachable = g.dropUnreachable.rename ρ := by
  have hlost : ∀ l, ρ.label l ∉ (g.rename ρ).unreachable ↔ l ∉ g.unreachable := by
    intro l
    rw [unreachable_rename, apply_mem_imageMap]
  have horder : (g.rename ρ).order.filter (· ∉ (g.rename ρ).unreachable) =
      (g.order.filter (· ∉ g.unreachable)).map ρ.label := by
    refine filter_images (fun l => ?_) g.order
    exact decide_eq_decide.mpr (hlost l)
  have hblocks := imageMap_filter (f := ρ.label) (g := Block.rename ρ) (m := g.blocks)
    (p := fun l _ => l ∉ g.unreachable) (q := fun l _ => l ∉ (g.rename ρ).unreachable)
    fun l _ => decide_eq_decide.mpr (hlost l)
  rw [dropUnreachable, dropUnreachable, horder]
  exact congrArg (BlockGraph.mk _ _ · _) hblocks.symm

-- ── Blocks that may be joined ────────────────────────────────────────────────

/-- A block has as many ways into it under another name. -/
theorem incoming_rename (g : BlockGraph) (l : Label) :
    (g.rename ρ).incoming (ρ.label l) = g.incoming l := by
  rw [incoming, rename]
  dsimp only
  rw [toList_imageMap, List.flatMap_map]
  simp only [successors_rename]
  rw [← List.map_flatMap, List.count, List.countP_map, incoming, List.count]
  refine List.countP_congr fun x _ => ?_
  simp

theorem onlySuccessor?_rename (g : BlockGraph) (l : Label) :
    (g.rename ρ).onlySuccessor? (ρ.label l) = (g.onlySuccessor? l).map ρ.label := by
  have hjump : ((g.rename ρ).blocks[ρ.label l]?.bind (·.last.jump?)).filter
      (· ∈ (g.rename ρ).blocks) =
        ((g.blocks[l]?.bind (·.last.jump?)).filter (· ∈ g.blocks)).map ρ.label := by
    rw [rename]
    dsimp only
    rw [getElem?_imageMap]
    cases g.blocks[l]? with
    | none => rfl
    | some b =>
      show ((b.last.rename ρ).jump?).filter _ = (b.last.jump?.filter _).map ρ.label
      rw [jump?_rename, Option.filter_map]
      refine congrArg (Option.map ρ.label) (congrArg (Option.filter · _) (funext fun x => ?_))
      exact decide_eq_decide.mpr apply_mem_imageMap
  rw [onlySuccessor?, onlySuccessor?, hjump, rename]
  dsimp only
  rw [getElem?_imageMap]
  cases g.next[l]? <;> rfl

/-- Whether a chain leads somewhere does not depend on the names. -/
theorem leadsTo_rename (g : BlockGraph) (goal : Label) (n : Nat) (l : Label) :
    (g.rename ρ).leadsTo (ρ.label goal) n (ρ.label l) = g.leadsTo goal n l := by
  induction n generalizing l with
  | zero => rfl
  | succ n ih =>
    rw [leadsTo, leadsTo, onlySuccessor?_rename]
    simp only [Renaming.label_eq_iff]
    cases g.onlySuccessor? l with
    | none => rfl
    | some l' =>
      dsimp only [Option.map_some]
      rw [ih]

/-- Whether a block is in a chain does not depend on the names. -/
theorem isChained_rename (g : BlockGraph) (l : Label) :
    (g.rename ρ).isChained (ρ.label l) = g.isChained l :=
  any_imageMap fun _ _ => decide_eq_decide.mpr Renaming.label_eq_iff

theorem size_rename (g : BlockGraph) : (g.rename ρ).size = g.size := size_imageMap

/-- The same blocks may be joined. -/
theorem canMerge_rename (g : BlockGraph) (a b : Label) :
    (g.rename ρ).canMerge (ρ.label a) (ρ.label b) = g.canMerge a b := by
  rw [canMerge, canMerge, incoming_rename, isChained_rename, leadsTo_rename, size_rename]
  simp [rename]

-- ── Moves ────────────────────────────────────────────────────────────────────

/-- A move under other names. -/
def Move.rename (ρ : Renaming) : Move → Move
  | .place a b => .place (ρ.label a) (ρ.label b)
  | .absorb a b => .absorb (ρ.label a) (ρ.label b)

/-- Placing a block behind another one does not depend on the names. -/
theorem place_rename (g : BlockGraph) (a b : Label) :
    (g.rename ρ).place (ρ.label a) (ρ.label b) = (g.place a b).rename ρ := by
  simp [place, rename]

/-- Absorbing a block does not depend on the names. -/
theorem absorb_rename (g : BlockGraph) (a b : Label) :
    (g.rename ρ).absorb (ρ.label a) (ρ.label b) = (g.absorb a b).rename ρ := by
  rw [absorb, absorb, rename]
  dsimp only
  rw [getElem?_imageMap]
  cases g.blocks[b]? with
  | none => rfl
  | some taken =>
    have horder : (g.order.map ρ.label).filter (· ≠ ρ.label b) =
        (g.order.filter (· ≠ b)).map ρ.label := by
      refine filter_images (fun l => ?_) g.order
      exact decide_eq_decide.mpr (not_congr Renaming.label_eq_iff)
    have hblocks := imageMap_modify (f := ρ.label) (g := Block.rename ρ) (m := g.blocks.erase b)
      (a := a) (h := fun block =>
        { block with body := block.body ++ taken.body, last := taken.last })
      (q := fun block =>
        { block with body := block.body ++ (taken.rename ρ).body, last := (taken.rename ρ).last })
      fun block => by simp [Block.rename]
    rw [imageMap_erase] at hblocks
    rw [Option.map_some]
    dsimp only
    rw [horder, ← hblocks, getElem?_imageMap, rename]
    cases g.next[b]? with
    | none => rfl
    | some n => simp

theorem joinable?_rename {pick : Transfer → Option Label}
    (hpick : ∀ t : Transfer, pick (t.rename ρ) = (pick t).map ρ.label) (g : BlockGraph)
    (a : Label) :
    (g.rename ρ).joinable? pick (ρ.label a) =
      (g.joinable? pick a).map fun p => (ρ.label p.1, ρ.label p.2) := by
  have hget : (g.rename ρ).blocks[ρ.label a]? = g.blocks[a]?.map (Block.rename ρ) :=
    getElem?_imageMap
  simp only [joinable?, Option.bind_eq_bind, hget]
  cases g.blocks[a]? with
  | none => rfl
  | some block =>
    show (pick (block.last.rename ρ)).bind _ = ((pick block.last).bind _).map _
    rw [hpick]
    cases pick block.last with
    | none => rfl
    | some b =>
      show (if (g.rename ρ).canMerge (ρ.label a) (ρ.label b) then _ else _) =
        (if g.canMerge a b then _ else _ : Option (Label × Label)).map _
      rw [canMerge_rename]
      split <;> rfl

/-- The first two blocks to be joined are the same under their new names: the order of the blocks is
    kept. -/
theorem findJoinable_rename {pick : Transfer → Option Label}
    (hpick : ∀ t : Transfer, pick (t.rename ρ) = (pick t).map ρ.label) (g : BlockGraph) :
    (g.rename ρ).order.findSome? ((g.rename ρ).joinable? pick) =
      (g.order.findSome? (g.joinable? pick)).map fun p => (ρ.label p.1, ρ.label p.2) := by
  rw [show (g.rename ρ).order = g.order.map ρ.label from rfl, List.findSome?_map,
    List.map_findSome?]
  refine congrArg (List.findSome? · g.order) (funext fun a => ?_)
  exact joinable?_rename hpick g a

/-- The next block to be placed is the same under its new name. -/
theorem placeable?_rename (g : BlockGraph) :
    (g.rename ρ).placeable? = g.placeable?.map fun p => (ρ.label p.1, ρ.label p.2) :=
  findJoinable_rename negative?_rename g

/-- The next block to be absorbed is the same under its new name. -/
theorem absorbable?_rename (g : BlockGraph) :
    (g.rename ρ).absorbable? = g.absorbable?.map fun p => (ρ.label p.1, ρ.label p.2) :=
  findJoinable_rename jump?_rename g

/-- Moves and the graph they lead to, under other names. -/
def renameMerged (ρ : Renaming) (r : List Move × BlockGraph) : List Move × BlockGraph :=
  (r.1.map (Move.rename ρ), r.2.rename ρ)

section Moves

variable {g : BlockGraph} {a b : Label}

/-- Placing ends when no block can be placed. -/
theorem placeAll_of_none (h : g.placeable? = none) : g.placeAll = ([], g) := by
  rw [placeAll]
  split
  · rfl
  · next hsome =>
    rw [h] at hsome
    cases hsome

/-- Placing goes on from where the first block was placed. -/
theorem placeAll_of_some (h : g.placeable? = some (a, b)) :
    g.placeAll = (.place a b :: (g.place a b).placeAll.1, (g.place a b).placeAll.2) := by
  rw [placeAll]
  split
  · next hnone =>
    rw [h] at hnone
    cases hnone
  · next hsome =>
    rw [h] at hsome
    cases hsome
    rfl

/-- Absorbing ends when no block can be absorbed. -/
theorem absorbAll_of_none (h : g.absorbable? = none) : g.absorbAll = ([], g) := by
  rw [absorbAll]
  split
  · rfl
  · next hsome =>
    rw [h] at hsome
    cases hsome

/-- Absorbing goes on from where the first block was absorbed. -/
theorem absorbAll_of_some (h : g.absorbable? = some (a, b)) :
    g.absorbAll = (.absorb a b :: (g.absorb a b).absorbAll.1, (g.absorb a b).absorbAll.2) := by
  rw [absorbAll]
  split
  · next hnone =>
    rw [h] at hnone
    cases hnone
  · next hsome =>
    rw [h] at hsome
    cases hsome
    rfl

end Moves

/-- All blocks are placed the same under their new names. By induction on the moves. -/
theorem placeAll_rename (g : BlockGraph) : (g.rename ρ).placeAll = renameMerged ρ g.placeAll := by
  fun_induction placeAll g with
  | case1 g hnone =>
    rw [placeAll_of_none (by rw [placeable?_rename, hnone, Option.map_none])]
    rfl
  | case2 g a b hsome _ moves g' heq ih =>
    rw [placeAll_of_some (by rw [placeable?_rename, hsome, Option.map_some]), place_rename, ih, heq]
    rfl

/-- All blocks are absorbed the same under their new names. By induction on the moves. -/
theorem absorbAll_rename (g : BlockGraph) :
    (g.rename ρ).absorbAll = renameMerged ρ g.absorbAll := by
  fun_induction absorbAll g with
  | case1 g hnone =>
    rw [absorbAll_of_none (by rw [absorbable?_rename, hnone, Option.map_none])]
    rfl
  | case2 g a b hsome _ moves g' heq ih =>
    rw [absorbAll_of_some (by rw [absorbable?_rename, hsome, Option.map_some]), absorb_rename, ih,
      heq]
    rfl

theorem absorbAll_placeAll_rename (g : BlockGraph) :
    (g.rename ρ).placeAll.2.absorbAll = renameMerged ρ g.placeAll.2.absorbAll := by
  rw [placeAll_rename]
  exact absorbAll_rename g.placeAll.2

/-- Merging ends when nothing was absorbed. -/
theorem mergeAll_of_nil {g : BlockGraph} (h : g.placeAll.2.absorbAll.1 = []) :
    g.mergeAll = (g.placeAll.1, g.placeAll.2.absorbAll.2) := by
  rw [mergeAll]
  exact dif_pos h

/-- It goes on as long as something was absorbed. -/
theorem mergeAll_of_ne_nil {g : BlockGraph} (h : g.placeAll.2.absorbAll.1 ≠ []) :
    g.mergeAll = (g.placeAll.1 ++ g.placeAll.2.absorbAll.1 ++
      g.placeAll.2.absorbAll.2.mergeAll.1, g.placeAll.2.absorbAll.2.mergeAll.2) := by
  rw [mergeAll]
  exact dif_neg h

/-- The same blocks are joined, in the same order. -/
theorem mergeAll_rename (g : BlockGraph) : (g.rename ρ).mergeAll = renameMerged ρ g.mergeAll := by
  fun_induction mergeAll g with
  | case1 g placed absorbed h =>
    have hnil : (g.rename ρ).placeAll.2.absorbAll.1 = [] := by
      rw [absorbAll_placeAll_rename]
      exact List.map_eq_nil_iff.mpr h
    rw [mergeAll_of_nil hnil, absorbAll_placeAll_rename, placeAll_rename]
    rfl
  | case2 g placed absorbed h _ rest ih =>
    have hne : (g.rename ρ).placeAll.2.absorbAll.1 ≠ [] := by
      rw [absorbAll_placeAll_rename]
      exact fun hnil => h (List.map_eq_nil_iff.mp hnil)
    have hrest : (renameMerged ρ absorbed).2.mergeAll = renameMerged ρ rest := ih
    rw [mergeAll_of_ne_nil hne, absorbAll_placeAll_rename, placeAll_rename, hrest]
    simp only [renameMerged, List.map_append]
    rfl

/-- Merging makes the same moves under the new names. -/
theorem merge_rename (g : BlockGraph) : (g.rename ρ).merge = renameMerged ρ g.merge := by
  rw [merge, dropUnreachable_rename, mergeAll_rename, merge]

-- ── Writing blocks ───────────────────────────────────────────────────────────

section Chains

variable {next : LabelMap Label} {blocks : LabelMap Block} {l l' : Label} {b : Block}

/-- A chain ends where the block was written before. -/
theorem writeChain_of_none (h : blocks[l]? = none) : writeChain next blocks l = ([], blocks) := by
  rw [writeChain]
  split
  · rfl
  · next hsome =>
    rw [h] at hsome
    cases hsome

/-- It ends with a block that has none placed behind it. -/
theorem writeChain_of_last (h : blocks[l]? = some b) (hnext : next[l]? = none) :
    writeChain next blocks l = (b.stmts, blocks.erase l) := by
  rw [writeChain]
  split
  · next hnone =>
    rw [h] at hnone
    cases hnone
  · next hsome =>
    rw [h] at hsome
    cases hsome
    simp only [hnext]

/-- It goes on with the block that is placed behind. -/
theorem writeChain_of_next (h : blocks[l]? = some b) (hnext : next[l]? = some l') :
    writeChain next blocks l =
      (b.stmts ++ (writeChain next (blocks.erase l) l').1,
        (writeChain next (blocks.erase l) l').2) := by
  rw [writeChain]
  split
  · next hnone =>
    rw [h] at hnone
    cases hnone
  · next hsome =>
    rw [h] at hsome
    cases hsome
    simp only [hnext]

end Chains

/-- A chain is written the same under the new names. By induction on the chain. -/
theorem writeChain_rename (next : LabelMap Label) (blocks : LabelMap Block) (l : Label) :
    writeChain (imageMap ρ.label ρ.label next) (imageMap ρ.label (Block.rename ρ) blocks)
        (ρ.label l) =
      ((writeChain next blocks l).1.map (Stmt.rename ρ),
        imageMap ρ.label (Block.rename ρ) (writeChain next blocks l).2) := by
  fun_induction writeChain next blocks l with
  | case1 blocks l hnone =>
    rw [writeChain_of_none (by rw [getElem?_imageMap, hnone, Option.map_none])]
    rfl
  | case2 blocks l b hsome _ hnext =>
    rw [writeChain_of_last (by rw [getElem?_imageMap, hsome, Option.map_some])
      (by rw [getElem?_imageMap, hnext, Option.map_none])]
    simp [stmts_rename]
  | case3 blocks l b hsome _ l' hnext rest left heq ih =>
    rw [writeChain_of_next (by rw [getElem?_imageMap, hsome, Option.map_some])
      (by rw [getElem?_imageMap, hnext, Option.map_some]), ← imageMap_erase, ih, heq]
    simp [stmts_rename]

theorem writeChains_rename (next : LabelMap Label) (blocks : LabelMap Block) (ls : List Label) :
    writeChains (imageMap ρ.label ρ.label next) (imageMap ρ.label (Block.rename ρ) blocks)
        (ls.map ρ.label) =
      (writeChains next blocks ls).map (Stmt.rename ρ) := by
  induction ls generalizing blocks with
  | nil => rfl
  | cons l ls ih =>
    rw [List.map_cons, writeChains, writeChain_rename]
    dsimp only
    rw [ih, writeChains, List.map_append]

theorem heads_rename (g : BlockGraph) : (g.rename ρ).heads = g.heads.map ρ.label := by
  have hfirst : (g.rename ρ).order.filter
      (fun l => l ≠ (g.rename ρ).entry && !(g.rename ρ).isChained l) =
        (g.order.filter fun l => l ≠ g.entry && !g.isChained l).map ρ.label := by
    refine filter_images (fun l => ?_) g.order
    show (ρ.label l ≠ ρ.label g.entry && !(g.rename ρ).isChained (ρ.label l)) = _
    simp [isChained_rename]
  have hsecond : (g.rename ρ).order.filter (g.rename ρ).isChained =
      (g.order.filter g.isChained).map ρ.label := filter_images (isChained_rename g) g.order
  rw [heads, heads, hfirst, hsecond, List.map_append, List.map_cons]
  rfl

/-- The statements of a renamed graph are the renamed statements. -/
theorem linearize_rename (g : BlockGraph) :
    (g.rename ρ).linearize = g.linearize.map (Stmt.rename ρ) := by
  rw [linearize, heads_rename]
  exact writeChains_rename g.next g.blocks g.heads

end BlockGraph

-- ── A whole function ─────────────────────────────────────────────────────────

namespace Flat.Function

variable [KeepsOrder ρ.label] {ω : Type} {d : Supply} {item : ω → ω}

/-- Building the blocks of a function does not depend on the names. -/
theorem mirrors_buildBlocks (f : Function) :
    Mirrors ρ d item (BlockGraph.rename ρ) (f.buildBlocks : Emit ω BlockGraph)
      (f.rename ρ).buildBlocks := by
  rw [buildBlocks, buildBlocks]
  dsimp only [rename]
  rw [foldLabels_rename]
  refine (BlockGraph.mirrors_ofStmts _ _).bind fun g => ?_
  rw [BlockGraph.merge_rename]
  exact (mirrors_reportAll _ _).bind fun _ => mirrors_pure g.merge.2

/-- Laying out the blocks of a function does not depend on the names. -/
theorem mirrors_layOut (f : Function) :
    Mirrors ρ d item (rename ρ) (f.layOut : Emit ω Function) (f.rename ρ).layOut := by
  refine (mirrors_buildBlocks f).bind fun g => ?_
  rw [BlockGraph.linearize_rename]
  exact mirrors_pure { f with stmts := g.linearize }

end Flat.Function

end MmixBackend
