import Mathlib.Order.WellFoundedSet
import MmixBackend.Proofs.Image
import MmixBackend.Proofs.LayoutContents

/-!
# Chains of blocks

While blocks are merged, some are chained: `next[a] = b` promises that `b` is laid out directly
behind `a`. Merging makes one move after the other, and a move may take a chain from one block to
another one. Whatever moves are made, the promises can all be kept.

* **`Chained`** — what holds of the table of blocks and of its chains: a chain goes from a branch to
  its negative target, which has no other way in; no block is behind two others, and no chain goes
  in a circle.
* **`Chained.step`**, **`Chained.steps`** — one move keeps this, and so do any number of them.
* **`Intact.writeChain`** — a chain of which nothing is missing is written without a gap.
* **`chains_stay_adjacent`** — so all blocks are written once, and chained ones without a gap.
-/

namespace MmixBackend

open Flat

-- ── Edges that close no circle ───────────────────────────────────────────────

section Edge

variable {α : Type} {r r' : α → α → Prop} {a : α} {E : α → Prop}

/-- With new edges from `a`, a path goes either over the old edges only, or to `a` and then on from
    an end of a new edge. -/
theorem transGen_of_edges (hr : ∀ x y, r' x y → r x y ∨ x = a ∧ E y) {x y : α}
    (h : Relation.TransGen r' x y) :
    Relation.TransGen r x y ∨
      Relation.ReflTransGen r x a ∧ ∃ z, E z ∧ Relation.ReflTransGen r z y := by
  induction h with
  | single h =>
      rcases hr _ _ h with h | ⟨rfl, hend⟩
      · exact .inl (.single h)
      · exact .inr ⟨.refl, _, hend, .refl⟩
  | tail _ h ih =>
      rcases hr _ _ h with h | ⟨rfl, hend⟩
      · rcases ih with ih | ⟨hx, z, hz, hzy⟩
        · exact .inl (ih.tail h)
        · exact .inr ⟨hx, z, hz, hzy.tail h⟩
      · rcases ih with ih | ⟨hx, -⟩
        · exact .inr ⟨ih.to_reflTransGen, _, hend, .refl⟩
        · exact .inr ⟨hx, _, hend, .refl⟩

/-- New edges from `a` close no circle if from none of their ends there is a path to `a`. -/
theorem acyclic_of_edges (hacyclic : ∀ x, ¬ Relation.TransGen r x x)
    (hr : ∀ x y, r' x y → r x y ∨ x = a ∧ E y)
    (hback : ∀ z, E z → ¬ Relation.ReflTransGen r z a) (x : α) : ¬ Relation.TransGen r' x x := by
  intro h
  rcases transGen_of_edges hr h with h | ⟨hxa, z, hz, hzx⟩
  · exact hacyclic x h
  · exact hback z hz (hzx.trans hxa)

end Edge

namespace BlockGraph

variable {g g' : BlockGraph} {a b l x y : Label} {first second : Block} {m : Move}
  {moves : List Move}

-- ── When two blocks are joined ───────────────────────────────────────────────

/-- The second block has to follow the first one directly. -/
def Links (g : BlockGraph) (a b : Label) : Prop := g.next[a]? = some b

/-- A block is chained exactly if it has to follow some other one. -/
theorem isChained_iff : g.isChained l = true ↔ ∃ x, g.Links x l := by
  rw [isChained, any_eq_any_toList, List.any_eq_true]
  constructor
  · rintro ⟨e, he, hl⟩
    obtain rfl := of_decide_eq_true hl
    exact ⟨e.1, Std.ExtTreeMap.mem_toList_iff_getElem?_eq_some.mp he⟩
  · rintro ⟨x, hx⟩
    exact ⟨(x, l), Std.ExtTreeMap.mem_toList_iff_getElem?_eq_some.mpr hx, decide_eq_true rfl⟩

/-- The walk that looks for `goal` follows chains first, and if it finds an end, no chain leads to
    `goal`. -/
theorem not_path_of_leadsTo {goal : Label} {n : Nat} (h : g.leadsTo goal n l = false) :
    ¬ Relation.ReflTransGen g.Links l goal := by
  induction n generalizing l with
  | zero => cases h
  | succ n ih =>
      intro hpath
      rw [leadsTo] at h
      split at h
      · cases h
      · next hne =>
        rcases hpath.cases_head with heq | ⟨l', hlink, hpath⟩
        · exact hne heq
        · have hnext : g.onlySuccessor? l = some l' := by
            rw [onlySuccessor?, show g.next[l]? = some l' from hlink]
            rfl
          rw [hnext] at h
          exact ih h hpath

/-- What the check ahead of a move makes sure of. -/
structure Mergeable (g : BlockGraph) (a b : Label) : Prop where
  mem : b ∈ g.blocks
  ne_entry : b ≠ g.entry
  ne : b ≠ a
  incoming_eq : g.incoming b = 1
  loose : a ∉ g.next
  not_chained : ∀ x, ¬ g.Links x b
  not_path : ¬ Relation.ReflTransGen g.Links b a

/-- The check ahead of a move is sound. -/
theorem mergeable_of_canMerge (h : g.canMerge a b = true) : g.Mergeable a b := by
  simp only [canMerge, Bool.and_eq_true, decide_eq_true_eq, Bool.not_eq_true'] at h
  obtain ⟨⟨⟨⟨⟨⟨hmem, hentry⟩, hne⟩, hincoming⟩, hloose⟩, hchained⟩, hpath⟩ := h
  refine ⟨hmem, hentry, hne, hincoming, hloose, ?_, not_path_of_leadsTo hpath⟩
  intro x hx
  rw [isChained_iff.mpr ⟨x, hx⟩] at hchained
  cases hchained

theorem not_links_of_not_mem (h : a ∉ g.next) : ¬ g.Links a b := by
  intro hlink
  exact h (mem_of_getElem?_eq_some hlink)

/-- A block is placed behind the branch that leads to it. -/
theorem branch_of_placeable? (h : g.placeable? = some (a, b)) :
    ∃ block cond ifTrue, g.blocks[a]? = some block ∧ block.last = .branch cond ifTrue b := by
  obtain ⟨x, -, hjoin⟩ := List.exists_of_findSome?_eq_some h
  simp only [joinable?, Option.bind_eq_bind, Option.bind_eq_some_iff] at hjoin
  obtain ⟨block, hblock, y, hy, hif⟩ := hjoin
  split at hif
  · obtain ⟨rfl, rfl⟩ := Prod.mk.inj (Option.some.inj hif)
    cases hlast : block.last with
    | jump target =>
        rw [hlast] at hy
        cases hy
    | branch cond ifTrue ifFalse =>
        rw [hlast] at hy
        obtain rfl := Option.some.inj hy
        exact ⟨block, cond, ifTrue, hblock, hlast⟩
  · cases hif

-- ── Single moves, in any order ───────────────────────────────────────────────

/-- One move of merging: the first one that is found of its kind. -/
inductive Step (g : BlockGraph) : Move → BlockGraph → Prop where
  | place {a b : Label} : g.placeable? = some (a, b) → Step g (.place a b) (g.place a b)
  | absorb {a b : Label} : g.absorbable? = some (a, b) → Step g (.absorb a b) (g.absorb a b)

/-- Moves of merging, one after the other. -/
inductive Steps : BlockGraph → List Move → BlockGraph → Prop where
  | nil (g : BlockGraph) : Steps g [] g
  | cons {g g₁ g' : BlockGraph} {m : Move} {moves : List Move} :
      Step g m g₁ → Steps g₁ moves g' → Steps g (m :: moves) g'

-- ── What moves keep ──────────────────────────────────────────────────────────

/-- The negative target of the branch that ends `a` is the block `b`, and no other way leads
    there. -/
structure Fits (g : BlockGraph) (a b : Label) : Prop where
  branch : ∃ block cond ifTrue, g.blocks[a]? = some block ∧ block.last = .branch cond ifTrue b
  mem : b ∈ g.blocks
  ne_entry : b ≠ g.entry
  incoming_eq : g.incoming b = 1

/-- What moves keep of the table of blocks and of its chains. -/
structure Chained (g : BlockGraph) : Prop extends WellFormed g where
  fits : ∀ {a b : Label}, g.Links a b → g.Fits a b
  injective : ∀ {a a' b : Label}, g.Links a b → g.Links a' b → a = a'
  acyclic : ∀ l, ¬ Relation.TransGen g.Links l l

/-- Without links, chains are in order. -/
theorem chained_of_next_eq (hg : g.WellFormed) (h : g.next = ∅) : g.Chained := by
  have hnone : ∀ a b, ¬ g.Links a b := by
    intro a b hlink
    rw [Links, h, Std.ExtTreeMap.getElem?_empty] at hlink
    cases hlink
  refine ⟨hg, fun hlink => absurd hlink (hnone _ _), fun hlink => absurd hlink (hnone _ _), ?_⟩
  intro l hcycle
  obtain ⟨x, hlink, -⟩ := Relation.TransGen.head'_iff.mp hcycle
  exact hnone l x hlink

/-- Placing a block behind another one adds this link and no other. -/
theorem links_place_cases (h : (g.place a b).Links x y) : g.Links x y ∨ x = a ∧ y = b := by
  have hnext : (g.next.insert a b)[x]? = some y := h
  rw [Std.ExtTreeMap.getElem?_insert] at hnext
  split at hnext
  · next hcmp =>
    exact .inr ⟨(Std.LawfulEqCmp.eq_of_compare hcmp).symm, (Option.some.inj hnext).symm⟩
  · exact .inl hnext

/-- Placing a block keeps the chains in order: the block was behind no other one, and it did not
    lead to the one that it is placed behind. -/
theorem Chained.place (hg : g.Chained) (h : g.placeable? = some (a, b)) :
    (g.place a b).Chained := by
  have hmerge := mergeable_of_canMerge (placeable?_spec h).2
  refine ⟨⟨hg.label_eq, hg.mem_order_iff, hg.entry_mem⟩, ?_, ?_, ?_⟩
  · intro x y hxy
    rcases links_place_cases hxy with hold | ⟨rfl, rfl⟩
    · obtain ⟨hbranch, hmem, hentry, hincoming⟩ := hg.fits hold
      exact ⟨hbranch, hmem, hentry, hincoming⟩
    · exact ⟨branch_of_placeable? (g := g) h, hmerge.mem, hmerge.ne_entry, hmerge.incoming_eq⟩
  · intro x x' y hxy hxy'
    rcases links_place_cases hxy with hold | ⟨rfl, rfl⟩
    · rcases links_place_cases hxy' with hold' | ⟨rfl, rfl⟩
      · exact hg.injective hold hold'
      · exact absurd hold (hmerge.not_chained x)
    · rcases links_place_cases hxy' with hold' | ⟨rfl, -⟩
      · exact absurd hold' (hmerge.not_chained x')
      · rfl
  · refine acyclic_of_edges (E := (· = b)) hg.acyclic (fun x y => links_place_cases) ?_
    rintro z rfl
    exact hmerge.not_path

-- ── Absorbing a block ────────────────────────────────────────────────────────

/-- The table of a well-formed graph lists every block once. -/
theorem WellFormed.lists_toList (hg : g.WellFormed) : g.Lists (g.blocks.toList.map Prod.snd) := by
  have hlabels : (g.blocks.toList.map Prod.snd).map Block.label = g.blocks.keys := by
    rw [List.map_map, ← Std.ExtTreeMap.map_fst_toList_eq_keys]
    refine List.map_congr_left ?_
    intro e he
    exact hg.label_eq (Std.ExtTreeMap.mem_toList_iff_getElem?_eq_some.mp he)
  refine ⟨?_, ?_⟩
  · rw [hlabels]
    exact Std.ExtTreeMap.nodup_keys
  · intro l b
    constructor
    · intro hb
      have hmem := Std.ExtTreeMap.mem_toList_iff_getElem?_eq_some.mpr hb
      exact ⟨List.mem_map.mpr ⟨(l, b), hmem, rfl⟩, hg.label_eq hb⟩
    · rintro ⟨hb, rfl⟩
      obtain ⟨e, he, rfl⟩ := List.mem_map.mp hb
      have hlook := Std.ExtTreeMap.mem_toList_iff_getElem?_eq_some.mp he
      rw [hg.label_eq hlook]
      exact hlook

/-- The jumps to a label can be counted on any list of the blocks. -/
theorem WellFormed.incoming_eq {bs : List Block} (hg : g.WellFormed) (h : g.Lists bs) (l : Label) :
    g.incoming l = (bs.flatMap Block.successors).count l := by
  have hperm := (hg.lists_toList.perm h).flatMap_right Block.successors
  rw [List.flatMap_map] at hperm
  exact hperm.count_eq l

/-- Absorbing `b` takes the jump to `b` away and moves those that leave from `b`. -/
theorem incoming_absorb (hg : g.WellFormed) (hab : Absorbable g a b first second) (hl : l ≠ b) :
    (g.absorb a b).incoming l = g.incoming l := by
  obtain ⟨rest, hperm⟩ := hg.lists_toList.split hab
  have hlists := hg.lists_toList.of_perm hperm
  rw [(keeps_absorb hab hg).1.incoming_eq (hlists.absorb hab), hg.incoming_eq hlists]
  have hfirst : first.successors = [b] := by
    rw [Block.successors, hab.jumps]
    rfl
  have hjoined : (joined first second).successors = second.successors := rfl
  simp [hfirst, hjoined, Ne.symm hl]

/-- If the absorbed block has to be followed by another one, the joined block has to be. -/
theorem next_absorb_of_some {n : Label} (hab : Absorbable g a b first second)
    (hn : g.next[b]? = some n) : (g.absorb a b).next = (g.next.erase b).insert a n := by
  simp only [absorb, hab.second_eq, hn]

/-- If nothing has to follow the absorbed block, no link changes. -/
theorem next_absorb_of_none (hab : Absorbable g a b first second) (hn : g.next[b]? = none) :
    (g.absorb a b).next = g.next := by
  simp only [absorb, hab.second_eq, hn]

/-- A link after absorbing was there before, or the joined block has it from the absorbed one. -/
theorem links_absorb_cases (hab : Absorbable g a b first second)
    (h : (g.absorb a b).Links x y) : x ≠ b ∧ g.Links x y ∨ x = a ∧ g.Links b y := by
  rw [Links] at h
  cases hn : g.next[b]? with
  | none =>
      rw [next_absorb_of_none hab hn] at h
      refine .inl ⟨?_, h⟩
      rintro rfl
      cases hn.symm.trans h
  | some n =>
      rw [next_absorb_of_some hab hn, Std.ExtTreeMap.getElem?_insert] at h
      split at h
      · next hcmp =>
        obtain rfl := Option.some.inj h
        exact .inr ⟨(Std.LawfulEqCmp.eq_of_compare hcmp).symm, hn⟩
      · rw [Std.ExtTreeMap.getElem?_erase] at h
        split at h
        · cases h
        · next hcmp =>
          refine .inl ⟨?_, h⟩
          rintro rfl
          exact hcmp Std.ReflCmp.compare_self

/-- Absorbing a block keeps the chains in order: the chain behind the block goes over to the one
    that absorbs it, which had none, and which that chain does not lead to. -/
theorem Chained.absorb (hg : g.Chained) (h : g.absorbable? = some (a, b)) :
    (g.absorb a b).Chained := by
  have hmerge := mergeable_of_canMerge (absorbable?_spec h).2
  obtain ⟨first, second, hab⟩ := absorbable_of_absorbable? h
  have hcases : ∀ {x y}, (g.absorb a b).Links x y → x ≠ b ∧ g.Links x y ∨ x = a ∧ g.Links b y :=
    links_absorb_cases hab
  have hne : ∀ {x y}, g.Links x y → y ≠ b := by
    rintro x y hxy rfl
    exact hmerge.not_chained x hxy
  -- what `b` links to, or any other block, is still there with the one way in
  have htarget : ∀ {x y}, g.Links x y → y ∈ (g.absorb a b).blocks ∧ y ≠ (g.absorb a b).entry ∧
      (g.absorb a b).incoming y = 1 := by
    intro x y hxy
    have hfits := hg.fits hxy
    rw [mem_absorb hab, entry_absorb, incoming_absorb hg.toWellFormed hab (hne hxy)]
    exact ⟨⟨hfits.mem, hne hxy⟩, hfits.ne_entry, hfits.incoming_eq⟩
  refine ⟨(keeps_absorb hab hg.toWellFormed).1, ?_, ?_, ?_⟩
  · intro x y hxy
    rcases hcases hxy with ⟨hxb, hold⟩ | ⟨rfl, hold⟩
    · obtain ⟨hmem, hentry, hincoming⟩ := htarget hold
      refine ⟨?_, hmem, hentry, hincoming⟩
      obtain ⟨block, cond, ifTrue, hblock, hlast⟩ := (hg.fits hold).branch
      have hxa : x ≠ a := by
        rintro rfl
        exact not_links_of_not_mem hmerge.loose hold
      refine ⟨block, cond, ifTrue, ?_, hlast⟩
      rw [absorb_blocks hab, if_neg hxb, if_neg hxa]
      exact hblock
    · obtain ⟨hmem, hentry, hincoming⟩ := htarget hold
      refine ⟨?_, hmem, hentry, hincoming⟩
      obtain ⟨block, cond, ifTrue, hblock, hlast⟩ := (hg.fits hold).branch
      obtain rfl := Option.some.inj (hab.second_eq.symm.trans hblock)
      refine ⟨joined first second, cond, ifTrue, ?_, hlast⟩
      rw [absorb_blocks hab, if_neg (Ne.symm hab.ne), if_pos rfl]
  · intro x x' y hxy hxy'
    rcases hcases hxy with ⟨hxb, hold⟩ | ⟨rfl, hold⟩
    · rcases hcases hxy' with ⟨-, hold'⟩ | ⟨rfl, hold'⟩
      · exact hg.injective hold hold'
      · exact absurd (hg.injective hold hold') hxb
    · rcases hcases hxy' with ⟨hxb, hold'⟩ | ⟨rfl, -⟩
      · exact absurd (hg.injective hold' hold) hxb
      · rfl
  · refine acyclic_of_edges (a := a) (E := g.Links b) hg.acyclic ?_ ?_
    · intro x y hxy
      exact (hcases hxy).imp_left And.right
    · intro z hz hpath
      exact hmerge.not_path (hpath.head hz)

-- ── Any number of moves ──────────────────────────────────────────────────────

/-- One move keeps chains in order. -/
theorem Chained.step (hg : g.Chained) (h : Step g m g') : g'.Chained := by
  cases h with
  | place h => exact hg.place h
  | absorb h => exact hg.absorb h

/-- Moves one after the other keep chains in order. -/
theorem Chained.steps (hg : g.Chained) (h : Steps g moves g') : g'.Chained := by
  induction h with
  | nil g => exact hg
  | cons hstep _ ih => exact ih (hg.step hstep)

-- ── Writing chains ───────────────────────────────────────────────────────────

section Write

variable {next : LabelMap Label} {blocks : LabelMap Block}

/-- Of each chain, the table holds all blocks or none. -/
def Whole (next : LabelMap Label) (blocks : LabelMap Block) : Prop :=
  ∀ {a b : Label}, next[a]? = some b → (a ∈ blocks ↔ b ∈ blocks)

/-- Of each chain, the table holds all blocks or none, but of the chain that `l` belongs to nothing
    ahead of `l`. -/
structure Intact (next : LabelMap Label) (blocks : LabelMap Block) (l : Label) : Prop where
  whole : ∀ {a b : Label}, next[a]? = some b → b ≠ l → (a ∈ blocks ↔ b ∈ blocks)
  front : ∀ {a : Label}, next[a]? = some l → a ∉ blocks

/-- If all chains are whole, so is what is in front of the head of one. -/
theorem Whole.intact (h : Whole next blocks) (hl : ∀ a : Label, next[a]? ≠ some l) :
    Intact next blocks l :=
  ⟨fun hab _ => h hab, fun ha => absurd ha (hl _)⟩

theorem mem_erase_iff : x ∈ blocks.erase l ↔ x ≠ l ∧ x ∈ blocks := by
  rw [Std.ExtTreeMap.mem_erase, ne_eq, Std.LawfulEqCmp.compare_eq_iff_eq, eq_comm]

/-- Writing the last block of a chain takes the last of this chain. -/
theorem Intact.erase_last (h : Intact next blocks l) (hlast : next[l]? = none) :
    Whole next (blocks.erase l) := by
  intro a b hab
  have hal : a ≠ l := by
    rintro rfl
    cases hlast.symm.trans hab
  rw [mem_erase_iff, mem_erase_iff]
  by_cases hbl : b = l
  · subst hbl
    simp [h.front hab]
  · simp [hal, hbl, h.whole hab hbl]

/-- Behind a block that is written, its chain goes on with the next one. -/
theorem Intact.erase (hinj : ∀ {a a' b : Label}, next[a]? = some b → next[a']? = some b → a = a')
    (h : Intact next blocks l) (hl : l ∈ blocks) (hnext : next[l]? = some x) :
    Intact next (blocks.erase l) x ∧ x ∈ blocks.erase l := by
  have hxl : x ≠ l := by
    rintro rfl
    exact h.front hnext hl
  refine ⟨⟨?_, ?_⟩, mem_erase_iff.mpr ⟨hxl, (h.whole hnext hxl).mp hl⟩⟩
  · intro a b hab hbx
    have hal : a ≠ l := by
      rintro rfl
      exact hbx (Option.some.inj (hab.symm.trans hnext))
    rw [mem_erase_iff, mem_erase_iff]
    by_cases hbl : b = l
    · subst hbl
      simp [h.front hab]
    · simp [hal, hbl, h.whole hab hbl]
  · intro a ha hmem
    exact (mem_erase_iff.mp hmem).1 (hinj ha hnext)

/-- The code of a chain starts with the label of its first block. -/
theorem writeChain_eq_label (next : LabelMap Label)
    (hkeys : ∀ {l : Label} {b : Block}, blocks[l]? = some b → b.label = l) (hl : l ∈ blocks) :
    ∃ more, (writeChain next blocks l).1 = .label l :: more := by
  rw [Std.ExtTreeMap.mem_iff_isSome_getElem?] at hl
  obtain ⟨block, hblock⟩ := Option.isSome_iff_exists.mp hl
  obtain ⟨bs, -, hcode, -, hhead⟩ := writeChain_eq next hkeys l
  obtain ⟨rest, rfl⟩ := List.head?_eq_some_iff.mp (hhead.trans hblock)
  rw [hcode, List.flatMap_cons, stmts_append, hkeys hblock]
  exact ⟨_, rfl⟩

/-- In the code, the blocks that are not left in the table have the label of the next one of their
    chain directly behind them. -/
def Gapless (next : LabelMap Label) (blocks left : LabelMap Block) (code : List Stmt) : Prop :=
  ∀ {a b : Label} {block : Block}, next[a]? = some b → blocks[a]? = some block → a ∉ left →
    block.stmts ++ [.label b] <:+: code

theorem gapless_self (code : List Stmt) : Gapless next blocks blocks code :=
  fun _ hblock hgone => absurd (mem_of_getElem?_eq_some hblock) hgone

/-- A chain of which nothing is missing is written without a gap. -/
theorem Intact.writeChain
    (hinj : ∀ {a a' b : Label}, next[a]? = some b → next[a']? = some b → a = a')
    (hkeys : ∀ {l : Label} {b : Block}, blocks[l]? = some b → b.label = l)
    (h : Intact next blocks l) (hl : l ∈ blocks) :
    Whole next (BlockGraph.writeChain next blocks l).2 ∧
      Gapless next blocks (BlockGraph.writeChain next blocks l).2
        (BlockGraph.writeChain next blocks l).1 := by
  fun_induction BlockGraph.writeChain next blocks l with
  | case1 blocks l hnone => exact absurd hl (not_mem_of_getElem?_eq_none hnone)
  | case2 blocks l written hwritten _ hlast =>
      refine ⟨h.erase_last hlast, ?_⟩
      intro a b block hab hblock hgone
      -- the chain ends here, and nothing comes behind its last block
      have hal : a = l := by
        by_contra hne
        exact hgone (mem_erase_iff.mpr ⟨hne, mem_of_getElem?_eq_some hblock⟩)
      subst hal
      cases hlast.symm.trans hab
  | case3 blocks l written hwritten _ l' hl' rest left heq ih =>
      have hkeys' : ∀ {l' : Label} {b : Block}, (blocks.erase l)[l']? = some b → b.label = l' := by
        intro l' b hb
        rw [getElem?_erase] at hb
        split at hb
        · cases hb
        · exact hkeys hb
      obtain ⟨hintact, hmem⟩ := h.erase hinj hl hl'
      obtain ⟨more, hmore⟩ := writeChain_eq_label next hkeys' hmem
      obtain ⟨hwhole, hgapless⟩ := ih hkeys' hintact hmem
      rw [heq] at hwhole hmore hgapless
      refine ⟨hwhole, ?_⟩
      intro a b block hab hblock hgone
      by_cases hal : l = a
      · -- the block just written, with the label of the next one behind it
        subst hal
        obtain rfl := Option.some.inj (hwritten.symm.trans hblock)
        obtain rfl := Option.some.inj (hl'.symm.trans hab)
        refine ⟨[], more, ?_⟩
        rw [show rest = _ from hmore]
        simp
      · have hlook : (blocks.erase l)[a]? = some block := by
          rw [getElem?_erase, if_neg hal]
          exact hblock
        exact (hgapless hab hlook hgone).trans (List.suffix_append _ _).isInfix

theorem writeChain_of_not_mem (hl : l ∉ blocks) : writeChain next blocks l = ([], blocks) := by
  rw [writeChain]
  split
  · rfl
  · next hsome => exact absurd (mem_of_getElem?_eq_some hsome) hl

/-- The chains of blocks that are behind no other one are written without a gap. -/
theorem Whole.writeChains
    (hinj : ∀ {a a' b : Label}, next[a]? = some b → next[a']? = some b → a = a')
    (hkeys : ∀ {l : Label} {b : Block}, blocks[l]? = some b → b.label = l)
    (h : Whole next blocks) {ls : List Label} (hls : ∀ l ∈ ls, ∀ a : Label, next[a]? ≠ some l) :
    ∃ left : LabelMap Block, Whole next left ∧ (∀ l ∈ left, l ∈ blocks ∧ l ∉ ls) ∧
      Gapless next blocks left (BlockGraph.writeChains next blocks ls) := by
  induction ls generalizing blocks with
  | nil => exact ⟨blocks, h, fun l hl => ⟨hl, List.not_mem_nil⟩, gapless_self _⟩
  | cons l ls ih =>
      obtain ⟨hl, hls⟩ := List.forall_mem_cons.mp hls
      obtain ⟨bs, htaken, -, hlast, -⟩ := writeChain_eq next hkeys l
      have hsub : ∀ {x : Label} {c : Block}, (writeChain next blocks l).2[x]? = some c →
          blocks[x]? = some c := htaken.getElem?_of_left
      have hchain : Whole next (writeChain next blocks l).2 ∧
          Gapless next blocks (writeChain next blocks l).2 (writeChain next blocks l).1 := by
        by_cases hmem : l ∈ blocks
        · exact (h.intact hl).writeChain hinj hkeys hmem
        · rw [writeChain_of_not_mem hmem]
          exact ⟨h, gapless_self _⟩
      obtain ⟨left, hwhole, hleft, hgapless⟩ := ih (fun hb => hkeys (hsub hb)) hchain.1 hls
      refine ⟨left, hwhole, ?_, ?_⟩
      · intro x hx
        obtain ⟨hmem, hnot⟩ := hleft x hx
        rw [List.mem_cons, not_or]
        refine ⟨?_, ?_, hnot⟩
        · rw [Std.ExtTreeMap.mem_iff_isSome_getElem?] at hmem
          obtain ⟨c, hc⟩ := Option.isSome_iff_exists.mp hmem
          exact mem_of_getElem?_eq_some (hsub hc)
        · rintro rfl
          exact hlast hmem
      · intro a b block hab hblock hgone
        rw [BlockGraph.writeChains]
        cases hc : (writeChain next blocks l).2[a]? with
        | none =>
            have hwritten := hchain.2 hab hblock (not_mem_of_getElem?_eq_none hc)
            exact hwritten.trans (List.prefix_append _ _).isInfix
        | some c =>
            obtain rfl := Option.some.inj ((hsub hc).symm.trans hblock)
            exact (hgapless hab hc hgone).trans (List.suffix_append _ _).isInfix

/-- More chains are written behind those that are written already. -/
theorem prefix_writeChains_append (next : LabelMap Label) (blocks : LabelMap Block)
    (ls ls' : List Label) :
    writeChains next blocks ls <+: writeChains next blocks (ls ++ ls') := by
  induction ls generalizing blocks with
  | nil => exact List.nil_prefix
  | cons l ls ih => exact List.prefix_append_right_inj _ |>.mpr (ih _)

end Write

/-- Chains that do not go in a circle all have a first block. -/
theorem Chained.not_mem_of_whole {left : LabelMap Block} (hg : g.Chained)
    (hwhole : Whole g.next left) (hleft : ∀ l ∈ left, ∃ x, g.Links x l) (l : Label) : l ∉ left := by
  intro hl
  have : IsStrictOrder Label (Relation.TransGen g.Links) :=
    { irrefl := hg.acyclic, trans := fun _ _ _ => Relation.TransGen.trans }
  have hfinite : {l | l ∈ left}.Finite := by
    refine left.keys.finite_toSet.subset ?_
    intro x hx
    exact Std.ExtTreeMap.mem_keys.mpr hx
  have hwf : {l | l ∈ left}.WellFoundedOn (Relation.TransGen g.Links) := hfinite.wellFoundedOn
  refine hwf.induction (P := fun _ => False) hl ?_
  intro y hy ih
  obtain ⟨x, hxy⟩ := hleft y hy
  exact ih x ((hwhole hxy).mpr hy) (.single hxy)

/-- Where one block is chained behind another one, its label is written directly behind it. -/
theorem Chained.infix_linearize {block : Block} (hg : g.Chained) (hlink : g.Links a b)
    (hblock : g.blocks[a]? = some block) : block.stmts ++ [.label b] <:+: g.linearize := by
  have hwhole : Whole g.next g.blocks := by
    intro a b hab
    obtain ⟨block, -, -, hblock, -⟩ := (hg.fits hab).branch
    exact iff_of_true (mem_of_getElem?_eq_some hblock) (hg.fits hab).mem
  have hheads : ∀ l ∈ g.entry :: g.order.filter (fun l => l ≠ g.entry && !g.isChained l),
      ∀ x : Label, g.next[x]? ≠ some l := by
    intro l hl x hx
    rcases List.mem_cons.mp hl with rfl | hl
    · exact (hg.fits hx).ne_entry rfl
    · have hchained := isChained_iff.mpr ⟨x, hx⟩
      simp [hchained] at hl
  obtain ⟨left, hleft, hmem, hgapless⟩ := hwhole.writeChains hg.injective hg.label_eq hheads
  have hgone : a ∉ left := by
    refine hg.not_mem_of_whole hleft ?_ a
    intro l hl
    -- a block that is behind no other one starts a chain
    obtain ⟨hblocks, hnot⟩ := hmem l hl
    rw [← isChained_iff]
    by_contra hchained
    refine hnot ?_
    by_cases hentry : l = g.entry
    · exact hentry ▸ List.mem_cons_self
    · refine List.mem_cons_of_mem _ (List.mem_filter.mpr ⟨(hg.mem_order_iff l).mpr hblocks, ?_⟩)
      simpa [hentry] using hchained
  exact (hgapless hlink hblock hgone).trans (prefix_writeChains_append _ _ _ _).isInfix

-- ── From code to chains ──────────────────────────────────────────────────────

/-- Whatever labels code has, the first block that it is cut into is the one it starts in. -/
theorem cutBlock_eq_cons (exit l : Label) (body : List Action) (code : List Stmt) :
    ∃ block bs, cutBlock exit l body code = block :: bs ∧ block.label = l := by
  induction code generalizing body with
  | nil => exact ⟨_, _, rfl, rfl⟩
  | cons st code ih =>
      cases st with
      | label l' =>
          rw [cutBlock]
          split
          · exact ih body
          · exact ⟨_, _, rfl, rfl⟩
      | act a => exact ih (body ++ [a])
      | transfer t => exact ⟨_, _, rfl, rfl⟩

theorem next_foldl_insert (bs : List Block) (g : BlockGraph) :
    (bs.foldl insert g).next = g.next := by
  induction bs generalizing g with
  | nil => rfl
  | cons b bs ih => exact ih (g.insert b)

/-- Whether or not code starts with a label, its graph is made of the blocks that it is cut into. -/
theorem ofStmts_eq (code : List Stmt) (exit : Label) (names : Supply) :
    ∃ entry, (ofStmts code exit names).1 = ofBlocks entry (cutBlock exit entry [] code) := by
  unfold ofStmts
  split
  · exact ⟨_, rfl⟩
  · exact ⟨_, rfl⟩

/-- The graph of any code is well formed and has no chains. Labels may be defined more than once. -/
theorem wellFormed_cut (code : List Stmt) (exit : Label) (names : Supply) :
    (ofStmts code exit names).1.WellFormed ∧ (ofStmts code exit names).1.next = ∅ := by
  obtain ⟨entry, hg⟩ := ofStmts_eq code exit names
  obtain ⟨block, bs, hcut, hlabel⟩ := cutBlock_eq_cons exit entry [] code
  rw [hg]
  refine ⟨wellFormed_ofBlocks ?_, next_foldl_insert _ _⟩
  rw [hcut, List.map_cons, hlabel]
  exact List.mem_cons_self

/-- Code that was just cut has its chains in order, since it has none. -/
theorem chained_cut (code : List Stmt) (exit : Label) (names : Supply) :
    (ofStmts code exit names).1.Chained := by
  obtain ⟨hg, hnext⟩ := wellFormed_cut code exit names
  exact chained_of_next_eq hg hnext

/-- Dropping blocks right after cutting leaves the chains in order. -/
theorem chained_dropUnreachable_cut (code : List Stmt) (exit : Label) (names : Supply) :
    (ofStmts code exit names).1.dropUnreachable.Chained := by
  obtain ⟨hg, hnext⟩ := wellFormed_cut code exit names
  exact chained_of_next_eq (keeps_dropUnreachable _ hg).1 hnext

/-- **Chains stay adjacent.** Cut any code into blocks, drop the blocks that cannot be reached or
    keep them, and then make any number of moves in any order. Then `order` and `blocks` name the
    same labels, the entry among them, so that no move looks for a block that is not there. Every
    block ends with a jump or a branch. A chain goes from a block to the negative target of its
    branch, which is a block other than the entry to which no other jump leads; no block is behind
    two others, and no chain goes in a circle. So the code that is written consists of the blocks,
    each of them once, and where one block is chained behind another one, its label comes directly
    behind the last statement of the other one. -/
theorem chains_stay_adjacent (stmts : List Stmt) (exit : Label) (names : Supply)
    (start g : BlockGraph) (moves : List Move)
    (hstart : start = (ofStmts stmts exit names).1 ∨
      start = (ofStmts stmts exit names).1.dropUnreachable)
    (hsteps : Steps start moves g) :
    (∀ l, l ∈ g.order ↔ l ∈ g.blocks) ∧ g.entry ∈ g.blocks ∧
    (∀ a b, g.absorbable? = some (a, b) → a ∈ g.blocks ∧ b ∈ g.blocks ∧ a ≠ b) ∧
    (∀ (l : Label) (block : Block), g.blocks[l]? = some block → block.label = l ∧
      ((∃ target, block.last = .jump target) ∨
        ∃ cond ifTrue ifFalse, block.last = .branch cond ifTrue ifFalse)) ∧
    (∀ a b : Label, g.next[a]? = some b →
      (∃ (block : Block) (cond : Temp) (ifTrue : Label),
        g.blocks[a]? = some block ∧ block.last = .branch cond ifTrue b) ∧
      b ∈ g.blocks ∧ b ≠ g.entry ∧ g.incoming b = 1 ∧
      ∀ (x : Label) (block : Block), g.blocks[x]? = some block → b ∈ block.successors → x = a) ∧
    (∀ a a' b : Label, g.next[a]? = some b → g.next[a']? = some b → a = a') ∧
    (∀ l, ¬ Relation.TransGen (fun a b : Label => g.next[a]? = some b) l l) ∧
    (∃ bs : List Block, g.linearize = bs.flatMap Block.stmts ∧ (bs.map Block.label).Nodup ∧
      ∀ (l : Label) (block : Block), g.blocks[l]? = some block ↔ block ∈ bs ∧ block.label = l) ∧
    ∀ (a b : Label) (block : Block), g.next[a]? = some b → g.blocks[a]? = some block →
      block.stmts ++ [.label b] <:+: g.linearize := by
  -- the invariant of all moves, of which the rest is read off
  have hg : g.Chained := by
    rcases hstart with rfl | rfl
    · exact (chained_cut stmts exit names).steps hsteps
    · exact (chained_dropUnreachable_cut stmts exit names).steps hsteps
  refine ⟨hg.mem_order_iff, hg.entry_mem, ?_, ?_, ?_, fun _ _ _ => hg.injective, hg.acyclic, ?_,
    fun _ _ _ => hg.infix_linearize⟩
  · intro a b h
    obtain ⟨first, second, hab⟩ := absorbable_of_absorbable? h
    exact ⟨mem_of_getElem?_eq_some hab.first_eq, mem_of_getElem?_eq_some hab.second_eq,
      Ne.symm hab.ne⟩
  · intro l block hblock
    refine ⟨hg.label_eq hblock, ?_⟩
    cases block.last with
    | jump target => exact .inl ⟨target, rfl⟩
    | branch cond ifTrue ifFalse => exact .inr ⟨cond, ifTrue, ifFalse, rfl⟩
  · intro a b hab
    have hfits := hg.fits hab
    refine ⟨hfits.branch, hfits.mem, hfits.ne_entry, hfits.incoming_eq, ?_⟩
    intro x block hblock hb
    obtain ⟨source, cond, ifTrue, hsource, hlast⟩ := hfits.branch
    refine eq_of_incoming_eq_one hfits.incoming_eq hblock hb hsource ?_
    rw [Block.successors, hlast]
    exact List.mem_cons_of_mem _ List.mem_cons_self
  · obtain ⟨bs, hcode, hlists⟩ := hg.toWellFormed.lists
    exact ⟨bs, hcode, hlists.nodup, hlists.getElem?_iff⟩

/-- A jump to a branch whose negative target comes next, and a label that is defined twice. -/
def twiceLabelled : List Stmt :=
  [.label (.fresh 0), .transfer (.jump (.fresh 1)),
    .label (.fresh 1), .transfer (.branch ⟨0⟩ (.fresh 3) (.fresh 2)),
    .label (.fresh 2), .act (.move ⟨1⟩ (.atom (.const 5))),
    .label (.fresh 3), .act (.move ⟨1⟩ (.atom (.const 6))),
    .label (.fresh 3), .transfer (.jump (.fresh 9))]

/-- The negative target is placed behind the branch, which then becomes the end of the first block
    and takes the chain along. -/
theorem chains_stay_adjacent_moved :
    let start := (ofStmts twiceLabelled (.fresh 9) {}).1
    let g := (start.place (.fresh 1) (.fresh 2)).absorb (.fresh 0) (.fresh 1)
    Steps start [.place (.fresh 1) (.fresh 2), .absorb (.fresh 0) (.fresh 1)] g ∧
      g.next[Label.fresh 0]? = some (.fresh 2) ∧
      [.label (.fresh 0), .transfer (.branch ⟨0⟩ (.fresh 3) (.fresh 2)), .label (.fresh 2)] <:+:
        g.linearize := by
  intro start g
  have hsteps : Steps start [.place (.fresh 1) (.fresh 2), .absorb (.fresh 0) (.fresh 1)] g :=
    .cons (.place (by decide +kernel)) (.cons (.absorb (by decide +kernel)) (.nil _))
  have hnext : g.next[Label.fresh 0]? = some (.fresh 2) := by decide +kernel
  obtain ⟨-, -, -, -, -, -, -, -, hadjacent⟩ :=
    chains_stay_adjacent twiceLabelled (.fresh 9) {} start g _ (.inl rfl) hsteps
  exact ⟨hsteps, hnext, hadjacent (.fresh 0) (.fresh 2)
    ⟨.fresh 0, [], .branch ⟨0⟩ (.fresh 3) (.fresh 2)⟩ hnext (by decide +kernel)⟩

end BlockGraph

end MmixBackend
