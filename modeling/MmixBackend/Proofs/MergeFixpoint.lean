import MmixBackend.Proofs.BlockChains

/-!
# Merging comes to rest

Merging places blocks as long as it can, absorbs blocks as long as it can, and starts again if it
has absorbed one. Each move either makes a chain or takes a block away, and there are never as many
chains as blocks, so there are fewer moves than blocks, whatever order they are made in. Merging
stops where neither move is left, and there it would do nothing more.

* **`steps_mergeAll`** — what merging tells is the moves it makes.
* **`Step.size_add_size`**, **`Chained.size_next_lt`** — so many moves can be made and no more.
* **`Connected.step`** — a move leaves every block within reach.
* **`merge_comes_to_rest`** — merging ends, leaves no move, and changes nothing when done again.
-/

namespace MmixBackend

open Flat

namespace BlockGraph

variable {g g' g'' : BlockGraph} {a b l : Label} {first second : Block} {m : Move}
  {moves moves' : List Move}

-- ── Merging makes moves ──────────────────────────────────────────────────────

theorem Steps.append (h : Steps g moves g') (h' : Steps g' moves' g'') :
    Steps g (moves ++ moves') g'' := by
  induction h with
  | nil g => exact h'
  | cons hstep _ ih => exact .cons hstep (ih h')

/-- Placing all blocks is a sequence of single moves. -/
theorem steps_placeAll (g : BlockGraph) : Steps g g.placeAll.1 g.placeAll.2 := by
  fun_induction placeAll g with
  | case1 g _ => exact .nil g
  | case2 g a b h _ moves g' heq ih =>
      rw [heq] at ih
      exact .cons (.place h) ih

/-- Absorbing all blocks is a sequence of single moves. -/
theorem steps_absorbAll (g : BlockGraph) : Steps g g.absorbAll.1 g.absorbAll.2 := by
  fun_induction absorbAll g with
  | case1 g _ => exact .nil g
  | case2 g a b h _ moves g' heq ih =>
      rw [heq] at ih
      exact .cons (.absorb h) ih

/-- What merging tells is the moves it makes. -/
theorem steps_mergeAll (g : BlockGraph) : Steps g g.mergeAll.1 g.mergeAll.2 := by
  fun_induction mergeAll g with
  | case1 g placed absorbed hnil =>
      have hsteps := (steps_placeAll g).append (steps_absorbAll placed.2)
      rw [show placed.2.absorbAll.1 = [] from hnil, List.append_nil] at hsteps
      exact hsteps
  | case2 g placed absorbed _ _ rest ih =>
      exact ((steps_placeAll g).append (steps_absorbAll placed.2)).append ih

-- ── How many moves there can be ──────────────────────────────────────────────

/-- Absorbing a block leaves one block less. -/
theorem size_absorb (hab : Absorbable g a b first second) : (g.absorb a b).size + 1 = g.size := by
  have hmem := mem_of_getElem?_eq_some hab.second_eq
  have hpos := size_erase_lt_of_mem hmem
  have herase : (g.blocks.erase b).size = g.blocks.size - 1 := by
    rw [Std.ExtTreeMap.size_erase, if_pos (Std.ExtTreeMap.mem_iff_contains.mp hmem)]
  have hsize : (g.absorb a b).size = (g.blocks.erase b).size := by
    rw [absorb, hab.second_eq]
    exact Std.ExtTreeMap.size_modify
  rw [hsize, size]
  omega

/-- Absorbing a block keeps the number of chains: one that is behind the block goes over. -/
theorem size_next_absorb (hab : Absorbable g a b first second) (ha : a ∉ g.next) :
    (g.absorb a b).next.size = g.next.size := by
  cases hn : g.next[b]? with
  | none => rw [next_absorb_of_none hab hn]
  | some n =>
      have hmem := mem_of_getElem?_eq_some hn
      have hpos := size_erase_lt_of_mem hmem
      have ha' : ¬(g.next.erase b).contains a = true := fun h =>
        ha (Std.ExtTreeMap.mem_of_mem_erase (Std.ExtTreeMap.mem_iff_contains.mpr h))
      rw [next_absorb_of_some hab hn, Std.ExtTreeMap.size_insert, if_neg ha',
        Std.ExtTreeMap.size_erase, if_pos (Std.ExtTreeMap.mem_iff_contains.mp hmem)]
      omega

/-- A move makes a chain or takes a block away. -/
theorem Step.size_add_size (h : Step g m g') :
    g.size + g'.next.size = g'.size + g.next.size + 1 := by
  cases h with
  | @place a b h =>
      have ha := (mergeable_of_canMerge (placeable?_spec h).2).loose
      have hnext : (g.place a b).next.size = g.next.size + 1 := by
        show (g.next.insert a b).size = _
        rw [Std.ExtTreeMap.size_insert, if_neg (mt Std.ExtTreeMap.mem_iff_contains.mpr ha)]
      have hsize : (g.place a b).size = g.size := rfl
      omega
  | @absorb a b h =>
      have ha := (mergeable_of_canMerge (absorbable?_spec h).2).loose
      obtain ⟨first, second, hab⟩ := absorbable_of_absorbable? h
      have hsize := size_absorb hab
      have hnext := size_next_absorb hab ha
      omega

/-- Each move takes away a block or adds a link, so blocks and links count the moves. -/
theorem Steps.size_add_size (h : Steps g moves g') :
    g.size + g'.next.size = g'.size + g.next.size + moves.length := by
  induction h with
  | nil g => rfl
  | cons hstep _ ih =>
      have hone := hstep.size_add_size
      rw [List.length_cons]
      omega

/-- There are fewer chains than blocks: each chain has an end of its own, which is not the entry. -/
theorem Chained.size_next_lt (hg : g.Chained) : g.next.size < g.size := by
  have hlinks : ∀ {e : Label × Label}, e ∈ g.next.toList → g.Links e.1 e.2 :=
    Std.ExtTreeMap.mem_toList_iff_getElem?_eq_some.mp
  have hkeys : (g.next.toList.map Prod.fst).Nodup := by
    rw [Std.ExtTreeMap.map_fst_toList_eq_keys]
    exact Std.ExtTreeMap.nodup_keys
  have hnodup : (g.next.toList.map Prod.snd).Nodup := by
    refine List.Nodup.map_on ?_ hkeys.of_map
    intro e he e' he' heq
    have hlink := hlinks he'
    rw [← heq] at hlink
    exact Prod.ext (hg.injective (hlinks he) hlink) heq
  have hsub : g.next.toList.map Prod.snd ⊆ (g.blocks.erase g.entry).keys := by
    intro l hl
    obtain ⟨e, he, rfl⟩ := List.mem_map.mp hl
    have hfits := hg.fits (hlinks he)
    exact Std.ExtTreeMap.mem_keys.mpr (mem_erase_iff.mpr ⟨hfits.ne_entry, hfits.mem⟩)
  have hle := (hnodup.subperm hsub).length_le
  rw [List.length_map, Std.ExtTreeMap.length_toList, Std.ExtTreeMap.length_keys] at hle
  exact Nat.lt_of_le_of_lt hle (size_erase_lt_of_mem hg.entry_mem)

/-- From a graph without chains, fewer moves can be made than it has blocks. -/
theorem Chained.length_lt_size (hg : g.Chained) (hnext : g.next = ∅) (h : Steps g moves g') :
    moves.length < g.size := by
  have hsizes := h.size_add_size
  have hlt := (hg.steps h).size_next_lt
  rw [hnext, Std.ExtTreeMap.size_empty] at hsizes
  omega

-- ── Every block stays within reach ───────────────────────────────────────────

/-- There is a path from the entry to every block. -/
def Connected (g : BlockGraph) : Prop := ∀ l ∈ g.blocks, g.Reaches l

/-- After the unreachable blocks were dropped, all are within reach. -/
theorem connected_dropUnreachable (g : BlockGraph) : g.dropUnreachable.Connected := by
  have hreach : ∀ {l}, g.Reaches l → g.dropUnreachable.Reaches l := by
    intro l h
    induction h with
    | refl => exact .refl
    | tail hpath hstep ih =>
        obtain ⟨c, hc, hsucc⟩ := hstep
        exact ih.tail ⟨c, getElem?_dropUnreachable_iff.mpr ⟨hc, hpath⟩, hsucc⟩
  intro l hl
  obtain ⟨hmem, hnot⟩ := (mem_dropUnreachable g l).mp hl
  exact hreach ((not_mem_unreachable_iff hmem).mp hnot)

/-- A path stays a path when a block on it is absorbed; instead of that block it goes through the
    one that absorbs it. -/
theorem reaches_absorb (hab : Absorbable g a b first second) (h : g.Reaches l) :
    (g.absorb a b).Reaches (if l = b then a else l) := by
  induction h with
  | refl =>
      rw [if_neg (Ne.symm hab.not_entry), Reaches, entry_absorb]
  | @tail x y _ hstep ih =>
      obtain ⟨c, hc, hsucc⟩ := hstep
      by_cases hyb : y = b
      · -- the only way to `b` is the jump from `a`
        subst hyb
        obtain rfl := hab.only hc hsucc
        rw [if_neg (Ne.symm hab.ne)] at ih
        rw [if_pos rfl]
        exact ih
      · rw [if_neg hyb]
        by_cases hxb : x = b
        · subst hxb
          obtain rfl := Option.some.inj (hab.second_eq.symm.trans hc)
          rw [if_pos rfl] at ih
          refine ih.tail ⟨joined first second, ?_, hsucc⟩
          rw [absorb_blocks hab, if_neg (Ne.symm hab.ne), if_pos rfl]
        · rw [if_neg hxb] at ih
          have hxa : x ≠ a := by
            rintro rfl
            obtain rfl := Option.some.inj (hab.first_eq.symm.trans hc)
            rw [Block.successors, hab.jumps] at hsucc
            exact hyb (List.mem_singleton.mp hsucc)
          refine ih.tail ⟨c, ?_, hsucc⟩
          rw [absorb_blocks hab, if_neg hxb, if_neg hxa]
          exact hc

/-- One move keeps all blocks within reach. -/
theorem Connected.step (hg : g.Connected) (h : Step g m g') : g'.Connected := by
  cases h with
  | place _ => exact hg
  | @absorb a b h =>
      obtain ⟨first, second, hab⟩ := absorbable_of_absorbable? h
      intro l hl
      obtain ⟨hmem, hne⟩ := (mem_absorb hab l).mp hl
      have hreach := reaches_absorb hab (hg l hmem)
      rwa [if_neg hne] at hreach

theorem Connected.steps (hg : g.Connected) (h : Steps g moves g') : g'.Connected := by
  induction h with
  | nil g => exact hg
  | cons hstep _ ih => exact ih (hg.step hstep)

/-- Where all blocks are within reach, dropping the others changes nothing. -/
theorem dropUnreachable_eq_self (hg : g.WellFormed) (h : g.Connected) : g.dropUnreachable = g := by
  have hnot : ∀ l ∈ g.blocks, l ∉ g.unreachable := fun l hl =>
    not_mem_unreachable_of_reaches (h l hl)
  have horder : g.order.filter (· ∉ g.unreachable) = g.order := by
    refine List.filter_eq_self.mpr fun l hl => decide_eq_true ?_
    exact hnot l ((hg.mem_order_iff l).mp hl)
  have hblocks : g.dropUnreachable.blocks = g.blocks := by
    refine Std.ExtTreeMap.ext_getElem? fun l => ?_
    by_cases hl : l ∈ g.blocks
    · exact getElem?_dropUnreachable g (hnot l hl)
    · have hl' : l ∉ g.dropUnreachable.blocks := fun hmem =>
        hl ((mem_dropUnreachable g l).mp hmem).1
      rw [Std.ExtTreeMap.getElem?_eq_none hl, Std.ExtTreeMap.getElem?_eq_none hl']
  show BlockGraph.mk _ (g.order.filter (· ∉ g.unreachable)) g.dropUnreachable.blocks _ = g
  rw [horder, hblocks]

-- ── Where no move is left ────────────────────────────────────────────────────

/-- When all blocks are placed, no candidate for placing is left. -/
theorem placeable?_placeAll (g : BlockGraph) : g.placeAll.2.placeable? = none := by
  fun_induction placeAll g with
  | case1 g h => exact h
  | case2 g a b _ _ moves g' heq ih =>
      rw [heq] at ih
      exact ih

/-- If nothing was absorbed, there was no candidate, and the graph is the same. -/
theorem absorbable?_of_absorbAll (h : g.absorbAll.1 = []) :
    g.absorbable? = none ∧ g.absorbAll.2 = g := by
  revert h
  fun_cases absorbAll g with
  | case1 hnone => exact fun _ => ⟨hnone, rfl⟩
  | case2 a b _ _ moves g' _ => exact fun h => absurd h (List.cons_ne_nil _ _)

/-- Without candidates, merging does nothing. -/
theorem mergeAll_of_none (hplace : g.placeable? = none) (habsorb : g.absorbable? = none) :
    g.mergeAll = ([], g) := by
  have hplaced : g.placeAll = ([], g) := by
    rw [placeAll]
    split
    · rfl
    · next hsome => cases hplace.symm.trans hsome
  have habsorbed : g.absorbAll = ([], g) := by
    rw [absorbAll]
    split
    · rfl
    · next hsome => cases habsorb.symm.trans hsome
  rw [mergeAll]
  simp [hplaced, habsorbed]

/-- Merging stops where neither move is left. -/
theorem mergeAll_at_rest (g : BlockGraph) :
    g.mergeAll.2.placeable? = none ∧ g.mergeAll.2.absorbable? = none := by
  fun_induction mergeAll g with
  | case1 g placed absorbed hnil =>
      obtain ⟨hnone, hsame⟩ := absorbable?_of_absorbAll hnil
      show absorbed.2.placeable? = none ∧ absorbed.2.absorbable? = none
      rw [show absorbed.2 = placed.2 from hsame]
      exact ⟨placeable?_placeAll g, hnone⟩
  | case2 g placed absorbed _ _ rest ih => exact ih

/-- If no label in order starts a move, no block does. -/
theorem canMerge_eq_false {pick : Transfer → Option Label} {block : Block} (hg : g.WellFormed)
    (h : g.order.findSome? (g.joinable? pick) = none) (hblock : g.blocks[a]? = some block)
    (hb : pick block.last = some b) : g.canMerge a b = false := by
  have ha := (hg.mem_order_iff a).mpr (mem_of_getElem?_eq_some hblock)
  have hnone := List.findSome?_eq_none_iff.mp h a ha
  rw [joinable?, hblock] at hnone
  simpa [hb] using hnone

/-- **Merging comes to rest.** For the blocks of any code, merging drops those that cannot be
    reached and then makes the moves it tells, and no way to make moves goes on for as many moves as
    there are blocks. Afterwards there is a path from the entry to every block, no block can be
    placed behind a branch or absorbed by a jump, and merging again makes no move and changes
    nothing. -/
theorem merge_comes_to_rest (stmts : List Stmt) (exit : Label) (names : Supply) :
    let g := (ofStmts stmts exit names).1
    Steps g.dropUnreachable g.merge.1 g.merge.2 ∧
    (∀ moves g', Steps g.dropUnreachable moves g' → moves.length < g.size) ∧
    (∀ l ∈ g.merge.2.blocks, g.merge.2.Reaches l) ∧
    (∀ (a b : Label) (block : Block), g.merge.2.blocks[a]? = some block →
      block.last.negative? = some b ∨ block.last.jump? = some b → g.merge.2.canMerge a b = false) ∧
    g.merge.2.merge = ([], g.merge.2) := by
  intro g
  obtain ⟨-, hnext⟩ := wellFormed_cut stmts exit names
  have hchained := chained_dropUnreachable_cut stmts exit names
  have hsteps : Steps g.dropUnreachable g.merge.1 g.merge.2 := steps_mergeAll _
  have hconnected : g.merge.2.Connected := (connected_dropUnreachable g).steps hsteps
  have hg : g.merge.2.WellFormed := (hchained.steps hsteps).toWellFormed
  obtain ⟨hplace, habsorb⟩ := mergeAll_at_rest g.dropUnreachable
  refine ⟨hsteps, ?_, hconnected, ?_, ?_⟩
  · intro moves g' h
    exact Nat.lt_of_lt_of_le (hchained.length_lt_size hnext h) Std.ExtTreeMap.size_filter_le_size
  · rintro a b block hblock (hb | hb)
    · exact canMerge_eq_false hg hplace hblock hb
    · exact canMerge_eq_false hg habsorb hblock hb
  · rw [merge, dropUnreachable_eq_self hg hconnected]
    exact mergeAll_of_none hplace habsorb

end BlockGraph

end MmixBackend
