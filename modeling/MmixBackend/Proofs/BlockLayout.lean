import MmixBackend.Block.Layout
import MmixBackend.Proofs.BlockMerge

/-!
# Laying blocks out keeps every run

* **`linearize_eq`** — the flat code of a graph is made of its blocks, each written once, the one
  of the entry first.
* **`halts_linearize_iff`** — so it halts exactly as the graph does.
* **`layout_keeps_behaviour`** — folding labels, cutting blocks, merging them and writing them
  again: together they keep how code runs, where running off its end becomes a jump to the exit.
-/

namespace MmixBackend

open Flat Machine

namespace BlockGraph

-- ── Which blocks are written ─────────────────────────────────────────────────

/-- The blocks of a list are taken out of a table one after the other. -/
inductive Taken : LabelMap Block → List Block → LabelMap Block → Prop where
  | nil (blocks : LabelMap Block) : Taken blocks [] blocks
  | cons {blocks left : LabelMap Block} {b : Block} {bs : List Block} :
      blocks[b.label]? = some b → Taken (blocks.erase b.label) bs left →
        Taken blocks (b :: bs) left

namespace Taken

/-- Blocks taken out one list after the other are taken out as one list. -/
theorem append {blocks blocks' left : LabelMap Block} {bs bs' : List Block}
    (h : Taken blocks bs blocks') (h' : Taken blocks' bs' left) :
    Taken blocks (bs ++ bs') left := by
  induction h with
  | nil _ => exact h'
  | cons hb _ ih => exact Taken.cons hb (ih h')

/-- What is left over was there from the start. -/
theorem getElem?_of_left {blocks left : LabelMap Block} {bs : List Block}
    (h : Taken blocks bs left) {l : Label} {c : Block} (hc : left[l]? = some c) :
    blocks[l]? = some c := by
  induction h with
  | nil _ => exact hc
  | cons _ _ ih =>
      have h := ih hc
      rw [getElem?_erase] at h
      split at h
      · cases h
      · exact h

/-- Every block that is taken out was there from the start. -/
theorem getElem?_of_mem {blocks left : LabelMap Block} {bs : List Block}
    (h : Taken blocks bs left) {b : Block} (hb : b ∈ bs) : blocks[b.label]? = some b := by
  induction h with
  | nil _ => cases hb
  | cons hc _ ih =>
      rcases List.mem_cons.mp hb with rfl | hb
      · exact hc
      · have h := ih hb
        rw [getElem?_erase] at h
        split at h
        · cases h
        · exact h

/-- No label is taken out twice. -/
theorem nodup {blocks left : LabelMap Block} {bs : List Block} (h : Taken blocks bs left) :
    (bs.map Block.label).Nodup := by
  induction h with
  | nil _ => exact List.nodup_nil
  | @cons blocks left b bs _ hbs ih =>
      refine List.nodup_cons.mpr ⟨?_, ih⟩
      intro hmem
      obtain ⟨c, hc, hlabel⟩ := List.mem_map.mp hmem
      have hlook := hbs.getElem?_of_mem hc
      rw [hlabel, getElem?_erase, if_pos rfl] at hlook
      cases hlook

/-- A block that was there is taken out or left over. -/
theorem mem_or_left {blocks left : LabelMap Block} {bs : List Block} (h : Taken blocks bs left)
    {l : Label} {c : Block} (hc : blocks[l]? = some c) : c ∈ bs ∨ left[l]? = some c := by
  induction h with
  | nil _ => exact .inr hc
  | @cons blocks left b bs hb _ ih =>
      by_cases hl : b.label = l
      · subst hl
        obtain rfl := Option.some.inj (hb.symm.trans hc)
        exact .inl List.mem_cons_self
      · rw [← if_neg (t := none) hl (e := blocks[l]?), ← getElem?_erase] at hc
        rcases ih hc with hmem | hleft
        · exact .inl (List.mem_cons_of_mem _ hmem)
        · exact .inr hleft

end Taken

/-- A chain is written as blocks of the table, the one of its label first. -/
theorem writeChain_eq (next : LabelMap Label) {blocks : LabelMap Block}
    (hkeys : ∀ {l : Label} {b : Block}, blocks[l]? = some b → b.label = l) (l : Label) :
    ∃ bs, Taken blocks bs (writeChain next blocks l).2 ∧
      (writeChain next blocks l).1 = bs.flatMap Block.stmts ∧
      l ∉ (writeChain next blocks l).2 ∧ bs.head? = blocks[l]? := by
  fun_induction writeChain next blocks l with
  | case1 blocks l hnone =>
      exact ⟨[], Taken.nil blocks, rfl, not_mem_of_getElem?_eq_none hnone, hnone.symm⟩
  | case2 blocks l b hb _ _ =>
      obtain rfl := hkeys hb
      refine ⟨[b], Taken.cons hb (Taken.nil _), ?_, ?_, hb.symm⟩
      · exact (List.append_nil _).symm
      · refine not_mem_of_getElem?_eq_none ?_
        rw [getElem?_erase, if_pos rfl]
  | case3 blocks l b hb _ l' _ rest left heq ih =>
      obtain rfl := hkeys hb
      rw [heq] at ih
      have hkeys' : ∀ {l : Label} {c : Block}, (blocks.erase b.label)[l]? = some c →
          c.label = l := by
        intro l c hc
        rw [getElem?_erase] at hc
        split at hc
        · cases hc
        · exact hkeys hc
      obtain ⟨bs, htaken, hrest, -, -⟩ := ih hkeys'
      refine ⟨b :: bs, Taken.cons hb htaken, ?_, ?_, hb.symm⟩
      · rw [List.flatMap_cons]
        exact congrArg (b.stmts ++ ·) hrest
      · intro hmem
        rw [Std.ExtTreeMap.mem_iff_isSome_getElem?] at hmem
        obtain ⟨c, hc⟩ := Option.isSome_iff_exists.mp hmem
        have hc := htaken.getElem?_of_left hc
        rw [getElem?_erase, if_pos rfl] at hc
        cases hc

/-- Chains of blocks are written block by block, and none of the labels they start from is left
    over. -/
theorem writeChains_eq (next : LabelMap Label) {blocks : LabelMap Block}
    (hkeys : ∀ {l : Label} {b : Block}, blocks[l]? = some b → b.label = l) (ls : List Label) :
    ∃ bs left, Taken blocks bs left ∧ writeChains next blocks ls = bs.flatMap Block.stmts ∧
      ∀ l ∈ ls, left[l]? = none := by
  induction ls generalizing blocks with
  | nil => exact ⟨[], blocks, Taken.nil blocks, rfl, nofun⟩
  | cons l ls ih =>
      obtain ⟨bs, htaken, hstmts, hl, -⟩ := writeChain_eq next hkeys l
      have hkeys' : ∀ {x : Label} {b : Block}, (writeChain next blocks l).2[x]? = some b →
          b.label = x := by
        intro x b hb
        exact hkeys (htaken.getElem?_of_left hb)
      obtain ⟨bs', left, htaken', hstmts', hls⟩ := ih hkeys'
      refine ⟨bs ++ bs', left, htaken.append htaken', ?_, ?_⟩
      · rw [writeChains, List.flatMap_append, ← hstmts, ← hstmts']
      · intro x hx
        rcases List.mem_cons.mp hx with rfl | hx
        · cases hc : left[x]? with
          | none => rfl
          | some c => exact absurd (mem_of_getElem?_eq_some (htaken'.getElem?_of_left hc)) hl
        · exact hls x hx

/-- Every label of the order is among those that a chain may start from. -/
theorem mem_heads {g : BlockGraph} {l : Label} (hl : l ∈ g.order) : l ∈ g.heads := by
  rw [heads, List.cons_append, List.mem_cons, List.mem_append, List.mem_filter, List.mem_filter]
  by_cases hentry : l = g.entry
  · exact .inl hentry
  · cases hchained : g.isChained l with
    | true => exact .inr (.inr ⟨hl, rfl⟩)
    | false => exact .inr (.inl ⟨hl, by simp [hentry]⟩)

/-- The flat code of a graph is made of its blocks, each written once, the entry's first. -/
theorem linearize_eq {g : BlockGraph} (hg : g.WellFormed) :
    ∃ first bs, g.linearize = (first :: bs).flatMap Block.stmts ∧
      g.blocks[g.entry]? = some first ∧ ((first :: bs).map Block.label).Nodup ∧
      ∀ l b, g.blocks[l]? = some b ↔ b ∈ first :: bs ∧ b.label = l := by
  obtain ⟨others, hheads⟩ : ∃ others, g.heads = g.entry :: others := ⟨_, rfl⟩
  obtain ⟨chain, htaken, hstmts, hentry, hhead⟩ := writeChain_eq g.next hg.label_eq g.entry
  obtain ⟨more, left, htaken', hstmts', hleft⟩ :=
    writeChains_eq g.next (fun hc => hg.label_eq (htaken.getElem?_of_left hc)) others
  have hmem := hg.entry_mem
  rw [Std.ExtTreeMap.mem_iff_isSome_getElem?] at hmem
  obtain ⟨first, hfirst⟩ := Option.isSome_iff_exists.mp hmem
  obtain ⟨bs, rfl⟩ : ∃ bs, chain = first :: bs := by
    rw [hfirst] at hhead
    exact List.head?_eq_some_iff.mp hhead
  have hall := htaken.append htaken'
  refine ⟨first, bs ++ more, ?_, hfirst, hall.nodup, ?_⟩
  · rw [linearize, hheads, writeChains, ← List.cons_append, List.flatMap_append, ← hstmts,
      ← hstmts']
  · intro l b
    constructor
    · intro hb
      refine ⟨?_, hg.label_eq hb⟩
      rcases hall.mem_or_left hb with hb' | hb'
      · exact hb'
      · -- every label of a block is one that a chain was started with
        have hhead : l ∈ g.heads :=
          mem_heads ((hg.mem_order_iff l).mpr (mem_of_getElem?_eq_some hb))
        rw [hheads] at hhead
        rcases List.mem_cons.mp hhead with rfl | hl
        · exact absurd (mem_of_getElem?_eq_some (htaken'.getElem?_of_left hb')) hentry
        · rw [hleft l hl] at hb'
          cases hb'
    · rintro ⟨hb, rfl⟩
      exact hall.getElem?_of_mem hb

-- ── Blocks run as the code they are written as ───────────────────────────────

/-- The rest of a block in flat code, with `more` behind it. -/
def written (acts : List Action) (last : Transfer) (more : List Stmt) : List Stmt :=
  acts.map Stmt.act ++ .transfer last :: more

theorem stmts_append (b : Block) (more : List Stmt) :
    b.stmts ++ more = .label b.label :: written b.body b.last more := by
  simp [Block.stmts, written]

/-- The rest of a block defines no labels of its own. -/
theorem definedLabels_written (acts : List Action) (last : Transfer) (more : List Stmt) :
    definedLabels (written acts last more) = definedLabels more := by
  induction acts with
  | nil => rfl
  | cons a acts ih => exact ih

/-- Blocks written one after the other define their labels in that order. -/
theorem definedLabels_flatMap_stmts (bs : List Block) :
    definedLabels (bs.flatMap Block.stmts) = bs.map Block.label := by
  induction bs with
  | nil => rfl
  | cons b bs ih =>
      rw [List.flatMap_cons, stmts_append, definedLabels_label, definedLabels_written, ih,
        List.map_cons]

/-- The code holds each block of the table behind its label, and no other label. -/
structure Holds (code : List Stmt) (blocks : LabelMap Block) : Prop where
  found : ∀ {l : Label} {b : Block}, blocks[l]? = some b →
    ∃ more, codeFrom l code = some (.label l :: written b.body b.last more)
  missing : ∀ {l : Label}, blocks[l]? = none → codeFrom l code = none

/-- Blocks with different labels, written one after the other, are found again under their
    labels. -/
theorem holds_flatMap_stmts {bs : List Block} {blocks : LabelMap Block}
    (hnodup : (bs.map Block.label).Nodup)
    (hbs : ∀ l b, blocks[l]? = some b ↔ b ∈ bs ∧ b.label = l) :
    Holds (bs.flatMap Block.stmts) blocks := by
  rw [← definedLabels_flatMap_stmts] at hnodup
  refine ⟨?_, ?_⟩
  · intro l b hb
    obtain ⟨hmem, rfl⟩ := (hbs l b).mp hb
    obtain ⟨before, behind, rfl⟩ := List.append_of_mem hmem
    refine ⟨behind.flatMap Block.stmts, codeFrom_of_suffix hnodup ?_⟩
    rw [← stmts_append, ← List.flatMap_cons, List.flatMap_append]
    exact List.suffix_append _ _
  · intro l hnone
    rw [codeFrom_eq_none_iff, ← mem_definedLabels, definedLabels_flatMap_stmts]
    intro hmem
    obtain ⟨b, hb, hlabel⟩ := List.mem_map.mp hmem
    rw [(hbs l b).mpr ⟨hb, hlabel⟩] at hnone
    cases hnone

/-- What blocks come to, the code that they are written as comes to. -/
theorem written_halts {code : List Stmt} {blocks : LabelMap Block} (hw : Holds code blocks)
    {acts : List Action} {last : Transfer} {m m' : Machine} {r : Outcome}
    (h : Halts blocks acts last m r m') :
    ∀ more, Machine.Halts code (written acts last more) m r m' := by
  induction h with
  | act ha _ ih =>
      intro more
      exact Machine.Halts.act ha (ih more)
  | fail ha =>
      intro more
      exact Machine.Halts.fail ha
  | goto hb _ ih =>
      intro more
      obtain ⟨behind, hfound⟩ := hw.found hb
      exact Machine.Halts.jump hfound (Machine.Halts.label (ih behind))
  | leave hnone =>
      intro more
      exact Machine.Halts.leave (hw.missing hnone)

/-- What the code of blocks comes to, in front of a block or inside it, the blocks come to. -/
theorem halts_of_written {code : List Stmt} {blocks : LabelMap Block} (hw : Holds code blocks)
    {stmts : List Stmt} {m m' : Machine} {r : Outcome} (h : Machine.Halts code stmts m r m') :
    ∀ acts last more, stmts = written acts last more ∨
        (∃ l, stmts = .label l :: written acts last more) →
      Halts blocks acts last m r m' := by
  induction h with
  | nil m =>
      rintro acts last more (heq | ⟨l, heq⟩)
      · -- the code of a block does not end without its transfer
        cases acts <;> cases heq
      · cases heq
  | label _ ih =>
      rintro acts last more (heq | ⟨l, heq⟩)
      · cases acts <;> cases heq
      · exact ih acts last more (.inl (List.cons.inj heq).2)
  | act ha _ ih =>
      rintro acts last more (heq | ⟨l, heq⟩)
      · cases acts with
        | nil => cases heq
        | cons a acts =>
            obtain ⟨ha', hrest⟩ := List.cons.inj heq
            obtain rfl := Stmt.act.inj ha'
            exact Halts.act ha (ih acts last more (.inl hrest))
      · cases heq
  | fail ha =>
      rintro acts last more (heq | ⟨l, heq⟩)
      · cases acts with
        | nil => cases heq
        | cons a acts =>
            obtain rfl := Stmt.act.inj (List.cons.inj heq).1
            exact Halts.fail ha
      · cases heq
  | @jump t _ found m m' r hfound _ ih =>
      rintro acts last more (heq | ⟨l, heq⟩)
      · cases acts with
        | nil =>
            obtain rfl := Stmt.transfer.inj (List.cons.inj heq).1
            cases hb : blocks[m.target t]? with
            | none =>
                rw [hw.missing hb] at hfound
                cases hfound
            | some b =>
                -- behind the label of the target stands its block
                obtain ⟨behind, hcode⟩ := hw.found hb
                obtain rfl := Option.some.inj (hfound.symm.trans hcode)
                exact Halts.goto hb (ih b.body b.last behind (.inr ⟨_, rfl⟩))
        | cons a acts => cases heq
      · cases heq
  | @leave t _ m hnone =>
      rintro acts last more (heq | ⟨l, heq⟩)
      · cases acts with
        | nil =>
            obtain rfl := Stmt.transfer.inj (List.cons.inj heq).1
            refine Halts.leave ?_
            cases hb : blocks[m.target t]? with
            | none => rfl
            | some b =>
                obtain ⟨behind, hcode⟩ := hw.found hb
                rw [hcode] at hnone
                cases hnone
        | cons a acts => cases heq
      · cases heq

/-- The flat code of a graph halts exactly as the graph does. -/
theorem halts_linearize_iff {g : BlockGraph} (hg : g.WellFormed) {m m' : Machine} {r : Outcome} :
    Machine.Halts g.linearize g.linearize m r m' ↔ g.Runs m r m' := by
  obtain ⟨first, bs, hcode, hfirst, hnodup, hbs⟩ := linearize_eq hg
  have hw := holds_flatMap_stmts hnodup hbs
  rw [← hcode] at hw
  have hstart : g.linearize =
      .label first.label :: written first.body first.last (bs.flatMap Block.stmts) := by
    rw [hcode, List.flatMap_cons, stmts_append]
  rw [runs_iff hfirst]
  constructor
  · intro h
    exact halts_of_written hw h _ _ _ (.inr ⟨_, hstart⟩)
  · intro h
    have hrun := Machine.Halts.label (l := first.label)
      (written_halts hw h (bs.flatMap Block.stmts))
    rwa [← hstart] at hrun

-- ── All steps together ───────────────────────────────────────────────────────

/-- **Layout keeps how code runs.** Labels are folded, the code is cut into blocks, and these are
    merged and written again. The new code stops exactly if the old one does, with the same machine
    and the same error or label, where running off the end of the old code is a jump to the exit in
    the new one. -/
theorem layout_keeps_behaviour (stmts : List Stmt) (exit : Label) (names : Supply)
    (hnodup : (definedLabels stmts).Nodup) (hexit : exit ∉ definedLabels stmts)
    (hne : names.freshLabel.1 ≠ exit) (hfresh : Unused names.freshLabel.1 stmts)
    (m m' : Machine) (r : Outcome) :
    m.Stops (ofStmts (foldLabels stmts) exit names).1.merge.2.linearize r m' ↔
      ∃ r₀, m.Stops stmts r₀ m' ∧ exitAt exit r₀ = r := by
  have hlabels : (definedLabels (foldLabels stmts)).Sublist (definedLabels stmts) :=
    definedLabels_foldLabels_sublist stmts
  have hfresh' := hfresh.foldLabels hnodup
  have hnodup' := hlabels.nodup hnodup
  have hg := wellFormed_ofStmts exit hnodup' hfresh'.not_defined
  obtain ⟨hmerged, hruns⟩ := keeps_merge _ hg
  rw [stops_iff_halts, halts_linearize_iff hmerged, hruns,
    runs_ofStmts_iff hnodup' hfresh' hne fun h => hexit (hlabels.subset h)]
  constructor
  · rintro ⟨r₀, hhalts, hr⟩
    rw [halts_foldLabels_iff hnodup, ← stops_iff_halts] at hhalts
    exact ⟨r₀, hhalts, hr⟩
  · rintro ⟨r₀, hstops, hr⟩
    rw [stops_iff_halts, ← halts_foldLabels_iff hnodup] at hstops
    exact ⟨r₀, hstops, hr⟩

/-- A loop with two labels at its head, a call that nothing reaches, and an open end. -/
theorem layout_keeps_behaviour_loop :
    ∃ x : Machine,
      Machine.Stops { temps := {(⟨0⟩, 2)} }
        (ofStmts (foldLabels
          [.label (.fresh 0), .label (.fresh 1),
            .act (.store (.const 8) (.temp ⟨0⟩)),
            .act (.move ⟨0⟩ (.binop .sub (.temp ⟨0⟩) (.const 1))),
            .transfer (.branch ⟨0⟩ (.fresh 1) (.fresh 2)),
            .act (.call (.fresh 9) []),
            .label (.fresh 2), .transfer (.jump (.fresh 3)),
            .label (.fresh 3), .act (.move ⟨1⟩ (.atom (.const 5)))])
          (.fresh 7) { temps := 2, labels := 10 }).1.merge.2.linearize
        (.ok (some (.fresh 7))) x ∧
      x.effects = #[.store 8 2, .store 8 1] ∧ x.temp ⟨1⟩ = 5 := by
  refine ⟨_, (layout_keeps_behaviour _ _ _ ?_ ?_ ?_ ⟨?_, ?_⟩ _ _ _).mpr
    ⟨.ok none, ⟨20, rfl, nofun⟩, rfl⟩, rfl, rfl⟩
  · decide
  · decide
  · decide
  · decide
  · intro t ht
    simp at ht
    rcases ht with rfl | rfl <;> decide

end BlockGraph

end MmixBackend
