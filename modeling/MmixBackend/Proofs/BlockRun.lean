import MmixBackend.Proofs.FoldLabels

/-!
# Cutting code into blocks keeps every run

A run inside a block graph performs the actions of a block and then goes on at the block that the
last transfer leads to, or leaves for a label that has no block. The main statements:

* **`cut_eq`** — cutting gives a block for each label. It holds the actions behind the label up to
  the next label or transfer, and goes on where the code does.
* **`runs_ofStmts_iff`** — code halts exactly as its blocks do. The one difference is where control
  runs off the end: the blocks jump to the exit there.
-/

namespace MmixBackend

open Flat Machine

namespace Machine

/-- How the run of blocks ends where the run of the code they were cut from ends with `r`. -/
def exitAt (exit : Label) : Outcome → Outcome
  | .ok none => .ok (some exit)
  | r => r

/-- A transfer leads to one of its targets. -/
theorem target_mem_targets (m : Machine) (t : Transfer) : m.target t ∈ t.targets := by
  cases t with
  | jump l => exact List.mem_cons_self
  | branch cond ifTrue ifFalse =>
      show (if m.temp cond ≠ 0 then ifTrue else ifFalse) ∈ [ifTrue, ifFalse]
      split
      · exact List.mem_cons_self
      · exact List.mem_cons_of_mem _ List.mem_cons_self

end Machine

namespace BlockGraph

-- ── Runs of blocks ───────────────────────────────────────────────────────────

/-- Among `blocks`, the actions ahead and the transfer behind them come to an outcome and leave a
    machine behind. -/
inductive Halts (blocks : LabelMap Block) :
    List Action → Transfer → Machine → Outcome → Machine → Prop where
  | act {a : Action} {ahead : List Action} {last : Transfer} {m m₁ m' : Machine} {r : Outcome} :
      m.act a = (.ok (), m₁) → Halts blocks ahead last m₁ r m' →
        Halts blocks (a :: ahead) last m r m'
  | fail {a : Action} {ahead : List Action} {last : Transfer} {m m' : Machine} {e : RunError} :
      m.act a = (.error e, m') → Halts blocks (a :: ahead) last m (.error e) m'
  | goto {last : Transfer} {b : Block} {m m' : Machine} {r : Outcome} :
      blocks[m.target last]? = some b → Halts blocks b.body b.last m r m' →
        Halts blocks [] last m r m'
  | leave {last : Transfer} {m : Machine} :
      blocks[m.target last]? = none → Halts blocks [] last m (.ok (some (m.target last))) m

/-- A run of the graph from its entry. -/
def Runs (g : BlockGraph) (m : Machine) (r : Outcome) (m' : Machine) : Prop :=
  Halts g.blocks [] (.jump g.entry) m r m'

/-- What a transfer does depends only on where it leads. -/
theorem halts_of_target_eq {blocks : LabelMap Block} {last last' : Transfer} {m m' : Machine}
    {r : Outcome} (heq : m.target last = m.target last') (h : Halts blocks [] last m r m') :
    Halts blocks [] last' m r m' := by
  cases h with
  | goto hb hrun =>
      rw [heq] at hb
      exact Halts.goto hb hrun
  | leave hnone =>
      rw [heq] at hnone ⊢
      exact Halts.leave hnone

/-- A run of a graph is a run of its entry block. -/
theorem runs_iff {g : BlockGraph} {b : Block} (hb : g.blocks[g.entry]? = some b) {m m' : Machine}
    {r : Outcome} : g.Runs m r m' ↔ Halts g.blocks b.body b.last m r m' := by
  constructor
  · intro h
    cases h with
    | goto hb' hrun =>
        obtain rfl := Option.some.inj (hb.symm.trans hb')
        exact hrun
    | leave hnone =>
        have hnone : g.blocks[g.entry]? = none := hnone
        rw [hb] at hnone
        cases hnone
  · intro h
    exact Halts.goto hb h

-- ── Graphs of lists of blocks ────────────────────────────────────────────────

/-- What holds of the graphs that code is cut into, and what joining blocks keeps. -/
structure WellFormed (g : BlockGraph) : Prop where
  label_eq : ∀ {l : Label} {b : Block}, g.blocks[l]? = some b → b.label = l
  mem_order_iff : ∀ l, l ∈ g.order ↔ l ∈ g.blocks
  entry_mem : g.entry ∈ g.blocks

theorem entry_foldl_insert (bs : List Block) (g : BlockGraph) :
    (bs.foldl insert g).entry = g.entry := by
  induction bs generalizing g with
  | nil => rfl
  | cons b bs ih => exact ih (g.insert b)

theorem entry_ofBlocks (entry : Label) (bs : List Block) : (ofBlocks entry bs).entry = entry :=
  entry_foldl_insert bs _

/-- Inserting a block changes the entry of its own label only. -/
theorem getElem?_insert (g : BlockGraph) (b : Block) (l : Label) :
    (g.insert b).blocks[l]? = if b.label = l then some b else g.blocks[l]? := by
  show (g.blocks.insert b.label b)[l]? = _
  rw [Std.ExtTreeMap.getElem?_insert]
  by_cases hl : b.label = l
  · rw [if_pos hl, if_pos (by rw [hl]; exact Std.ReflCmp.compare_self)]
  · rw [if_neg hl, if_neg (fun h => hl (Std.LawfulEqCmp.eq_of_compare h))]

/-- Labels that none of the inserted blocks has are looked up as before. -/
theorem getElem?_foldl_insert_of_not_mem {bs : List Block} {l : Label}
    (h : l ∉ bs.map Block.label) (g : BlockGraph) :
    (bs.foldl insert g).blocks[l]? = g.blocks[l]? := by
  induction bs generalizing g with
  | nil => rfl
  | cons b bs ih =>
      rw [List.map_cons, List.mem_cons, not_or] at h
      obtain ⟨hne, htail⟩ := h
      rw [List.foldl_cons, ih htail, getElem?_insert, if_neg (Ne.symm hne)]

/-- A graph has no block for a label that no block in its list has. -/
theorem getElem?_ofBlocks_of_not_mem {entry l : Label} {bs : List Block}
    (h : l ∉ bs.map Block.label) : (ofBlocks entry bs).blocks[l]? = none := by
  rw [ofBlocks, getElem?_foldl_insert_of_not_mem h]
  exact Std.ExtTreeMap.getElem?_empty

/-- If no two blocks share a label, each of them can be looked up after all were inserted. -/
theorem getElem?_foldl_insert_of_mem {bs : List Block} (hnodup : (bs.map Block.label).Nodup)
    {b : Block} (hb : b ∈ bs) (g : BlockGraph) :
    (bs.foldl insert g).blocks[b.label]? = some b := by
  induction bs generalizing g with
  | nil => cases hb
  | cons c bs ih =>
      obtain ⟨hc, hnodup⟩ := List.nodup_cons.mp hnodup
      rcases List.mem_cons.mp hb with rfl | hb
      · rw [List.foldl_cons, getElem?_foldl_insert_of_not_mem hc, getElem?_insert, if_pos rfl]
      · exact ih hnodup hb (g.insert c)

/-- If no two blocks share a label, each of them can be looked up in the graph of the list. -/
theorem getElem?_ofBlocks_of_mem {entry : Label} {bs : List Block}
    (hnodup : (bs.map Block.label).Nodup) {b : Block} (hb : b ∈ bs) :
    (ofBlocks entry bs).blocks[b.label]? = some b :=
  getElem?_foldl_insert_of_mem hnodup hb _

/-- Inserted blocks come last in the order, the first of them first. -/
theorem order_foldl_insert (bs : List Block) (g : BlockGraph) :
    (bs.foldl insert g).order = g.order ++ bs.map Block.label := by
  induction bs generalizing g with
  | nil => exact (List.append_nil _).symm
  | cons b bs ih =>
      rw [List.foldl_cons, ih]
      exact List.append_assoc g.order [b.label] _

/-- The labels with a block are those of before and those of the inserted blocks. -/
theorem mem_foldl_insert (bs : List Block) (g : BlockGraph) (l : Label) :
    l ∈ (bs.foldl insert g).blocks ↔ l ∈ g.blocks ∨ l ∈ bs.map Block.label := by
  induction bs generalizing g with
  | nil => exact ⟨.inl, fun h => h.resolve_right List.not_mem_nil⟩
  | cons b bs ih =>
      have hb : l ∈ (g.insert b).blocks ↔ l = b.label ∨ l ∈ g.blocks := by
        show l ∈ g.blocks.insert b.label b ↔ _
        rw [Std.ExtTreeMap.mem_insert, Std.LawfulEqCmp.compare_eq_iff_eq, eq_comm]
      rw [List.foldl_cons, ih, hb, List.map_cons, List.mem_cons, or_comm (a := l = b.label),
        or_assoc]

/-- Inserting blocks keeps every block under its own label. -/
theorem label_eq_foldl_insert (bs : List Block) {g : BlockGraph}
    (hg : ∀ {l : Label} {b : Block}, g.blocks[l]? = some b → b.label = l) {l : Label} {b : Block}
    (h : (bs.foldl insert g).blocks[l]? = some b) : b.label = l := by
  induction bs generalizing g with
  | nil => exact hg h
  | cons c bs ih =>
      refine ih ?_ h
      intro l' b' hb'
      rw [getElem?_insert] at hb'
      split at hb'
      · next heq =>
        cases hb'
        exact heq
      · exact hg hb'

/-- The graph of a list of blocks is well-formed, if one of them has the entry label. -/
theorem wellFormed_ofBlocks {entry : Label} {bs : List Block}
    (hentry : entry ∈ bs.map Block.label) : (ofBlocks entry bs).WellFormed := by
  have hempty : ∀ l, l ∉ (∅ : LabelMap Block) := fun l => Std.ExtTreeMap.not_mem_empty
  refine ⟨?_, ?_, ?_⟩
  · intro l b hb
    refine label_eq_foldl_insert bs ?_ hb
    intro l' b' hb'
    rw [Std.ExtTreeMap.getElem?_empty] at hb'
    cases hb'
  · intro l
    rw [ofBlocks, order_foldl_insert, mem_foldl_insert, List.nil_append]
    exact ⟨.inr, fun h => h.resolve_left (hempty l)⟩
  · rw [entry_ofBlocks, ofBlocks, mem_foldl_insert]
    exact .inr hentry

end BlockGraph

-- ── What cutting does ────────────────────────────────────────────────────────

/-- The actions ahead of the next label or transfer, and where control goes from there. -/
def restOfBlock (exit : Label) : List Stmt → List Action × Transfer
  | [] => ([], .jump exit)
  | .label l :: _ => ([], .jump l)
  | .act a :: rest => (a :: (restOfBlock exit rest).1, (restOfBlock exit rest).2)
  | .transfer t :: _ => ([], t)

/-- If the rest of a block starts with an action, so does the code ahead. -/
theorem restOfBlock_eq_act {exit : Label} {ahead : List Stmt} {a : Action} {acts : List Action}
    {last : Transfer} (h : restOfBlock exit ahead = (a :: acts, last)) :
    ∃ rest, ahead = .act a :: rest ∧ restOfBlock exit rest = (acts, last) := by
  cases ahead with
  | nil => cases h
  | cons s rest =>
      cases s with
      | label l => cases h
      | act a' =>
          obtain ⟨hacts, rfl⟩ := Prod.mk.inj h
          obtain ⟨rfl, rfl⟩ := List.cons.inj hacts
          exact ⟨rest, rfl, rfl⟩
      | transfer t => cases h

/-- A block without actions left is at the end of the code, in front of a label or at a transfer. -/
theorem restOfBlock_eq_nil {exit : Label} {ahead : List Stmt} {last : Transfer}
    (h : restOfBlock exit ahead = ([], last)) :
    ahead = [] ∧ last = .jump exit ∨ (∃ l rest, ahead = .label l :: rest ∧ last = .jump l) ∨
      ∃ rest, ahead = .transfer last :: rest := by
  cases ahead with
  | nil => exact .inl ⟨rfl, (Prod.mk.inj h).2.symm⟩
  | cons s rest =>
      cases s with
      | label l => exact .inr (.inl ⟨l, rest, rfl, (Prod.mk.inj h).2.symm⟩)
      | act a => cases h
      | transfer t =>
          obtain rfl : t = last := (Prod.mk.inj h).2
          exact .inr (.inr ⟨rest, rfl⟩)

/-- The block of the label `l` with the code `rest` behind it. -/
def blockAt (exit l : Label) (rest : List Stmt) : Block :=
  ⟨l, (restOfBlock exit rest).1, (restOfBlock exit rest).2⟩

/-- The blocks of the labels of the code, in order. -/
def labelledBlocks (exit : Label) : List Stmt → List Block
  | [] => []
  | .label l :: rest => blockAt exit l rest :: labelledBlocks exit rest
  | _ :: rest => labelledBlocks exit rest

/-- There is a block for each label that is defined, in the same order. -/
theorem map_label_labelledBlocks (exit : Label) (code : List Stmt) :
    (labelledBlocks exit code).map Block.label = definedLabels code := by
  induction code with
  | nil => rfl
  | cons s code ih =>
      cases s with
      | label l => exact congrArg (l :: ·) ih
      | act a => exact ih
      | transfer t => exact ih

/-- Wherever a label stands in the code, the block that starts there is one of those cut out. -/
theorem mem_labelledBlocks {exit l : Label} {code rest : List Stmt}
    (h : .label l :: rest <:+ code) : blockAt exit l rest ∈ labelledBlocks exit code := by
  induction code with
  | nil => exact absurd (List.suffix_nil.mp h) nofun
  | cons s code ih =>
      rcases List.suffix_cons_iff.mp h with heq | hs
      · obtain ⟨rfl, rfl⟩ := List.cons.inj heq
        exact List.mem_cons_self
      · cases s with
        | label l' => exact List.mem_cons_of_mem _ (ih hs)
        | act a => exact ih hs
        | transfer t => exact ih hs

/-- Cutting gives the block that the code starts in and a block for each label. -/
theorem cut_eq (exit : Label) (code : List Stmt) (hnodup : (definedLabels code).Nodup) :
    (∀ l body, l ∉ definedLabels code → cutBlock exit l body code =
      ⟨l, body ++ (restOfBlock exit code).1, (restOfBlock exit code).2⟩ ::
        labelledBlocks exit code) ∧
    cutDead exit code = labelledBlocks exit code := by
  induction code with
  | nil =>
      refine ⟨?_, rfl⟩
      intro l body _
      rw [restOfBlock, List.append_nil]
      rfl
  | cons s code ih =>
      cases s with
      | label l' =>
          obtain ⟨hl', hnodup⟩ := List.nodup_cons.mp hnodup
          obtain ⟨hblock, -⟩ := ih hnodup
          have hdead : cutDead exit (.label l' :: code) =
              labelledBlocks exit (.label l' :: code) := by
            rw [cutDead, hblock l' [] hl']
            rfl
          refine ⟨?_, hdead⟩
          intro l body hl
          -- the label is another one, so the block ends here
          have hne : ¬ (l' = l ∧ body = []) := by
            rintro ⟨rfl, -⟩
            exact hl List.mem_cons_self
          rw [cutBlock, if_neg hne, hblock l' [] hl', restOfBlock, List.append_nil]
          rfl
      | act a =>
          obtain ⟨hblock, hdead⟩ := ih hnodup
          refine ⟨?_, hdead⟩
          intro l body hl
          rw [cutBlock, hblock l (body ++ [a]) hl, List.append_assoc]
          rfl
      | transfer t =>
          obtain ⟨-, hdead⟩ := ih hnodup
          refine ⟨?_, hdead⟩
          intro l body _
          rw [cutBlock, hdead, restOfBlock, List.append_nil]
          rfl

namespace BlockGraph

/-- The blocks hold what the code does from each of its labels on, and the labels that the code
    may leave for have none. -/
structure CutFrom (exit : Label) (code : List Stmt) (blocks : LabelMap Block) : Prop where
  at_label : ∀ {l : Label} {rest : List Stmt}, .label l :: rest <:+ code →
    blocks[l]? = some (blockAt exit l rest)
  at_exit : blocks[exit]? = none
  undefined : ∀ {t : Transfer} {l : Label}, .transfer t ∈ code → l ∈ t.targets →
    codeFrom l code = none → blocks[l]? = none

-- ── The code runs as its blocks do ───────────────────────────────────────────

/-- What code comes to, the blocks that it was cut into come to. By induction on the run of the
    code. -/
theorem halts_of_code {exit : Label} {code : List Stmt} {blocks : LabelMap Block}
    (hcut : CutFrom exit code blocks) {ahead : List Stmt} {m m' : Machine} {r : Outcome}
    (h : Machine.Halts code ahead m r m') (hs : ahead <:+ code) :
    Halts blocks (restOfBlock exit ahead).1 (restOfBlock exit ahead).2 m (exitAt exit r) m' := by
  induction h with
  | nil m =>
      have hnone : blocks[m.target (.jump exit)]? = none := hcut.at_exit
      exact Halts.leave hnone
  | @label l ahead m m' r _ ih =>
      have hb : blocks[m.target (.jump l)]? = some (blockAt exit l ahead) := hcut.at_label hs
      exact Halts.goto hb (ih ((List.suffix_cons _ _).trans hs))
  | act ha _ ih => exact Halts.act ha (ih ((List.suffix_cons _ _).trans hs))
  | fail ha => exact Halts.fail ha
  | @jump t ahead found m m' r hfound _ ih =>
      obtain ⟨rest, rfl⟩ := head_of_codeFrom hfound
      have hlanded : Halts blocks [] (.jump (m.target t)) m (exitAt exit r) m' :=
        ih (suffix_of_codeFrom hfound)
      have htarget : m.target (.jump (m.target t)) = m.target t := rfl
      exact halts_of_target_eq htarget hlanded
  | @leave t ahead m hnone =>
      have hmem : Stmt.transfer t ∈ code := hs.mem List.mem_cons_self
      exact Halts.leave (hcut.undefined hmem (m.target_mem_targets t) hnone)

/-- What blocks come to, the code that they were cut from comes to. By induction on the run of the
    blocks. -/
theorem code_of_halts {exit : Label} {code : List Stmt} {blocks : LabelMap Block}
    (hcut : CutFrom exit code blocks) {acts : List Action} {last : Transfer} {m m' : Machine}
    {r : Outcome} (h : Halts blocks acts last m r m') :
    ∀ ahead, ahead <:+ code → restOfBlock exit ahead = (acts, last) →
      ∃ r₀, Machine.Halts code ahead m r₀ m' ∧ exitAt exit r₀ = r := by
  induction h with
  | act ha _ ih =>
      intro ahead hs heq
      obtain ⟨rest, rfl, hrest⟩ := restOfBlock_eq_act heq
      obtain ⟨r₀, hrun, hr⟩ := ih rest ((List.suffix_cons _ _).trans hs) hrest
      exact ⟨r₀, Machine.Halts.act ha hrun, hr⟩
  | fail ha =>
      intro ahead hs heq
      obtain ⟨rest, rfl, -⟩ := restOfBlock_eq_act heq
      exact ⟨_, Machine.Halts.fail ha, rfl⟩
  | @goto last b m m' r hb _ ih =>
      intro ahead hs heq
      rcases restOfBlock_eq_nil heq with ⟨rfl, rfl⟩ | ⟨l, rest, rfl, rfl⟩ | ⟨rest, rfl⟩
      · -- the code has run off its end, and the exit has no block
        have hnone : blocks[m.target (.jump exit)]? = none := hcut.at_exit
        rw [hnone] at hb
        cases hb
      · obtain rfl := Option.some.inj ((hcut.at_label hs).symm.trans hb)
        obtain ⟨r₀, hrun, hr⟩ := ih rest ((List.suffix_cons _ _).trans hs) rfl
        exact ⟨r₀, Machine.Halts.label hrun, hr⟩
      · cases hfound : codeFrom (m.target last) code with
        | none =>
            have hmem : Stmt.transfer last ∈ code := hs.mem List.mem_cons_self
            rw [hcut.undefined hmem (m.target_mem_targets last) hfound] at hb
            cases hb
        | some found =>
            obtain ⟨behind, rfl⟩ := head_of_codeFrom hfound
            have hsuffix := suffix_of_codeFrom hfound
            obtain rfl := Option.some.inj ((hcut.at_label hsuffix).symm.trans hb)
            obtain ⟨r₀, hrun, hr⟩ := ih behind ((List.suffix_cons _ _).trans hsuffix) rfl
            exact ⟨r₀, Machine.Halts.jump hfound (Machine.Halts.label hrun), hr⟩
  | @leave last m hnone =>
      intro ahead hs heq
      rcases restOfBlock_eq_nil heq with ⟨rfl, rfl⟩ | ⟨l, rest, rfl, rfl⟩ | ⟨rest, rfl⟩
      · exact ⟨_, Machine.Halts.nil m, rfl⟩
      · have hb : blocks[m.target (.jump l)]? = some (blockAt exit l rest) := hcut.at_label hs
        rw [hb] at hnone
        cases hnone
      · cases hfound : codeFrom (m.target last) code with
        | none => exact ⟨_, Machine.Halts.leave hfound, rfl⟩
        | some found =>
            obtain ⟨behind, rfl⟩ := head_of_codeFrom hfound
            rw [hcut.at_label (suffix_of_codeFrom hfound)] at hnone
            cases hnone

-- ── From code to a graph ─────────────────────────────────────────────────────

/-- A label that nothing in the code defines or leads to. -/
structure Unused (l : Label) (code : List Stmt) : Prop where
  not_defined : l ∉ definedLabels code
  not_target : ∀ t, .transfer t ∈ code → l ∉ t.targets

/-- A label that code does not use is not brought in by folding. -/
theorem Unused.foldLabels {l : Label} {code : List Stmt} (hnodup : (definedLabels code).Nodup)
    (h : Unused l code) : Unused l (foldLabels code) := by
  refine ⟨fun hl => h.not_defined ((definedLabels_foldLabels_sublist code).subset hl), ?_⟩
  intro t ht hl
  obtain ⟨t₀, ht₀, x, hx, rfl⟩ := target_of_mem_foldLabels ht hl
  rcases foldTarget_cases hnodup x with heq | hdefined
  · rw [heq] at h
    exact h.not_target t₀ ht₀ hx
  · exact h.not_defined hdefined

section OfStmts

variable {code : List Stmt} {names : Supply} (exit : Label)

/-- The graph has a block for each label and, unless the code starts with a label, one more. -/
theorem ofStmts_cases (hnodup : (definedLabels code).Nodup)
    (hfresh : names.freshLabel.1 ∉ definedLabels code) :
    (∃ l rest, code = .label l :: rest ∧
      (ofStmts code exit names).1 = ofBlocks l (labelledBlocks exit code)) ∨
    (ofStmts code exit names).1 = ofBlocks names.freshLabel.1
      (blockAt exit names.freshLabel.1 code :: labelledBlocks exit code) := by
  unfold ofStmts
  split
  · next l rest =>
    obtain ⟨hl, hrest⟩ := List.nodup_cons.mp hnodup
    refine .inl ⟨l, rest, rfl, ?_⟩
    show ofBlocks l (cutBlock exit l [] (.label l :: rest)) = _
    rw [cutBlock, if_pos ⟨rfl, rfl⟩, (cut_eq exit rest hrest).1 l [] hl]
    rfl
  · refine .inr ?_
    show ofBlocks names.freshLabel.1 (cutBlock exit names.freshLabel.1 [] code) = _
    rw [(cut_eq exit code hnodup).1 _ [] hfresh]
    rfl

/-- Code without a label defined twice is cut into a well-formed graph. -/
theorem wellFormed_ofStmts (hnodup : (definedLabels code).Nodup)
    (hfresh : names.freshLabel.1 ∉ definedLabels code) :
    (ofStmts code exit names).1.WellFormed := by
  rcases ofStmts_cases exit hnodup hfresh with ⟨l, rest, rfl, hg⟩ | hg
  · rw [hg]
    exact wellFormed_ofBlocks List.mem_cons_self
  · rw [hg]
    exact wellFormed_ofBlocks List.mem_cons_self

variable {exit}

/-- The graph of code holds, for every label of the code, the block that starts there. -/
theorem cutFrom_ofStmts (hnodup : (definedLabels code).Nodup)
    (hfresh : Unused names.freshLabel.1 code) (hne : names.freshLabel.1 ≠ exit)
    (hexit : exit ∉ definedLabels code) :
    CutFrom exit code (ofStmts code exit names).1.blocks := by
  obtain ⟨entry, bs, hg, hlabels, hmem, hother⟩ : ∃ entry bs,
      (ofStmts code exit names).1 = ofBlocks entry bs ∧ (bs.map Block.label).Nodup ∧
      (∀ b ∈ labelledBlocks exit code, b ∈ bs) ∧
      ∀ l ∈ bs.map Block.label, l = names.freshLabel.1 ∨ l ∈ definedLabels code := by
    rcases ofStmts_cases exit hnodup hfresh.not_defined with ⟨l, rest, -, hg⟩ | hg
    · refine ⟨l, labelledBlocks exit code, hg, ?_, fun b hb => hb, ?_⟩
      · rw [map_label_labelledBlocks]
        exact hnodup
      · rw [map_label_labelledBlocks]
        exact fun l hl => .inr hl
    · refine ⟨names.freshLabel.1, blockAt exit names.freshLabel.1 code :: labelledBlocks exit code,
        hg, ?_, fun b hb => List.mem_cons_of_mem _ hb, ?_⟩
      · rw [List.map_cons, map_label_labelledBlocks]
        exact List.nodup_cons.mpr ⟨hfresh.not_defined, hnodup⟩
      · rw [List.map_cons, map_label_labelledBlocks]
        exact fun l hl => List.mem_cons.mp hl
  rw [hg]
  refine ⟨?_, ?_, ?_⟩
  · intro l rest hs
    exact getElem?_ofBlocks_of_mem hlabels (hmem _ (mem_labelledBlocks hs))
  · refine getElem?_ofBlocks_of_not_mem fun hl => ?_
    rcases hother exit hl with heq | hl
    · exact hne heq.symm
    · exact hexit hl
  · intro t l ht hl hnone
    rw [codeFrom_eq_none_iff, ← mem_definedLabels] at hnone
    refine getElem?_ofBlocks_of_not_mem fun hmem => ?_
    rcases hother l hmem with rfl | hdefined
    · exact hfresh.not_target t ht hl
    · exact hnone hdefined

/-- Code halts exactly as its blocks do, where running off its end is a jump to the exit. -/
theorem runs_ofStmts_iff (hnodup : (definedLabels code).Nodup)
    (hfresh : Unused names.freshLabel.1 code) (hne : names.freshLabel.1 ≠ exit)
    (hexit : exit ∉ definedLabels code) {m m' : Machine} {r : Outcome} :
    (ofStmts code exit names).1.Runs m r m' ↔
      ∃ r₀, Machine.Halts code code m r₀ m' ∧ exitAt exit r₀ = r := by
  have hcut := cutFrom_ofStmts hnodup hfresh hne hexit
  have hstart : (ofStmts code exit names).1.Runs m r m' ↔
      Halts (ofStmts code exit names).1.blocks (restOfBlock exit code).1 (restOfBlock exit code).2
        m r m' := by
    rcases ofStmts_cases exit hnodup hfresh.not_defined with ⟨l, rest, rfl, hg⟩ | hg
    · -- the code starts with the label of the entry, so both sides jump there
      rw [Runs, hg, entry_ofBlocks]
      rfl
    · refine runs_iff (b := blockAt exit names.freshLabel.1 code) ?_
      rw [hg, entry_ofBlocks]
      refine getElem?_ofBlocks_of_mem (b := blockAt exit _ code) ?_ List.mem_cons_self
      rw [List.map_cons, map_label_labelledBlocks]
      exact List.nodup_cons.mpr ⟨hfresh.not_defined, hnodup⟩
  rw [hstart]
  constructor
  · intro h
    exact code_of_halts hcut h code List.suffix_rfl rfl
  · rintro ⟨r₀, h, rfl⟩
    exact halts_of_code hcut h List.suffix_rfl

end OfStmts

end BlockGraph

end MmixBackend
