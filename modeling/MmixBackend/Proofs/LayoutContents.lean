import Mathlib.Data.List.Perm.Basic
import Mathlib.Logic.Relation
import MmixBackend.Proofs.KnownBlocks

/-!
# Layout keeps the code

Laying code out again moves its statements about, and labels are dropped on the way: by folding,
with blocks that no path reaches, and with every block that is absorbed. What is left is all the
code that can be reached, once, and no jump has lost its label.

* **`not_mem_unreachable_iff`** — the walk from the entry finds exactly the blocks that a path
  leads to.
* **`Lists.absorb`** — absorbing a block moves its work and writes none of it twice.
* **`Closed.absorb`** — with a block goes the only jump to it.
* **`layout_keeps_code`** — so the work of the new code is that of the reached blocks, and its jumps
  lead to labels that it defines or that the old code did not define either.
-/

namespace MmixBackend

open Flat

-- ── The work of code ─────────────────────────────────────────────────────────

/-- Does the statement do more than name a place or lead to one? -/
def Flat.Stmt.isWork : Stmt → Bool
  | .label _ => false
  | .act _ => true
  | .transfer (.jump _) => false
  | .transfer (.branch ..) => true

/-- The actions and branches of code, in order. -/
def Flat.work (code : List Stmt) : List Stmt := code.filter Stmt.isWork

theorem Flat.work_append (code code' : List Stmt) :
    work (code ++ code') = work code ++ work code' := List.filter_append ..

theorem Flat.work_map_act (acts : List Action) : work (acts.map .act) = acts.map .act := by
  refine List.filter_eq_self.mpr ?_
  intro st hst
  obtain ⟨a, -, rfl⟩ := List.mem_map.mp hst
  rfl

/-- The work of a block is that of its body and of its last transfer. -/
theorem Block.work_stmts (b : Block) :
    work b.stmts = b.body.map .act ++ work [.transfer b.last] := by
  rw [stmts, work_append]
  exact congrArg (· ++ work [.transfer b.last]) (work_map_act b.body)

theorem work_flatMap_cons (b : Block) (bs : List Block) :
    work ((b :: bs).flatMap Block.stmts) = work b.stmts ++ work (bs.flatMap Block.stmts) := by
  rw [List.flatMap_cons, work_append]

namespace BlockGraph

variable {g : BlockGraph} {bs bs' : List Block} {defined : List Label} {a b l : Label}
  {first second : Block}

-- ── Paths from the entry ─────────────────────────────────────────────────────

/-- The block at the first label may send control to the second one. -/
def Leads (blocks : LabelMap Block) (l l' : Label) : Prop :=
  ∃ b, blocks[l]? = some b ∧ l' ∈ b.successors

/-- There is a path from the entry to the label. -/
def Reaches (g : BlockGraph) (l : Label) : Prop :=
  Relation.ReflTransGen (Leads g.blocks) g.entry l

/-- What leads somewhere without a block leads there with it. -/
theorem Leads.of_erase {blocks : LabelMap Block} {x l' : Label}
    (h : Leads (blocks.erase x) l l') : Leads blocks l l' := by
  obtain ⟨b, hb, hl'⟩ := h
  rw [getElem?_erase] at hb
  split at hb
  · cases hb
  · exact ⟨b, hb, hl'⟩

/-- To a block that the walk has seen there is a path from where it started. -/
theorem exists_path_of_not_mem_unreached (unseen : LabelMap Block) (todo : List Label)
    (hmem : l ∈ unseen) (hl : l ∉ unreached unseen todo) :
    ∃ start ∈ todo, Relation.ReflTransGen (Leads unseen) start l := by
  fun_induction unreached unseen todo with
  | case1 unseen => exact absurd hmem hl
  | case2 unseen x todo _ ih =>
      obtain ⟨start, hstart, hpath⟩ := ih hmem hl
      exact ⟨start, List.mem_cons_of_mem _ hstart, hpath⟩
  | case3 unseen x todo c hc _ ih =>
      by_cases hx : x = l
      · exact ⟨x, List.mem_cons_self, hx ▸ .refl⟩
      · have hmem' : l ∈ unseen.erase x := by
          rw [Std.ExtTreeMap.mem_erase]
          exact ⟨fun h => hx (Std.LawfulEqCmp.eq_of_compare h), hmem⟩
        obtain ⟨start, hstart, hpath⟩ := ih hmem' hl
        have hpath' := Relation.ReflTransGen.mono (fun _ _ => Leads.of_erase) _ _ hpath
        rcases List.mem_append.mp hstart with hsucc | htodo
        · exact ⟨x, List.mem_cons_self, hpath'.head ⟨c, hc, hsucc⟩⟩
        · exact ⟨start, List.mem_cons_of_mem _ htodo, hpath'⟩

/-- A label with a path to it is not unreachable. -/
theorem not_mem_unreachable_of_reaches (h : g.Reaches l) : l ∉ g.unreachable := by
  induction h with
  | refl => exact not_mem_unreached_of_mem _ _ List.mem_cons_self
  | tail _ hstep ih =>
      obtain ⟨b, hb, hsucc⟩ := hstep
      exact successors_not_mem_unreached _ _ hb ih hsucc

/-- The walk from the entry finds exactly the blocks that a path leads to. -/
theorem not_mem_unreachable_iff (hl : l ∈ g.blocks) : l ∉ g.unreachable ↔ g.Reaches l := by
  refine ⟨?_, not_mem_unreachable_of_reaches⟩
  intro h
  obtain ⟨start, hstart, hpath⟩ := exists_path_of_not_mem_unreached _ _ hl h
  obtain rfl := List.mem_singleton.mp hstart
  exact hpath

/-- Just the blocks with a path to them are left. -/
theorem getElem?_dropUnreachable_iff {c : Block} :
    g.dropUnreachable.blocks[l]? = some c ↔ g.blocks[l]? = some c ∧ g.Reaches l := by
  constructor
  · intro hc
    obtain ⟨hmem, hl⟩ := (mem_dropUnreachable g l).mp (mem_of_getElem?_eq_some hc)
    rw [getElem?_dropUnreachable g hl] at hc
    exact ⟨hc, (not_mem_unreachable_iff hmem).mp hl⟩
  · rintro ⟨hc, hl⟩
    rw [getElem?_dropUnreachable g (not_mem_unreachable_of_reaches hl)]
    exact hc

-- ── Work is neither lost nor doubled ─────────────────────────────────────────

/-- The list holds every block of the graph once. -/
structure Lists (g : BlockGraph) (bs : List Block) : Prop where
  nodup : (bs.map Block.label).Nodup
  getElem?_iff : ∀ l b, g.blocks[l]? = some b ↔ b ∈ bs ∧ b.label = l

/-- A well-formed graph is written as a list that holds every block once. -/
theorem WellFormed.lists (hg : g.WellFormed) :
    ∃ bs, g.linearize = bs.flatMap Block.stmts ∧ g.Lists bs := by
  obtain ⟨first, bs, hcode, -, hnodup, hbs⟩ := linearize_eq hg
  exact ⟨first :: bs, hcode, hnodup, hbs⟩

theorem Lists.of_perm (h : g.Lists bs) (hperm : bs.Perm bs') : g.Lists bs' := by
  refine ⟨(hperm.map Block.label).nodup_iff.mp h.nodup, ?_⟩
  intro l b
  rw [h.getElem?_iff, hperm.mem_iff]

/-- Two lists of the blocks of a graph differ only in their order. -/
theorem Lists.perm (h : g.Lists bs) (h' : g.Lists bs') : bs.Perm bs' := by
  refine (List.perm_ext_iff_of_nodup h.nodup.of_map h'.nodup.of_map).mpr ?_
  intro b
  have hb := (h.getElem?_iff b.label b).symm.trans (h'.getElem?_iff b.label b)
  simpa using hb

/-- The two blocks that are joined, and the others. -/
theorem Lists.split (h : g.Lists bs) (hab : Absorbable g a b first second) :
    ∃ rest, bs.Perm (first :: second :: rest) := by
  obtain ⟨hfirst, hla⟩ := (h.getElem?_iff a first).mp hab.first_eq
  obtain ⟨hsecond, hlb⟩ := (h.getElem?_iff b second).mp hab.second_eq
  have hne : second ≠ first := by
    rintro rfl
    exact hab.ne (hlb.symm.trans hla)
  have hsecond' : second ∈ bs.erase first := (List.mem_erase_of_ne hne).mpr hsecond
  exact ⟨(bs.erase first).erase second,
    (List.perm_cons_erase hfirst).trans ((List.perm_cons_erase hsecond').cons first)⟩

/-- Absorbing a block puts the joined block in the place of the two. -/
theorem Lists.absorb {rest : List Block} (h : g.Lists (first :: second :: rest))
    (hab : Absorbable g a b first second) :
    (g.absorb a b).Lists (joined first second :: rest) := by
  have hla := ((h.getElem?_iff a first).mp hab.first_eq).2
  have hlb := ((h.getElem?_iff b second).mp hab.second_eq).2
  have hnodup := h.nodup
  simp only [List.map_cons, List.nodup_cons, List.mem_cons, not_or, hla, hlb] at hnodup
  obtain ⟨⟨-, hrest⟩, hrest', hnodup⟩ := hnodup
  have hjoined : (joined first second).label = a := hla
  refine ⟨?_, ?_⟩
  · rw [List.map_cons, hjoined]
    exact List.nodup_cons.mpr ⟨hrest, hnodup⟩
  · intro l c
    rw [absorb_blocks hab, List.mem_cons]
    split
    · next hl =>
      -- the label of the second block, which is gone
      subst hl
      refine ⟨nofun, ?_⟩
      rintro ⟨rfl | hc, hlabel⟩
      · exact absurd (hlabel.symm.trans hjoined) hab.ne
      · exact absurd (hlabel ▸ List.mem_map_of_mem hc) hrest'
    · next hlb' =>
      split
      · next hla' =>
        -- the label of the first block, where the joined one is now
        subst hla'
        constructor
        · intro heq
          obtain rfl := Option.some.inj heq
          exact ⟨.inl rfl, hjoined⟩
        · rintro ⟨rfl | hc, hlabel⟩
          · rfl
          · exact absurd (hlabel ▸ List.mem_map_of_mem hc) hrest
      · next hla' =>
        rw [h.getElem?_iff, List.mem_cons, List.mem_cons]
        constructor
        · rintro ⟨rfl | rfl | hc, rfl⟩
          · exact absurd hla hla'
          · exact absurd hlb hlb'
          · exact ⟨.inr hc, rfl⟩
        · rintro ⟨rfl | hc, rfl⟩
          · exact absurd hjoined hla'
          · exact ⟨.inr (.inr hc), rfl⟩

/-- The jump that a joining removes is no work, so the joined block has the work of the two. -/
theorem work_joined (hjump : first.last = .jump b) :
    work (joined first second).stmts = work first.stmts ++ work second.stmts := by
  rw [Block.work_stmts, Block.work_stmts first, Block.work_stmts second, hjump]
  simp [joined, work, Stmt.isWork]

/-- The blocks of the graph have the work of the code, in some order. -/
def Conserves (code : List Stmt) (g : BlockGraph) : Prop :=
  ∃ bs, g.Lists bs ∧ (work (bs.flatMap Block.stmts)).Perm (work code)

/-- Absorbing a block loses no work: the jump that it does away with is none. -/
theorem Conserves.absorb {code : List Stmt} (hab : Absorbable g a b first second)
    (h : g.Conserves code) : (g.absorb a b).Conserves code := by
  obtain ⟨bs, hbs, hwork⟩ := h
  obtain ⟨rest, hperm⟩ := hbs.split hab
  refine ⟨joined first second :: rest, (hbs.of_perm hperm).absorb hab, ?_⟩
  have hsame : work ((joined first second :: rest).flatMap Block.stmts) =
      work ((first :: second :: rest).flatMap Block.stmts) := by
    rw [work_flatMap_cons, work_joined hab.jumps, work_flatMap_cons, work_flatMap_cons,
      List.append_assoc]
  rw [hsame]
  exact ((hperm.symm.flatMap_right Block.stmts).filter _).trans hwork

/-- Where a block is laid out is no matter of what the graph holds. -/
theorem Conserves.place {code : List Stmt} (a b : Label) (h : g.Conserves code) :
    (g.place a b).Conserves code := by
  obtain ⟨bs, hbs, hwork⟩ := h
  exact ⟨bs, ⟨hbs.nodup, hbs.getElem?_iff⟩, hwork⟩

/-- Merging neither loses nor doubles work. -/
theorem conserves_mergeAll {code : List Stmt} (h : g.Conserves code) :
    g.mergeAll.2.Conserves code :=
  mergeAll_induction (P := Conserves code) Conserves.place Conserves.absorb h

-- ── No jump loses its label ──────────────────────────────────────────────────

/-- Every jump of the graph leads to one of its blocks or to a label that is not defined. -/
def Closed (defined : List Label) (g : BlockGraph) : Prop :=
  ∀ ⦃l : Label⦄ ⦃c : Block⦄, g.blocks[l]? = some c → ∀ s ∈ c.successors, s ∈ g.blocks ∨ s ∉ defined

/-- A jump from a reachable block leads to a reachable block. -/
theorem Closed.dropUnreachable (h : g.Closed defined) : g.dropUnreachable.Closed defined := by
  intro l c hc s hs
  obtain ⟨hblock, hl⟩ := getElem?_dropUnreachable_iff.mp hc
  refine (h hblock s hs).imp_left ?_
  intro hmem
  exact (mem_dropUnreachable g s).mpr
    ⟨hmem, not_mem_unreachable_of_reaches (hl.tail ⟨c, hblock, hs⟩)⟩

/-- The only jump to the absorbed block was the one that joining removes. -/
theorem Closed.absorb (hab : Absorbable g a b first second) (h : g.Closed defined) :
    (g.absorb a b).Closed defined := by
  have hkeep : ∀ {s : Label} {t : Transfer}, s ∈ t.targets → b ∉ t.targets →
      s ∈ g.blocks ∨ s ∉ defined → s ∈ (g.absorb a b).blocks ∨ s ∉ defined := by
    intro s t hs hb hor
    refine hor.imp_left ?_
    intro hmem
    refine (mem_absorb hab s).mpr ⟨hmem, ?_⟩
    rintro rfl
    exact hb hs
  intro l c hc s hs
  rw [absorb_blocks hab] at hc
  split at hc
  · cases hc
  · split at hc
    · obtain rfl := Option.some.inj hc
      exact hkeep (t := second.last) hs (not_mem_second hab) (h hab.second_eq s hs)
    · next hla => exact hkeep hs (not_mem_successors hab hc hla) (h hc s hs)

/-- Merging leaves no jump without its label. -/
theorem closed_merge (h : g.Closed defined) : g.merge.2.Closed defined :=
  mergeAll_induction (P := Closed defined) (fun _ _ h => h) Closed.absorb h.dropUnreachable

/-- The label is the exit, one of the code, or one that a transfer of the code leads to. -/
def Targeted (exit : Label) (code : List Stmt) (s : Label) : Prop :=
  s = exit ∨ s ∈ definedLabels code ∨ ∃ t, .transfer t ∈ code ∧ s ∈ t.targets

theorem Targeted.cons {exit s : Label} {code : List Stmt} (st : Stmt)
    (h : Targeted exit code s) : Targeted exit (st :: code) s := by
  rcases h with hexit | hdefined | ⟨t, ht, hs⟩
  · exact .inl hexit
  · exact .inr (.inl (mem_definedLabels.mpr
      (List.mem_cons_of_mem _ (mem_definedLabels.mp hdefined))))
  · exact .inr (.inr ⟨t, List.mem_cons_of_mem _ ht, hs⟩)

/-- The last transfer of a block leads to a label of the code, to one that the code jumps to, or to
    the exit. -/
theorem targeted_restOfBlock {exit s : Label} {code : List Stmt}
    (h : s ∈ (restOfBlock exit code).2.targets) : Targeted exit code s := by
  induction code with
  | nil => exact .inl (List.mem_singleton.mp h)
  | cons st code ih =>
      cases st with
      | label l =>
          obtain rfl := List.mem_singleton.mp h
          exact .inr (.inl List.mem_cons_self)
      | act a => exact (ih h).cons _
      | transfer t => exact .inr (.inr ⟨t, List.mem_cons_self, h⟩)

theorem targeted_labelledBlocks {exit s : Label} {code : List Stmt} {c : Block}
    (hc : c ∈ labelledBlocks exit code) (hs : s ∈ c.successors) : Targeted exit code s := by
  induction code with
  | nil => cases hc
  | cons st code ih =>
      cases st with
      | label l =>
          rcases List.mem_cons.mp hc with rfl | hc
          · exact (targeted_restOfBlock hs).cons _
          · exact (ih hc).cons _
      | act a => exact (ih hc).cons _
      | transfer t => exact (ih hc).cons _

/-- So do all blocks that code is cut into. -/
theorem all_targeted_ofStmts {code : List Stmt} {exit : Label} {names : Supply}
    (hnodup : (definedLabels code).Nodup) (hfresh : names.freshLabel.1 ∉ definedLabels code) :
    (ofStmts code exit names).1.All fun c => ∀ s ∈ c.successors, Targeted exit code s := by
  have hlabelled : ∀ c ∈ labelledBlocks exit code, ∀ s ∈ c.successors, Targeted exit code s :=
    fun _ hc _ => targeted_labelledBlocks hc
  rcases ofStmts_cases exit hnodup hfresh with ⟨x, rest, -, hg⟩ | hg
  · rw [hg]
    exact all_ofBlocks hlabelled
  · rw [hg]
    exact all_ofBlocks (List.forall_mem_cons.mpr ⟨fun _ => targeted_restOfBlock, hlabelled⟩)

/-- Every label that the code defines gets a block. -/
theorem mem_ofStmts {code : List Stmt} {exit : Label} {names : Supply}
    (hnodup : (definedLabels code).Nodup) (hfresh : names.freshLabel.1 ∉ definedLabels code)
    (hl : l ∈ definedLabels code) : l ∈ (ofStmts code exit names).1.blocks := by
  rw [← map_label_labelledBlocks exit] at hl
  rcases ofStmts_cases exit hnodup hfresh with ⟨x, rest, -, hg⟩ | hg
  · rw [hg]
    exact (mem_foldl_insert _ _ l).mpr (.inr hl)
  · rw [hg]
    exact (mem_foldl_insert _ _ l).mpr (.inr (List.mem_cons_of_mem _ hl))

/-- Folding sends a label of the code to one that the folded code defines. -/
theorem foldTarget_mem_definedLabels {code : List Stmt} (hnodup : (definedLabels code).Nodup)
    (hl : l ∈ definedLabels code) : foldTarget code l ∈ definedLabels (foldLabels code) := by
  obtain ⟨before, rest, rfl⟩ := List.append_of_mem (mem_definedLabels.mp hl)
  have hfound := codeFrom_of_suffix hnodup (List.suffix_append before (.label l :: rest))
  obtain ⟨k, hk⟩ := codeFrom_foldLabels hnodup hfound
  refine Decidable.byContradiction fun hmiss => ?_
  rw [mem_definedLabels, ← codeFrom_eq_none_iff, hk] at hmiss
  cases hmiss

/-- A label that is not defined stands for itself. -/
theorem foldTarget_of_not_defined {code : List Stmt} (hl : l ∉ definedLabels code) :
    foldTarget code l = l :=
  foldTarget_of_not_mem fun hmem => hl ((labelAliases_sublist none code).subset hmem)

/-- The blocks of folded code jump to each other, or where the code before folding has no label. -/
theorem closed_ofStmts {stmts : List Stmt} {exit : Label} {names : Supply}
    (hnodup : (definedLabels stmts).Nodup) (hexit : exit ∉ definedLabels stmts)
    (hfresh : names.freshLabel.1 ∉ definedLabels (foldLabels stmts)) :
    (ofStmts (foldLabels stmts) exit names).1.Closed (definedLabels stmts) := by
  have hnodup' := (definedLabels_foldLabels_sublist stmts).nodup hnodup
  intro x c hc s hs
  rcases all_targeted_ofStmts hnodup' hfresh x c hc s hs with rfl | hdefined | ⟨t, ht, hst⟩
  · exact .inr hexit
  · exact .inl (mem_ofStmts hnodup' hfresh hdefined)
  · obtain ⟨-, -, y, -, rfl⟩ := target_of_mem_foldLabels ht hst
    by_cases hy : y ∈ definedLabels stmts
    · exact .inl (mem_ofStmts hnodup' hfresh (foldTarget_mem_definedLabels hnodup hy))
    · rw [foldTarget_of_not_defined hy]
      exact .inr hy

-- ── The code that is written ─────────────────────────────────────────────────

/-- A label found in a written block with more code behind it stands in that code. -/
theorem label_behind_written {acts : List Action} {last : Transfer} {more before behind : List Stmt}
    (h : written acts last more = before ++ .label l :: behind) :
    ∃ before', more = before' ++ .label l :: behind := by
  induction acts generalizing before with
  | nil =>
      cases before with
      | nil => cases h
      | cons st before => exact ⟨before, (List.cons.inj h).2⟩
  | cons a acts ih =>
      cases before with
      | nil => cases h
      | cons st before => exact ih (List.cons.inj h).2

/-- Behind every label of written blocks there are actions and then a transfer. -/
theorem written_behind_label {before behind : List Stmt}
    (h : bs.flatMap Block.stmts = before ++ .label l :: behind) :
    ∃ acts last more, behind = written acts last more := by
  induction bs generalizing before with
  | nil =>
      rw [List.flatMap_nil] at h
      exact absurd h.symm (List.append_ne_nil_of_right_ne_nil _ (List.cons_ne_nil _ _))
  | cons c bs ih =>
      rw [List.flatMap_cons, stmts_append] at h
      cases before with
      | nil => exact ⟨c.body, c.last, _, (List.cons.inj h).2.symm⟩
      | cons st before =>
          obtain ⟨before', hmore⟩ := label_behind_written (List.cons.inj h).2
          exact ih hmore

theorem transfer_mem_flatMap_stmts {t : Transfer} (h : .transfer t ∈ bs.flatMap Block.stmts) :
    ∃ c ∈ bs, c.last = t := by
  obtain ⟨c, hc, ht⟩ := List.mem_flatMap.mp h
  refine ⟨c, hc, ?_⟩
  simpa [Block.stmts, eq_comm] using ht

-- ── All steps together ───────────────────────────────────────────────────────

/-- **Layout loses no code that can be reached.** Folding, cutting, merging and writing again write
    none of it twice, and no jump loses its label. Every label is defined once; the actions and
    branches are, in some order, those of the blocks that a path from the entry reaches; behind
    every label control runs into a transfer; and a jump leads to a label of the new code, unless
    the old code did not define it. -/
theorem layout_keeps_code (stmts : List Stmt) (exit : Label) (names : Supply)
    (hnodup : (definedLabels stmts).Nodup) (hexit : exit ∉ definedLabels stmts)
    (hfresh : names.freshLabel.1 ∉ definedLabels stmts) :
    let g := (ofStmts (foldLabels stmts) exit names).1
    let code := g.merge.2.linearize
    (definedLabels code).Nodup ∧
    (∃ bs : List Block, (bs.map Block.label).Nodup ∧
      (∀ b, b ∈ bs ↔ g.blocks[b.label]? = some b ∧ g.Reaches b.label) ∧
      (work code).Perm (work (bs.flatMap Block.stmts))) ∧
    (∀ before l behind, code = before ++ .label l :: behind →
      ∃ (acts : List Action) (last : Transfer) (more : List Stmt),
        behind = acts.map .act ++ .transfer last :: more) ∧
    (∀ t, .transfer t ∈ code → ∀ l ∈ t.targets,
      l ∈ definedLabels code ∨ l ∉ definedLabels stmts) := by
  intro g code
  have hlabels := definedLabels_foldLabels_sublist stmts
  have hfresh' : names.freshLabel.1 ∉ definedLabels (foldLabels stmts) :=
    fun h => hfresh (hlabels.subset h)
  have hg : g.WellFormed := wellFormed_ofStmts exit (hlabels.nodup hnodup) hfresh'
  obtain ⟨laid, hcode, hlaid⟩ := (keeps_merge g hg).1.lists
  have hdefined : definedLabels code = laid.map Block.label := by
    rw [show code = _ from hcode, definedLabels_flatMap_stmts]
  refine ⟨?_, ?_, ?_, ?_⟩
  · rw [hdefined]
    exact hlaid.nodup
  · -- merging starts from the blocks that can be reached and keeps their work
    obtain ⟨reached, -, hreached⟩ := (keeps_dropUnreachable g hg).1.lists
    obtain ⟨merged, hmerged, hwork⟩ := conserves_mergeAll ⟨reached, hreached, .refl _⟩
    refine ⟨reached, hreached.nodup, ?_, ?_⟩
    · intro b
      rw [← getElem?_dropUnreachable_iff, hreached.getElem?_iff, and_iff_left rfl]
    · rw [show code = _ from hcode]
      exact (((hlaid.perm hmerged).flatMap_right Block.stmts).filter _).trans hwork
  · intro before l behind hsplit
    exact written_behind_label (hcode.symm.trans hsplit)
  · intro t ht l hl
    rw [show code = _ from hcode] at ht
    obtain ⟨c, hc, rfl⟩ := transfer_mem_flatMap_stmts ht
    have hblock := (hlaid.getElem?_iff c.label c).mpr ⟨hc, rfl⟩
    refine (closed_merge (closed_ofStmts hnodup hexit hfresh') hblock l hl).imp_left ?_
    intro hmem
    rw [Std.ExtTreeMap.mem_iff_isSome_getElem?] at hmem
    obtain ⟨target, htarget⟩ := Option.isSome_iff_exists.mp hmem
    obtain ⟨hlaid, rfl⟩ := (hlaid.getElem?_iff l target).mp htarget
    rw [hdefined]
    exact List.mem_map_of_mem hlaid

/-- A loop with two labels at its head, a call that nothing reaches, and an open end. -/
def doubleHead : List Stmt :=
  [.label (.fresh 0), .label (.fresh 1),
    .act (.store (.const 8) (.temp ⟨0⟩)),
    .act (.move ⟨0⟩ (.binop .sub (.temp ⟨0⟩) (.const 1))),
    .transfer (.branch ⟨0⟩ (.fresh 1) (.fresh 2)),
    .label (.fresh 4), .act (.call (.fresh 9) []),
    .label (.fresh 2), .transfer (.jump (.fresh 3)),
    .label (.fresh 3), .act (.move ⟨1⟩ (.atom (.const 5)))]

/-- The labels at the head of the loop are folded into one, and the branch leads to that one and to
    the code behind the loop. -/
theorem layout_keeps_code_double_head :
    let code := (ofStmts (foldLabels doubleHead) (.fresh 7)
      { temps := 2, labels := 10 }).1.merge.2.linearize
    (definedLabels code).Nodup ∧ .transfer (.branch ⟨0⟩ (.fresh 0) (.fresh 2)) ∈ code ∧
      .fresh 2 ∈ definedLabels code := by
  intro code
  obtain ⟨hnodup, ⟨bs, -, hbs, hwork⟩, -, htargets⟩ :=
    layout_keeps_code doubleHead (.fresh 7) { temps := 2, labels := 10 } (by decide) (by decide)
      (by decide)
  have hentry : (⟨.fresh 0, [.store (.const 8) (.temp ⟨0⟩),
      .move ⟨0⟩ (.binop .sub (.temp ⟨0⟩) (.const 1))], .branch ⟨0⟩ (.fresh 0) (.fresh 2)⟩ : Block) ∈
      bs := (hbs _).mpr ⟨by rfl, .refl⟩
  have hbranch : .transfer (.branch ⟨0⟩ (.fresh 0) (.fresh 2)) ∈ code := by
    refine (List.mem_filter.mp (hwork.mem_iff.mpr (List.mem_filter.mpr ⟨?_, rfl⟩))).1
    exact List.mem_flatMap.mpr ⟨_, hentry, by simp [Block.stmts]⟩
  refine ⟨hnodup, hbranch, (htargets _ hbranch (.fresh 2) (by decide)).resolve_right ?_⟩
  decide

end BlockGraph

end MmixBackend
