import MmixBackend.Proofs.KnownBlocks
import MmixBackend.Proofs.StepContents

/-!
# Where the labels of code come from

Flat code mentions a label where it defines one, where it jumps or branches to one, where it takes
the address of one and where it calls one. All of these labels are labels of the tree or fresh ones,
and laying code out again brings in no others but the exit. So what holds of the labels of a tree
and of all fresh labels holds of the labels of its code, even if labels are defined twice.

* **`traces_rhs`** and its companions — flattening, by induction on the tree.
* **`over_foldLabels`**, **`over_cutBlock`**, **`over_linearize`** — the steps of laying out.
* **`leaves_ofTree`**, **`leaves_layOut`** — whole functions.
-/

namespace MmixBackend

-- ── The labels of trees and of flat code ─────────────────────────────────────

namespace Tree

mutual

/-- The labels that an expression mentions. -/
def Expr.labels : Expr → List Label
  | .const _ => []
  | .temp _ => []
  | .name l => [l]
  | .mem addr => addr.labels
  | .binop _ x y => x.labels ++ y.labels
  | .unop _ x => x.labels
  | .call f args => f :: exprLabels args
  | .seq s result => s.labels ++ result.labels

/-- The labels that a statement mentions. -/
def Stmt.labels : Stmt → List Label
  | .label l => [l]
  | .jump l => [l]
  | .branch cond ifTrue ifFalse => cond.labels ++ [ifTrue, ifFalse]
  | .move dst src => dst.labels ++ src.labels
  | .eval e => e.labels
  | .seq ss => stmtLabels ss

/-- The labels that the expressions of a list mention. -/
def exprLabels : List Expr → List Label
  | [] => []
  | e :: es => e.labels ++ exprLabels es

/-- The labels that the statements of a list mention. -/
def stmtLabels : List Stmt → List Label
  | [] => []
  | s :: ss => s.labels ++ stmtLabels ss

end

end Tree

namespace Flat

/-- The labels that an atom mentions. -/
def Atom.labels : Atom → List Label
  | .const _ => []
  | .temp _ => []
  | .name l => [l]

/-- The labels that a right-hand side mentions. -/
def Rhs.labels : Rhs → List Label
  | .atom a => a.labels
  | .binop _ x y => x.labels ++ y.labels
  | .unop _ x => x.labels
  | .load addr => addr.labels
  | .call f _ => [f]

/-- The labels that an action mentions. -/
def Action.labels : Action → List Label
  | .move _ r => r.labels
  | .store addr src => addr.labels ++ src.labels
  | .call f _ => [f]

/-- The labels that a statement mentions. -/
def Stmt.labels : Stmt → List Label
  | .label l => [l]
  | .act a => a.labels
  | .transfer t => t.targets

variable {P : Label → Prop}

/-- The labels of the statement have the property. -/
def Stmt.Over (P : Label → Prop) (st : Stmt) : Prop := ∀ l ∈ st.labels, P l

/-- The labels of the operand and of its code have the property. -/
structure Part.Over (P : Label → Prop) (p : Part) : Prop where
  code : ∀ st ∈ p.code, st.Over P
  atom : ∀ l ∈ p.atom.labels, P l

-- ── Flattening ───────────────────────────────────────────────────────────────

/-- The labels of the code that the step emits have the property, what it reports shows no
    instruction, and its value is such a one. -/
abbrev Traces (P : Label → Prop) {α : Type} (V : α → Prop) (x : Flatten α) : Prop :=
  Emit.LeavesOk (Stmt.Over P) (·.instrs = []) V x

section Steps

open Emit

/-- Emitted statements are as they were given. -/
theorem traces_emit {code : List Stmt} (h : ∀ st ∈ code, st.Over P) :
    Traces P (fun _ => True) (emit code) := (leaves_write h).lift

theorem traces_emit_one {st : Stmt} (h : st.Over P) : Traces P (fun _ => True) (emit [st]) :=
  traces_emit (List.forall_mem_singleton.mpr h)

theorem traces_report {e : Event} (he : e.instrs = []) :
    Traces P (fun _ => True) (ExceptT.lift (Emit.report e)) := (leaves_report he).lift

/-- Naming a right-hand side brings in no label that it does not mention. -/
theorem traces_materialize {r : Rhs} (hr : ∀ l ∈ r.labels, P l) :
    Traces P (fun a => ∀ l ∈ a.labels, P l) (materialize r) := by
  cases r with
  | atom a => exact leavesOk_pure hr
  | _ =>
      refine leaves_freshTemp.lift.bind fun t _ => (traces_report rfl).andThen ?_
      exact LeavesOk.andThen (traces_emit_one hr) (leavesOk_pure (List.forall_mem_nil _))

/-- Naming an argument brings in no label. -/
theorem traces_nameAtom {a : Atom} (ha : ∀ l ∈ a.labels, P l) :
    Traces P (fun _ => True) (nameAtom a) := by
  cases a with
  | temp t => exact leavesOk_pure trivial
  | _ =>
      refine leaves_freshTemp.lift.bind fun t _ => ?_
      exact LeavesOk.andThen (traces_emit_one ha) (leavesOk_pure trivial)

/-- Code that is kept apart becomes part of the value. -/
theorem traces_capture {x : Flatten Atom} (hx : Traces P (fun a => ∀ l ∈ a.labels, P l) x) :
    Traces P (Part.Over P) (capture x) := by
  refine (Leaves.collect hx).bind ?_
  rintro ⟨code, r⟩ ⟨hcode, hr⟩
  refine leaves_pure ?_
  intro p hp
  cases r with
  | error e => cases hp
  | ok a =>
      obtain rfl := Except.ok.inj hp
      exact ⟨hcode, hr a rfl⟩

/-- The labels of an operand come from its expression. -/
theorem traces_operand {x : Flatten Rhs} (hx : Traces P (fun r => ∀ l ∈ r.labels, P l) x) :
    Traces P (Part.Over P) (capture (x >>= materialize)) :=
  traces_capture (hx.bind fun _ => traces_materialize)

/-- Copying an operand brings in no label. -/
theorem traces_protect {p : Part} (hp : p.Over P) (later : List Temp) :
    Traces P (Part.Over P) (p.protect later) := by
  obtain ⟨code, a⟩ := p
  cases a with
  | temp t =>
      rw [Part.protect]
      dsimp only
      split
      · refine leaves_freshTemp.lift.bind fun copy _ => leavesOk_pure ⟨?_, List.forall_mem_nil _⟩
        refine List.forall_mem_append.mpr ⟨hp.code, List.forall_mem_singleton.mpr ?_⟩
        exact List.forall_mem_nil _
      · exact leavesOk_pure hp
  | const value => exact leavesOk_pure hp
  | name l => exact leavesOk_pure hp

/-- Copying operands brings in no label. -/
theorem traces_protectAll {ps : List Part} (hps : ∀ p ∈ ps, p.Over P) :
    Traces P (fun ps => ∀ p ∈ ps, p.Over P) (Part.protectAll ps) := by
  induction ps with
  | nil => exact leavesOk_pure (List.forall_mem_nil _)
  | cons p ps ih =>
      obtain ⟨hp, hrest⟩ := List.forall_mem_cons.mp hps
      refine (ih hrest).bind fun ps' hps' => (traces_protect hp _).bind fun p' hp' => ?_
      exact leavesOk_pure (List.forall_mem_cons.mpr ⟨hp', hps'⟩)

/-- Naming the arguments of a call brings in no label. -/
theorem traces_nameAtoms {ps : List Part} (hps : ∀ p ∈ ps, p.Over P) :
    Traces P (fun _ => True) (ps.mapM fun p => nameAtom p.atom) := by
  induction ps with
  | nil =>
      rw [List.mapM_nil]
      exact leavesOk_pure trivial
  | cons p ps ih =>
      obtain ⟨hp, hrest⟩ := List.forall_mem_cons.mp hps
      rw [List.mapM_cons]
      exact (traces_nameAtom hp.atom).bind fun _ _ => (ih hrest).bind fun _ _ =>
        leavesOk_pure trivial

theorem traces_operands {p q : Part} (hp : p.Over P) (hq : q.Over P) :
    Traces P (fun _ => True) (emit (p.code ++ q.code)) :=
  traces_emit (List.forall_mem_append.mpr ⟨hp.code, hq.code⟩)

end Steps

-- ── Trees ────────────────────────────────────────────────────────────────────

section Trees

open Emit

mutual

/-- The labels of flat code come from the expression or are fresh. By induction on the tree. -/
theorem traces_rhs (hfresh : ∀ n, P (.fresh n)) {e : Tree.Expr} (h : ∀ l ∈ e.labels, P l) :
    Traces P (fun r => ∀ l ∈ r.labels, P l) (rhs e) := by
  cases e with
  | const value => exact leavesOk_pure (List.forall_mem_nil _)
  | temp t => exact leavesOk_pure (List.forall_mem_nil _)
  | name l => exact leavesOk_pure h
  | mem addr =>
      have haddr : ∀ l ∈ addr.labels, P l := h
      refine (traces_rhs hfresh haddr).bind fun _ hr => (traces_materialize hr).bind fun a ha => ?_
      exact leavesOk_pure ha
  | unop op x =>
      have hx : ∀ l ∈ x.labels, P l := h
      refine (traces_rhs hfresh hx).bind fun _ hr => (traces_materialize hr).bind fun a ha => ?_
      exact leavesOk_pure ha
  | binop op x y =>
      obtain ⟨hx, hy⟩ := List.forall_mem_append.mp h
      refine (traces_operand (traces_rhs hfresh hx)).bind fun p hp => ?_
      refine (traces_operand (traces_rhs hfresh hy)).bind fun q hq => ?_
      refine (traces_protect hp q.defs).bind fun p' hp' => ?_
      exact (traces_operands hp' hq).andThen
        (leavesOk_pure (List.forall_mem_append.mpr ⟨hp'.atom, hq.atom⟩))
  | call f args =>
      obtain ⟨hf, hargs⟩ := List.forall_mem_cons.mp h
      refine (traces_parts hfresh hargs).bind fun ps hps => ?_
      refine (traces_protectAll hps).bind fun ps' hps' => ?_
      refine (traces_emit ?_).andThen ((traces_nameAtoms hps').bind fun _ _ =>
        leavesOk_pure (List.forall_mem_singleton.mpr hf))
      intro st hst
      obtain ⟨p, hp, hst⟩ := List.mem_flatMap.mp hst
      exact (hps' p hp).code st hst
  | seq s result =>
      obtain ⟨hs, hresult⟩ := List.forall_mem_append.mp h
      exact (traces_stmt hfresh hs).andThen (traces_rhs hfresh hresult)

/-- The labels of operands come from their expressions or are fresh. -/
theorem traces_parts (hfresh : ∀ n, P (.fresh n)) {es : List Tree.Expr}
    (h : ∀ l ∈ Tree.exprLabels es, P l) :
    Traces P (fun ps => ∀ p ∈ ps, p.Over P) (parts es) := by
  cases es with
  | nil => exact leavesOk_pure (List.forall_mem_nil _)
  | cons e es =>
      obtain ⟨he, hes⟩ := List.forall_mem_append.mp h
      refine (traces_operand (traces_rhs hfresh he)).bind fun p hp => ?_
      refine (traces_parts hfresh hes).bind fun ps hps => ?_
      exact leavesOk_pure (List.forall_mem_cons.mpr ⟨hp, hps⟩)

/-- The labels of flat code come from the statement or are fresh. -/
theorem traces_stmt (hfresh : ∀ n, P (.fresh n)) {st : Tree.Stmt} (h : ∀ l ∈ st.labels, P l) :
    Traces P (fun _ => True) (stmt st) := by
  cases st with
  | label l => exact traces_emit_one h
  | jump l => exact traces_emit_one h
  | branch cond ifTrue ifFalse =>
      obtain ⟨hcond, htargets⟩ := List.forall_mem_append.mp h
      obtain ⟨htrue, hfalse⟩ := List.forall_mem_cons.mp htargets
      refine (traces_rhs hfresh hcond).bind fun _ hr => (traces_materialize hr).bind fun _ ha => ?_
      refine (traces_nameAtom ha).bind fun c _ => (leaves_freshLabel hfresh).lift.bind ?_
      intro neg hneg
      simp only [List.forall_mem_singleton] at hfalse
      refine traces_emit ?_
      simp [Stmt.Over, Stmt.labels, Transfer.targets, htrue, hfalse, hneg]
  | move dst src =>
      obtain ⟨hdst, hsrc⟩ := List.forall_mem_append.mp h
      cases dst with
      | temp t => exact (traces_rhs hfresh hsrc).bind fun _ hr => traces_emit_one hr
      | mem addr =>
          refine (traces_operand (traces_rhs hfresh hsrc)).bind fun p hp => ?_
          have haddr : ∀ l ∈ addr.labels, P l := hdst
          refine (traces_operand (traces_rhs hfresh haddr)).bind fun q hq => ?_
          refine (traces_protect hp q.defs).bind fun p' hp' => ?_
          exact (traces_operands hp' hq).andThen
            (traces_emit_one (List.forall_mem_append.mpr ⟨hq.atom, hp'.atom⟩))
      | _ => exact leavesOk_throw _
  | eval e =>
      have he : ∀ l ∈ e.labels, P l := h
      refine (traces_rhs hfresh he).bind fun r hr => ?_
      cases r with
      | call f args => exact traces_emit_one hr
      | _ => exact leavesOk_pure trivial
  | seq ss => exact traces_stmts hfresh h

/-- The labels of flat code come from the statements or are fresh. -/
theorem traces_stmts (hfresh : ∀ n, P (.fresh n)) {ss : List Tree.Stmt}
    (h : ∀ l ∈ Tree.stmtLabels ss, P l) : Traces P (fun _ => True) (stmts ss) := by
  cases ss with
  | nil => exact leavesOk_pure trivial
  | cons s ss =>
      obtain ⟨hs, hss⟩ := List.forall_mem_append.mp h
      exact (traces_stmt hfresh hs).andThen (traces_stmts hfresh hss)

end

/-- The labels of a function's flat form are those of its tree and fresh ones. -/
theorem leaves_ofTree {ω : Type} {R : ω → Prop} (hfresh : ∀ n, P (.fresh n)) {f : Tree.Function}
    (h : ∀ l ∈ f.body.labels, P l) :
    LeavesOk R (·.instrs = []) (fun g => (∀ st ∈ g.stmts, st.Over P) ∧ P g.exit)
      (Function.ofTree f : ExceptT Error (Emit ω) Function) := by
  refine (leaves_freshLabel hfresh).lift.bind fun entry hentry => ?_
  refine (leaves_freshLabel hfresh).lift.bind fun exit hexit => ?_
  refine (Leaves.collect (traces_stmt hfresh h)).lift.bind ?_
  rintro ⟨body, outcome⟩ ⟨hbody, -⟩
  cases outcome with
  | error e => exact leavesOk_throw e
  | ok _ =>
      have hfirst : (Stmt.label entry).Over P := List.forall_mem_singleton.mpr hentry
      have hlast : (Stmt.transfer (.jump exit)).Over P := List.forall_mem_singleton.mpr hexit
      refine leavesOk_pure ⟨List.forall_mem_append.mpr ⟨?_, ?_⟩, hexit⟩
      · exact List.forall_mem_cons.mpr ⟨hfirst, hbody⟩
      · exact List.forall_mem_singleton.mpr hlast

end Trees

-- ── Folding labels ───────────────────────────────────────────────────────────

/-- A jump that folding sends elsewhere goes where an alias says. -/
theorem mem_labelAliases_of_foldTarget_ne {code : List Stmt} {l : Label}
    (h : foldTarget code l ≠ l) : (l, foldTarget code l) ∈ labelAliases none code := by
  rw [foldTarget, Std.ExtTreeMap.getD_eq_getD_getElem?] at h ⊢
  cases hk : (Std.ExtTreeMap.ofList (labelAliases none code) : LabelMap Label)[l]? with
  | none =>
      rw [hk] at h
      exact absurd rfl h
  | some k =>
      rw [Std.ExtTreeMap.ofList_eq_insertMany_empty, Std.ExtTreeMap.getElem?_insertMany_list,
        Std.ExtTreeMap.getElem?_empty, Option.or_none, List.findSomeRev?_eq_findSome?_reverse] at hk
      obtain ⟨⟨x, y⟩, hmem, hif⟩ := List.exists_of_findSome?_eq_some hk
      dsimp only at hif
      split at hif
      · next hcmp =>
        obtain rfl : x = l := Std.LawfulEqCmp.eq_of_compare hcmp
        obtain rfl := Option.some.inj hif
        exact List.mem_reverse.mp hmem
      · cases hif

/-- Leading a transfer elsewhere leads each of its targets there. -/
theorem targets_retarget (f : Label → Label) (t : Transfer) :
    (t.retarget f).targets = t.targets.map f := by
  cases t <;> rfl

/-- Folding brings in no label. -/
theorem over_foldLabels {code : List Stmt} (h : ∀ st ∈ code, st.Over P) :
    ∀ st ∈ foldLabels code, st.Over P := by
  -- a jump stays as it is or goes to a label that the code defines
  have htarget : ∀ l, P l → P (foldTarget code l) := by
    intro l hl
    by_cases hne : foldTarget code l = l
    · rwa [hne]
    · have hk := defined_of_mem_labelAliases (mem_labelAliases_of_foldTarget_ne hne)
      rcases hk with heq | hk
      · cases heq
      · exact h _ (mem_definedLabels.mp hk) _ List.mem_cons_self
  rw [foldLabels_eq]
  intro st hst
  obtain ⟨st₀, hst₀, rfl⟩ := List.mem_map.mp hst
  have hover := h st₀ ((dropAliases_sublist none code).subset hst₀)
  cases st₀ with
  | label l => exact hover
  | act a => exact hover
  | transfer t =>
      intro l hl
      rw [Stmt.retarget, Stmt.labels, targets_retarget] at hl
      obtain ⟨x, hx, rfl⟩ := List.mem_map.mp hl
      exact htarget x (hover x hx)

end Flat

-- ── Blocks ───────────────────────────────────────────────────────────────────

open Flat

variable {P : Label → Prop}

/-- The labels of the block have the property. -/
structure Block.Over (P : Label → Prop) (b : Block) : Prop where
  label : P b.label
  body : ∀ a ∈ b.body, ∀ l ∈ a.labels, P l
  last : ∀ l ∈ b.last.targets, P l

/-- A block is written with its own labels. -/
theorem Block.Over.stmts {b : Block} (h : b.Over P) : ∀ st ∈ b.stmts, st.Over P := by
  refine List.forall_mem_append.mpr ⟨List.forall_mem_cons.mpr ⟨?_, ?_⟩, ?_⟩
  · exact List.forall_mem_singleton.mpr h.label
  · intro st hst
    obtain ⟨a, ha, rfl⟩ := List.mem_map.mp hst
    exact h.body a ha
  · exact List.forall_mem_singleton.mpr h.last

mutual

/-- Cutting code into blocks brings in the exit and the label it starts with, and no others. -/
theorem over_cutBlock {exit l : Label} {body : List Action} {code : List Stmt} (hexit : P exit)
    (hl : P l) (hbody : ∀ a ∈ body, ∀ l ∈ a.labels, P l) (h : ∀ st ∈ code, st.Over P) :
    ∀ b ∈ cutBlock exit l body code, b.Over P := by
  cases code with
  | nil =>
      rw [cutBlock]
      exact List.forall_mem_singleton.mpr ⟨hl, hbody, List.forall_mem_singleton.mpr hexit⟩
  | cons st code =>
      obtain ⟨hst, hcode⟩ := List.forall_mem_cons.mp h
      cases st with
      | label l' =>
          have hl' : P l' := hst l' List.mem_cons_self
          rw [cutBlock]
          split
          · exact over_cutBlock hexit hl hbody hcode
          · refine List.forall_mem_cons.mpr
              ⟨⟨hl, hbody, List.forall_mem_singleton.mpr hl'⟩, ?_⟩
            exact over_cutBlock hexit hl' (List.forall_mem_nil _) hcode
      | act a =>
          rw [cutBlock]
          refine over_cutBlock hexit hl (List.forall_mem_append.mpr ⟨hbody, ?_⟩) hcode
          exact List.forall_mem_singleton.mpr hst
      | transfer t =>
          rw [cutBlock]
          exact List.forall_mem_cons.mpr ⟨⟨hl, hbody, hst⟩, over_cutDead hexit hcode⟩

/-- So does cutting code behind a transfer. -/
theorem over_cutDead {exit : Label} {code : List Stmt} (hexit : P exit)
    (h : ∀ st ∈ code, st.Over P) : ∀ b ∈ cutDead exit code, b.Over P := by
  cases code with
  | nil =>
      rw [cutDead]
      exact List.forall_mem_nil _
  | cons st code =>
      obtain ⟨hst, hcode⟩ := List.forall_mem_cons.mp h
      cases st with
      | label l =>
          rw [cutDead]
          exact over_cutBlock hexit (hst l List.mem_cons_self) (List.forall_mem_nil _) hcode
      | act a =>
          show ∀ b ∈ cutDead exit code, b.Over P
          exact over_cutDead hexit hcode
      | transfer t =>
          show ∀ b ∈ cutDead exit code, b.Over P
          exact over_cutDead hexit hcode

end

namespace BlockGraph

/-- The blocks of code have the labels of the code, the exit and one that is fresh. -/
theorem over_ofStmts {code : List Stmt} {exit : Label} (hfresh : ∀ n, P (.fresh n))
    (hexit : P exit) (h : ∀ st ∈ code, st.Over P) (s : Supply) :
    (ofStmts code exit s).1.All (Block.Over P) := by
  rw [ofStmts.eq_def]
  split
  · next l rest =>
    have hl : P l := h _ List.mem_cons_self l List.mem_cons_self
    exact all_ofBlocks (over_cutBlock hexit hl (List.forall_mem_nil _) h)
  · exact all_ofBlocks (over_cutBlock hexit (hfresh s.labels) (List.forall_mem_nil _) h)

/-- Merging blocks brings in no label. -/
theorem over_merge {g : BlockGraph} (h : g.All (Block.Over P)) :
    g.merge.2.All (Block.Over P) := by
  refine all_merge ?_ h
  intro first second hfirst hsecond
  exact ⟨hfirst.label, List.forall_mem_append.mpr ⟨hfirst.body, hsecond.body⟩, hsecond.last⟩

/-- A chain is written with the labels of its blocks. -/
theorem over_writeChain (next : LabelMap Label) {blocks : LabelMap Block}
    (h : ∀ (l : Label) (b : Block), blocks[l]? = some b → b.Over P) (l : Label) :
    (∀ st ∈ (writeChain next blocks l).1, st.Over P) ∧
      ∀ (x : Label) (b : Block), (writeChain next blocks l).2[x]? = some b → b.Over P := by
  have herase : ∀ {blocks : LabelMap Block} {l : Label},
      (∀ (l : Label) (b : Block), blocks[l]? = some b → b.Over P) →
        ∀ (x : Label) (b : Block), (blocks.erase l)[x]? = some b → b.Over P := by
    intro blocks l h x b hb
    rw [getElem?_erase] at hb
    split at hb
    · cases hb
    · exact h x b hb
  -- blocks are erased as they are written, so the property is kept for those that are left
  fun_induction writeChain next blocks l with
  | case1 blocks l hnone => exact ⟨List.forall_mem_nil _, h⟩
  | case2 blocks l b hb _ _ => exact ⟨(h l b hb).stmts, herase h⟩
  | case3 blocks l b hb _ l' _ rest left heq ih =>
      obtain ⟨hrest, hleft⟩ := ih (herase h)
      rw [heq] at hrest hleft
      exact ⟨List.forall_mem_append.mpr ⟨(h l b hb).stmts, hrest⟩, hleft⟩

/-- Blocks are written with their own labels. -/
theorem over_linearize {g : BlockGraph} (h : g.All (Block.Over P)) :
    ∀ st ∈ g.linearize, st.Over P := by
  have hchains : ∀ (ls : List Label) (blocks : LabelMap Block),
      (∀ (l : Label) (b : Block), blocks[l]? = some b → b.Over P) →
        ∀ st ∈ writeChains g.next blocks ls, st.Over P := by
    intro ls
    induction ls with
    | nil => exact fun _ _ => List.forall_mem_nil _
    | cons l ls ih =>
        intro blocks hblocks
        obtain ⟨hchain, hleft⟩ := over_writeChain g.next hblocks l
        exact List.forall_mem_append.mpr ⟨hchain, ih _ hleft⟩
  exact hchains g.heads g.blocks h

end BlockGraph

/-- What merging reports shows no instructions. -/
theorem instrs_mergeEvents (g : BlockGraph) (moves : List BlockGraph.Move) :
    ∀ e ∈ mergeEvents g moves, e.instrs = [] := by
  refine List.forall_mem_append.mpr ⟨List.forall_mem_map.mpr fun _ _ => rfl, ?_⟩
  refine List.forall_mem_map.mpr fun move _ => ?_
  cases move <;> rfl

/-- Laying code out again brings in no labels but the exit and fresh ones, and shows no
    instructions. -/
theorem Flat.Function.leaves_layOut {ω : Type} {R : ω → Prop} (hfresh : ∀ n, P (.fresh n))
    {f : Flat.Function} (hexit : P f.exit) (h : ∀ st ∈ f.stmts, st.Over P) :
    Emit.Leaves R (·.instrs = []) (fun g => ∀ st ∈ g.stmts, st.Over P)
      (f.layOut : Emit ω Flat.Function) := by
  have hgraph : Emit.Leaves R (·.instrs = []) (BlockGraph.All (Block.Over P))
      (Emit.ofSupply (BlockGraph.ofStmts (foldLabels f.stmts) f.exit)) :=
    Emit.leaves_value (fun _ => rfl) (fun _ => rfl)
      (BlockGraph.over_ofStmts hfresh hexit (over_foldLabels h))
  have hblocks : Emit.Leaves R (·.instrs = []) (BlockGraph.All (Block.Over P))
      (f.buildBlocks : Emit ω BlockGraph) := by
    refine hgraph.bind fun g hg => (Emit.leaves_reportAll ?_).bind fun _ _ => ?_
    · refine List.forall_mem_append.mpr ⟨List.forall_mem_append.mpr ⟨?_, ?_⟩, ?_⟩
      · exact List.forall_mem_append.mpr
          ⟨List.forall_mem_map.mpr fun _ _ => rfl, List.forall_mem_map.mpr fun _ _ => rfl⟩
      · exact instrs_mergeEvents g _
      · exact List.forall_mem_singleton.mpr rfl
    · exact Emit.leaves_pure (BlockGraph.over_merge hg)
  exact hblocks.bind fun g hg => Emit.leaves_pure (BlockGraph.over_linearize hg)

end MmixBackend
