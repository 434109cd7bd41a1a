import MmixBackend.Proofs.LoweredShape
import MmixBackend.Proofs.LoweringMeaning

/-!
# The labels of a whole program

Conditionals, loops, branches, entries and exits of functions, and literals all take their labels
from one supply. Walking flat code and cutting it into blocks rely on what follows from that: a
label is defined in one place only, and a jump stays inside its function until it leaves for the
exit.

* **`Session`** — what can be done with a context while functions are lowered over it.
* **`flattened_function`** — one more function, with labels that no earlier one has.
* **`session_flattens`** — by induction on the session: what holds of all functions together.
* **`labels_keep_discipline`** — the labels of a program.
-/

namespace MmixBackend

open Flat

-- ── Contexts in use ──────────────────────────────────────────────────────────

/-- A context that started out empty, and the functions that have been lowered over it, in order.
    In between, names may have been taken, and literals and globals added. -/
inductive Session : List Tree.Function → Context → Prop
  | start (supply : Supply) : Session [] { supply := supply }
  | names {fs : List Tree.Function} {c : Context} (h : Session fs c) (temps labels : Nat) :
      Session fs { c with supply := c.supply.skip temps labels }
  | literal {fs : List Tree.Function} {c : Context} (h : Session fs c) (text : String) :
      Session fs (c.internString text).2
  | global {fs : List Tree.Function} {c : Context} (h : Session fs c) (name : String)
      (size : Word) : Session fs (c.addGlobal name size).2
  | function {fs : List Tree.Function} {c c' : Context} {f : Tree.Function} (h : Session fs c)
      (scope : Source.Scope) (body : List Source.Command) (result : Source.Operand)
      (hlower : (Source.function scope body result).run.run c = (.ok f, c')) :
      Session (fs ++ [f]) c'

namespace Source

/-- Lowering a function only takes labels and adds literals. -/
theorem function_grows {scope : Scope} {body : List Command} {result : Operand} {c c' : Context}
    {f : Tree.Function} (h : (function scope body result).run.run c = (.ok f, c')) :
    c.Grows c' := by
  rw [function] at h
  obtain ⟨sts, c₁, hsts, h⟩ := run_bind_eq_ok.mp h
  obtain ⟨e, c₂, he, h⟩ := run_bind_eq_ok.mp h
  obtain ⟨rfl, rfl⟩ := eq_of_ok_eq h
  exact (commands_renders body hsts).grows.trans (value_lowered result he).grows

end Source

/-- A context without literals is tidy. -/
theorem tidy_start (supply : Supply) : Context.Tidy { supply := supply } := by
  rintro l ⟨text, hl⟩
  cases (Std.ExtTreeMap.getElem?_empty (a := text)).symm.trans hl

/-- Taking names leaves the literals alone. -/
theorem grows_names (c : Context) (temps labels : Nat) :
    c.Grows { c with supply := c.supply.skip temps labels } :=
  ⟨Nat.le_add_right _ _, fun _ _ h => h, fun _ h => .inl h⟩

/-- A new global leaves the literals alone. -/
theorem grows_global (c : Context) (name : String) (size : Word) :
    c.Grows (c.addGlobal name size).2 :=
  ⟨Nat.le_refl _, fun _ _ h => h, fun _ h => .inl h⟩

-- ── Flat functions ───────────────────────────────────────────────────────────

namespace Flat

/-- The code of a function starts with its entry label and ends with a jump to its exit label, and
    only this label is one that the code jumps to without defining it. -/
structure Function.Enclosed (g : Function) : Prop where
  ends : ∃ body, g.stmts = .label g.entry :: (body ++ [.transfer (.jump g.exit)])
  closed : ∀ st ∈ g.stmts, ∀ l ∈ st.targets, l = g.exit ∨ l ∈ definedLabels g.stmts

/-- The labels of a function are its entry label and those of its body. -/
theorem definedLabels_enclosed (entry exit : Label) (body : List Stmt) :
    definedLabels (.label entry :: (body ++ [.transfer (.jump exit)])) =
      entry :: definedLabels body := by
  rw [definedLabels_label, definedLabels_append, definedLabels_transfer, definedLabels_nil,
    List.append_nil]

/-- The code of a function is made of lines, conditionals and loops up to a last line, which assigns
    the result. -/
def Function.Composed (callees : List Label) (g : Function) : Prop :=
  ∃ code last, g.stmts = .label g.entry :: (code ++ last ++ [.transfer (.jump g.exit)]) ∧
    Structured callees g.frame.pointer code ∧ Line callees (· = g.frame.pointer) last ∧
    After (· = g.frame.pointer) last g.frame.result

/-- A function made of lines, conditionals and loops jumps to its own labels and to its exit
    only. -/
theorem Function.Composed.enclosed {callees : List Label} {g : Function} (h : g.Composed callees) :
    g.Enclosed := by
  obtain ⟨code, last, hstmts, hstructured, hline, -⟩ := h
  have hclosed : Closed (code ++ last) := hstructured.closed.append (closed_acts hline.acts)
  refine ⟨⟨_, hstmts⟩, ?_⟩
  rw [hstmts, definedLabels_enclosed]
  intro st hst l hl
  rcases List.mem_cons.mp hst with rfl | hst
  · cases hl
  · rcases List.mem_append.mp hst with hst | hst
    · exact .inr (List.mem_cons_of_mem _ (hclosed st hst l hl))
    · obtain rfl := List.mem_singleton.mp hst
      exact .inl (List.mem_singleton.mp hl)

/-- The labels that are defined in some of the functions. -/
def allLabels (gs : List Function) : List Label := gs.flatMap fun g => definedLabels g.stmts

/-- The functions have been flattened with labels from `s` on and before `s'`, after lowering has
    come to the context `c`. -/
structure Flattened (c : Context) (s s' : Supply) (gs : List Function) : Prop where
  labels_le : s.labels ≤ s'.labels
  fresh : Fresh 0 c.supply.labels s.labels s'.labels (gs.map Function.exit ++ allLabels gs)
  clear : Clear c (allLabels gs)
  enclosed : ∀ g ∈ gs, g.Enclosed

variable {c c' : Context} {s s₁ s' : Supply} {gs : List Function}

/-- Functions that are flattened keep to their labels when the context grows. -/
theorem Flattened.grow (h : Flattened c s s' gs) (hgrows : c.Grows c') (htidy : c'.Tidy)
    (hs : c'.supply.labels ≤ s.labels) : Flattened c' s s' gs := by
  refine ⟨h.labels_le, h.fresh.widen (Nat.le_refl _) hgrows.labels, ?_, h.enclosed⟩
  intro l hl
  exact (h.clear.grow ⟨(List.nodup_append.mp h.fresh.nodup).2.1, fun l hl =>
    h.fresh.range l (List.mem_append_right _ hl)⟩ hgrows htidy hs) l hl

/-- The flat form of one more function. -/
theorem flattened_function {ω : Type} {scope : Source.Scope} {body : List Source.Command}
    {result : Source.Operand} {f : Tree.Function}
    (h : (Source.function scope body result).run.run c = (.ok f, c'))
    (hs : c'.supply.labels ≤ s.labels) :
    ∃ g s' events, (Function.ofTree f : ExceptT Error (Emit ω) Function).run.run s =
        ⟨.ok g, [], events, s'⟩ ∧ s.labels ≤ s'.labels ∧
      Fresh c.supply.labels c'.supply.labels s.labels s'.labels
        (g.exit :: definedLabels g.stmts) ∧
      (c.Tidy → Clear c' (definedLabels g.stmts)) ∧ g.exit = .fresh (s.labels + 1) ∧
      g.Composed f.body.callees := by
  obtain ⟨code, s', hyields, hle, hfresh, hclear, -⟩ :=
    Source.yields_function (s := s.skip 0 2) h (Nat.le_trans hs (Nat.le_add_right _ _))
  have hskip : (s.skip 0 2).labels = s.labels + 2 := rfl
  obtain ⟨events, hflat⟩ := ofTree_of_yields (ω := ω) hyields
  refine ⟨_, s', events, hflat, by omega, ?_, ?_, rfl, ?_⟩
  · rw [definedLabels_enclosed]
    have hown : Fresh c.supply.labels c.supply.labels s.labels (s.skip 0 2).labels
        [.fresh (s.labels + 1), .fresh s.labels] := by
      refine ⟨by simp, ?_⟩
      intro l hl
      simp only [List.mem_cons, List.not_mem_nil, or_false] at hl
      rcases hl with rfl | rfl <;> exact ⟨_, rfl, by omega⟩
    exact hown.append hfresh (Nat.le_refl _) (Source.function_grows h).labels hs (by omega) hle
  · intro htidy
    rw [definedLabels_enclosed]
    refine List.forall_mem_cons.mpr ⟨?_, hclear htidy⟩
    exact ((Source.function_grows h).tidy htidy).not_isLiteral hs
  · obtain ⟨-, before, last, s'', hyields', hstructured, hline, hresult⟩ :=
      Source.function_shaped h (s.skip 0 2)
    obtain ⟨-, rfl, -⟩ := hyields.unique hyields'
    exact ⟨before, last, rfl, hstructured, hline, hresult⟩

/-- What holds of the functions so far goes on holding with the next one. -/
theorem Flattened.append {g : Function} (h : Flattened c s s₁ gs) (hgrows : c.Grows c')
    (htidy : c'.Tidy) (hs : c'.supply.labels ≤ s.labels) (hle : s₁.labels ≤ s'.labels)
    (hfresh : Fresh c.supply.labels c'.supply.labels s₁.labels s'.labels
      (g.exit :: definedLabels g.stmts))
    (hclear : Clear c' (definedLabels g.stmts)) (henclosed : g.Enclosed) :
    Flattened c' s s' (gs ++ [g]) := by
  have hall : allLabels (gs ++ [g]) = allLabels gs ++ definedLabels g.stmts := by
    rw [allLabels, List.flatMap_append, List.flatMap_singleton, allLabels]
  refine ⟨Nat.le_trans h.labels_le hle, ?_, ?_, ?_⟩
  · refine (h.fresh.append hfresh (Nat.zero_le _) hgrows.labels hs h.labels_le hle).perm ?_
    rw [hall, List.map_append, List.append_assoc, List.append_assoc]
    refine List.Perm.append_left _ ?_
    exact List.perm_middle
  · rw [hall]
    exact (h.grow hgrows htidy hs).clear.append hclear
  · intro g' hg'
    rcases List.mem_append.mp hg' with hg' | hg'
    · exact h.enclosed g' hg'
    · obtain rfl := List.mem_singleton.mp hg'
      exact henclosed

end Flat

-- ── Sessions ─────────────────────────────────────────────────────────────────

/-- The functions are flattened one after the other, with names that were not taken before, and keep
    to their own labels. -/
def Flattens (ω : Type) (fs : List Tree.Function) (c : Context) : Prop :=
  ∀ s : Supply, c.supply.labels ≤ s.labels → ∃ gs s' events,
    (fs.mapM Flat.Function.ofTree : ExceptT Error (Emit ω) (List Flat.Function)).run.run s =
      ⟨.ok gs, [], events, s'⟩ ∧ Flattened c s s' gs

variable {ω : Type} {fs : List Tree.Function} {c c' : Context}

/-- Functions that can be flattened still can be when the context has grown. -/
theorem Flattens.grow (h : Flattens ω fs c) (hgrows : c.Grows c') (htidy : c'.Tidy) :
    Flattens ω fs c' := by
  intro s hs
  obtain ⟨gs, s', events, hrun, hflat⟩ := h s (Nat.le_trans hgrows.labels hs)
  exact ⟨gs, s', events, hrun, hflat.grow hgrows htidy hs⟩

/-- One more function that is lowered can be flattened behind the other ones, with labels of its
    own. -/
theorem Flattens.function (h : Flattens ω fs c) (htidy : c.Tidy) {scope : Source.Scope}
    {body : List Source.Command} {result : Source.Operand} {f : Tree.Function}
    (hlower : (Source.function scope body result).run.run c = (.ok f, c')) :
    Flattens ω (fs ++ [f]) c' := by
  have hgrows := Source.function_grows hlower
  intro s hs
  obtain ⟨gs, s₁, events, hrun, hflat⟩ := h s (Nat.le_trans hgrows.labels hs)
  obtain ⟨g, s', events', hrun', hle, hfresh, hclear, -, hcomposed⟩ :=
    flattened_function (ω := ω) hlower (Nat.le_trans hs hflat.labels_le)
  refine ⟨gs ++ [g], s', events ++ events', ?_,
    hflat.append hgrows (hgrows.tidy htidy) hs hle hfresh (hclear htidy) hcomposed.enclosed⟩
  rw [List.mapM_append, Emit.run_bind_except, hrun]
  simp [hrun', Except.map]

/-- Whatever a context has been used for, its literals have labels of their own and its functions
    can be flattened. -/
theorem session_flattens (h : Session fs c) : c.Tidy ∧ Flattens ω fs c := by
  induction h with
  | start supply =>
      refine ⟨tidy_start supply, ?_⟩
      intro s _
      exact ⟨[], s, [], rfl, Nat.le_refl _, Fresh.nil _ _ _ _, List.forall_mem_nil _,
        List.forall_mem_nil _⟩
  | @names fs c h temps labels ih =>
      have hgrows := grows_names c temps labels
      exact ⟨hgrows.tidy ih.1, ih.2.grow hgrows (hgrows.tidy ih.1)⟩
  | @literal fs c h text ih =>
      have hgrows := (Context.grows_internString text c).1
      exact ⟨hgrows.tidy ih.1, ih.2.grow hgrows (hgrows.tidy ih.1)⟩
  | @global fs c h name size ih =>
      have hgrows := grows_global c name size
      exact ⟨hgrows.tidy ih.1, ih.2.grow hgrows (hgrows.tidy ih.1)⟩
  | function h scope body result hlower ih =>
      exact ⟨(Source.function_grows hlower).tidy ih.1, ih.2.function ih.1 hlower⟩

/-- **The labels of a whole program.** The functions that have been lowered over one context can all
    be flattened with its names. Over all of them, no label is defined twice, and none that is
    defined belongs to a literal. Each function starts with its entry label and ends with a jump to
    its exit label. It jumps to this label, which is defined nowhere, and to labels that it defines
    itself. No named label is defined or jumped to, so that a function never jumps to itself or to
    another one. -/
theorem labels_keep_discipline (h : Session fs c) :
    ∃ gs : List Flat.Function,
      ((fs.mapM Flat.Function.ofTree : ExceptT Error (Emit ω) (List Flat.Function)).run.run
        c.supply).value = .ok gs ∧
      (gs.flatMap fun g => definedLabels g.stmts).Nodup ∧
      (∀ g ∈ gs, ∀ l ∈ definedLabels g.stmts, ∀ text : String, c.strings[text]? ≠ some l) ∧
      (∀ g ∈ gs, ∃ body, g.stmts = .label g.entry :: (body ++ [.transfer (.jump g.exit)])) ∧
      (∀ g ∈ gs, ∀ st ∈ g.stmts, ∀ l ∈ st.targets, l = g.exit ∨ l ∈ definedLabels g.stmts) ∧
      (∀ g ∈ gs, ∀ g' ∈ gs, g.exit ∉ definedLabels g'.stmts) ∧
      (∀ g ∈ gs, ∀ l, (l ∈ definedLabels g.stmts ∨ ∃ st ∈ g.stmts, l ∈ st.targets) →
        ∀ name, l ≠ .named name) := by
  obtain ⟨gs, s', events, hrun, hflat⟩ := (session_flattens (ω := ω) h).2 c.supply (Nat.le_refl _)
  have hmem : ∀ g ∈ gs, ∀ l ∈ definedLabels g.stmts, l ∈ allLabels gs :=
    fun g hg l hl => List.mem_flatMap.mpr ⟨g, hg, hl⟩
  have hexit : ∀ g ∈ gs, g.exit ∈ gs.map Function.exit := fun g hg => List.mem_map_of_mem hg
  obtain ⟨-, hnodup, hdisjoint⟩ := List.nodup_append.mp hflat.fresh.nodup
  refine ⟨gs, congrArg Emitted.value hrun, hnodup, ?_, fun g hg => (hflat.enclosed g hg).ends,
    fun g hg => (hflat.enclosed g hg).closed, ?_, ?_⟩
  · intro g hg l hl text htext
    exact hflat.clear l (hmem g hg l hl) ⟨text, htext⟩
  · intro g hg g' hg' hl
    exact hdisjoint _ (hexit g hg) _ (hmem g' hg' _ hl) rfl
  · have htaken : ∀ g ∈ gs, ∀ l, l = g.exit ∨ l ∈ definedLabels g.stmts →
        ∀ name, l ≠ .named name := by
      rintro g hg l hl name rfl
      have hall : .named name ∈ gs.map Function.exit ++ allLabels gs := by
        rcases hl with hl | hl
        · exact List.mem_append_left _ (hl ▸ hexit g hg)
        · exact List.mem_append_right _ (hmem g hg _ hl)
      obtain ⟨i, hi, -⟩ := hflat.fresh.range _ hall
      cases hi
    rintro g hg l (hl | ⟨st, hst, hl⟩)
    · exact htaken g hg l (.inr hl)
    · exact htaken g hg l ((hflat.enclosed g hg).closed st hst l hl)

/-- Tells a function about a global if it is not 0, with a literal of its own. -/
def telling : List Source.Command :=
  [.cond (.read (.var "n")) [.eval (.call (.named "f") 1 [.str "odd"])] []]

/-- The tree that it is lowered to behind `halvingTree`, with which it shares a literal. -/
def tellingTree : Tree.Function where
  frame := Source.halvingScope.frame
  body := .move (.temp ⟨0⟩) (.seq
    (.seq [.seq [
      .branch (.mem (.name (.named "n"))) (.fresh 7) (.fresh 8), .label (.fresh 7),
      .eval (.call (.named "f") [.mem (.temp ⟨1⟩), .name (.fresh 10)]),
      .jump (.fresh 9), .label (.fresh 8),
      .jump (.fresh 9), .label (.fresh 9)]])
    (.name (.fresh 6)))

/-- Two functions with a loop, two conditionals and two literals. -/
theorem labels_keep_discipline_two_functions :
    ∃ gs : List Flat.Function,
      (([Source.halvingTree, tellingTree].mapM Flat.Function.ofTree :
        ExceptT Error (Emit Flat.Stmt) (List Flat.Function)).run.run
        { temps := 4, labels := 11 }).value = .ok gs ∧
      (gs.flatMap fun g => definedLabels g.stmts).Nodup ∧
      (∀ g ∈ gs, ∀ l ∈ definedLabels g.stmts, l ≠ .fresh 6 ∧ l ≠ .fresh 10) ∧
      (∀ g ∈ gs, ∃ body, g.stmts = .label g.entry :: (body ++ [.transfer (.jump g.exit)])) ∧
      (∀ g ∈ gs, ∀ st ∈ g.stmts, ∀ l ∈ st.targets, l = g.exit ∨ l ∈ definedLabels g.stmts) ∧
      (∀ g ∈ gs, ∀ g' ∈ gs, g.exit ∉ definedLabels g'.stmts) ∧
      (∀ g ∈ gs, ∀ l, (l ∈ definedLabels g.stmts ∨ ∃ st ∈ g.stmts, l ∈ st.targets) →
        ∀ name, l ≠ .named name) := by
  have hfirst : Session [Source.halvingTree]
      { supply := { temps := 2, labels := 7 }
        data := [Context.stringChunk (.fresh 6) "done"]
        strings := {("done", .fresh 6)} } :=
    .function (.start { temps := 2 }) Source.halvingScope Source.halving
      (.call (.named "f") 1 [.str "done"]) rfl
  have hboth : Session [Source.halvingTree, tellingTree]
      { supply := { temps := 4, labels := 11 }
        data := [Context.stringChunk (.fresh 6) "done",
          { label := .named "n", size := 8, init := none }, Context.stringChunk (.fresh 10) "odd"]
        strings := {("odd", .fresh 10), ("done", .fresh 6)} } :=
    .function ((hfirst.names 2 0).global "n" 8) Source.halvingScope telling (.str "done") rfl
  obtain ⟨gs, hrun, hnodup, hliterals, hrest⟩ := labels_keep_discipline (ω := Flat.Stmt) hboth
  refine ⟨gs, hrun, hnodup, ?_, hrest⟩
  intro g hg l hl
  constructor
  · rintro rfl
    exact hliterals g hg _ hl "done" rfl
  · rintro rfl
    exact hliterals g hg _ hl "odd" rfl

end MmixBackend
