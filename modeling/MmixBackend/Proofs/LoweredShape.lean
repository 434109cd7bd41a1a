import MmixBackend.Proofs.LoweredCommands
import MmixBackend.Proofs.SelectedCode

/-!
# The shape of lowered code

The flat code of commands is made of straight stretches, conditionals and loops, one after the other
and inside each other. A stretch starts with nothing but the frame pointer known, and reads only
what is known or what it has assigned before. So nothing has to be known at a label, and control
leaves a conditional or a loop only at its end.

* **`Line`** — straight code that reads nothing unknown.
* **`prepares_rhs`** — by induction on a plain expression: its code is such a line.
* **`Structured`** — how lines, conditionals and loops are put together.
* **`Structured.closed`** — every jump of structured code leads to a label of its own.
* **`commands_shaped`** — by induction on the commands: their code is structured.
-/

namespace MmixBackend

-- ── Calls ────────────────────────────────────────────────────────────────────

namespace Tree

mutual

/-- The functions that an expression calls. -/
def Expr.callees : Expr → List Label
  | .const _ => []
  | .temp _ => []
  | .name _ => []
  | .mem addr => addr.callees
  | .binop _ x y => x.callees ++ y.callees
  | .unop _ x => x.callees
  | .call f args => f :: exprCallees args
  | .seq s result => s.callees ++ result.callees

/-- The functions that a statement calls. -/
def Stmt.callees : Stmt → List Label
  | .label _ => []
  | .jump _ => []
  | .branch cond _ _ => cond.callees
  | .move dst src => dst.callees ++ src.callees
  | .eval e => e.callees
  | .seq ss => stmtCallees ss

/-- The functions that the expressions of a list call. -/
def exprCallees : List Expr → List Label
  | [] => []
  | e :: es => e.callees ++ exprCallees es

/-- The functions that the statements of a list call. -/
def stmtCallees : List Stmt → List Label
  | [] => []
  | s :: ss => s.callees ++ stmtCallees ss

end

theorem stmtCallees_append (xs ys : List Stmt) :
    stmtCallees (xs ++ ys) = stmtCallees xs ++ stmtCallees ys := by
  induction xs with
  | nil => rfl
  | cons x xs ih => rw [List.cons_append, stmtCallees, stmtCallees, ih, List.append_assoc]

end Tree

namespace Flat

/-- The function that a right-hand side calls. -/
def Rhs.callee? : Rhs → Option Label
  | .call f _ => some f
  | _ => none

/-- The function that an action calls. -/
def Action.callee? : Action → Option Label
  | .move _ r => r.callee?
  | .store .. => none
  | .call f _ => some f

/-- The temporaries that an action reads. -/
def Action.reads : Action → List Temp
  | .move _ r => r.temps
  | .store addr src => addr.temps ++ src.temps
  | .call _ args => args

-- ── Lines ────────────────────────────────────────────────────────────────────

/-- What is known behind straight code: what was known before, and what the code assigns. -/
def After (known : Temp → Prop) (code : List Stmt) (t : Temp) : Prop :=
  known t ∨ t ∈ code.filterMap Stmt.def?

/-- Straight code that reads only what is known or assigned before, and calls only some
    functions. -/
def Line (callees : List Label) (known : Temp → Prop) : List Stmt → Prop
  | [] => True
  | .act a :: rest => (∀ t ∈ a.reads, known t) ∧ (∀ f, a.callee? = some f → f ∈ callees) ∧
      Line callees (After known [.act a]) rest
  | _ :: _ => False

variable {α β : Type} {callees : List Label} {known known' : Temp → Prop} {code code' : List Stmt}

theorem after_nil (known : Temp → Prop) : After known [] = known :=
  funext fun _ => propext (or_iff_left List.not_mem_nil)

/-- What is known behind two pieces of code is what the second one adds to the first. -/
theorem after_append (known : Temp → Prop) (code code' : List Stmt) :
    After known (code ++ code') = After (After known code) code' := by
  funext t
  simp only [After, List.filterMap_append, List.mem_append, or_assoc]

theorem after_cons (known : Temp → Prop) (st : Stmt) (code : List Stmt) :
    After known (st :: code) = After (After known [st]) code := after_append known [st] code

/-- The more is known before, the more is known behind. -/
theorem After.mono (h : ∀ t, known t → known' t) (code : List Stmt) {t : Temp}
    (ht : After known code t) : After known' code t := ht.imp_left (h t)

/-- A line stays one if more is known. -/
theorem Line.mono (h : ∀ t, known t → known' t) (hline : Line callees known code) :
    Line callees known' code := by
  induction code generalizing known known' with
  | nil => trivial
  | cons st code ih =>
      cases st with
      | act a =>
          obtain ⟨hreads, hcallee, hrest⟩ := hline
          exact ⟨fun t ht => h t (hreads t ht), hcallee, ih (fun t => After.mono h _) hrest⟩
      | _ => exact hline.elim

/-- Code is a line exactly if its parts are, the second one behind the first. -/
theorem line_append :
    Line callees known (code ++ code') ↔
      Line callees known code ∧ Line callees (After known code) code' := by
  induction code generalizing known with
  | nil =>
      rw [after_nil]
      exact ⟨fun h => ⟨trivial, h⟩, fun h => h.2⟩
  | cons st code ih =>
      cases st with
      | act a =>
          rw [after_cons]
          simp only [List.cons_append, Line, ih, and_assoc]
      | _ => exact ⟨fun h => h.elim, fun h => h.1.elim⟩

theorem line_cons {st : Stmt} :
    Line callees known (st :: code) ↔
      Line callees known [st] ∧ Line callees (After known [st]) code :=
  @line_append callees known [st] code

/-- A line consists of actions. -/
theorem Line.acts (h : Line callees known code) : Acts code := by
  induction code generalizing known with
  | nil => exact acts_nil
  | cons st code ih =>
      cases st with
      | act a => exact (acts_single a).append (ih h.2.2)
      | _ => exact h.elim

/-- Lines that start from the same are a line, one after the other. -/
theorem Line.join (h : Line callees known code) (h' : Line callees known code') :
    Line callees known (code ++ code') :=
  line_append.mpr ⟨h, h'.mono fun _ => .inl⟩

/-- The code of operands, each of them a line, is a line as a whole. -/
theorem line_flatMap {ps : List Part} (h : ∀ p ∈ ps, Line callees known p.code) :
    Line callees known (ps.flatMap Part.code) := by
  induction ps with
  | nil => trivial
  | cons p ps ih =>
      obtain ⟨hp, hps⟩ := List.forall_mem_cons.mp h
      exact hp.join (ih hps)

-- ── Steps of flattening that make lines ──────────────────────────────────────

/-- From every supply, the step succeeds and its code is a line; what holds of its value is told by
    what is known behind the code. -/
def Prepares (callees : List Label) (known : Temp → Prop) (x : Flatten α)
    (Q : (Temp → Prop) → α → Prop) : Prop :=
  ∀ s, ∃ a code s', Yields x s a code s' ∧ Line callees known code ∧ Q (After known code) a

/-- The temporary of an atom is known. -/
def KnownAtom (known : Temp → Prop) (a : Atom) : Prop := ∀ t ∈ a.temps, known t

/-- The temporaries of a right-hand side are known, and what it calls is allowed. -/
def KnownRhs (callees : List Label) (known : Temp → Prop) (r : Rhs) : Prop :=
  (∀ t ∈ r.temps, known t) ∧ ∀ f, r.callee? = some f → f ∈ callees

/-- The code of an operand is a line, and behind it the operand is known. -/
def KnownPart (callees : List Label) (known : Temp → Prop) (p : Part) : Prop :=
  Line callees known p.code ∧ KnownAtom (After known p.code) p.atom

variable {x : Flatten α} {f : α → Flatten β} {P : (Temp → Prop) → α → Prop}
  {Q : (Temp → Prop) → β → Prop}

theorem prepares_pure {a : α} (h : P known a) : Prepares callees known (pure a) P := by
  intro s
  refine ⟨a, [], s, yields_pure a s, trivial, ?_⟩
  rwa [after_nil]

/-- A step may rely on what the steps before it have made known. -/
theorem Prepares.bind (hx : Prepares callees known x P)
    (hf : ∀ a known', (∀ t, known t → known' t) → P known' a → Prepares callees known' (f a) Q) :
    Prepares callees known (x >>= f) Q := by
  intro s
  obtain ⟨a, code, s₁, hyields, hline, ha⟩ := hx s
  obtain ⟨b, code', s', hyields', hline', hb⟩ := hf a (After known code) (fun _ => .inl) ha s₁
  refine ⟨b, code ++ code', s', hyields.bind hyields', line_append.mpr ⟨hline, hline'⟩, ?_⟩
  rwa [after_append]

theorem prepares_freshTemp :
    Prepares callees known (ExceptT.lift Emit.freshTemp : Flatten Temp) fun _ _ => True :=
  fun s => ⟨_, [], _, yields_freshTemp s, trivial, trivial⟩

/-- Emitting a line makes known what it assigns. -/
theorem prepares_emit {code : List Stmt} (h : Line callees known code) :
    Prepares callees known (emit code) fun known' _ => known' = After known code :=
  fun s => ⟨(), code, s, yields_emit code s, h, rfl⟩

/-- Moving a right-hand side to a temporary makes the temporary known. -/
theorem prepares_move {r : Rhs} (h : KnownRhs callees known r) (dst : Temp) :
    Prepares callees known (emit [.act (.move dst r)]) fun known' _ => known' dst := by
  intro s
  refine ⟨(), _, s, yields_emit _ s, ⟨h.1, h.2, trivial⟩, .inr ?_⟩
  exact List.mem_singleton.mpr rfl

/-- A line that is kept apart is an operand, and nothing becomes known yet. -/
theorem prepares_capture {a : Flatten Atom} (h : Prepares callees known a KnownAtom) :
    Prepares callees known (capture a) fun known' p =>
      known' = known ∧ KnownPart callees known p := by
  intro s
  obtain ⟨a, code, s', hyields, hline, ha⟩ := h s
  exact ⟨⟨code, a⟩, [], s', yields_capture hyields, trivial, after_nil known, hline, ha⟩

/-- A fresh temporary is known once it is assigned. -/
theorem prepares_assignFresh {r : Rhs} (h : KnownRhs callees known r) :
    Prepares callees known (assignFresh r) fun known' t => known' t := by
  refine prepares_freshTemp.bind fun t _ hle _ => ?_
  refine (prepares_move ⟨fun u hu => hle u (h.1 u hu), h.2⟩ t).bind fun _ _ _ ht => ?_
  exact prepares_pure ht

/-- The value of a right-hand side gets into an atom that is known. -/
theorem prepares_materialize {r : Rhs} (h : KnownRhs callees known r) :
    Prepares callees known (materialize r) KnownAtom := by
  by_cases hr : ∃ a, r = .atom a
  · obtain ⟨a, rfl⟩ := hr
    exact prepares_pure h.1
  · intro s
    refine ⟨_, _, _, yields_materialize (fun a ha => hr ⟨a, ha⟩) s, ⟨h.1, h.2, trivial⟩, ?_⟩
    intro t ht
    obtain rfl := List.mem_singleton.mp ht
    exact .inr (List.mem_singleton.mpr rfl)

theorem prepares_nameAtom {a : Atom} (h : KnownAtom known a) :
    Prepares callees known (nameAtom a) fun known' t => known' t := by
  cases a with
  | temp t => exact prepares_pure (h t (List.mem_singleton.mpr rfl))
  | const value => exact prepares_assignFresh ⟨h, nofun⟩
  | name l => exact prepares_assignFresh ⟨h, nofun⟩

/-- Copying an operand keeps it a known one. -/
theorem prepares_protect {p : Part} (h : KnownPart callees known p) (later : List Temp) :
    Prepares callees known (p.protect later) fun known' p =>
      known' = known ∧ KnownPart callees known p := by
  obtain ⟨code, a⟩ := p
  cases a with
  | temp t =>
      rw [Part.protect]
      dsimp only
      split
      · intro s
        refine ⟨_, [], _, (yields_freshTemp s).bind_nil (yields_pure _ _), trivial,
          after_nil known, line_append.mpr ⟨h.1, h.2, fun _ hcall => ?_, trivial⟩, ?_⟩
        · cases hcall
        intro u hu
        obtain rfl := List.mem_singleton.mp hu
        rw [after_append]
        exact .inr (List.mem_singleton.mpr rfl)
      · exact prepares_pure ⟨rfl, h⟩
  | const value => exact prepares_pure ⟨rfl, h⟩
  | name l => exact prepares_pure ⟨rfl, h⟩

/-- Copying operands keeps them known ones. -/
theorem prepares_protectAll {ps : List Part} (h : ∀ p ∈ ps, KnownPart callees known p) :
    Prepares callees known (Part.protectAll ps) fun known' ps =>
      known' = known ∧ ∀ p ∈ ps, KnownPart callees known p := by
  induction ps with
  | nil => exact prepares_pure ⟨rfl, List.forall_mem_nil _⟩
  | cons p ps ih =>
      obtain ⟨hp, hps⟩ := List.forall_mem_cons.mp h
      rw [Part.protectAll]
      refine (ih hps).bind ?_
      rintro ps' _ - ⟨rfl, hps'⟩
      refine (prepares_protect hp _).bind ?_
      rintro p' _ - ⟨rfl, hp'⟩
      exact prepares_pure ⟨rfl, List.forall_mem_cons.mpr ⟨hp', hps'⟩⟩

/-- The arguments of a call are known once they are named. -/
theorem prepares_nameAtoms {ps : List Part} (h : ∀ p ∈ ps, KnownAtom known p.atom) :
    Prepares callees known (ps.mapM fun p => nameAtom p.atom) fun known' ts =>
      ∀ t ∈ ts, known' t := by
  induction ps generalizing known with
  | nil =>
      rw [List.mapM_nil]
      exact prepares_pure (List.forall_mem_nil _)
  | cons p ps ih =>
      obtain ⟨hp, hps⟩ := List.forall_mem_cons.mp h
      rw [List.mapM_cons]
      refine (prepares_nameAtom hp).bind fun t known₁ hle ht => ?_
      refine (ih fun q hq u hu => hle u (hps q hq u hu)).bind fun ts known₂ hle' hts => ?_
      exact prepares_pure (List.forall_mem_cons.mpr ⟨hle' t ht, hts⟩)

/-- Behind the code of all operands, each of them is known. -/
theorem knownAtom_flatMap {ps : List Part} (h : ∀ p ∈ ps, KnownPart callees known p) :
    ∀ p ∈ ps, KnownAtom (After known (ps.flatMap Part.code)) p.atom := by
  intro p hp t ht
  obtain ⟨before, after, rfl⟩ := List.append_of_mem hp
  rw [List.flatMap_append, List.flatMap_cons, after_append, after_append]
  exact .inl (((h p hp).2 t ht).imp_left .inl)

-- ── Expressions ──────────────────────────────────────────────────────────────

/-- The operands of a binary operation, and what is left to do with them. -/
theorem prepares_operands {x y : Flatten Atom} (hx : Prepares callees known x KnownAtom)
    (hy : Prepares callees known y KnownAtom) {f : Part → Part → Flatten β}
    (hf : ∀ p q known', (∀ t, known t → known' t) → KnownAtom known' p.atom →
      KnownAtom known' q.atom → Prepares callees known' (f p q) Q) :
    Prepares callees known (do
      let p ← capture x
      let q ← capture y
      let p ← p.protect q.defs
      emit (p.code ++ q.code)
      f p q) Q := by
  refine (prepares_capture hx).bind ?_
  rintro p _ - ⟨rfl, hp⟩
  refine (prepares_capture hy).bind ?_
  rintro q _ - ⟨rfl, hq⟩
  refine (prepares_protect hp q.defs).bind ?_
  rintro p' _ - ⟨rfl, hp'⟩
  refine (prepares_emit (hp'.1.join hq.1)).bind ?_
  rintro ⟨⟩ _ hle rfl
  refine hf p' q _ hle ?_ ?_
  · intro t ht
    rw [after_append]
    exact .inl (hp'.2 t ht)
  · intro t ht
    rw [after_append]
    exact (hq.2 t ht).imp_left .inl

mutual

/-- A plain expression of which all leaves are known becomes a line. -/
theorem prepares_rhs {e : Tree.Expr} {known : Temp → Prop} (he : e.Plain)
    (hleaves : ∀ t, .temp t ∈ e.leaves → known t) (hcallees : e.callees ⊆ callees) :
    Prepares callees known (rhs e) (KnownRhs callees) := by
  cases e with
  | const value => exact prepares_pure ⟨List.forall_mem_nil _, nofun⟩
  | temp t =>
      refine prepares_pure ⟨?_, nofun⟩
      intro u hu
      obtain rfl := List.mem_singleton.mp hu
      exact hleaves u (List.mem_singleton.mpr rfl)
  | name l => exact prepares_pure ⟨List.forall_mem_nil _, nofun⟩
  | mem addr =>
      have haddr : addr.Plain := he
      rw [rhs]
      refine (prepares_rhs haddr hleaves hcallees).bind fun r _ _ hr => ?_
      refine (prepares_materialize hr).bind fun a _ _ ha => ?_
      exact prepares_pure ⟨ha, nofun⟩
  | unop op x =>
      have hx : x.Plain := he
      rw [rhs]
      refine (prepares_rhs hx hleaves hcallees).bind fun r _ _ hr => ?_
      refine (prepares_materialize hr).bind fun a _ _ ha => ?_
      exact prepares_pure ⟨ha, nofun⟩
  | binop op x y =>
      have hx := prepares_rhs he.1 (fun t ht => hleaves t (List.mem_append_left _ ht))
        (List.append_subset.mp hcallees).1
      have hy := prepares_rhs he.2 (fun t ht => hleaves t (List.mem_append_right _ ht))
        (List.append_subset.mp hcallees).2
      rw [rhs]
      refine prepares_operands (hx.bind fun r _ _ hr => prepares_materialize hr)
        (hy.bind fun r _ _ hr => prepares_materialize hr) fun p q known' _ hp hq => ?_
      exact prepares_pure ⟨List.forall_mem_append.mpr ⟨hp, hq⟩, nofun⟩
  | call f args =>
      -- the arguments become known operands, each of them protected from those behind it
      obtain ⟨hf, hargs⟩ := List.cons_subset.mp hcallees
      rw [rhs]
      refine (prepares_parts he hleaves hargs).bind ?_
      rintro ps _ - ⟨rfl, hps⟩
      refine (prepares_protectAll hps).bind ?_
      rintro ps' _ - ⟨rfl, hps'⟩
      refine (prepares_emit (line_flatMap fun p hp => (hps' p hp).1)).bind ?_
      rintro ⟨⟩ _ - rfl
      refine (prepares_nameAtoms (knownAtom_flatMap hps')).bind fun ts _ _ hts => ?_
      refine prepares_pure ⟨hts, ?_⟩
      intro g hg
      obtain rfl := Option.some.inj hg
      exact hf
  | seq s result => exact absurd he id

/-- Operands without nested statements, whose leaves are known, become known operands. -/
theorem prepares_parts {es : List Tree.Expr} {known : Temp → Prop} (hes : Tree.PlainExprs es)
    (hleaves : ∀ t, .temp t ∈ Tree.exprLeaves es → known t)
    (hcallees : Tree.exprCallees es ⊆ callees) :
    Prepares callees known (parts es) fun known' ps =>
      known' = known ∧ ∀ p ∈ ps, KnownPart callees known p := by
  cases es with
  | nil => exact prepares_pure ⟨rfl, List.forall_mem_nil _⟩
  | cons e es =>
      obtain ⟨he, hes'⟩ := List.append_subset.mp hcallees
      have hfirst := prepares_rhs hes.1 (fun t ht => hleaves t (List.mem_append_left _ ht)) he
      rw [parts]
      refine (prepares_capture (hfirst.bind fun r _ _ hr => prepares_materialize hr)).bind ?_
      rintro p _ - ⟨rfl, hp⟩
      refine (prepares_parts hes.2 (fun t ht => hleaves t (List.mem_append_right _ ht))
        hes').bind ?_
      rintro ps _ - ⟨rfl, hps⟩
      exact prepares_pure ⟨rfl, List.forall_mem_cons.mpr ⟨hp, hps⟩⟩

end

-- ── Structured code ──────────────────────────────────────────────────────────

/-- Lines, conditionals and loops, one after the other and inside each other. Every line starts with
    the frame pointer alone, and a test leaves its outcome in a temporary that is known then. -/
inductive Structured (callees : List Label) (pointer : Temp) : List Stmt → Prop where
  | line {code : List Stmt} (h : Line callees (· = pointer) code) :
      Structured callees pointer code
  | append {code code' : List Stmt} (h : Structured callees pointer code)
      (h' : Structured callees pointer code') : Structured callees pointer (code ++ code')
  | conditional {test thenCode elseCode : List Stmt} {t : Temp}
      (htest : Line callees (· = pointer) test) (ht : After (· = pointer) test t)
      (thenLabel neg elseLabel endLabel : Label) (h : Structured callees pointer thenCode)
      (h' : Structured callees pointer elseCode) : Structured callees pointer
        (Flat.conditional test t thenLabel neg elseLabel endLabel thenCode elseCode)
  | loop {test body : List Stmt} {t : Temp} (htest : Line callees (· = pointer) test)
      (ht : After (· = pointer) test t) (condLabel bodyLabel neg endLabel : Label)
      (h : Structured callees pointer body) : Structured callees pointer
        (Flat.loop test t condLabel bodyLabel neg endLabel body)

/-- Every jump of the code leads to a label of its own. -/
def Closed (code : List Stmt) : Prop :=
  ∀ st ∈ code, ∀ l ∈ st.targets, l ∈ definedLabels code

variable {pointer : Temp}

/-- Actions do not jump. -/
theorem closed_acts (h : Acts code) : Closed code := by
  intro st hst l hl
  obtain ⟨a, rfl⟩ := h st hst
  cases hl

/-- Pieces of code that keep to their own labels do so together. -/
theorem Closed.append (h : Closed code) (h' : Closed code') : Closed (code ++ code') := by
  intro st hst l hl
  rw [definedLabels_append, List.mem_append]
  rcases List.mem_append.mp hst with hst | hst
  · exact .inl (h st hst l hl)
  · exact .inr (h' st hst l hl)

/-- Structured code jumps only to its own labels. -/
theorem Structured.closed (h : Structured callees pointer code) : Closed code := by
  induction h with
  | line h => exact closed_acts h.acts
  | append _ _ ih ih' => exact ih.append ih'
  | conditional htest _ thenLabel neg elseLabel endLabel _ _ ih ih' =>
      have htest := closed_acts htest.acts
      intro st hst l hl
      simp only [Flat.conditional, guard, List.mem_append, List.mem_cons,
        List.not_mem_nil, or_false, definedLabels_append, definedLabels_label,
        definedLabels_transfer, definedLabels_nil] at hst ⊢
      grind [Stmt.targets, Transfer.targets, Closed]
  | loop htest _ condLabel bodyLabel neg endLabel _ ih =>
      have htest := closed_acts htest.acts
      intro st hst l hl
      simp only [Flat.loop, guard, List.mem_append, List.mem_cons, List.not_mem_nil,
        or_false, definedLabels_append, definedLabels_label, definedLabels_transfer,
        definedLabels_nil] at hst ⊢
      grind [Stmt.targets, Transfer.targets, Closed]

end Flat

-- ── Commands ─────────────────────────────────────────────────────────────────

namespace Source

open Flat

variable {scope : Scope} {callees : List Label} {c c' : Context} {e : Tree.Expr}
  {M : Literals → Meaning Word}

/-- The expression that something is lowered to becomes a line. -/
theorem Lowered.prepares (h : Lowered scope c c' M e) (hcallees : e.callees ⊆ callees) :
    Prepares callees (· = scope.frame.pointer) (rhs e) (KnownRhs callees) :=
  prepares_rhs h.plain h.temps hcallees

/-- What an operand is lowered to reads the frame pointer and what it has assigned, and its value
    ends up in a known atom. -/
theorem Lowered.prepares_expr (h : Lowered scope c c' M e) (hcallees : e.callees ⊆ callees) :
    Prepares callees (· = scope.frame.pointer) (rhs e >>= materialize) KnownAtom :=
  (h.prepares hcallees).bind fun _ _ _ hr => prepares_materialize hr

/-- A test that was lowered leaves its outcome in a known temporary. -/
theorem Lowered.prepares_test (h : Lowered scope c c' M e) (hcallees : e.callees ⊆ callees) :
    Prepares callees (· = scope.frame.pointer) (rhs e >>= materialize >>= nameAtom)
      fun known t => known t :=
  (h.prepares_expr hcallees).bind fun _ _ _ ha => prepares_nameAtom ha

/-- Flattened from any supply, the tree becomes structured code. -/
def Shaped (callees : List Label) (scope : Scope) (x : Flatten Unit) : Prop :=
  ∀ s, ∃ code s', Yields x s () code s' ∧ Structured callees scope.frame.pointer code

/-- A single line is structured code. -/
theorem shaped_line {x : Flatten Unit} {Q : (Temp → Prop) → Unit → Prop}
    (h : Prepares callees (· = scope.frame.pointer) x Q) : Shaped callees scope x := by
  intro s
  obtain ⟨⟨⟩, code, s', hyields, hline, -⟩ := h s
  exact ⟨code, s', hyields, .line hline⟩

/-- An operand evaluated for its effects becomes a line. -/
theorem shaped_eval (h : Lowered scope c c' M e) (hcallees : e.callees ⊆ callees) :
    Shaped callees scope (stmt (.eval e)) := by
  rw [stmt]
  refine shaped_line (Q := fun _ _ => True) ((h.prepares hcallees).bind fun r _ _ hr => ?_)
  cases r with
  | call f args => exact fun s => ⟨(), _, s, yields_emit _ s, ⟨hr.1, hr.2, trivial⟩, trivial⟩
  | _ => exact prepares_pure trivial

/-- An assignment becomes a line. -/
theorem shaped_store {M' : Literals → Meaning Word} {c₁ : Context} {dst : Tree.Expr}
    (hdst : Lowered scope c c₁ M' dst) (hsrc : Lowered scope c₁ c' M e)
    (hcallees : dst.callees ++ e.callees ⊆ callees) :
    Shaped callees scope (stmt (.move (.mem dst) e)) := by
  obtain ⟨hd, hs⟩ := List.append_subset.mp hcallees
  rw [stmt]
  refine shaped_line (Q := fun _ _ => True) (prepares_operands (hsrc.prepares_expr hs)
    (hdst.prepares_expr hd) fun p q known' _ hp hq s => ?_)
  exact ⟨(), _, s, yields_emit _ s, ⟨List.forall_mem_append.mpr ⟨hq, hp⟩, nofun, trivial⟩, trivial⟩

mutual

/-- A command that was lowered becomes structured code. By induction on the command, with lists of
    them. -/
theorem command_shaped (cmd : Command) {c c' : Context} {st : Tree.Stmt}
    (h : (command scope cmd).run.run c = (.ok st, c')) (hcallees : st.callees ⊆ callees) :
    Shaped callees scope (stmt st) := by
  cases cmd with
  | assign place src =>
      rw [command] at h
      obtain ⟨dst, c₁, hdst, h⟩ := run_bind_eq_ok.mp h
      obtain ⟨e, c₂, he, h⟩ := run_bind_eq_ok.mp h
      obtain ⟨rfl, rfl⟩ := eq_of_ok_eq h
      exact shaped_store (addr_lowered place hdst) (value_lowered src he) hcallees
  | eval operand =>
      rw [command] at h
      obtain ⟨e, c₁, he, h⟩ := run_bind_eq_ok.mp h
      obtain ⟨rfl, rfl⟩ := eq_of_ok_eq h
      exact shaped_eval (value_lowered operand he) hcallees
  | cond cond thenCmds elseCmds =>
      rw [command] at h
      obtain ⟨e, c₁, he, h⟩ := run_bind_eq_ok.mp h
      obtain ⟨l₁, c₂, hl₁, h⟩ := run_bind_eq_ok.mp h
      obtain ⟨l₂, c₃, hl₂, h⟩ := run_bind_eq_ok.mp h
      obtain ⟨l₃, c₄, hl₃, h⟩ := run_bind_eq_ok.mp h
      obtain ⟨as, c₅, has, h⟩ := run_bind_eq_ok.mp h
      obtain ⟨bs, c₆, hbs, h⟩ := run_bind_eq_ok.mp h
      obtain ⟨rfl, rfl⟩ := eq_of_ok_eq h
      simp only [Tree.Stmt.callees, Tree.stmtCallees, Tree.stmtCallees_append, List.append_nil,
        List.append_subset] at hcallees
      obtain ⟨⟨hcond, hthen⟩, helse⟩ := hcallees
      intro s
      obtain ⟨t, test, s₁, hytest, hline, ht⟩ := (value_lowered cond he).prepares_test hcond s
      obtain ⟨a, s₂, hya, ha⟩ := commands_shaped thenCmds has hthen (s₁.skip 0 1)
      obtain ⟨b, s', hyb, hb⟩ := commands_shaped elseCmds hbs helse s₂
      exact ⟨_, s', yields_conditional hytest hya hyb l₁ l₂ l₃, .conditional hline ht _ _ _ _ ha hb⟩
  | loop cond body =>
      rw [command] at h
      obtain ⟨e, c₁, he, h⟩ := run_bind_eq_ok.mp h
      obtain ⟨l₁, c₂, hl₁, h⟩ := run_bind_eq_ok.mp h
      obtain ⟨l₂, c₃, hl₂, h⟩ := run_bind_eq_ok.mp h
      obtain ⟨l₃, c₄, hl₃, h⟩ := run_bind_eq_ok.mp h
      obtain ⟨as, c₅, has, h⟩ := run_bind_eq_ok.mp h
      obtain ⟨rfl, rfl⟩ := eq_of_ok_eq h
      simp only [Tree.Stmt.callees, Tree.stmtCallees, Tree.stmtCallees_append, List.append_nil,
        List.nil_append, List.append_subset] at hcallees
      intro s
      obtain ⟨t, test, s₁, hytest, hline, ht⟩ := (value_lowered cond he).prepares_test hcallees.1 s
      obtain ⟨a, s', hya, ha⟩ := commands_shaped body has hcallees.2 (s₁.skip 0 1)
      exact ⟨_, s', yields_loop hytest hya l₁ l₂ l₃, .loop hline ht _ _ _ _ ha⟩

/-- The code of commands is structured. -/
theorem commands_shaped (cmds : List Command) {c c' : Context} {sts : List Tree.Stmt}
    (h : (commands scope cmds).run.run c = (.ok sts, c'))
    (hcallees : Tree.stmtCallees sts ⊆ callees) : Shaped callees scope (stmts sts) := by
  cases cmds with
  | nil =>
      rw [commands] at h
      obtain ⟨rfl, rfl⟩ := eq_of_ok_eq h
      exact fun s => ⟨[], s, yields_stmts_nil s, .line trivial⟩
  | cons cmd cmds =>
      rw [commands] at h
      obtain ⟨st, c₁, hst, h⟩ := run_bind_eq_ok.mp h
      obtain ⟨sts, c₂, hsts, h⟩ := run_bind_eq_ok.mp h
      obtain ⟨rfl, rfl⟩ := eq_of_ok_eq h
      obtain ⟨hfirst, hrest⟩ := List.append_subset.mp hcallees
      intro s
      obtain ⟨code, s₁, hyields, hcode⟩ := command_shaped cmd hst hfirst s
      obtain ⟨code', s', hyields', hcode'⟩ := commands_shaped cmds hsts hrest s₁
      exact ⟨code ++ code', s', yields_stmts hyields hyields', .append hcode hcode'⟩

end

/-- The code of a function is structured up to a last line, which assigns the result. -/
theorem function_shaped {body : List Command} {result : Operand} {f : Tree.Function}
    (h : (function scope body result).run.run c = (.ok f, c')) (s : Supply) :
    f.frame = scope.frame ∧ ∃ code last s', Yields (stmt f.body) s () (code ++ last) s' ∧
      Structured f.body.callees f.frame.pointer code ∧
      Line f.body.callees (· = f.frame.pointer) last ∧
      After (· = f.frame.pointer) last f.frame.result := by
  rw [function] at h
  obtain ⟨sts, c₁, hsts, h⟩ := run_bind_eq_ok.mp h
  obtain ⟨e, c₂, he, h⟩ := run_bind_eq_ok.mp h
  obtain ⟨rfl, rfl⟩ := eq_of_ok_eq h
  have hcallees : Tree.Stmt.callees (.move (.temp scope.frame.result) (.seq (.seq sts) e)) =
      Tree.stmtCallees sts ++ e.callees := rfl
  refine ⟨rfl, ?_⟩
  rw [hcallees]
  obtain ⟨code, s₁, hyields, hcode⟩ :=
    commands_shaped body hsts (List.subset_append_left _ e.callees) s
  obtain ⟨⟨⟩, last, s', hyields', hlast, hresult⟩ :=
    (((value_lowered result he).prepares (List.subset_append_right _ _)).bind fun r _ _ hr =>
      prepares_move hr scope.frame.result) s₁
  refine ⟨code, last, s', ?_, hcode, hlast, hresult⟩
  rw [stmt, Flat.rhs, stmt, bind_assoc]
  exact hyields.bind hyields'

end Source

end MmixBackend
