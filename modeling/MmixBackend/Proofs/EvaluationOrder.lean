import MmixBackend.Proofs.FlattenMeaning

/-!
# Flattening keeps the order of evaluation

What a tree does can be listed without running it: its calls, stores, labels, jumps, branches and
assignments, in the order in which evaluation comes by them. Operands count from left to right, and
a store computes its value before its address. Flat code is listed by reading it from left to right.
It has moves to temporaries of its own, which are left out, and three statements for each branch,
which are read as one.

The two lists are the same for every tree, also for one that jumps out of the middle of an
expression, which the reference machine does not run.

* **`Reading`** — code that is read without cutting a branch in two; **`Reading.append`** joins it.
* **`Records`** — how the code of a step of flattening is read, and **`Records.bind`** one step
  after another.
* **`records_protectAll`** — copies of operands do not show.
* **`records_rhs`** and its companions — by induction on the tree.
-/

namespace MmixBackend

/-- Something that evaluation comes by. -/
inductive Occurrence where
  /-- A call with a number of arguments. -/
  | call (f : Label) (args : Nat)
  | store
  | label (l : Label)
  | jump (l : Label)
  | branch (ifTrue ifFalse : Label)
  | assign (t : Temp)
  deriving DecidableEq, Repr

-- ── Trees ────────────────────────────────────────────────────────────────────

namespace Tree

mutual

/-- What evaluating an expression comes by, in order. -/
def Expr.occurrences : Expr → List Occurrence
  | .const _ => []
  | .temp _ => []
  | .name _ => []
  | .mem addr => addr.occurrences
  | .binop _ x y => x.occurrences ++ y.occurrences
  | .unop _ x => x.occurrences
  | .call f args => exprOccurrences args ++ [.call f args.length]
  | .seq s result => s.occurrences ++ result.occurrences

/-- What running a statement comes by, in order. A move that has no destination is never run. -/
def Stmt.occurrences : Stmt → List Occurrence
  | .label l => [.label l]
  | .jump l => [.jump l]
  | .branch cond ifTrue ifFalse => cond.occurrences ++ [.branch ifTrue ifFalse]
  | .move (.temp dst) src => src.occurrences ++ [.assign dst]
  | .move (.mem addr) src => src.occurrences ++ addr.occurrences ++ [.store]
  | .move _ _ => []
  | .eval e => e.occurrences
  | .seq ss => stmtOccurrences ss

/-- What evaluating expressions from left to right comes by. -/
def exprOccurrences : List Expr → List Occurrence
  | [] => []
  | e :: es => e.occurrences ++ exprOccurrences es

/-- What running statements one after the other comes by. -/
def stmtOccurrences : List Stmt → List Occurrence
  | [] => []
  | s :: ss => s.occurrences ++ stmtOccurrences ss

end

end Tree

namespace Flat

-- ── Flat code ────────────────────────────────────────────────────────────────

/-- The call that a right-hand side makes. -/
def Rhs.occurrences : Rhs → List Occurrence
  | .call f args => [.call f args.length]
  | _ => []

/-- What an action comes by. A move to a temporary numbered `n` or higher shows only in the call
    that it may make. -/
def Action.occurrences (n : Nat) : Action → List Occurrence
  | .move dst r => r.occurrences ++ if dst.index < n then [.assign dst] else []
  | .store .. => [.store]
  | .call f args => [.call f args.length]

/-- Reads code from left to right. A branch whose negative label and a jump come directly behind it
    is one branch to where the jump leads. -/
def occurrences (n : Nat) : List Stmt → List Occurrence
  | [] => []
  | .transfer (.branch _ ifTrue neg) :: .label l :: .transfer (.jump ifFalse) :: rest =>
    (if l = neg then [.branch ifTrue ifFalse]
      else [.branch ifTrue neg, .label l, .jump ifFalse]) ++ occurrences n rest
  | .transfer (.branch _ ifTrue ifFalse) :: rest => .branch ifTrue ifFalse :: occurrences n rest
  | .transfer (.jump l) :: rest => .jump l :: occurrences n rest
  | .label l :: rest => .label l :: occurrences n rest
  | .act a :: rest => a.occurrences n ++ occurrences n rest

/-- Code that has every branch together with its negative label and the jump behind it, and what it
    is read as. -/
inductive Reading (n : Nat) : List Stmt → List Occurrence → Prop where
  | nil : Reading n [] []
  | label (l : Label) {code : List Stmt} {occs : List Occurrence} (h : Reading n code occs) :
      Reading n (.label l :: code) (.label l :: occs)
  | jump (l : Label) {code : List Stmt} {occs : List Occurrence} (h : Reading n code occs) :
      Reading n (.transfer (.jump l) :: code) (.jump l :: occs)
  | branch (cond : Temp) (ifTrue neg ifFalse : Label) {code : List Stmt} {occs : List Occurrence}
      (h : Reading n code occs) :
      Reading n (.transfer (.branch cond ifTrue neg) :: .label neg ::
        .transfer (.jump ifFalse) :: code) (.branch ifTrue ifFalse :: occs)
  | act (a : Action) {code : List Stmt} {occs : List Occurrence} (h : Reading n code occs) :
      Reading n (.act a :: code) (a.occurrences n ++ occs)

section Reading

variable {n : Nat} {code code' : List Stmt} {occs occs' : List Occurrence}

/-- Code behind other code is read behind it. -/
theorem Reading.append (h : Reading n code occs) (h' : Reading n code' occs') :
    Reading n (code ++ code') (occs ++ occs') := by
  induction h with
  | nil => exact h'
  | label l _ ih => exact .label l ih
  | jump l _ ih => exact .jump l ih
  | branch cond ifTrue neg ifFalse _ ih => exact .branch cond ifTrue neg ifFalse ih
  | act a _ ih =>
      rw [List.append_assoc]
      exact .act a ih

theorem reading_act (n : Nat) (a : Action) : Reading n [.act a] (a.occurrences n) := by
  have h := Reading.act a (.nil (n := n))
  rwa [List.append_nil] at h

/-- Reading is a function of the code. -/
theorem Reading.occurrences_eq (h : Reading n code occs) : occurrences n code = occs := by
  induction h with
  | nil => rfl
  | label l _ ih => rw [occurrences, ih]
  | jump l _ ih => rw [occurrences, ih]
  | branch cond ifTrue neg ifFalse _ ih =>
      rw [occurrences, if_pos rfl, ih]
      rfl
  | act a _ ih => rw [occurrences, ih]

end Reading

-- ── Steps of flattening ──────────────────────────────────────────────────────

variable {α β : Type} {n : Nat}

/-- If the step succeeds after `n` temporaries were handed out, its code can be read, and `Q` holds
    of its value and of what the code is read as. -/
def Records (n : Nat) (x : Flatten α) (Q : α → List Occurrence → Prop) : Prop :=
  ∀ s a code s', n ≤ s.temps → Yields x s a code s' →
    n ≤ s'.temps ∧ ∃ occs, Reading n code occs ∧ Q a occs

section Steps

variable {P : α → List Occurrence → Prop} {Q : β → List Occurrence → Prop}

/-- Where it is known what the step yields. -/
theorem records_of_yields {x : Flatten α} (h : ∀ s, n ≤ s.temps → ∃ a code s',
    Yields x s a code s' ∧ n ≤ s'.temps ∧ ∃ occs, Reading n code occs ∧ P a occs) :
    Records n x P := by
  intro s a code s' hn hyields
  obtain ⟨a₀, code₀, s₀, hyields₀, hn', hread⟩ := h s hn
  obtain ⟨rfl, rfl, rfl⟩ := hyields₀.unique hyields
  exact ⟨hn', hread⟩

theorem records_pure {a : α} (h : P a []) : Records n (pure a) P :=
  records_of_yields fun s hn => ⟨a, [], s, yields_pure a s, hn, [], .nil, h⟩

/-- What is recorded may be said with less. -/
theorem Records.mono {P' : α → List Occurrence → Prop} {x : Flatten α} (hx : Records n x P)
    (h : ∀ a occs, P a occs → P' a occs) : Records n x P' := by
  intro s a code s' hn hyields
  obtain ⟨hn', occs, hread, ha⟩ := hx s a code s' hn hyields
  exact ⟨hn', occs, hread, h a occs ha⟩

/-- One step of flattening after another: the second one is read behind the first. -/
theorem Records.bind {x : Flatten α} {f : α → Flatten β} (hx : Records n x P)
    (hf : ∀ a occs, P a occs → Records n (f a) fun b occs' => Q b (occs ++ occs')) :
    Records n (x >>= f) Q := by
  intro s b code s' hn h
  obtain ⟨a, code₁, s₁, code₂, hfirst, hsecond, rfl⟩ := h.of_bind
  obtain ⟨hn₁, occs₁, hread₁, ha⟩ := hx s a code₁ s₁ hn hfirst
  obtain ⟨hn', occs₂, hread₂, hb⟩ := hf a occs₁ ha s₁ b code₂ s' hn₁ hsecond
  exact ⟨hn', occs₁ ++ occs₂, hread₁.append hread₂, hb⟩

/-- A step that is not read as anything, before another one. -/
theorem Records.bind_silent {R : α → Prop} {x : Flatten α} {f : α → Flatten β}
    (hx : Records n x fun a occs => R a ∧ occs = []) (hf : ∀ a, R a → Records n (f a) Q) :
    Records n (x >>= f) Q := by
  refine hx.bind ?_
  rintro a _ ⟨ha, rfl⟩
  exact hf a ha

/-- What is emitted is recorded as it is read. -/
theorem records_emit {code : List Stmt} {occs : List Occurrence} (h : Reading n code occs) :
    Records n (emit code) fun _ occs' => occs' = occs :=
  records_of_yields fun s hn => ⟨(), code, s, yields_emit code s, hn, occs, h, rfl⟩

/-- A fresh temporary has a number from `n` on and leaves no trace. -/
theorem records_freshTemp :
    Records n (ExceptT.lift Emit.freshTemp) fun t occs => n ≤ t.index ∧ occs = [] :=
  records_of_yields fun s hn =>
    ⟨_, [], _, yields_freshTemp s, Nat.le_succ_of_le hn, [], .nil, hn, rfl⟩

theorem records_freshLabel : Records n (ExceptT.lift Emit.freshLabel) fun _ occs => occs = [] :=
  records_of_yields fun s hn =>
    ⟨_, [], { s with labels := s.labels + 1 }, ⟨[], rfl⟩, hn, [], .nil, rfl⟩

theorem records_throw (e : Error) : Records n (throw e : Flatten α) P := by
  rintro s a code s' hn ⟨events, hrun⟩
  cases congrArg Emitted.value hrun

end Steps

/-- A move to a temporary of flat code shows only in the call that it may make. -/
theorem occurrences_move_fresh {t : Temp} (ht : n ≤ t.index) (r : Rhs) :
    (Action.move t r).occurrences n = r.occurrences := by
  rw [Action.occurrences, if_neg (Nat.not_lt.mpr ht), List.append_nil]

/-- A move to a temporary of the tree shows in its assignment, behind the call that it may make. -/
theorem occurrences_move {t : Temp} (ht : t.index < n) (r : Rhs) :
    (Action.move t r).occurrences n = r.occurrences ++ [.assign t] := by
  rw [Action.occurrences, if_pos ht]

/-- A move to a fresh temporary shows only in the call that it may make. -/
theorem reading_move_fresh {t : Temp} (ht : n ≤ t.index) (r : Rhs) :
    Reading n [.act (.move t r)] r.occurrences :=
  occurrences_move_fresh ht r ▸ reading_act n (.move t r)

theorem records_assignFresh (r : Rhs) :
    Records n (assignFresh r) fun _ occs => occs = r.occurrences :=
  records_of_yields fun s hn => ⟨_, _, _, yields_assignFresh r s, Nat.le_succ_of_le hn, _,
    reading_move_fresh (t := ⟨s.temps⟩) hn r, rfl⟩

/-- Naming a right-hand side records the call in it and nothing else. -/
theorem records_materialize (r : Rhs) :
    Records n (materialize r) fun _ occs => occs = r.occurrences := by
  by_cases hr : ∃ a, r = .atom a
  · obtain ⟨a, rfl⟩ := hr
    exact records_pure rfl
  · exact records_of_yields fun s hn =>
      ⟨_, _, _, yields_materialize (fun a ha => hr ⟨a, ha⟩) s, Nat.le_succ_of_le hn, _,
        reading_move_fresh (t := ⟨s.temps⟩) hn r, rfl⟩

theorem records_nameAtom (a : Atom) : Records n (nameAtom a) fun _ occs => occs = [] := by
  cases a with
  | temp t => exact records_pure rfl
  | _ => exact records_assignFresh _

-- ── Operands ─────────────────────────────────────────────────────────────────

/-- Code that was kept apart is read when it is emitted. -/
theorem records_capture {x : Flatten Atom} {occs : List Occurrence}
    (h : Records n x fun _ occs' => occs' = occs) :
    Records n (capture x) fun p occs' => Reading n p.code occs ∧ occs' = [] := by
  intro s p code s' hn hrun
  obtain ⟨hx, rfl⟩ := hrun.of_capture
  obtain ⟨hn', _, hread, rfl⟩ := h s p.atom p.code _ hn hx
  exact ⟨hn', [], .nil, hread, rfl⟩

/-- The copy of an operand does not show. -/
theorem records_protect {p : Part} {occs : List Occurrence} (hp : Reading n p.code occs)
    (later : List Temp) :
    Records n (p.protect later) fun p' occs' => Reading n p'.code occs ∧ occs' = [] := by
  obtain ⟨code, a⟩ := p
  cases a with
  | temp t =>
      rw [Part.protect]
      dsimp only
      split
      · refine records_freshTemp.bind_silent fun copy hcopy => records_pure ⟨?_, rfl⟩
        have h := hp.append (reading_move_fresh hcopy (.atom (.temp t)))
        rwa [show (Rhs.atom (.temp t)).occurrences = [] from rfl, List.append_nil] at h
      · exact records_pure ⟨hp, rfl⟩
  | _ => exact records_pure ⟨hp, rfl⟩

/-- The operands have been made from the expressions, one from each. -/
def ReadAs (n : Nat) : List Part → List Tree.Expr → Prop :=
  List.Forall₂ fun p e => Reading n p.code e.occurrences

/-- The code of operands, one behind the other, is read as the expressions from left to right. -/
theorem ReadAs.flatMap {ps : List Part} {es : List Tree.Expr} (h : ReadAs n ps es) :
    Reading n (ps.flatMap Part.code) (Tree.exprOccurrences es) := by
  induction h with
  | nil => exact .nil
  | cons hp _ ih => exact hp.append ih

/-- Copies of operands leave no trace in what the operands are read as. -/
theorem records_protectAll {ps : List Part} {es : List Tree.Expr} (h : ReadAs n ps es) :
    Records n (Part.protectAll ps) fun ps' occs => ReadAs n ps' es ∧ occs = [] := by
  induction h with
  | nil => exact records_pure ⟨.nil, rfl⟩
  | cons hp _ ih =>
      rw [Part.protectAll]
      refine ih.bind_silent fun ps' hps' => ?_
      refine (records_protect hp _).bind_silent fun p' hp' => ?_
      exact records_pure ⟨.cons hp' hps', rfl⟩

/-- Naming the arguments of a call leaves no trace. -/
theorem records_nameAtoms (ps : List Part) :
    Records n (ps.mapM fun p => nameAtom p.atom) fun ts occs =>
      ts.length = ps.length ∧ occs = [] := by
  induction ps with
  | nil =>
      rw [List.mapM_nil]
      exact records_pure ⟨rfl, rfl⟩
  | cons p ps ih =>
      rw [List.mapM_cons]
      refine (records_nameAtom p.atom).bind ?_
      rintro t _ rfl
      refine ih.bind_silent fun ts hts => ?_
      exact records_pure ⟨congrArg (· + 1) hts, rfl⟩

/-- Two operands, and what is left to do with them. -/
theorem records_operands {x y : Flatten Atom} {occs occs' : List Occurrence}
    (hx : Records n x fun _ o => o = occs) (hy : Records n y fun _ o => o = occs')
    {f : Atom → Atom → Flatten β} {Q : β → List Occurrence → Prop}
    (hf : ∀ a b, Records n (f a b) fun c o => Q c (occs ++ occs' ++ o)) :
    Records n (do
      let p ← capture x
      let q ← capture y
      let p ← p.protect q.defs
      emit (p.code ++ q.code)
      f p.atom q.atom) Q := by
  refine (records_capture hx).bind_silent fun p hp => ?_
  refine (records_capture hy).bind_silent fun q hq => ?_
  refine (records_protect hp q.defs).bind_silent fun p' hp' => ?_
  refine (records_emit (hp'.append hq)).bind ?_
  rintro _ _ rfl
  exact hf p'.atom q.atom

-- ── Trees ────────────────────────────────────────────────────────────────────

/-- What is left over of an expression comes last. -/
theorem Records.materialized {x : Flatten Rhs} {occs : List Occurrence}
    (h : Records n x fun r o => o ++ r.occurrences = occs) :
    Records n (x >>= materialize) fun _ o => o = occs := by
  refine h.bind ?_
  rintro r o rfl
  exact (records_materialize r).mono fun _ _ ho => congrArg (o ++ ·) ho

/-- An operation on one operand. -/
theorem Records.unary {x : Flatten Rhs} {occs : List Occurrence}
    (h : Records n x fun r o => o ++ r.occurrences = occs) {f : Atom → Rhs}
    (hf : ∀ a, (f a).occurrences = []) :
    Records n (do
      let r ← x
      let a ← materialize r
      return f a) fun r o => o ++ r.occurrences = occs := by
  have hatom : Records n ((x >>= materialize) >>= fun a => pure (f a)) fun r o =>
      o ++ r.occurrences = occs := by
    refine h.materialized.bind ?_
    rintro a _ rfl
    exact records_pure (by rw [hf, List.append_nil, List.append_nil])
  rwa [bind_assoc] at hatom

mutual

/-- An expression is read as it is evaluated, up to the operation that is left over. -/
theorem records_rhs (e : Tree.Expr) (he : ∀ t, .temp t ∈ e.leaves → t.index < n) :
    Records n (rhs e) fun r occs => occs ++ r.occurrences = e.occurrences := by
  cases e with
  | const value => exact records_pure rfl
  | temp t => exact records_pure rfl
  | name l => exact records_pure rfl
  | mem addr =>
      rw [rhs]
      exact (records_rhs addr he).unary fun _ => rfl
  | unop op x =>
      rw [rhs]
      exact (records_rhs x he).unary fun _ => rfl
  | binop op x y =>
      have hx := records_rhs x fun t ht => he t (List.mem_append_left _ ht)
      have hy := records_rhs y fun t ht => he t (List.mem_append_right _ ht)
      rw [rhs]
      refine records_operands (β := Rhs) hx.materialized hy.materialized
        (f := fun a b => pure (.binop op a b)) fun a b => records_pure ?_
      rw [List.append_nil]
      exact List.append_nil _
  | call f args =>
      rw [rhs]
      refine (records_parts args he).bind_silent fun ps hps => ?_
      refine (records_protectAll hps).bind_silent fun ps' hps' => ?_
      refine (records_emit hps'.flatMap).bind ?_
      rintro _ _ rfl
      refine (records_nameAtoms ps').bind_silent fun ts hts => records_pure ?_
      have hlength : ts.length = args.length := hts.trans hps'.length_eq
      rw [Rhs.occurrences, hlength, List.append_nil, Tree.Expr.occurrences]
  | seq st result =>
      rw [rhs]
      refine (records_stmt st fun t ht => he t (List.mem_append_left _ ht)).bind ?_
      rintro _ _ rfl
      refine (records_rhs result fun t ht => he t (List.mem_append_right _ ht)).mono ?_
      intro r occs hr
      rw [List.append_assoc, hr]
      rfl

/-- Each operand of a call is read as it is evaluated. -/
theorem records_parts (es : List Tree.Expr)
    (hes : ∀ t, .temp t ∈ Tree.exprLeaves es → t.index < n) :
    Records n (parts es) fun ps occs => ReadAs n ps es ∧ occs = [] := by
  cases es with
  | nil => exact records_pure ⟨.nil, rfl⟩
  | cons e es =>
      have he := records_rhs e fun t ht => hes t (List.mem_append_left _ ht)
      rw [parts]
      refine (records_capture he.materialized).bind_silent fun p hp => ?_
      refine (records_parts es fun t ht => hes t (List.mem_append_right _ ht)).bind_silent
        fun ps hps => ?_
      exact records_pure ⟨.cons hp hps, rfl⟩

/-- A statement is read as it is run. -/
theorem records_stmt (st : Tree.Stmt) (hst : ∀ t, .temp t ∈ st.leaves → t.index < n) :
    Records n (stmt st) fun _ occs => occs = st.occurrences := by
  cases st with
  | label l => exact records_emit (.label l .nil)
  | jump l => exact records_emit (.jump l .nil)
  | branch cond ifTrue ifFalse =>
      rw [stmt]
      refine (records_rhs cond hst).bind fun r occs hr => ?_
      refine (records_materialize r).bind ?_
      rintro a _ rfl
      refine (records_nameAtom a).bind ?_
      rintro t _ rfl
      refine records_freshLabel.bind ?_
      rintro neg _ rfl
      refine (records_emit (.branch t ifTrue neg ifFalse .nil)).mono ?_
      rintro _ _ rfl
      rw [← List.append_assoc, hr]
      rfl
  | move dst src =>
      cases dst with
      | temp dst =>
          have hdst : dst.index < n := hst dst List.mem_cons_self
          rw [stmt]
          refine (records_rhs src fun t ht => hst t (List.mem_cons_of_mem _ ht)).bind
            fun r occs hr => ?_
          refine (records_emit (reading_act n (.move dst r))).mono ?_
          rintro _ _ rfl
          rw [occurrences_move hdst, ← List.append_assoc, hr]
          rfl
      | mem addr =>
          have hsrc := records_rhs src fun t ht => hst t (List.mem_append_right _ ht)
          have haddr := records_rhs addr fun t ht => hst t (List.mem_append_left _ ht)
          rw [stmt]
          refine records_operands hsrc.materialized haddr.materialized
            (f := fun a b => emit [.act (.store b a)]) fun a b => ?_
          refine (records_emit (reading_act n (.store b a))).mono ?_
          rintro _ _ rfl
          rfl
      | _ => exact records_throw _
  | eval e =>
      rw [stmt]
      refine (records_rhs e hst).bind fun r occs hr => ?_
      rw [Tree.Stmt.occurrences, ← hr]
      -- only a call is left to be emitted, and nothing else counts as read
      cases r with
      | call f args =>
          exact (records_emit (reading_act n (.call f args))).mono fun _ _ ho =>
            congrArg (occs ++ ·) ho
      | _ => exact records_pure rfl
  | seq ss =>
      rw [stmt]
      exact records_stmts ss hst

/-- Statements are read as they are run, one after the other. -/
theorem records_stmts (ss : List Tree.Stmt)
    (hss : ∀ t, .temp t ∈ Tree.stmtLeaves ss → t.index < n) :
    Records n (stmts ss) fun _ occs => occs = Tree.stmtOccurrences ss := by
  cases ss with
  | nil => exact records_pure rfl
  | cons st ss =>
      rw [stmts]
      refine (records_stmt st fun t ht => hss t (List.mem_append_left _ ht)).bind ?_
      rintro _ _ rfl
      exact (records_stmts ss fun t ht => hss t (List.mem_append_right _ ht)).mono fun _ _ ho =>
        congrArg (st.occurrences ++ ·) ho

end

/-- **Flattening loses, duplicates and reorders nothing.** If a statement can be flattened with
    names that are not its own, the flat code is read as the statement is run: the same calls with
    the same numbers of arguments, stores, labels, jumps, branches and assignments to temporaries of
    the statement, in the same order. -/
theorem flatten_keeps_order (st : Tree.Stmt) (names : Supply)
    (htemps : ∀ t, .temp t ∈ st.leaves → t.index < names.temps)
    (hflat : ((stmt st).run.run names).value = .ok ()) :
    occurrences names.temps ((stmt st).run.run names).code = st.occurrences := by
  have hyields : Yields (stmt st) names () ((stmt st).run.run names).code
      ((stmt st).run.run names).supply := by
    refine ⟨((stmt st).run.run names).events, ?_⟩
    rw [← hflat]
  obtain ⟨-, _, hread, rfl⟩ := records_stmt st htemps names () _ _ (Nat.le_refl _) hyields
  exact hread.occurrences_eq

/-- A store whose value is a sum. Its first operand is assigned by the second one, which branches
    and jumps on its way. -/
def jumpingStore : Tree.Stmt :=
  .move (.mem (.call (.named "addr") []))
    (.binop .add (.temp ⟨0⟩) (.seq
      (.seq [.branch (.call (.named "test") [.temp ⟨0⟩, .const 1]) (.fresh 0) (.fresh 1),
        .label (.fresh 0), .move (.temp ⟨0⟩) (.call (.named "f") []), .jump (.fresh 1),
        .label (.fresh 1)])
      (.call (.named "g") [.temp ⟨0⟩])))

/-- The copy of the first operand, the temporaries of the calls and the label of the negative case
    do not show. -/
theorem flatten_keeps_order_jumping :
    ((stmt jumpingStore).run.run { temps := 1, labels := 2 }).value = .ok () ∧
      occurrences 1 ((stmt jumpingStore).run.run { temps := 1, labels := 2 }).code =
        [.call (.named "test") 2, .branch (.fresh 0) (.fresh 1), .label (.fresh 0),
          .call (.named "f") 0, .assign ⟨0⟩, .jump (.fresh 1), .label (.fresh 1),
          .call (.named "g") 1, .call (.named "addr") 0, .store] := by
  refine ⟨rfl, flatten_keeps_order jumpingStore { temps := 1, labels := 2 } ?_ rfl⟩
  intro t ht
  simp [jumpingStore, Tree.Stmt.leaves, Tree.Expr.leaves, Tree.exprLeaves, Tree.stmtLeaves] at ht
  simp [ht]

end Flat

end MmixBackend
