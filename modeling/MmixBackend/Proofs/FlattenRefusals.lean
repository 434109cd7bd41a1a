import MmixBackend.Flat.OfTree

/-!
# Which trees flattening refuses

Flattening a tree goes through unless some statement in it, at whatever depth, is a move into
something other than a temporary or a memory word. If there are such moves, it is refused for the
first of them in the order of evaluation.

* **`Tree.Stmt.statements`** — the statements of a tree in the order of evaluation, each before
  those inside it.
* **`Refuses`** — a step is refused for the first malformed move among some statements, and
  **`Refuses.bind`** one step after another.
* **`refuses_rhs`** and its companions — by induction on the tree.
* **`flatten_refuses_first_malformed`** — statements and expressions.
-/

namespace MmixBackend

-- ── The first of several reasons ─────────────────────────────────────────────

section First

variable {σ ε : Type} {reason? : σ → Option ε} {Reason : σ → ε → Prop} {xs : List σ} {e : ε}

/-- What is found first: nothing before it gives a reason. -/
theorem findSome?_eq_some_iff_first (h : ∀ x e, reason? x = some e ↔ Reason x e) :
    xs.findSome? reason? = some e ↔ ∃ front x back, xs = front ++ x :: back ∧
      (∀ y ∈ front, ∀ e', ¬ Reason y e') ∧ Reason x e := by
  have hnone : ∀ y, reason? y = none ↔ ∀ e', ¬ Reason y e' := by
    intro y
    rw [Option.eq_none_iff_forall_not_mem]
    exact forall_congr' fun e' => not_congr (h y e')
  rw [List.findSome?_eq_some_iff]
  refine exists_congr fun front => exists_congr fun x => exists_congr fun back => ?_
  rw [h, and_comm (a := Reason x e)]
  simp only [hnone]

/-- Something is found exactly if there is a reason anywhere. -/
theorem exists_findSome?_iff (h : ∀ x e, reason? x = some e ↔ Reason x e) :
    (∃ e, xs.findSome? reason? = some e) ↔ ∃ x ∈ xs, ∃ e, Reason x e := by
  rw [← Option.isSome_iff_exists, List.findSome?_isSome_iff]
  simp only [Option.isSome_iff_exists, h]

end First

-- ── The statements of a tree ─────────────────────────────────────────────────

namespace Tree

mutual

/-- The statements in an expression, in the order of evaluation. -/
def Expr.statements : Expr → List Stmt
  | .const _ => []
  | .temp _ => []
  | .name _ => []
  | .mem addr => addr.statements
  | .binop _ x y => x.statements ++ y.statements
  | .unop _ x => x.statements
  | .call _ args => exprStatements args
  | .seq s result => s.statements ++ result.statements

/-- A statement and those inside it, in the order of evaluation. The source of a move is evaluated
    before the address in its destination. -/
def Stmt.statements : Stmt → List Stmt
  | .label l => [.label l]
  | .jump l => [.jump l]
  | .branch cond ifTrue ifFalse => .branch cond ifTrue ifFalse :: cond.statements
  | .move dst src => .move dst src :: (src.statements ++ dst.statements)
  | .eval e => .eval e :: e.statements
  | .seq ss => .seq ss :: stmtStatements ss

/-- The statements in the expressions of a list. -/
def exprStatements : List Expr → List Stmt
  | [] => []
  | e :: es => e.statements ++ exprStatements es

/-- The statements of a list and those inside them. -/
def stmtStatements : List Stmt → List Stmt
  | [] => []
  | s :: ss => s.statements ++ stmtStatements ss

end

namespace Stmt

/-- The statement is a move into `dst`, which is neither a temporary nor a memory word. -/
def Malformed (st : Stmt) (dst : Expr) : Prop :=
  (∃ src, st = .move dst src) ∧ (∀ t, dst ≠ .temp t) ∧ ∀ addr, dst ≠ .mem addr

/-- The destination of a malformed move. -/
def badDestination? : Stmt → Option Expr
  | .move (.temp _) _ => none
  | .move (.mem _) _ => none
  | .move dst _ => some dst
  | _ => none

theorem badDestination?_move {dst : Expr} (htemp : ∀ t, dst ≠ .temp t)
    (hmem : ∀ addr, dst ≠ .mem addr) (src : Expr) :
    badDestination? (.move dst src) = some dst := by
  cases dst with
  | temp t => exact absurd rfl (htemp t)
  | mem addr => exact absurd rfl (hmem addr)
  | _ => rfl

/-- A bad destination is found exactly in a malformed move. -/
theorem badDestination?_eq_some {st : Stmt} {dst : Expr} :
    st.badDestination? = some dst ↔ st.Malformed dst := by
  constructor
  · intro h
    cases st with
    | move d src =>
        cases d with
        | temp t => cases h
        | mem addr => cases h
        | _ =>
            obtain rfl := Option.some.inj h
            exact ⟨⟨src, rfl⟩, by simp, by simp⟩
    | _ => cases h
  · rintro ⟨⟨src, rfl⟩, htemp, hmem⟩
    exact badDestination?_move htemp hmem src

end Stmt

end Tree

-- ── Steps ────────────────────────────────────────────────────────────────────

/-- What a step was refused for, if it was. -/
def refusal? {α : Type} : Except Error α → Option Error
  | .error e => some e
  | .ok _ => none

/-- A step was refused for an error exactly if it ended with it. -/
theorem refusal?_eq_some {α : Type} {r : Except Error α} {e : Error} :
    refusal? r = some e ↔ r = .error e := by
  cases r <;> simp [refusal?]

/-- What is made of a result does not matter to a refusal. -/
theorem refusal?_map {α β : Type} (r : Except Error α) (g : α → β) :
    refusal? (r.map g) = refusal? r := by
  cases r <;> rfl

namespace Flat

variable {ω α β : Type} {sts sts' : List Tree.Stmt}

/-- From every supply, the step is refused for the first malformed move among the statements, and it
    goes through if there is none. -/
def Refuses (x : ExceptT Error (Emit ω) α) (sts : List Tree.Stmt) : Prop :=
  ∀ s, refusal? (x.run.run s).value =
    (sts.findSome? Tree.Stmt.badDestination?).map Error.badDestination

theorem refuses_pure (a : α) : Refuses (pure a : ExceptT Error (Emit ω) α) [] := fun _ => rfl

theorem refuses_lift (x : Emit ω α) : Refuses (ExceptT.lift x) [] := by
  intro s
  rw [ExceptT.run_lift, Emit.run_map]
  rfl

/-- The first malformed move of two steps is that of the first step, if it has one. -/
theorem Refuses.bind {x : ExceptT Error (Emit ω) α} {f : α → ExceptT Error (Emit ω) β}
    (hx : Refuses x sts) (hf : ∀ a, Refuses (f a) sts') : Refuses (x >>= f) (sts ++ sts') := by
  intro s
  have hfirst := hx s
  rw [Emit.run_bind_except, List.findSome?_append]
  cases hvalue : (x.run.run s).value with
  | error e =>
      -- the first step is refused, so the second one does not matter
      rw [hvalue] at hfirst
      obtain ⟨dst, hdst, rfl⟩ := Option.map_eq_some_iff.mp hfirst.symm
      rw [hdst]
      rfl
  | ok a =>
      rw [hvalue] at hfirst
      rw [Option.map_eq_none_iff.mp hfirst.symm]
      exact hf a _

/-- What follows is never refused. -/
theorem Refuses.andThen {x : ExceptT Error (Emit ω) α} {f : α → ExceptT Error (Emit ω) β}
    (hx : Refuses x sts) (hf : ∀ a, Refuses (f a) []) : Refuses (x >>= f) sts := by
  have h := hx.bind hf
  rwa [List.append_nil] at h

/-- The statement around the others is no malformed move. -/
theorem Refuses.inside {x : ExceptT Error (Emit ω) α} {st : Tree.Stmt} (h : Refuses x sts)
    (hst : st.badDestination? = none) : Refuses x (st :: sts) := by
  intro s
  rw [List.findSome?_cons_of_isNone, h s]
  rw [hst]
  rfl

/-- A malformed move is refused before anything inside it. -/
theorem refuses_throw {dst src : Tree.Expr}
    (h : (Tree.Stmt.move dst src).badDestination? = some dst) (sts : List Tree.Stmt) :
    Refuses (throw (.badDestination dst) : ExceptT Error (Emit ω) α) (.move dst src :: sts) := by
  intro s
  rw [List.findSome?_cons, h]
  rfl

/-- A step is refused for nothing but a malformed move. -/
theorem Refuses.eq_badDestination {x : ExceptT Error (Emit ω) α} {s : Supply} {e : Error}
    (h : Refuses x sts) (he : (x.run.run s).value = .error e) : ∃ dst, e = .badDestination dst := by
  have hfirst := h s
  rw [he] at hfirst
  obtain ⟨dst, -, hdst⟩ := Option.map_eq_some_iff.mp hfirst.symm
  exact ⟨dst, hdst.symm⟩

/-- A walk over a list of steps that are never refused is never refused. -/
theorem refuses_mapM {f : α → ExceptT Error (Emit ω) β} (hf : ∀ a, Refuses (f a) [])
    (as : List α) : Refuses (as.mapM f) [] := by
  induction as with
  | nil => exact refuses_pure []
  | cons a as ih =>
      rw [List.mapM_cons]
      exact (hf a).andThen fun b => ih.andThen fun bs => refuses_pure (b :: bs)

/-- Keeping code apart makes no difference to a refusal. -/
theorem refuses_capture {x : Flatten Atom} (h : Refuses x sts) : Refuses (capture x) sts := by
  intro s
  have hvalue : ((capture x).run.run s).value =
      (x.run.run s).value.map (Part.mk (x.run.run s).code) := rfl
  rw [hvalue, refusal?_map]
  exact h s

-- ── Operands ─────────────────────────────────────────────────────────────────

theorem refuses_emit (code : List Stmt) : Refuses (emit code) [] := refuses_lift _

theorem refuses_assignFresh (r : Rhs) : Refuses (assignFresh r) [] :=
  (refuses_lift _).andThen fun t => (refuses_emit _).andThen fun _ => refuses_pure t

theorem refuses_materialize (r : Rhs) : Refuses (materialize r) [] := by
  have hfresh : Refuses (do
      let t ← ExceptT.lift Emit.freshTemp
      ExceptT.lift (Emit.report (.materialized r t))
      emit [.act (.move t r)]
      return .temp t : Flatten Atom) [] :=
    (refuses_lift _).andThen fun t => (refuses_lift _).andThen fun _ =>
      (refuses_emit _).andThen fun _ => refuses_pure _
  cases r with
  | atom a => exact refuses_pure a
  | _ => exact hfresh

/-- Naming the value of an expression is never refused, so only the expression counts. -/
theorem refuses_materialized {x : Flatten Rhs} (h : Refuses x sts) :
    Refuses (x >>= materialize) sts := h.andThen refuses_materialize

theorem refuses_nameAtom (a : Atom) : Refuses (nameAtom a) [] := by
  cases a with
  | temp t => exact refuses_pure t
  | _ => exact refuses_assignFresh _

theorem refuses_protect (later : List Temp) (p : Part) : Refuses (p.protect later) [] := by
  rw [Part.protect]
  split
  · split
    · exact (refuses_lift _).andThen fun copy => refuses_pure _
    · exact refuses_pure p
  · exact refuses_pure p

theorem refuses_protectAll (ps : List Part) : Refuses (Part.protectAll ps) [] := by
  induction ps with
  | nil => exact refuses_pure []
  | cons p ps ih =>
      exact ih.andThen fun ps' => (refuses_protect _ p).andThen fun p' => refuses_pure _

/-- Both operands, the first one first, and what is made of them. -/
theorem refuses_operands {x y : Flatten Atom} (hx : Refuses x sts) (hy : Refuses y sts')
    (f : Atom → Atom → Flatten α) (hf : ∀ a b, Refuses (f a b) []) :
    Refuses (do
      let x ← capture x
      let y ← capture y
      let x ← x.protect y.defs
      emit (x.code ++ y.code)
      f x.atom y.atom) (sts ++ sts') :=
  (refuses_capture hx).bind fun _ => (refuses_capture hy).andThen fun _ =>
    (refuses_protect _ _).andThen fun _ => (refuses_emit _).andThen fun _ => hf _ _

-- ── Trees ────────────────────────────────────────────────────────────────────

mutual

/-- An expression is refused for the first malformed move in it. By induction on the tree, with
    operands and statements. -/
theorem refuses_rhs (e : Tree.Expr) : Refuses (rhs e) e.statements := by
  cases e with
  | const value => exact refuses_pure (Rhs.atom (.const value))
  | temp t => exact refuses_pure (Rhs.atom (.temp t))
  | name l => exact refuses_pure (Rhs.atom (.name l))
  | mem addr =>
      rw [rhs]
      exact (refuses_rhs addr).andThen fun r => (refuses_materialize r).andThen fun a =>
        refuses_pure (Rhs.load a)
  | binop op x y =>
      have hx := refuses_materialized (refuses_rhs x)
      have hy := refuses_materialized (refuses_rhs y)
      rw [rhs]
      exact refuses_operands (α := Rhs) hx hy (fun a b => pure (.binop op a b))
        fun a b => refuses_pure (Rhs.binop op a b)
  | unop op x =>
      rw [rhs]
      exact (refuses_rhs x).andThen fun r => (refuses_materialize r).andThen fun a =>
        refuses_pure (Rhs.unop op a)
  | call f args =>
      rw [rhs]
      exact (refuses_parts args).andThen fun ps => (refuses_protectAll ps).andThen fun ps' =>
        (refuses_emit _).andThen fun _ =>
          (refuses_mapM (fun p => refuses_nameAtom p.atom) ps').andThen fun ts =>
            refuses_pure (Rhs.call f ts)
  | seq st result =>
      rw [rhs]
      exact (refuses_stmt st).bind fun _ => refuses_rhs result

/-- Operands are refused for the first malformed move in them, from left to right. -/
theorem refuses_parts (es : List Tree.Expr) : Refuses (parts es) (Tree.exprStatements es) := by
  cases es with
  | nil => exact refuses_pure []
  | cons e es =>
      have he := refuses_capture (refuses_materialized (refuses_rhs e))
      rw [parts]
      exact he.bind fun p => (refuses_parts es).andThen fun ps => refuses_pure (p :: ps)

/-- A statement is refused for the first malformed move in it, itself included. -/
theorem refuses_stmt (st : Tree.Stmt) : Refuses (stmt st) st.statements := by
  cases st with
  | label l => exact (refuses_emit _).inside rfl
  | jump l => exact (refuses_emit _).inside rfl
  | branch cond ifTrue ifFalse =>
      rw [stmt]
      refine Refuses.inside ?_ rfl
      exact (refuses_rhs cond).andThen fun r => (refuses_materialize r).andThen fun a =>
        (refuses_nameAtom a).andThen fun t => (refuses_lift _).andThen fun neg =>
          refuses_emit _
  | move dst src =>
      cases dst with
      | temp t =>
          have hsrc : Refuses (rhs src) (src.statements ++ []) := by
            rw [List.append_nil]
            exact refuses_rhs src
          rw [stmt]
          exact (hsrc.andThen fun r => refuses_emit _).inside rfl
      | mem addr =>
          have hsrc := refuses_materialized (refuses_rhs src)
          have haddr := refuses_materialized (refuses_rhs addr)
          rw [stmt]
          exact (refuses_operands hsrc haddr (fun a b => emit [.act (.store b a)])
            fun a b => refuses_emit _).inside rfl
      | _ => exact refuses_throw rfl _
  | eval e =>
      rw [stmt]
      refine Refuses.inside ((refuses_rhs e).andThen fun r => ?_) rfl
      cases r with
      | call f args => exact refuses_emit _
      | _ => exact refuses_pure ()
  | seq ss =>
      rw [stmt]
      exact (refuses_stmts ss).inside rfl

/-- Statements are refused for the first malformed move in them. -/
theorem refuses_stmts (ss : List Tree.Stmt) : Refuses (stmts ss) (Tree.stmtStatements ss) := by
  cases ss with
  | nil => exact refuses_pure ()
  | cons st ss =>
      rw [stmts]
      exact (refuses_stmt st).bind fun _ => refuses_stmts ss

end

/-- The flat form of a function with the flat form of its body. -/
def Function.around (f : Tree.Function) (s : Supply) (code : List Stmt) : Function where
  frame := f.frame
  stmts := .label (.fresh s.labels) :: code ++ [.transfer (.jump (.fresh (s.labels + 1)))]
  entry := .fresh s.labels
  exit := .fresh (s.labels + 1)

/-- Flattening a function is flattening its body when two labels have been taken. -/
theorem run_ofTree (f : Tree.Function) (s : Supply) :
    (Function.ofTree f : ExceptT Error (Emit ω) Function).run.run s =
      ⟨((stmt f.body).run.run (s.skip 0 2)).value.map fun _ =>
          .around f s ((stmt f.body).run.run (s.skip 0 2)).code,
        [], ((stmt f.body).run.run (s.skip 0 2)).events,
        ((stmt f.body).run.run (s.skip 0 2)).supply⟩ := by
  have hrun : (Function.ofTree f : ExceptT Error (Emit ω) Function).run.run s =
      Emit.run (ExceptT.run (ExceptT.lift (Emit.collect (stmt f.body).run) >>= _))
        (s.skip 0 2) := rfl
  rw [hrun, Emit.run_bind_except, ExceptT.run_lift, Emit.run_map, Emit.run_collect]
  dsimp only
  cases ((stmt f.body).run.run (s.skip 0 2)).value with
  | error e => exact congrArg (Emitted.mk _ _ · _) (List.append_nil _)
  | ok _ => exact congrArg (Emitted.mk _ _ · _) (List.append_nil _)

/-- A function is refused as its body is. -/
theorem refuses_ofTree (f : Tree.Function) :
    Refuses (Function.ofTree f : ExceptT Error (Emit ω) Function) f.body.statements := by
  intro s
  rw [run_ofTree, refusal?_map]
  exact refuses_stmt f.body _

-- ── All of it ────────────────────────────────────────────────────────────────

/-- What comes of flattening a tree with these statements, when code has been emitted before. -/
structure Verdict (sts : List Tree.Stmt) (before : List Stmt) (r : Emitted Stmt (Except Error α)) :
    Prop where
  /-- It is refused exactly if one of the statements is a malformed move. -/
  refused_iff : (∃ e, r.value = .error e) ↔ ∃ st ∈ sts, ∃ dst, st.Malformed dst
  /-- The first malformed move is what it is refused for, and its destination is quoted. -/
  first : ∀ e, r.value = .error e ↔ ∃ front move back dst, sts = front ++ move :: back ∧
    (∀ st ∈ front, ∀ d, ¬ st.Malformed d) ∧ move.Malformed dst ∧ e = .badDestination dst ∧
      e.message = "malformed IR: cannot assign to \x60" ++ dst.text ++ "\x60"
  /-- What was emitted before is still there, in front. -/
  kept : before <+: r.code

/-- What a step that refuses its statements comes to, behind code that was emitted before. -/
theorem Refuses.verdict {x : Flatten α} (h : Refuses x sts) (before : List Stmt) (names : Supply) :
    Verdict sts before ((do emit before; x : Flatten α).run.run names) := by
  have hx : Refuses (do emit before; x : Flatten α) sts := (refuses_emit before).bind fun _ => h
  have hfirst : ∀ e, ((do emit before; x : Flatten α).run.run names).value = .error e ↔
      ∃ dst, sts.findSome? Tree.Stmt.badDestination? = some dst ∧ .badDestination dst = e := by
    intro e
    rw [← refusal?_eq_some, hx names, Option.map_eq_some_iff]
  have hmalformed : ∀ (st : Tree.Stmt) (dst : Tree.Expr),
      st.badDestination? = some dst ↔ st.Malformed dst :=
    fun st dst => Tree.Stmt.badDestination?_eq_some
  refine ⟨?_, ?_, ?_⟩
  · rw [← exists_findSome?_iff hmalformed]
    constructor
    · rintro ⟨e, he⟩
      obtain ⟨dst, hdst, -⟩ := (hfirst e).mp he
      exact ⟨dst, hdst⟩
    · rintro ⟨dst, hdst⟩
      exact ⟨_, (hfirst _).mpr ⟨dst, hdst, rfl⟩⟩
  · intro e
    rw [hfirst]
    constructor
    · rintro ⟨dst, hdst, rfl⟩
      obtain ⟨front, move, back, hsts, hfront, hmove⟩ :=
        (findSome?_eq_some_iff_first hmalformed).mp hdst
      exact ⟨front, move, back, dst, hsts, hfront, hmove, rfl, rfl⟩
    · rintro ⟨front, move, back, dst, hsts, hfront, hmove, rfl, -⟩
      exact ⟨dst, (findSome?_eq_some_iff_first hmalformed).mpr
        ⟨front, move, back, hsts, hfront, hmove⟩, rfl⟩
  · have hemit : (emit before).run.run names = ⟨.ok (), before, [], names⟩ := by
      rw [emit, ExceptT.run_lift, Emit.run_map, Emit.run_write]
    rw [Emit.run_bind_except, hemit]
    exact List.prefix_append before _

/-- **Flattening refuses exactly the malformed trees.** Statement or expression, a tree is refused
    exactly if it has, at whatever depth, a move into something other than a temporary or a memory
    word. The refusal quotes the destination of the first one in the order of evaluation, where a
    move comes before what is inside it, and the source of a store before its address. Refused or
    not, the code that was emitted before stays in front of what is emitted now. -/
theorem flatten_refuses_first_malformed (st : Tree.Stmt) (e : Tree.Expr) (before : List Stmt)
    (names : Supply) :
    Verdict st.statements before ((do emit before; stmt st : Flatten Unit).run.run names) ∧
      Verdict e.statements before ((do emit before; expr e : Flatten Atom).run.run names) :=
  ⟨(refuses_stmt st).verdict before names,
    (refuses_materialized (refuses_rhs e)).verdict before names⟩

/-- A store with a malformed move in its source and another one in its address. -/
def doubtfulStore : Tree.Stmt :=
  .move (.mem (.seq (.move (.const 1) (.const 2)) (.temp ⟨0⟩)))
    (.seq (.move (.binop .add (.temp ⟨1⟩) (.const 3)) (.const 4)) (.const 5))

/-- The store itself is well-formed, and its source comes first. -/
theorem flatten_refuses_first_malformed_store :
    ((do emit [.label (.fresh 0)]; stmt doubtfulStore : Flatten Unit).run.run {}).value =
      .error (.badDestination (.binop .add (.temp ⟨1⟩) (.const 3))) := by
  obtain ⟨hverdict, -⟩ :=
    flatten_refuses_first_malformed doubtfulStore (.const 0) [.label (.fresh 0)] {}
  refine (hverdict.first _).mpr ⟨[doubtfulStore], .move (.binop .add (.temp ⟨1⟩) (.const 3))
    (.const 4), [.move (.const 1) (.const 2)], _, rfl, ?_, ⟨⟨_, rfl⟩, by simp, by simp⟩, rfl, rfl⟩
  rw [List.forall_mem_singleton]
  rintro d ⟨⟨src, heq⟩, -, hmem⟩
  obtain ⟨rfl, -⟩ := Tree.Stmt.move.inj heq
  exact hmem _ rfl

end Flat

end MmixBackend
