import MmixBackend.Proofs.FlattenRefusals
import MmixBackend.Proofs.LoweredShape

/-!
# Where lowering fails

Only two things in a source tree can go wrong: a variable may have no place, and the frame that a
variable lives in or that a call passes on may be one that the function cannot see. Lowering goes
through the tree in a fixed order and fails at the first such *mention*, whatever the context is.

* **`Command.mentions`** — variables and calls in the order in which lowering comes to them.
* **`Scope.Unresolved`** — what is wrong with a mention.
* **`FailsAt.bind`** — one step of lowering after another.
* **`failsAt_addr`**, **`failsAt_command`** and their companions — by induction on the source.
* **`lowering_fails_at_first_unresolved`** — whole functions, and that what was lowered can be
  flattened.
-/

namespace MmixBackend

namespace Source

-- ── What a source tree mentions ──────────────────────────────────────────────

/-- Something in a source tree that has to be resolved. -/
inductive Mention where
  | var (name : String)
  /-- A call of a function declared at `depth`. -/
  | call (depth : Nat)
  deriving DecidableEq, Repr

mutual

/-- The mentions in a place: an array before the index. -/
def Place.mentions : Place → List Mention
  | .var name => [.var name]
  | .index array index _ => array.mentions ++ index.mentions
  | .field record _ => record.mentions
  | .deref ptr => ptr.mentions

/-- The mentions in an operand: a call before its arguments. -/
def Operand.mentions : Operand → List Mention
  | .int _ => []
  | .str _ => []
  | .read place => place.mentions
  | .addrOf place => place.mentions
  | .binop _ x y => x.mentions ++ y.mentions
  | .unop _ x => x.mentions
  | .call _ depth args => .call depth :: operandMentions args

/-- The mentions in operands, from left to right. -/
def operandMentions : List Operand → List Mention
  | [] => []
  | x :: xs => x.mentions ++ operandMentions xs

end

mutual

/-- The mentions in a command: a place before what is assigned to it, a condition before what
    depends on it, the first branch before the second. -/
def Command.mentions : Command → List Mention
  | .assign place src => place.mentions ++ src.mentions
  | .eval x => x.mentions
  | .cond cond thenCmds elseCmds =>
    cond.mentions ++ (commandMentions thenCmds ++ commandMentions elseCmds)
  | .loop cond body => cond.mentions ++ commandMentions body

/-- The mentions in commands, one after the other. -/
def commandMentions : List Command → List Mention
  | [] => []
  | c :: cs => c.mentions ++ commandMentions cs

end

namespace Scope

variable {scope : Scope} {m : Mention} {e : Error}

/-- The mention cannot be resolved in the scope, and the error says why. The static link that a
    call passes on is the frame around the callee, which lies one level further out. -/
inductive Unresolved (scope : Scope) : Mention → Error → Prop where
  | missing {name : String} (h : scope.accesses[name]? = none) :
      Unresolved scope (.var name) (.missingAccess name)
  | hiddenPlace {name : String} {offset : Word} {depth : Nat}
      (h : scope.accesses[name]? = some (.relative offset depth))
      (hdepth : scope.frame.depth < depth) :
      Unresolved scope (.var name) (.hiddenFrame scope.frame.label scope.frame.depth depth)
  | hiddenLink {depth : Nat} (hdepth : scope.frame.depth < depth - 1) :
      Unresolved scope (.call depth)
        (.hiddenFrame scope.frame.label scope.frame.depth (depth - 1))

/-- What is wrong with a mention, if something is. -/
def fault? (scope : Scope) : Mention → Option Error
  | .var name => refusal? (scope.varAddr name)
  | .call depth => refusal? (scope.frameAt (depth - 1))

/-- A frame is refused exactly if it lies deeper than the function. -/
theorem refusal?_frameAt {depth : Nat} :
    refusal? (scope.frameAt depth) = some e ↔ scope.frame.depth < depth ∧
      e = .hiddenFrame scope.frame.label scope.frame.depth depth := by
  rw [frameAt]
  split
  · next hle => simp [refusal?, Nat.not_lt.mpr hle]
  · next hlt => simp [refusal?, Nat.lt_of_not_le hlt, eq_comm]

/-- A variable in a frame is refused as the frame is. -/
theorem refusal?_varAddr_relative {name : String} {offset : Word} {depth : Nat}
    (h : scope.accesses[name]? = some (.relative offset depth)) :
    refusal? (scope.varAddr name) = refusal? (scope.frameAt depth) := by
  rw [varAddr, h]
  dsimp only
  cases scope.frameAt depth with
  | error e => rfl
  | ok base => rfl

/-- A fault is found in a mention exactly if it cannot be resolved. -/
theorem fault?_eq_some : scope.fault? m = some e ↔ scope.Unresolved m e := by
  constructor
  · intro h
    cases m with
    | var name =>
        replace h : refusal? (scope.varAddr name) = some e := h
        cases haccess : scope.accesses[name]? with
        | none =>
            rw [varAddr, haccess] at h
            obtain rfl := Option.some.inj h
            exact .missing haccess
        | some access =>
            cases access with
            | absolute l =>
                rw [varAddr, haccess] at h
                cases h
            | relative offset depth =>
                rw [refusal?_varAddr_relative haccess] at h
                obtain ⟨hdepth, rfl⟩ := refusal?_frameAt.mp h
                exact .hiddenPlace haccess hdepth
    | call depth =>
        obtain ⟨hdepth, rfl⟩ := refusal?_frameAt.mp h
        exact .hiddenLink hdepth
  · intro h
    cases h with
    | missing haccess =>
        rw [fault?, varAddr, haccess]
        rfl
    | hiddenPlace haccess hdepth =>
        rw [fault?, refusal?_varAddr_relative haccess]
        exact refusal?_frameAt.mpr ⟨hdepth, rfl⟩
    | hiddenLink hdepth => exact refusal?_frameAt.mpr ⟨hdepth, rfl⟩

/-- An error is about a variable without a place, or it says that a frame further in cannot be
    seen. -/
theorem Unresolved.message (h : scope.Unresolved m e) :
    (∃ name, m = .var name ∧ scope.accesses[name]? = none ∧ e = .missingAccess name) ∨
      ∃ target, scope.frame.depth < target ∧
        e.message = "malformed IR: " ++ scope.frame.label.text ++ " at depth " ++
          toString scope.frame.depth ++ " cannot see a frame at depth " ++ toString target := by
  cases h with
  | missing haccess => exact .inl ⟨_, rfl, haccess, rfl⟩
  | hiddenPlace _ hdepth => exact .inr ⟨_, hdepth, rfl⟩
  | hiddenLink hdepth => exact .inr ⟨_, hdepth, rfl⟩

end Scope

-- ── Steps ────────────────────────────────────────────────────────────────────

variable {α β : Type} {scope : Scope} {ms ms' : List Mention}

/-- From every context, the step fails at the first of the mentions that cannot be resolved, and it
    succeeds if there is none. -/
def FailsAt (scope : Scope) (x : Lower α) (ms : List Mention) : Prop :=
  ∀ c, refusal? (x.run.run c).1 = ms.findSome? scope.fault?

theorem failsAt_pure (a : α) : FailsAt scope (pure a) [] := fun _ => rfl

theorem failsAt_freshLabel : FailsAt scope freshLabel [] := fun _ => rfl

theorem failsAt_internString (text : String) : FailsAt scope (internString text) [] := fun _ => rfl

/-- Two steps fail at the first bad mention of the first step, or else of the second. -/
theorem FailsAt.bind {x : Lower α} {f : α → Lower β} (hx : FailsAt scope x ms)
    (hf : ∀ a, FailsAt scope (f a) ms') : FailsAt scope (x >>= f) (ms ++ ms') := by
  intro c
  have hfirst := hx c
  rw [run_bind_state, List.findSome?_append]
  rcases hrun : (x.run.run c : Except Error α × Context) with ⟨e | a, c₁⟩
  · rw [hrun] at hfirst
    rw [← hfirst]
    rfl
  · rw [hrun] at hfirst
    rw [← hfirst]
    exact hf a c₁

/-- What follows never fails. -/
theorem FailsAt.andThen {x : Lower α} {f : α → Lower β} (hx : FailsAt scope x ms)
    (hf : ∀ a, FailsAt scope (f a) []) : FailsAt scope (x >>= f) ms := by
  have h := hx.bind hf
  rwa [List.append_nil] at h

-- ── Places and operands ──────────────────────────────────────────────────────

theorem findSome?_single (m : Mention) : [m].findSome? scope.fault? = scope.fault? m := by
  rw [List.findSome?_cons]
  cases scope.fault? m <;> rfl

/-- Finding a variable fails where its mention cannot be resolved. -/
theorem failsAt_varAddr (name : String) :
    FailsAt scope (ExceptT.mk (pure (scope.varAddr name))) [.var name] :=
  fun _ => (findSome?_single (.var name)).symm

/-- Finding a static link fails where the call cannot be resolved. -/
theorem failsAt_link (depth : Nat) :
    FailsAt scope (ExceptT.mk (pure (scope.frameAt (depth - 1)))) [.call depth] :=
  fun _ => (findSome?_single (.call depth)).symm

mutual

/-- A place fails at the first bad mention in it. By induction on the source, with operands. -/
theorem failsAt_addr (place : Place) : FailsAt scope (addr scope place) place.mentions := by
  cases place with
  | var name =>
      rw [addr]
      exact failsAt_varAddr name
  | index array index elemSize =>
      rw [addr]
      exact (failsAt_addr array).bind fun base => (failsAt_value index).andThen fun i =>
        failsAt_pure _
  | field record offset =>
      rw [addr]
      exact (failsAt_addr record).andThen fun base => failsAt_pure _
  | deref ptr =>
      rw [addr]
      exact failsAt_value ptr

/-- An operand fails at the first bad mention in it, a call before its arguments. -/
theorem failsAt_value (x : Operand) : FailsAt scope (value scope x) x.mentions := by
  cases x with
  | int v =>
      rw [value]
      exact failsAt_pure _
  | str text =>
      rw [value]
      exact (failsAt_internString text).andThen fun l => failsAt_pure _
  | read place =>
      rw [value]
      exact (failsAt_addr place).andThen fun a => failsAt_pure _
  | addrOf place =>
      rw [value]
      exact failsAt_addr place
  | binop op x y =>
      rw [value]
      exact (failsAt_value x).bind fun a => (failsAt_value y).andThen fun b => failsAt_pure _
  | unop op x =>
      rw [value]
      exact (failsAt_value x).andThen fun a => failsAt_pure _
  | call f depth args =>
      rw [value]
      exact (failsAt_link depth).bind fun link => (failsAt_values args).andThen fun es =>
        failsAt_pure _

/-- Operands fail at the first bad mention in them, from left to right. -/
theorem failsAt_values (xs : List Operand) :
    FailsAt scope (values scope xs) (operandMentions xs) := by
  cases xs with
  | nil =>
      rw [values]
      exact failsAt_pure _
  | cons x xs =>
      rw [values]
      exact (failsAt_value x).bind fun e => (failsAt_values xs).andThen fun es => failsAt_pure _

end

-- ── Commands ─────────────────────────────────────────────────────────────────

/-- Three labels are taken on the way, which never fails. -/
theorem failsAt_labels {f : Label → Label → Label → Lower α}
    (h : ∀ l₁ l₂ l₃, FailsAt scope (f l₁ l₂ l₃) ms) :
    FailsAt scope (do
      let l₁ ← freshLabel
      let l₂ ← freshLabel
      let l₃ ← freshLabel
      f l₁ l₂ l₃) ms :=
  failsAt_freshLabel.bind fun l₁ => failsAt_freshLabel.bind fun l₂ =>
    failsAt_freshLabel.bind fun l₃ => h l₁ l₂ l₃

mutual

/-- A command fails at the first bad mention in it, a place before what is assigned to it. -/
theorem failsAt_command (cmd : Command) : FailsAt scope (command scope cmd) cmd.mentions := by
  cases cmd with
  | assign place src =>
      rw [command]
      exact (failsAt_addr place).bind fun dst => (failsAt_value src).andThen fun e =>
        failsAt_pure _
  | eval x =>
      rw [command]
      exact (failsAt_value x).andThen fun e => failsAt_pure _
  | cond cond thenCmds elseCmds =>
      rw [command]
      exact (failsAt_value cond).bind fun e => failsAt_labels fun thenLabel elseLabel endLabel =>
        (failsAt_commands thenCmds).bind fun thenStmts =>
          (failsAt_commands elseCmds).andThen fun elseStmts => failsAt_pure _
  | loop cond body =>
      rw [command]
      exact (failsAt_value cond).bind fun e => failsAt_labels fun condLabel bodyLabel endLabel =>
        (failsAt_commands body).andThen fun bodyStmts => failsAt_pure _

/-- Commands fail at the first bad mention in them, one after the other. -/
theorem failsAt_commands (cmds : List Command) :
    FailsAt scope (commands scope cmds) (commandMentions cmds) := by
  cases cmds with
  | nil =>
      rw [commands]
      exact failsAt_pure _
  | cons cmd cmds =>
      rw [commands]
      exact (failsAt_command cmd).bind fun st => (failsAt_commands cmds).andThen fun sts =>
        failsAt_pure _

end

/-- A function fails at the first bad mention in its body or else in its result. -/
theorem failsAt_function (body : List Command) (result : Operand) :
    FailsAt scope (function scope body result) (commandMentions body ++ result.mentions) := by
  rw [function]
  exact (failsAt_commands body).bind fun stmts => (failsAt_value result).andThen fun e =>
    failsAt_pure _

/-- **Lowering fails exactly on names it cannot resolve.** Whatever the context, a function fails to
    be lowered exactly if somewhere in it a variable has no place, or lives in a frame deeper than
    the function's, or the static link of a call would be such a frame. It fails at the first of
    these in the order of the traversal. In the first case the error names the variable, and
    otherwise it reports a malformed tree. A function that was lowered is never refused by
    flattening. -/
theorem lowering_fails_at_first_unresolved {ω : Type} (scope : Scope) (body : List Command)
    (result : Operand) (c : Context) :
    ((∃ e, ((function scope body result).run.run c).1 = .error e) ↔
      ∃ m ∈ commandMentions body ++ result.mentions, ∃ e, scope.Unresolved m e) ∧
    (∀ e, ((function scope body result).run.run c).1 = .error e ↔
      ∃ front m back, commandMentions body ++ result.mentions = front ++ m :: back ∧
        (∀ m' ∈ front, ∀ e', ¬ scope.Unresolved m' e') ∧ scope.Unresolved m e) ∧
    (∀ m e, scope.Unresolved m e →
      (∃ name, m = .var name ∧ scope.accesses[name]? = none ∧ e = .missingAccess name) ∨
        ∃ target, scope.frame.depth < target ∧
          e.message = "malformed IR: " ++ scope.frame.label.text ++ " at depth " ++
            toString scope.frame.depth ++ " cannot see a frame at depth " ++ toString target) ∧
    ∀ f c', (function scope body result).run.run c = (.ok f, c') → ∀ names, ∃ g,
      ((Flat.Function.ofTree f : ExceptT Error (Emit ω) Flat.Function).run.run names).value =
        .ok g := by
  have herror : ∀ e, ((function scope body result).run.run c).1 = .error e ↔
      (commandMentions body ++ result.mentions).findSome? scope.fault? = some e := by
    intro e
    rw [← failsAt_function body result c]
    exact refusal?_eq_some.symm
  have hfault : ∀ m e, scope.fault? m = some e ↔ scope.Unresolved m e :=
    fun m e => Scope.fault?_eq_some
  refine ⟨?_, ?_, fun m e h => h.message, ?_⟩
  · rw [← exists_findSome?_iff hfault]
    exact exists_congr herror
  · intro e
    exact (herror e).trans (findSome?_eq_some_iff_first hfault)
  · intro f c' h names
    obtain ⟨-, code, last, s', ⟨events, hrun⟩, -⟩ := function_shaped h (names.skip 0 2)
    rw [Flat.run_ofTree, hrun]
    exact ⟨_, rfl⟩

/-- A function at depth 1 with an array of its own; `x` lives in a frame at depth 2. -/
def shallow : Scope where
  frame := ⟨.named "f", 1, 16, 16, ⟨0⟩, ⟨1⟩⟩
  accesses := Std.ExtTreeMap.ofList [("a", Access.relative (-8) 1), ("x", Access.relative (-8) 2)]

/-- In `a[x] := g(y)` nothing but `a` can be resolved: `x` lives too deep, so does the frame around
    `g`, and `y` has no place. The index of the place comes first. -/
theorem lowering_fails_at_first_unresolved_index :
    ((function shallow
      [.assign (.index (.var "a") (.read (.var "x")) 8) (.call (.named "g") 9 [.read (.var "y")])]
      (.int 0)).run.run {}).1 = .error (.hiddenFrame (.named "f") 1 2) := by
  obtain ⟨-, hfirst, -⟩ := lowering_fails_at_first_unresolved (ω := Unit) shallow
    [.assign (.index (.var "a") (.read (.var "x")) 8) (.call (.named "g") 9 [.read (.var "y")])]
    (.int 0) {}
  have ha : shallow.accesses["a"]? = some (.relative (-8) 1) := by decide
  have hx : shallow.accesses["x"]? = some (.relative (-8) 2) := by decide
  refine (hfirst _).mpr ⟨[.var "a"], .var "x", [.call 9, .var "y"], rfl, ?_,
    .hiddenPlace hx (by decide)⟩
  rw [List.forall_mem_singleton]
  intro e h
  cases h with
  | missing hnone =>
      rw [ha] at hnone
      cases hnone
  | hiddenPlace haccess hdepth =>
      rw [ha] at haccess
      cases haccess
      exact absurd hdepth (by decide)

end Source

end MmixBackend
