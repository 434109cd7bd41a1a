import MmixBackend.Proofs.LoweredCommands

/-!
# Lowering and flattening a function keeps its behaviour

The flat code of a function starts with its entry label and ends with a jump to its exit label. In
between stands the code of its commands and of its result.

* **`yields_function`** — the code of the body, in which no label is defined twice.
* **`function_realizes`** — the code as a whole, with the entry and the exit.
* **`lowering_keeps_behaviour`** — if the function terminates, a run of the flat code leaves at the
  exit label with the same effects, memory and result; if it runs forever, no amount of fuel is
  enough.
* **`pointer_ahead_of_names_is_overwritten`** — not so if flattening may hand out the frame pointer
  as one of its own temporaries.
-/

namespace MmixBackend

open Machine Flat

namespace Flat

/-- The flat form of a function whose body has been flattened. -/
theorem ofTree_of_yields {ω : Type} {f : Tree.Function} {names s' : Supply} {code : List Stmt}
    (h : Yields (stmt f.body) (names.skip 0 2) () code s') :
    ∃ events, (Function.ofTree f : ExceptT Error (Emit ω) Function).run.run names = ⟨.ok {
      frame := f.frame
      stmts := .label (.fresh names.labels) ::
        (code ++ [.transfer (.jump (.fresh (names.labels + 1)))])
      entry := .fresh names.labels
      exit := .fresh (names.labels + 1) }, [], events, s'⟩ := by
  obtain ⟨events, h⟩ := h
  have hcollect : (ExceptT.lift (Emit.collect (stmt f.body).run) : ExceptT Error (Emit ω) _).run.run
      (names.skip 0 2) = ⟨.ok (code, .ok ()), [], events, s'⟩ := by
    rw [ExceptT.run_lift, Emit.run_map, Emit.run_collect, h]
  have hrun : (Function.ofTree f : ExceptT Error (Emit ω) Function).run.run names =
      Emit.run (ExceptT.run (ExceptT.lift (Emit.collect (stmt f.body).run) >>= _))
        (names.skip 0 2) := rfl
  rw [hrun, Emit.run_bind_except, hcollect]
  exact ⟨events ++ [], rfl⟩

end Flat

namespace Source

variable {scope : Scope} {c c' : Context} {e : Tree.Expr}

/-- The result of a function comes to be in a temporary, last of all. -/
theorem Lowered.move {M : Literals → Meaning Word} (h : Lowered scope c c' M e)
    (hM : ∀ literals, Settled (M literals)) (dst : Temp) (s : Supply) :
    ∃ code s', Yields (do emit [.act (.move dst (← rhs e))]) s () code s' ∧ Acts code ∧
      s'.labels = s.labels ∧ ∀ E : Site scope, E.kept ≤ s.temps → E.Knows c' e.leaves → ∀ bound,
        Simulates E.whole bound E.Matches code
          (fun v m x => x.effects = m.effects ∧ x.mem = m.mem ∧ x.temp dst = v)
          (M E.literals) := by
  obtain ⟨⟨⟩, code, s', hyields, -, hacts, hlabels, -⟩ :=
    ((smooth_rhs h.plain).bind fun r _ => smooth_emit (acts_single (.move dst r))) s
  refine ⟨code, s', hyields, hacts, hlabels, ?_⟩
  intro E hkept hknows
  refine simulates_of_yields (Q := fun _ v m x => x.effects = m.effects ∧ x.mem = m.mem ∧
    x.temp dst = v) hyields (hM E.literals) ?_
  intro m v m' haddrs hrun
  obtain ⟨-, r, code, s', hyields, hspec⟩ := rhs_correct e hkept haddrs (hknows.fits h.temps)
    (h.means E.literals hknows.literals m v m' hrun)
  refine ⟨(), _, s', hyields.bind (yields_emit _ _), ?_⟩
  intro x hagree
  obtain ⟨x₁, x', hperf, -, hrhs, hagree'⟩ := hspec.computes x hagree
  refine ⟨x'.setTemp dst v, hperf.append (Performs.single ?_), hagree'.effects, hagree'.mem,
    temp_setTemp_self _ _ _⟩
  rw [act, hrhs]

variable {body : List Command} {result : Operand} {f : Tree.Function}

/-- The body of a function is flattened to code that computes the result of the function. -/
theorem yields_function (h : (function scope body result).run.run c = (.ok f, c')) {s : Supply}
    (hs : c'.supply.labels ≤ s.labels) :
    ∃ code s', Yields (stmt f.body) s () code s' ∧
      s.labels ≤ s'.labels ∧
      Fresh c.supply.labels c'.supply.labels s.labels s'.labels (definedLabels code) ∧
      (c.Tidy → Clear c' (definedLabels code)) ∧
      ∀ E : Site scope, E.kept ≤ s.temps → E.Knows c' f.body.leaves → ∀ bound,
        Simulates E.whole bound E.Matches code
          (fun v m x => x.effects = m.effects ∧ x.mem = m.mem ∧ x.temp f.frame.result = v)
          (functionMeaning scope E.literals bound body result) := by
  rw [function] at h
  obtain ⟨sts, c₁, hsts, h⟩ := run_bind_eq_ok.mp h
  obtain ⟨e, c₂, he, h⟩ := run_bind_eq_ok.mp h
  obtain ⟨rfl, rfl⟩ := eq_of_ok_eq h
  have hbody := commands_renders body hsts
  have hresult := value_lowered result he
  obtain ⟨code, s₁, hyields, hrendered⟩ := hbody.flat s (Nat.le_trans hresult.grows.labels hs)
  obtain ⟨code', s', hyields', hacts, hlabels, hmove⟩ := hresult.move
    (fun literals => settled_operand scope literals result) scope.frame.result s₁
  refine ⟨code ++ code', s', ?_, hlabels ▸ hrendered.labels_le, ?_, ?_, ?_⟩
  · show Yields (stmt (.move (.temp _) (.seq (.seq sts) e))) s () _ s'
    rw [stmt, Flat.rhs, stmt, bind_assoc]
    exact hyields.bind hyields'
  · rw [definedLabels_append, hacts.definedLabels]
    exact hrendered.fresh.append (Fresh.nil _ _ _ _) hbody.grows.labels hresult.grows.labels hs
      hrendered.labels_le (Nat.le_of_eq hlabels.symm)
  · intro htidy
    rw [definedLabels_append, hacts.definedLabels, List.append_nil]
    exact (hrendered.clear htidy).grow hrendered.fresh hresult.grows
      (hresult.grows.tidy (hbody.grows.tidy htidy)) hs
  · intro E hkept hknows bound
    have hleaves : Tree.Stmt.leaves (.move (.temp scope.frame.result) (.seq (.seq sts) e)) =
        .temp scope.frame.result :: (Tree.stmtLeaves sts ++ e.leaves) := rfl
    rw [hleaves] at hknows
    refine (hrendered.simulates E hkept ?_ bound).bind fun _ =>
      hmove E (Nat.le_trans hkept hrendered.temps_le) ?_ bound
    · exact hknows.mono hresult.grows
        (List.subset_cons_of_subset _ (List.subset_append_left _ _))
    · exact hknows.mono (Context.Grows.refl c₂)
        (List.subset_cons_of_subset _ (List.subset_append_right _ _))

/-- From its entry label to the jump to its exit label, the flat code of a function realizes its
    meaning. -/
theorem function_realizes {ω : Type} {names : Supply}
    (h : (function scope body result).run.run c = (.ok f, c'))
    (hlabels : c'.supply.labels ≤ names.labels)
    (hpointer : scope.frame.pointer.index < names.temps) :
    ∃ g : Flat.Function,
      ((Flat.Function.ofTree f : ExceptT Error (Emit ω) Flat.Function).run.run names).value =
        .ok g ∧
      g.exit ∉ definedLabels g.stmts ∧
      ∀ m : Machine, (∀ l, .name l ∈ f.body.leaves → l ∈ m.labelAddrs) → ∀ bound,
        Realizes g.stmts bound [.transfer (.jump g.exit)]
          (fun v m x => x.effects = m.effects ∧ x.mem = m.mem ∧ x.temp f.frame.result = v)
          g.stmts m ((functionMeaning scope c'.strings bound body result).run m) := by
  obtain ⟨code, s', hyields, -, hfresh, -, hsim⟩ :=
    yields_function (s := names.skip 0 2) h (Nat.le_trans hlabels (Nat.le_add_right _ _))
  -- the entry and the exit label are taken before those of the body
  have hnew : ∀ i, names.labels ≤ i → i < names.labels + 2 →
      .fresh i ∉ definedLabels code := by
    intro i hle hlt hmem
    obtain ⟨j, hj, hrange⟩ := hfresh.range _ hmem
    have hij : i = j := Label.fresh.inj hj
    have hskip : (names.skip 0 2).labels = names.labels + 2 := rfl
    omega
  have hdefined : definedLabels (.label (.fresh names.labels) :: (code ++
      [.transfer (.jump (.fresh (names.labels + 1)))])) =
      .fresh names.labels :: definedLabels code := by
    rw [definedLabels_label, definedLabels_append, definedLabels_transfer, definedLabels_nil,
      List.append_nil]
  obtain ⟨events, hflat⟩ := ofTree_of_yields (ω := ω) hyields
  refine ⟨_, congrArg Emitted.value hflat, ?_, ?_⟩
  · rw [hdefined, List.mem_cons, Label.fresh.injEq, not_or]
    exact ⟨by omega, hnew _ (by omega) (by omega)⟩
  · intro m hnames bound
    have hnodup := List.nodup_cons.mpr ⟨hnew _ (Nat.le_refl _) (by omega), hfresh.nodup⟩
    rw [← hdefined] at hnodup
    let E : Site scope :=
      { whole := _, kept := names.temps, addrs := m.labelAddrs, literals := c'.strings,
        nodup := hnodup, pointer := hpointer }
    have hbody := hsim E (Nat.le_refl _) ⟨hnames, (Context.Grows.refl c').strings⟩ bound _
      (List.suffix_cons _ _) m m ⟨rfl, Agree.refl _ m⟩
    exact Realizes.mono (Realizes.advance (passes_label _ _ _ m) hbody) (Nat.le_add_left _ _)

/-- **Lowering and flattening keep the behaviour of a function.** Whenever a function can be
    lowered, its tree can be flattened. There are two conditions on the names that flattening takes:
    its labels come after all that lowering has taken, and its temporaries come after the frame
    pointer of the function. Then, from a machine that has an address for each label that is used as
    a value, the two do the same. If the function terminates, then with enough fuel a run of the
    flat code leaves for the exit label with the same effects, the same memory and the result in its
    temporary. If it runs forever, then every run of the flat code runs out of fuel. Without the
    second condition the result can be another one (`pointer_ahead_of_names_is_overwritten`). -/
theorem lowering_keeps_behaviour {ω : Type} (scope : Scope) (body : List Command)
    (result : Operand) (c c' : Context) (f : Tree.Function) (names : Supply)
    (hlower : (function scope body result).run.run c = (.ok f, c'))
    (hlabels : c'.supply.labels ≤ names.labels)
    (hpointer : scope.frame.pointer.index < names.temps) :
    ∃ g : Flat.Function,
      ((Flat.Function.ofTree f : ExceptT Error (Emit ω) Flat.Function).run.run names).value =
        .ok g ∧
      ∀ m : Machine, (∀ l, .name l ∈ f.body.leaves → l ∈ m.labelAddrs) →
        (∀ v m', Terminates scope c'.strings body result m v m' →
          ∃ x : Machine,
            (∃ n, ∀ fuel, n ≤ fuel → m.run g.stmts fuel = (.ok (some g.exit), x)) ∧
            x.effects = m'.effects ∧ x.mem = m'.mem ∧ x.temp f.frame.result = v) ∧
        (RunsForever scope c'.strings body result m →
          ∀ fuel, (m.run g.stmts fuel).1 = .error (.outOfFuel fuel)) := by
  obtain ⟨g, hflat, hexit, hrealizes⟩ := function_realizes hlower hlabels hpointer
  refine ⟨g, hflat, ?_⟩
  intro m hnames
  constructor
  · rintro v m' ⟨limit, hrun⟩
    have h := hrealizes m hnames limit
    rw [hrun] at h
    obtain ⟨k, x, hpass, hx⟩ := h
    exact ⟨x, ⟨k + 1, fun fuel hfuel => hpass.leaves hexit hfuel⟩, hx⟩
  · intro hforever fuel
    -- more rounds are allowed than there is fuel
    have h := hrealizes m hnames fuel
    rw [hforever fuel] at h
    obtain ⟨k, ahead, x, hle, hne, hpass⟩ := h
    exact hpass.outOfFuel hne hle

/-- The scope of a function with one global. -/
def halvingScope : Scope where
  frame :=
    { label := .named "main", depth := 1, localsSize := 0, argsSize := 16, result := ⟨0⟩,
      pointer := ⟨1⟩ }
  accesses := {("n", .absolute (.named "n"))}

/-- Halves a global if it is odd and tells a function about it. -/
def halvingRound : List Command :=
  [.cond (.binop .mod (.read (.var "n")) (.int 2))
    [.assign (.var "n") (.binop .div (.read (.var "n")) (.int 2)),
      .eval (.call (.named "f") 1 [.read (.var "n")])]
    []]

/-- Goes on until the global is 0, which an even number never gets to. -/
def halving : List Command := [.loop (.read (.var "n")) halvingRound]

/-- The tree that it is lowered to, if its result is a call with a literal. -/
def halvingTree : Tree.Function where
  frame := halvingScope.frame
  body := .move (.temp ⟨0⟩) (.seq
    (.seq [.seq [
      .label (.fresh 0), .branch (.mem (.name (.named "n"))) (.fresh 1) (.fresh 2),
      .label (.fresh 1),
      .seq [
        .branch (.binop .mod (.mem (.name (.named "n"))) (.const 2)) (.fresh 3) (.fresh 4),
        .label (.fresh 3),
        .move (.mem (.name (.named "n"))) (.binop .div (.mem (.name (.named "n"))) (.const 2)),
        .eval (.call (.named "f") [.mem (.temp ⟨1⟩), .mem (.name (.named "n"))]),
        .jump (.fresh 5), .label (.fresh 4),
        .jump (.fresh 5), .label (.fresh 5)],
      .jump (.fresh 0), .label (.fresh 2)]])
    (.call (.named "f") [.mem (.temp ⟨1⟩), .name (.fresh 6)]))

/-- The frame pointer is 800, the static link 900, the global is at 100 and the literal at 200. -/
def halvingStart (n : Word) : Machine where
  temps := {(⟨1⟩, 800)}
  mem := {(100, n), (800, 900)}
  labelAddrs := {(.named "n", 100), (.fresh 6, 200)}

/-- Halving 2 never comes to an end. -/
theorem halving_runsForever (literals : Literals) (result : Operand) :
    RunsForever halvingScope literals halving result (halvingStart 2) := by
  intro limit
  let cond := (Operand.read (.var "n")).meaning halvingScope literals
  let body := commandMeanings halvingScope literals limit halvingRound
  have hcond : cond.run (halvingStart 2) = .ok (2, halvingStart 2) := rfl
  have hbody : body.run (halvingStart 2) = .ok ((), halvingStart 2) := rfl
  have hrounds : ∀ n, (rounds cond body n).run (halvingStart 2) = .error .unfinished := by
    intro n
    induction n with
    | zero =>
        rw [rounds, run_bind_meaning, hcond]
        rfl
    | succ n ih =>
        rw [rounds, run_bind_meaning, hcond]
        show (body >>= fun _ => rounds cond body n).run (halvingStart 2) = _
        rw [run_bind_meaning, hbody]
        exact ih
  rw [functionMeaning, halving, commandMeanings, Command.meaning, run_bind_meaning,
    run_bind_meaning, hrounds limit]

/-- Halving 3 comes to an end, halving 2 goes on forever. -/
theorem lowering_keeps_behaviour_halving :
    ∃ g : Flat.Function,
      ((Flat.Function.ofTree halvingTree : ExceptT Error (Emit Flat.Stmt) Flat.Function).run.run
        { temps := 2, labels := 7 }).value = .ok g ∧
      (∃ x : Machine,
        (∃ n, ∀ fuel, n ≤ fuel →
          (halvingStart 3).run g.stmts fuel = (.ok (some g.exit), x)) ∧
        x.effects = #[.store 100 1, .call (.named "f") [900, 1], .store 100 0,
          .call (.named "f") [900, 0], .call (.named "f") [900, 200]] ∧
        x.load 100 = 0 ∧ x.temp ⟨0⟩ = 1005) ∧
      ∀ fuel, ((halvingStart 2).run g.stmts fuel).1 = .error (.outOfFuel fuel) := by
  have hlower : (function halvingScope halving (.call (.named "f") 1 [.str "done"])).run.run
      { supply := { temps := 2 } } = (.ok halvingTree,
        { supply := { temps := 2, labels := 7 }
          data := [Context.stringChunk (.fresh 6) "done"]
          strings := {("done", .fresh 6)} }) := rfl
  obtain ⟨g, hflat, hg⟩ := lowering_keeps_behaviour halvingScope halving
    (.call (.named "f") 1 [.str "done"]) _ _ _ { temps := 2, labels := 7 } hlower
    (Nat.le_refl _) (by decide)
  have hnames : ∀ n l, .name l ∈ halvingTree.body.leaves → l ∈ (halvingStart n).labelAddrs := by
    intro n l hl
    simp [halvingTree, Tree.Stmt.leaves, Tree.Expr.leaves, Tree.exprLeaves, Tree.stmtLeaves] at hl
    rcases hl with rfl | rfl <;> simp [halvingStart]
  obtain ⟨x, hrun, heffects, hmem, hresult⟩ :=
    (hg (halvingStart 3) (hnames 3)).1 _ _ ⟨2, rfl⟩
  refine ⟨g, hflat, ⟨x, hrun, heffects, ?_, hresult⟩, ?_⟩
  · rw [Machine.load, hmem]
    rfl
  · exact (hg (halvingStart 2) (hnames 2)).2 (halving_runsForever _ _)

-- ── Where flattening may hand out the frame pointer ──────────────────────────

/-- The scope of a function with one local `x`, whose frame pointer is the temporary with number
    2. -/
def aheadScope : Scope where
  frame :=
    { label := .named "main", depth := 1, localsSize := 8, argsSize := 8, result := ⟨0⟩,
      pointer := ⟨2⟩ }
  accesses := {("x", .relative (-8) 1)}

/-- Adds `x` to what a call gives. The static link for the call is loaded first. -/
def callPlusLocal : Operand := .binop .add (.call (.named "f") 1 []) (.read (.var "x"))

/-- The tree of the function that has this sum for a result. -/
def callPlusLocalTree : Tree.Function where
  frame := aheadScope.frame
  body := .move (.temp ⟨0⟩) (.seq (.seq [])
    (.binop .add (.call (.named "f") [.mem (.temp ⟨2⟩)])
      (.mem (.binop .add (.temp ⟨2⟩) (.const (-8))))))

/-- The frame pointer is 800, the static link 900, and `x` is 7. -/
def aheadStart : Machine where
  temps := {(⟨2⟩, 800)}
  mem := {(792, 7), (800, 900)}

/-- With two temporaries taken, the static link is loaded into the frame pointer itself. So `x` is
    looked for below address 900, where there is nothing, and the result is that of the call. -/
theorem run_callPlusLocalTree {g : Flat.Function}
    (hflat : ((Flat.Function.ofTree callPlusLocalTree :
      ExceptT Error (Emit Flat.Stmt) Flat.Function).run.run { temps := 2 }).value = .ok g)
    (fuel : Nat) : (aheadStart.run g.stmts (fuel + 8)).2.temp ⟨0⟩ = 1001 := by
  obtain rfl := Except.ok.inj hflat
  rfl

/-- If flattening may hand out the frame pointer as one of its own temporaries, it can overwrite it,
    and the result is not the one that the function means. -/
theorem pointer_ahead_of_names_is_overwritten :
    ¬ ∀ (scope : Scope) (body : List Command) (result : Operand) (c c' : Context)
        (f : Tree.Function) (names : Supply),
      (function scope body result).run.run c = (.ok f, c') →
      c'.supply.labels ≤ names.labels →
      ∃ g : Flat.Function,
        ((Flat.Function.ofTree f : ExceptT Error (Emit Flat.Stmt) Flat.Function).run.run
          names).value = .ok g ∧
        ∀ m : Machine, (∀ l, .name l ∈ f.body.leaves → l ∈ m.labelAddrs) →
          ∀ v m', Terminates scope c'.strings body result m v m' →
            ∃ x : Machine,
              (∃ n, ∀ fuel, n ≤ fuel → m.run g.stmts fuel = (.ok (some g.exit), x)) ∧
              x.effects = m'.effects ∧ x.mem = m'.mem ∧ x.temp f.frame.result = v := by
  intro h
  have hlower : (function aheadScope [] callPlusLocal).run.run { supply := { temps := 2 } } =
      (.ok callPlusLocalTree, { supply := { temps := 2 } }) := rfl
  have hnames : ∀ l, .name l ∉ callPlusLocalTree.body.leaves := by
    intro l hl
    simp [callPlusLocalTree, Tree.Stmt.leaves, Tree.Expr.leaves, Tree.exprLeaves,
      Tree.stmtLeaves] at hl
  obtain ⟨g, hflat, hg⟩ := h _ _ _ _ _ _ { temps := 2 } hlower (Nat.le_refl _)
  -- the call gives 1001, and the word at 792 is added to it
  obtain ⟨x, ⟨n, hrun⟩, -, -, hresult⟩ :=
    hg aheadStart (fun l hl => absurd hl (hnames l)) 1008 _ ⟨0, rfl⟩
  have hless := run_callPlusLocalTree hflat n
  rw [hrun (n + 8) (Nat.le_add_right _ _)] at hless
  exact absurd (hless.symm.trans hresult) (by decide)

end Source

end MmixBackend
