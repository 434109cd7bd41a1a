import MmixBackend.Proofs.LoweredOperands
import MmixBackend.Proofs.StructuredWalk

/-!
# Lowering commands keeps what they do

A command is lowered to a tree and the tree is flattened. Both passes take labels: a conditional and
a loop have three of their own, and each branch gets one more when it is flattened. So no label is
defined twice as long as flattening starts where lowering has stopped.

* **`Fresh`** — labels that the two passes have taken, each of them once.
* **`Clear`** — labels none of which was taken for a literal.
* **`simulates_of_yields`** — code that has no labels simulates what it was made from.
* **`commands_renders`** — by induction on the commands: their code simulates their meaning.
-/

namespace MmixBackend

open Machine Flat

-- ── Labels taken by two passes ───────────────────────────────────────────────

/-- No label occurs twice, and each was taken by the first pass, from `c` on and before `c'`, or by
    the second pass, from `s` on and before `s'`. -/
structure Fresh (c c' s s' : Nat) (ls : List Label) : Prop where
  nodup : ls.Nodup
  range : ∀ l ∈ ls, ∃ i, l = .fresh i ∧ (c ≤ i ∧ i < c' ∨ s ≤ i ∧ i < s')

namespace Fresh

variable {c c₁ c' s s₁ s' : Nat} {ls ls' : List Label}

theorem nil (c c' s s' : Nat) : Fresh c c' s s' [] := ⟨List.nodup_nil, List.forall_mem_nil _⟩

/-- Three labels of the first pass and one of the second. -/
theorem own (h : c + 3 ≤ s) :
    Fresh c (c + 3) s (s + 1) [.fresh c, .fresh (c + 1), .fresh (c + 2), .fresh s] := by
  constructor
  · simp only [List.nodup_cons, List.mem_cons, List.not_mem_nil, Label.fresh.injEq, or_false,
      List.nodup_nil, and_true, not_false_eq_true]
    omega
  · intro l hl
    simp only [List.mem_cons, List.not_mem_nil, or_false] at hl
    rcases hl with rfl | rfl | rfl | rfl <;> exact ⟨_, rfl, by omega⟩

/-- The order of the labels does not matter. -/
theorem perm (h : Fresh c c' s s' ls) (hperm : ls.Perm ls') : Fresh c c' s s' ls' :=
  ⟨hperm.nodup_iff.mp h.nodup, fun l hl => h.range l (hperm.mem_iff.mpr hl)⟩

/-- Labels from a part of what the first pass has taken are from all of it. -/
theorem widen {c₂ : Nat} (h : Fresh c₁ c₂ s s' ls) (hc : c ≤ c₁) (hc' : c₂ ≤ c') :
    Fresh c c' s s' ls := by
  refine ⟨h.nodup, ?_⟩
  intro l hl
  obtain ⟨i, rfl, hi⟩ := h.range l hl
  exact ⟨i, rfl, by omega⟩

/-- Labels taken later are others. -/
theorem append (h : Fresh c c₁ s s₁ ls) (h' : Fresh c₁ c' s₁ s' ls') (hc : c ≤ c₁) (hc' : c₁ ≤ c')
    (hcs : c' ≤ s) (hs : s ≤ s₁) (hs' : s₁ ≤ s') : Fresh c c' s s' (ls ++ ls') := by
  refine ⟨List.nodup_append.mpr ⟨h.nodup, h'.nodup, ?_⟩, List.forall_mem_append.mpr ⟨?_, ?_⟩⟩
  · intro l hl l' hl' heq
    obtain ⟨i, rfl, hi⟩ := h.range l hl
    obtain ⟨j, rfl, hj⟩ := h'.range l' hl'
    have hij : i = j := Label.fresh.inj heq
    omega
  · intro l hl
    obtain ⟨i, rfl, hi⟩ := h.range l hl
    exact ⟨i, rfl, by omega⟩
  · intro l hl
    obtain ⟨i, rfl, hi⟩ := h'.range l hl
    exact ⟨i, rfl, by omega⟩

end Fresh

/-- None of the labels belongs to a literal. -/
def Clear (c : Context) (ls : List Label) : Prop := ∀ l ∈ ls, ¬c.IsLiteral l

theorem Clear.append {c : Context} {ls ls' : List Label} (h : Clear c ls) (h' : Clear c ls') :
    Clear c (ls ++ ls') := List.forall_mem_append.mpr ⟨h, h'⟩

/-- The labels that two passes have taken stay clear of literals as the first pass goes on. -/
theorem Clear.grow {c c' : Context} {n s s' : Nat} {ls : List Label} (h : Clear c ls)
    (hfresh : Fresh n c.supply.labels s s' ls) (hgrows : c.Grows c')
    (htidy : c'.Tidy) (hs : c'.supply.labels ≤ s) : Clear c' ls := by
  intro l hl
  obtain ⟨i, rfl, ⟨-, hi⟩ | ⟨hi, -⟩⟩ := hfresh.range l hl
  · exact hgrows.not_isLiteral hi (h _ hl)
  · exact htidy.not_isLiteral (Nat.le_trans hs hi)

/-- Nor do the four labels of a conditional or a loop belong to a literal. -/
theorem clear_own {c c' : Context} (htidy : c.Tidy) (hstrings : c'.strings = c.strings) {s : Nat}
    (hs : c.supply.labels ≤ s) :
    Clear c' [.fresh c.supply.labels, .fresh (c.supply.labels + 1),
      .fresh (c.supply.labels + 2), .fresh s] := by
  have heq : ∀ l, c'.IsLiteral l = c.IsLiteral l := by
    intro l
    rw [Context.IsLiteral, Context.IsLiteral, hstrings]
  intro l hl
  rw [heq]
  simp only [List.mem_cons, List.not_mem_nil, or_false] at hl
  rcases hl with rfl | rfl | rfl | rfl <;> exact htidy.not_isLiteral (by omega)

namespace Flat

/-- Actions define no labels. -/
theorem Acts.definedLabels {code : List Stmt} (h : Acts code) : definedLabels code = [] := by
  refine List.filterMap_eq_nil_iff.mpr ?_
  intro st hst
  obtain ⟨a, rfl⟩ := h st hst
  rfl

/-- The labels of two pieces of code are those of the first, then those of the second. -/
theorem definedLabels_append (xs ys : List Stmt) :
    definedLabels (xs ++ ys) = definedLabels xs ++ definedLabels ys := List.filterMap_append

/-- The labels of a conditional are its own four and those of its branches. -/
theorem perm_definedLabels_conditional {test : List Stmt} (h : Acts test) (t : Temp)
    (thenLabel neg elseLabel endLabel : Label) (thenCode elseCode : List Stmt) :
    ([thenLabel, elseLabel, endLabel, neg] ++
      (definedLabels thenCode ++ definedLabels elseCode)).Perm
      (definedLabels (conditional test t thenLabel neg elseLabel endLabel thenCode elseCode)) := by
  simp only [conditional, guard, definedLabels_append, h.definedLabels, definedLabels_label,
    definedLabels_transfer, definedLabels_nil, List.nil_append, List.cons_append]
  rw [List.perm_iff_count]
  intro l
  simp only [List.count_append, List.count_cons, List.count_nil]
  omega

/-- The labels of a loop are its own four and those of its body. -/
theorem perm_definedLabels_loop {test : List Stmt} (h : Acts test) (t : Temp)
    (condLabel bodyLabel neg endLabel : Label) (body : List Stmt) :
    ([condLabel, bodyLabel, endLabel, neg] ++ definedLabels body).Perm
      (definedLabels (loop test t condLabel bodyLabel neg endLabel body)) := by
  simp only [loop, guard, definedLabels_append, h.definedLabels, definedLabels_label,
    definedLabels_transfer, definedLabels_nil, List.nil_append, List.cons_append]
  rw [List.perm_iff_count]
  intro l
  simp only [List.count_append, List.count_cons, List.count_nil]
  omega

-- ── Flattening lists of statements ───────────────────────────────────────────

theorem yields_label (l : Label) (s : Supply) : Yields (stmt (.label l)) s () [.label l] s := by
  rw [stmt]
  exact yields_emit _ s

theorem yields_jump (l : Label) (s : Supply) :
    Yields (stmt (.jump l)) s () [.transfer (.jump l)] s := by
  rw [stmt]
  exact yields_emit _ s

/-- A statement and the statements behind it give the code of the one and then of the others. -/
theorem yields_stmts {x : Tree.Stmt} {xs : List Tree.Stmt} {s s₁ s' : Supply}
    {code code' : List Stmt} (hx : Yields (stmt x) s () code s₁)
    (hxs : Yields (stmts xs) s₁ () code' s') :
    Yields (stmts (x :: xs)) s () (code ++ code') s' := by
  rw [stmts]
  exact hx.bind hxs

/-- Two lists of statements give their code one behind the other. -/
theorem yields_stmts_append {xs ys : List Tree.Stmt} {s s₁ s' : Supply} {code code' : List Stmt}
    (hx : Yields (stmts xs) s () code s₁) (hy : Yields (stmts ys) s₁ () code' s') :
    Yields (stmts (xs ++ ys)) s () (code ++ code') s' := by
  have heq : stmts (xs ++ ys) = (do stmts xs; stmts ys) := by
    clear hx
    induction xs with
    | nil => simp [stmts]
    | cons x xs ih => simp [stmts, ih]
  rw [heq]
  exact hx.bind hy

theorem yields_stmts_nil (s : Supply) : Yields (stmts []) s () [] s := by
  rw [stmts]
  exact yields_pure () s

/-- The end of a branch, and the label of what comes behind it. -/
theorem yields_jump_label (l l' : Label) (s : Supply) :
    Yields (stmts [.jump l, .label l']) s () [.transfer (.jump l), .label l'] s :=
  yields_stmts (yields_jump l s) (yields_stmts (yields_label l' s) (yields_stmts_nil s))

/-- A fresh label is the next one, and taking it emits nothing. -/
theorem yields_freshLabel (s : Supply) :
    Yields (ExceptT.lift Emit.freshLabel) s (.fresh s.labels) [] (s.skip 0 1) := ⟨[], rfl⟩

/-- A branch with the label of its positive case behind it. -/
theorem yields_guard {cond : Tree.Expr} {t : Temp} {s s₁ : Supply} {code : List Stmt}
    (h : Yields (rhs cond >>= materialize >>= nameAtom) s t code s₁) (ifTrue ifFalse : Label) :
    Yields (stmts [.branch cond ifTrue ifFalse, .label ifTrue]) s ()
      (code ++ guard t ifTrue (.fresh s₁.labels) ifFalse) (s₁.skip 0 1) := by
  have hbranch : Yields (stmt (.branch cond ifTrue ifFalse)) s () (code ++
      [.transfer (.branch t ifTrue (.fresh s₁.labels)), .label (.fresh s₁.labels),
        .transfer (.jump ifFalse)]) (s₁.skip 0 1) := by
    rw [stmt, ← bind_assoc, ← bind_assoc]
    exact h.bind ((yields_freshLabel s₁).bind_nil (yields_emit _ _))
  have hall := yields_stmts hbranch (yields_stmts (yields_label ifTrue _) (yields_stmts_nil _))
  rwa [List.append_assoc] at hall

/-- The tree of a conditional, from the code of its condition and of its branches. -/
theorem yields_conditional {cond : Tree.Expr} {t : Temp} {s s₁ s₂ s' : Supply}
    {test a b : List Stmt} {as bs : List Tree.Stmt}
    (htest : Yields (rhs cond >>= materialize >>= nameAtom) s t test s₁)
    (ha : Yields (stmts as) (s₁.skip 0 1) () a s₂) (hb : Yields (stmts bs) s₂ () b s')
    (thenLabel elseLabel endLabel : Label) :
    Yields (stmt (.seq
        ([Tree.Stmt.branch cond thenLabel elseLabel, Tree.Stmt.label thenLabel] ++ as ++
        [Tree.Stmt.jump endLabel, Tree.Stmt.label elseLabel] ++ bs ++
        [Tree.Stmt.jump endLabel, Tree.Stmt.label endLabel]))) s ()
      (conditional test t thenLabel (.fresh s₁.labels) elseLabel endLabel a b) s' := by
  have hguard := yields_guard htest thenLabel elseLabel
  have hthen := yields_stmts_append (yields_stmts_append hguard ha)
    (yields_jump_label endLabel elseLabel s₂)
  have hall := yields_stmts_append (yields_stmts_append hthen hb)
    (yields_jump_label endLabel endLabel s')
  simp only [List.append_assoc, List.cons_append, List.nil_append] at hall
  simp only [stmt, conditional, List.append_assoc, List.cons_append, List.nil_append]
  exact hall

/-- The tree of a loop, from the code of its condition and of its body. -/
theorem yields_loop {cond : Tree.Expr} {t : Temp} {s s₁ s' : Supply} {test a : List Stmt}
    {as : List Tree.Stmt} (htest : Yields (rhs cond >>= materialize >>= nameAtom) s t test s₁)
    (ha : Yields (stmts as) (s₁.skip 0 1) () a s') (condLabel bodyLabel endLabel : Label) :
    Yields (stmt (.seq
        ([Tree.Stmt.label condLabel, Tree.Stmt.branch cond bodyLabel endLabel,
          Tree.Stmt.label bodyLabel] ++ as ++
        [Tree.Stmt.jump condLabel, Tree.Stmt.label endLabel]))) s ()
      (loop test t condLabel bodyLabel (.fresh s₁.labels) endLabel a) s' := by
  have hguard := yields_stmts (yields_label condLabel s) (yields_guard htest bodyLabel endLabel)
  have hall := yields_stmts_append (yields_stmts_append hguard ha)
    (yields_jump_label condLabel endLabel s')
  simp only [List.append_assoc, List.cons_append, List.nil_append] at hall
  simp only [stmt, loop, List.cons_append, List.nil_append]
  exact hall

end Flat

namespace Tree

theorem stmtLeaves_append (xs ys : List Stmt) :
    stmtLeaves (xs ++ ys) = stmtLeaves xs ++ stmtLeaves ys := by
  induction xs with
  | nil => rfl
  | cons x xs ih => rw [List.cons_append, stmtLeaves, stmtLeaves, ih, List.append_assoc]

end Tree

namespace Source

-- ── Where code is run ────────────────────────────────────────────────────────

/-- What is known of a run: the code as a whole, the temporaries that are compared, the addresses
    of labels and the labels of literals. -/
structure Site (scope : Scope) where
  whole : List Flat.Stmt
  kept : Nat
  addrs : LabelMap Word
  literals : Literals
  nodup : (definedLabels whole).Nodup
  pointer : scope.frame.pointer.index < kept

namespace Site

variable {scope : Scope} (E : Site scope)

/-- The two machines agree, and labels have their addresses. -/
structure Matches (m x : Machine) : Prop where
  addrs : m.labelAddrs = E.addrs
  agree : Agree E.kept m x

/-- The labels among the leaves have addresses, and the literals their labels. -/
structure Knows (c : Context) (leaves : List Atom) : Prop where
  names : ∀ l, .name l ∈ leaves → l ∈ E.addrs
  literals : c.Within E.literals

variable {E} {c c' : Context} {leaves leaves' : List Atom}

/-- What is known of more leaves and a later context is known of fewer and an earlier one. -/
theorem Knows.mono (h : E.Knows c' leaves') (hc : c.Grows c') (hleaves : leaves ⊆ leaves') :
    E.Knows c leaves :=
  ⟨fun l hl => h.names l (hleaves hl), hc.within h.literals⟩

/-- Leaves whose only temporary is the frame pointer fit. -/
theorem Knows.fits (h : E.Knows c leaves)
    (htemps : ∀ t, .temp t ∈ leaves → t = scope.frame.pointer) :
    ∀ a ∈ leaves, a.Fits E.kept E.addrs := by
  intro a ha
  cases a with
  | const v => trivial
  | temp t =>
      obtain rfl := htemps t ha
      exact E.pointer
  | name l => exact h.names l ha

end Site

variable {scope : Scope} {E : Site scope} {c c₁ c' : Context} {e : Tree.Expr} {s s' : Supply}

/-- Code that a step of flattening yields simulates a meaning if it does so whenever the meaning
    has a value. -/
theorem simulates_of_yields {α β : Type} {x : Flatten α} {a : α} {code : List Flat.Stmt}
    {M : Meaning β} {Q : α → β → Machine → Machine → Prop} (hyields : Yields x s a code s')
    (hM : Settled M)
    (hcorrect : ∀ m v m', m.labelAddrs = E.addrs → M.run m = .ok (v, m') →
      ∃ a code s', Yields x s a code s' ∧
        ∀ x, Agree E.kept m x → ∃ x', Performs x code x' ∧ Q a v m' x') (bound : Nat) :
    Simulates E.whole bound E.Matches code (Q a) M := by
  refine simulates_of_performs hM ?_
  intro m x v m' hmatch hrun
  obtain ⟨a', code', s'', hyields', hperforms⟩ := hcorrect m v m' hmatch.addrs hrun
  obtain ⟨rfl, rfl, -⟩ := hyields.unique hyields'
  exact hperforms x hmatch.agree

/-- The test of a branch: the value of the expression comes to be in a temporary. -/
theorem Lowered.test {M : Literals → Meaning Word} (h : Lowered scope c c' M e)
    (hM : ∀ literals, Settled (M literals)) (s : Supply) :
    ∃ t code s', Yields (rhs e >>= materialize >>= nameAtom) s t code s' ∧ Acts code ∧
      s'.labels = s.labels ∧ s.temps ≤ s'.temps ∧
      ∀ E : Site scope, E.kept ≤ s.temps → E.Knows c' e.leaves → ∀ bound,
        Simulates E.whole bound E.Matches code (fun v m x => E.Matches m x ∧ x.temp t = v)
          (M E.literals) := by
  obtain ⟨t, code, s', hyields, -, hacts, hlabels, htemps⟩ :=
    (((smooth_rhs h.plain).bind fun r _ => smooth_materialize r).bind
      fun a _ => smooth_nameAtom a) s
  refine ⟨t, code, s', hyields, hacts, hlabels, htemps, ?_⟩
  intro E hkept hknows
  refine simulates_of_yields (Q := fun t v m x => E.Matches m x ∧ x.temp t = v) hyields
    (hM E.literals) ?_
  intro m v m' haddrs hrun
  obtain ⟨haddrs', a, code, s₁, hyields, hspec⟩ := (rhs_correct e hkept haddrs
    (hknows.fits h.temps) (h.means E.literals hknows.literals m v m' hrun)).expr hkept
  obtain ⟨t, code', s', hyields', -, -, hname⟩ := yields_nameAtom hspec.fits
  refine ⟨t, code ++ code', s', hyields.bind hyields', ?_⟩
  intro x hagree
  obtain ⟨x₁, hperf, hatom, hagree₁⟩ := hspec.holds x hagree
  obtain ⟨x', hperf', hvalue, hagree'⟩ := hname x₁ v hatom
  exact ⟨x', hperf.append hperf', ⟨haddrs', hagree₁.trans hagree'
    (Nat.le_trans hkept hspec.bounded.le)⟩, hvalue⟩

-- ── Commands ─────────────────────────────────────────────────────────────────

/-- Flattened from the supply `s`, a tree with these leaves becomes code that simulates the
    meaning. -/
structure Rendered (scope : Scope) (c c' : Context) (M : Literals → Nat → Meaning Unit)
    (leaves : List Atom) (s : Supply) (code : List Flat.Stmt) (s' : Supply) : Prop where
  temps_le : s.temps ≤ s'.temps
  labels_le : s.labels ≤ s'.labels
  fresh : Fresh c.supply.labels c'.supply.labels s.labels s'.labels (definedLabels code)
  clear : c.Tidy → Clear c' (definedLabels code)
  simulates : ∀ E : Site scope, E.kept ≤ s.temps → E.Knows c' leaves → ∀ bound,
    Simulates E.whole bound E.Matches code (fun _ => E.Matches) (M E.literals bound)

/-- Lowering from one context to another has given trees that are flattened by `x`, for something
    of this meaning. -/
structure Renders (scope : Scope) (c c' : Context) (M : Literals → Nat → Meaning Unit)
    (leaves : List Atom) (x : Flatten Unit) : Prop where
  grows : c.Grows c'
  temps : ∀ t, .temp t ∈ leaves → t = scope.frame.pointer
  flat : ∀ s, c'.supply.labels ≤ s.labels →
    ∃ code s', Yields x s () code s' ∧ Rendered scope c c' M leaves s code s'

variable {M N : Literals → Nat → Meaning Unit} {leaves leaves' : List Atom} {x y : Flatten Unit}

/-- Only what commands mean counts, not how this is put. -/
theorem Renders.congr (h : Renders scope c c' M leaves x)
    (heq : ∀ literals bound, N literals bound = M literals bound) :
    Renders scope c c' N leaves x := by
  obtain rfl : N = M := funext fun literals => funext fun bound => heq literals bound
  exact h

/-- No commands do nothing and have no code. -/
theorem renders_nil (scope : Scope) (c : Context) :
    Renders scope c c (fun _ _ => pure ()) [] (pure ()) := by
  refine ⟨Context.Grows.refl c, fun t ht => absurd ht List.not_mem_nil, ?_⟩
  intro s _
  refine ⟨[], s, yields_pure () s, Nat.le_refl _, Nat.le_refl _, Fresh.nil _ _ _ _,
    fun _ => List.forall_mem_nil _, ?_⟩
  intro E _ _ bound
  exact simulates_nil E.whole bound E.Matches

/-- One command after another. -/
theorem Renders.seq (hx : Renders scope c c₁ M leaves x) (hy : Renders scope c₁ c' N leaves' y) :
    Renders scope c c' (fun literals bound => do M literals bound; N literals bound)
      (leaves ++ leaves') (do x; y) := by
  refine ⟨hx.grows.trans hy.grows, ?_, ?_⟩
  · intro t ht
    rcases List.mem_append.mp ht with ht | ht
    · exact hx.temps t ht
    · exact hy.temps t ht
  · intro s hs
    obtain ⟨code, s₁, hyields, h⟩ := hx.flat s (Nat.le_trans hy.grows.labels hs)
    obtain ⟨code', s', hyields', h'⟩ := hy.flat s₁ (Nat.le_trans hs h.labels_le)
    refine ⟨code ++ code', s', hyields.bind hyields', Nat.le_trans h.temps_le h'.temps_le,
      Nat.le_trans h.labels_le h'.labels_le, ?_, ?_, ?_⟩
    · rw [definedLabels_append]
      exact h.fresh.append h'.fresh hx.grows.labels hy.grows.labels hs h.labels_le h'.labels_le
    · intro htidy
      have htidy₁ := hx.grows.tidy htidy
      rw [definedLabels_append]
      exact ((h.clear htidy).grow h.fresh hy.grows (hy.grows.tidy htidy₁) hs).append
        (h'.clear htidy₁)
    · intro E hkept hknows bound
      refine (h.simulates E hkept ?_ bound).bind fun _ => h'.simulates E ?_ ?_ bound
      · exact hknows.mono hy.grows (List.subset_append_left _ _)
      · exact Nat.le_trans hkept h.temps_le
      · exact hknows.mono (Context.Grows.refl c') (List.subset_append_right _ _)

/-- A statement without control flow. -/
theorem renders_stmt {st : Tree.Stmt} (hgrows : c.Grows c')
    (htemps : ∀ t, .temp t ∈ st.leaves → t = scope.frame.pointer)
    (hsmooth : Smooth (fun _ => True) (stmt st)) (hM : ∀ literals bound, Settled (M literals bound))
    (hexec : ∀ literals, c'.Within literals → ∀ bound m m',
      (M literals bound).run m = .ok ((), m') → (exec st).run.run m = (.ok (), m')) :
    Renders scope c c' M st.leaves (stmt st) := by
  refine ⟨hgrows, htemps, ?_⟩
  intro s hs
  obtain ⟨⟨⟩, code, s', hyields, -, hacts, hlabels, hle⟩ := hsmooth s
  refine ⟨code, s', hyields, hle, Nat.le_of_eq hlabels.symm, ?_, ?_, ?_⟩
  · rw [hacts.definedLabels]
    exact Fresh.nil _ _ _ _
  · rw [hacts.definedLabels]
    exact fun _ => List.forall_mem_nil _
  · intro E hkept hknows bound
    refine simulates_of_yields (Q := fun _ _ => E.Matches) hyields (hM _ _) ?_ bound
    intro m v m' haddrs hrun
    obtain ⟨haddrs', code, s', hyields, hspec⟩ := stmt_correct st hkept haddrs
      (hknows.fits htemps) (hexec E.literals hknows.literals bound m m' hrun)
    refine ⟨(), code, s', hyields, ?_⟩
    intro x hagree
    obtain ⟨x', hperf, hagree'⟩ := hspec.performs x hagree
    exact ⟨x', hperf, haddrs', hagree'⟩

/-- An assignment between plain expressions is a row of actions. -/
theorem smooth_store {addr src : Tree.Expr} (haddr : addr.Plain) (hsrc : src.Plain) :
    Smooth (fun _ => True) (stmt (.move (.mem addr) src)) := by
  have hx := smooth_capture ((smooth_rhs hsrc).bind fun r _ => smooth_materialize r)
  have hy := smooth_capture ((smooth_rhs haddr).bind fun r _ => smooth_materialize r)
  rw [stmt]
  refine hx.bind fun p hp => hy.bind fun q hq => (smooth_protect hp q.defs).bind fun p' hp' => ?_
  exact (smooth_emit (hp'.append hq)).bind fun _ _ => smooth_emit (acts_single _)

/-- A plain expression that is evaluated for its effects is a row of actions. -/
theorem smooth_eval {e : Tree.Expr} (he : e.Plain) : Smooth (fun _ => True) (stmt (.eval e)) := by
  rw [stmt]
  refine (smooth_rhs he).bind fun r _ => ?_
  cases r with
  | call f args => exact smooth_emit (acts_single _)
  | _ => exact smooth_pure trivial

/-- A conditional, with three labels taken between the condition and the branches. -/
theorem renders_conditional {c₂ c₃ : Context} {cond : Tree.Expr} {T : Literals → Meaning Word}
    {as bs : List Tree.Stmt} (hcond : Lowered scope c c₁ T cond)
    (hT : ∀ literals, Settled (T literals)) (hgrows : c₁.Grows c₂)
    (hlabels : c₂.supply.labels = c₁.supply.labels + 3) (hstrings : c₂.strings = c₁.strings)
    (ha : Renders scope c₂ c₃ M (Tree.stmtLeaves as) (stmts as))
    (hb : Renders scope c₃ c' N (Tree.stmtLeaves bs) (stmts bs)) :
    let thenLabel : Label := .fresh c₁.supply.labels
    let elseLabel : Label := .fresh (c₁.supply.labels + 1)
    let endLabel : Label := .fresh (c₁.supply.labels + 2)
    let st := Tree.Stmt.seq ([Tree.Stmt.branch cond thenLabel elseLabel,
      Tree.Stmt.label thenLabel] ++ as ++ [Tree.Stmt.jump endLabel, Tree.Stmt.label elseLabel] ++
      bs ++ [Tree.Stmt.jump endLabel, Tree.Stmt.label endLabel])
    Renders scope c c' (fun literals bound => do
      if (← T literals) ≠ 0 then M literals bound else N literals bound) st.leaves (stmt st) := by
  intro thenLabel elseLabel endLabel st
  have hleaves : st.leaves = cond.leaves ++ (Tree.stmtLeaves as ++ Tree.stmtLeaves bs) := by
    simp [st, Tree.Stmt.leaves, Tree.stmtLeaves, Tree.stmtLeaves_append]
  rw [hleaves]
  refine ⟨hcond.grows.trans (hgrows.trans (ha.grows.trans hb.grows)), ?_, ?_⟩
  · intro t ht
    rcases List.mem_append.mp ht with ht | ht
    · exact hcond.temps t ht
    · rcases List.mem_append.mp ht with ht | ht
      · exact ha.temps t ht
      · exact hb.temps t ht
  · intro s hs
    have hc₃ := hb.grows.labels
    have hc₂ := ha.grows.labels
    obtain ⟨t, test, s₁, hytest, hacts, hs₁, htemps, htest⟩ := hcond.test hT s
    have hs₂ : (s₁.skip 0 1).labels = s.labels + 1 := congrArg (· + 1) hs₁
    obtain ⟨a, s₃, hya, hra⟩ := ha.flat (s₁.skip 0 1) (by omega)
    have hs₃ := hra.labels_le
    obtain ⟨b, s', hyb, hrb⟩ := hb.flat s₃ (by omega)
    have hs' := hrb.labels_le
    refine ⟨conditional test t thenLabel (.fresh s₁.labels) elseLabel endLabel a b, s',
      yields_conditional hytest hya hyb _ _ _, ?_, by omega, ?_, ?_, ?_⟩
    · exact Nat.le_trans htemps (Nat.le_trans hra.temps_le hrb.temps_le)
    · -- the three labels of its own come below those of the branches
      have hfresh := hra.fresh.append hrb.fresh hc₂ hc₃ (by omega) hs₃ hs'
      rw [hlabels, hs₂] at hfresh
      have hall := (Fresh.own (by omega)).append hfresh (by omega) (by omega) hs (by omega)
        (by omega)
      rw [hs₁]
      exact (hall.perm (perm_definedLabels_conditional hacts _ _ _ _ _ _ _)).widen
        hcond.grows.labels (Nat.le_refl _)
    · intro htidy
      have htidy₁ := hcond.grows.tidy htidy
      have htidy₂ := hgrows.tidy htidy₁
      have htidy₃ := ha.grows.tidy htidy₂
      have hown := Fresh.own (c := c₁.supply.labels) (s := s₁.labels) (by omega)
      rw [← hlabels] at hown
      have hall := ((clear_own htidy₁ hstrings (by omega)).grow hown
        (ha.grows.trans hb.grows) (hb.grows.tidy htidy₃) (by omega)).append
        (((hra.clear htidy₂).grow hra.fresh hb.grows (hb.grows.tidy htidy₃) (by omega)).append
          (hrb.clear htidy₃))
      intro l hl
      exact hall l ((perm_definedLabels_conditional hacts _ _ _ _ _ _ _).mem_iff.mpr hl)
    · -- what is known afterwards is known for each of the three parts
      intro E hkept hknows bound
      have hkept₂ : E.kept ≤ (s₁.skip 0 1).temps := Nat.le_trans hkept htemps
      refine simulates_conditional E.nodup (htest E hkept ?_ bound)
        (hra.simulates E hkept₂ ?_ bound)
        (hrb.simulates E (Nat.le_trans hkept₂ hra.temps_le) ?_ bound) _ _ _ _
      · exact hknows.mono (hgrows.trans (ha.grows.trans hb.grows)) (List.subset_append_left _ _)
      · exact hknows.mono hb.grows (List.subset_append_of_subset_right _
          (List.subset_append_left _ _))
      · exact hknows.mono (Context.Grows.refl c') (List.subset_append_of_subset_right _
          (List.subset_append_right _ _))

/-- A loop, with three labels taken between the condition and the body. -/
theorem renders_loop {c₂ : Context} {cond : Tree.Expr} {T : Literals → Meaning Word}
    {as : List Tree.Stmt} (hcond : Lowered scope c c₁ T cond)
    (hT : ∀ literals, Settled (T literals)) (hgrows : c₁.Grows c₂)
    (hlabels : c₂.supply.labels = c₁.supply.labels + 3) (hstrings : c₂.strings = c₁.strings)
    (ha : Renders scope c₂ c' M (Tree.stmtLeaves as) (stmts as)) :
    let condLabel : Label := .fresh c₁.supply.labels
    let bodyLabel : Label := .fresh (c₁.supply.labels + 1)
    let endLabel : Label := .fresh (c₁.supply.labels + 2)
    let st := Tree.Stmt.seq ([Tree.Stmt.label condLabel, Tree.Stmt.branch cond bodyLabel endLabel,
      Tree.Stmt.label bodyLabel] ++ as ++ [Tree.Stmt.jump condLabel, Tree.Stmt.label endLabel])
    Renders scope c c' (fun literals bound => rounds (T literals) (M literals bound) bound)
      st.leaves (stmt st) := by
  intro condLabel bodyLabel endLabel st
  have hleaves : st.leaves = cond.leaves ++ Tree.stmtLeaves as := by
    simp [st, Tree.Stmt.leaves, Tree.stmtLeaves, Tree.stmtLeaves_append]
  rw [hleaves]
  refine ⟨hcond.grows.trans (hgrows.trans ha.grows), ?_, ?_⟩
  · intro t ht
    rcases List.mem_append.mp ht with ht | ht
    · exact hcond.temps t ht
    · exact ha.temps t ht
  · intro s hs
    have hc₂ := ha.grows.labels
    obtain ⟨t, test, s₁, hytest, hacts, hs₁, htemps, htest⟩ := hcond.test hT s
    have hs₂ : (s₁.skip 0 1).labels = s.labels + 1 := congrArg (· + 1) hs₁
    obtain ⟨a, s', hya, hra⟩ := ha.flat (s₁.skip 0 1) (by omega)
    have hs' := hra.labels_le
    refine ⟨loop test t condLabel bodyLabel (.fresh s₁.labels) endLabel a, s',
      yields_loop hytest hya _ _ _, Nat.le_trans htemps hra.temps_le, by omega, ?_, ?_, ?_⟩
    · have hfresh := hra.fresh
      rw [hlabels, hs₂] at hfresh
      have hall := (Fresh.own (by omega)).append hfresh (by omega) (by omega) hs (by omega)
        (by omega)
      rw [hs₁]
      exact (hall.perm (perm_definedLabels_loop hacts _ _ _ _ _ _)).widen hcond.grows.labels
        (Nat.le_refl _)
    · intro htidy
      have htidy₁ := hcond.grows.tidy htidy
      have htidy₂ := hgrows.tidy htidy₁
      have hown := Fresh.own (c := c₁.supply.labels) (s := s₁.labels) (by omega)
      rw [← hlabels] at hown
      have hall := ((clear_own htidy₁ hstrings (by omega)).grow hown ha.grows
        (ha.grows.tidy htidy₂) (by omega)).append (hra.clear htidy₂)
      intro l hl
      exact hall l ((perm_definedLabels_loop hacts _ _ _ _ _ _).mem_iff.mpr hl)
    · intro E hkept hknows bound
      refine simulates_loop E.nodup (htest E hkept ?_ bound)
        (hra.simulates E (Nat.le_trans hkept htemps) ?_ bound) _ _ _ _
      · exact hknows.mono (hgrows.trans ha.grows) (List.subset_append_left _ _)
      · exact hknows.mono (Context.Grows.refl c') (List.subset_append_right _ _)

/-- Three labels, taken one after the other. -/
theorem eq_of_freshLabels {c₂ : Context} {l₁ l₂ l₃ : Label}
    (h₁ : freshLabel.run.run c = (.ok l₁, c₁)) (h₂ : freshLabel.run.run c₁ = (.ok l₂, c₂))
    (h₃ : freshLabel.run.run c₂ = (.ok l₃, c')) :
    l₁ = .fresh c.supply.labels ∧ l₂ = .fresh (c.supply.labels + 1) ∧
      l₃ = .fresh (c.supply.labels + 2) ∧ c.Grows c' ∧
      c'.supply.labels = c.supply.labels + 3 ∧ c'.strings = c.strings := by
  obtain ⟨rfl, rfl⟩ := eq_of_ok_eq h₁
  obtain ⟨rfl, rfl⟩ := eq_of_ok_eq h₂
  obtain ⟨rfl, rfl⟩ := eq_of_ok_eq h₃
  exact ⟨rfl, rfl, rfl, (c.grows_freshLabel.trans (Context.grows_freshLabel _)).trans
    (Context.grows_freshLabel _), rfl, rfl⟩

mutual

/-- The tree of a command is flattened to code that does what the command means. -/
theorem command_renders (cmd : Command) {c c' : Context} {st : Tree.Stmt}
    (h : (command scope cmd).run.run c = (.ok st, c')) :
    Renders scope c c' (fun literals bound => cmd.meaning scope literals bound) st.leaves
      (stmt st) := by
  cases cmd with
  | assign place src =>
      rw [command] at h
      obtain ⟨dst, c₁, hdst, h⟩ := run_bind_eq_ok.mp h
      obtain ⟨e, c₂, he, h⟩ := run_bind_eq_ok.mp h
      obtain ⟨rfl, rfl⟩ := eq_of_ok_eq h
      have hplace := addr_lowered place hdst
      have hsrc := value_lowered src he
      refine renders_stmt (hplace.grows.trans hsrc.grows) ?_
        (smooth_store hplace.plain hsrc.plain) ?_ ?_
      · intro t ht
        rcases List.mem_append.mp ht with ht | ht
        · exact hplace.temps t ht
        · exact hsrc.temps t ht
      · intro literals bound
        rw [Command.meaning]
        exact (settled_operand scope literals src).bind fun _ =>
          (settled_place scope literals place).bind fun _ => settled_modifyGet _
      · intro literals hliterals bound m m' hrun
        rw [Command.meaning] at hrun
        obtain ⟨v, m₁, hv, hrun⟩ := run_meaning_eq_ok.mp hrun
        obtain ⟨a, m₂, ha, hrun⟩ := run_meaning_eq_ok.mp hrun
        cases hrun
        -- the meaning and the tree both compute the source before the place
        rw [exec]
        refine run_bind_eq_ok.mpr ⟨v, m₁, hsrc.means literals hliterals m v m₁ hv, ?_⟩
        exact run_bind_eq_ok.mpr ⟨a, m₂,
          hplace.means literals (hsrc.grows.within hliterals) m₁ a m₂ ha, rfl⟩
  | eval operand =>
      rw [command] at h
      obtain ⟨e, c₁, he, h⟩ := run_bind_eq_ok.mp h
      obtain ⟨rfl, rfl⟩ := eq_of_ok_eq h
      have hvalue := value_lowered operand he
      refine renders_stmt hvalue.grows hvalue.temps (smooth_eval hvalue.plain) ?_ ?_
      · intro literals bound
        rw [Command.meaning]
        exact (settled_operand scope literals operand).map _
      · intro literals hliterals bound m m' hrun
        rw [Command.meaning] at hrun
        obtain ⟨v, m₁, hv, hrun⟩ := run_meaning_eq_ok.mp hrun
        cases hrun
        rw [exec]
        exact run_bind_eq_ok.mpr ⟨v, m', hvalue.means literals hliterals m v m' hv, rfl⟩
  | cond cond thenCmds elseCmds =>
      rw [command] at h
      obtain ⟨e, c₁, he, h⟩ := run_bind_eq_ok.mp h
      obtain ⟨l₁, c₂, hl₁, h⟩ := run_bind_eq_ok.mp h
      obtain ⟨l₂, c₃, hl₂, h⟩ := run_bind_eq_ok.mp h
      obtain ⟨l₃, c₄, hl₃, h⟩ := run_bind_eq_ok.mp h
      obtain ⟨as, c₅, has, h⟩ := run_bind_eq_ok.mp h
      obtain ⟨bs, c₆, hbs, h⟩ := run_bind_eq_ok.mp h
      obtain ⟨rfl, rfl⟩ := eq_of_ok_eq h
      obtain ⟨rfl, rfl, rfl, hgrows, hlabels, hstrings⟩ := eq_of_freshLabels hl₁ hl₂ hl₃
      refine (renders_conditional (value_lowered cond he) (fun literals =>
        settled_operand scope literals cond) hgrows hlabels hstrings (commands_renders thenCmds has)
        (commands_renders elseCmds hbs)).congr fun literals bound => ?_
      rw [Command.meaning]
  | loop cond body =>
      rw [command] at h
      obtain ⟨e, c₁, he, h⟩ := run_bind_eq_ok.mp h
      obtain ⟨l₁, c₂, hl₁, h⟩ := run_bind_eq_ok.mp h
      obtain ⟨l₂, c₃, hl₂, h⟩ := run_bind_eq_ok.mp h
      obtain ⟨l₃, c₄, hl₃, h⟩ := run_bind_eq_ok.mp h
      obtain ⟨as, c₅, has, h⟩ := run_bind_eq_ok.mp h
      obtain ⟨rfl, rfl⟩ := eq_of_ok_eq h
      obtain ⟨rfl, rfl, rfl, hgrows, hlabels, hstrings⟩ := eq_of_freshLabels hl₁ hl₂ hl₃
      refine (renders_loop (value_lowered cond he) (fun literals =>
        settled_operand scope literals cond) hgrows hlabels hstrings
        (commands_renders body has)).congr fun literals bound => ?_
      rw [Command.meaning]

/-- The trees of commands are flattened to code that does what the commands mean. -/
theorem commands_renders (cmds : List Command) {c c' : Context} {sts : List Tree.Stmt}
    (h : (commands scope cmds).run.run c = (.ok sts, c')) :
    Renders scope c c' (fun literals bound => commandMeanings scope literals bound cmds)
      (Tree.stmtLeaves sts) (stmts sts) := by
  cases cmds with
  | nil =>
      rw [commands] at h
      obtain ⟨rfl, rfl⟩ := eq_of_ok_eq h
      rw [stmts]
      refine (renders_nil scope c).congr fun literals bound => ?_
      rw [commandMeanings]
  | cons cmd cmds =>
      rw [commands] at h
      obtain ⟨st, c₁, hst, h⟩ := run_bind_eq_ok.mp h
      obtain ⟨sts, c₂, hsts, h⟩ := run_bind_eq_ok.mp h
      obtain ⟨rfl, rfl⟩ := eq_of_ok_eq h
      rw [stmts]
      refine ((command_renders cmd hst).seq (commands_renders cmds hsts)).congr
        fun literals bound => ?_
      rw [commandMeanings]

end

end Source

end MmixBackend
