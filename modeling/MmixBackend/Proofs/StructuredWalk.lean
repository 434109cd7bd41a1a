import MmixBackend.Proofs.FlatWalk
import MmixBackend.Proofs.FlattenMeaning
import MmixBackend.Proofs.FoldLabels
import MmixBackend.Proofs.SourceMeaning

/-!
# Structured control flow with labels and jumps

A piece of flat code *simulates* a meaning if control passes from its start to its end whenever the
meaning comes to an end, and stays on its way for long if the meaning is unfinished. A relation
between the machine of the meaning and that of the flat code is kept. The rules:

* **`Realizes`** — what control does for a value, for an error and for an unfinished meaning.
* **`Simulates.bind`** — one piece of code behind another.
* **`simulates_of_performs`** — code without transfers.
* **`simulates_conditional`**, **`simulates_loop`** — the labels and jumps of a conditional and of a
  loop. A loop that takes more rounds than allowed keeps control going for as many statements.
-/

namespace MmixBackend.Flat

open Machine Source

-- ── Passing through code ─────────────────────────────────────────────────────

/-- In `k` statements, control goes from some statements ahead to others. -/
def Passes (whole : List Stmt) (k : Nat) (ahead : List Stmt) (x : Machine) (ahead' : List Stmt)
    (x' : Machine) : Prop :=
  ∀ reached, ∃ reached',
    (Walk.step whole)^[k] ⟨.running ahead, x, reached⟩ = ⟨.running ahead', x', reached'⟩

variable {whole ahead ahead₁ ahead' rest : List Stmt} {k k' : Nat} {x x₁ x' : Machine} {l : Label}

theorem passes_refl (whole ahead : List Stmt) (x : Machine) : Passes whole 0 ahead x ahead x :=
  fun reached => ⟨reached, rfl⟩

/-- One way through the code behind another one. -/
theorem Passes.trans (h : Passes whole k ahead x ahead₁ x₁)
    (h' : Passes whole k' ahead₁ x₁ ahead' x') : Passes whole (k + k') ahead x ahead' x' := by
  intro reached
  obtain ⟨reached₁, h⟩ := h reached
  obtain ⟨reached', h'⟩ := h' reached₁
  refine ⟨reached', ?_⟩
  rw [Nat.add_comm, Function.iterate_add_apply, h, h']

theorem passes_label (whole : List Stmt) (l : Label) (rest : List Stmt) (x : Machine) :
    Passes whole 1 (.label l :: rest) x rest x :=
  fun reached => ⟨reached ++ [l], rfl⟩

theorem passes_act {a : Action} (h : x.act a = (.ok (), x')) (rest : List Stmt) :
    Passes whole 1 (.act a :: rest) x rest x' := by
  intro reached
  refine ⟨reached, ?_⟩
  rw [Function.iterate_one, Walk.step_act h]

/-- A transfer to a label goes on behind the only definition of the label. -/
theorem passes_transfer (hnodup : (definedLabels whole).Nodup) {t : Transfer}
    (h : .label (x.target t) :: rest <:+ whole) (behind : List Stmt) :
    Passes whole 2 (.transfer t :: behind) x rest x := by
  intro reached
  refine ⟨reached ++ [x.target t], ?_⟩
  show (Walk.step whole)^[1] (Walk.step whole _) = _
  rw [Walk.step_transfer, arrival, codeFrom_of_suffix hnodup h]
  rfl

/-- Actions that can be performed are passed, whatever stands behind them. -/
theorem passes_of_performs {code : List Stmt} (h : Performs x code x') (post : List Stmt) :
    ∃ k, Passes whole k (code ++ post) x post x' := by
  induction h with
  | nil x => exact ⟨0, passes_refl whole post x⟩
  | label _ ih =>
      obtain ⟨k, ih⟩ := ih
      exact ⟨1 + k, (passes_label whole _ _ _).trans ih⟩
  | act ha _ ih =>
      obtain ⟨k, ih⟩ := ih
      exact ⟨1 + k, (passes_act ha _).trans ih⟩

/-- Control that gets to a jump out of the code leaves it there. -/
theorem Passes.leaves {m : Machine} (h : Passes whole k whole m (.transfer (.jump l) :: rest) x)
    (hl : l ∉ definedLabels whole) {fuel : Nat} (hfuel : k + 1 ≤ fuel) :
    m.run whole fuel = (.ok (some l), x) := by
  obtain ⟨reached, h⟩ := h []
  obtain ⟨j, rfl⟩ := Nat.exists_eq_add_of_le' hfuel
  have hnone : codeFrom l whole = none := codeFrom_eq_none_iff.mpr (mt mem_definedLabels.mpr hl)
  have hafter : Walk.after whole m (k + 1) = ⟨.left l, x, reached⟩ := by
    rw [Walk.after_succ, Walk.after, Walk.start, h, Walk.step_transfer]
    show Walk.mk (arrival whole l) _ _ = _
    rw [arrival, hnone]
  have hended : (Walk.mk (.left l) x reached).Ended := by
    rintro s rest ⟨⟩
  rw [Walk.run_eq, Walk.after, Function.iterate_add_apply, ← Walk.after, hafter,
    Walk.iterate_of_ended hended]
  rfl

/-- Control that is still on its way after `k` statements has not ended before. -/
theorem Passes.outOfFuel {m : Machine} (h : Passes whole k whole m ahead x) (hne : ahead ≠ [])
    {fuel : Nat} (hfuel : fuel ≤ k) : (m.run whole fuel).1 = .error (.outOfFuel fuel) := by
  obtain ⟨reached, h⟩ := h []
  obtain ⟨j, rfl⟩ := Nat.exists_eq_add_of_le' hfuel
  have hnot : ¬ (Walk.after whole m fuel).Ended := by
    intro hended
    have hsame : (Walk.step whole)^[j + fuel] (Walk.start whole m) = Walk.after whole m fuel := by
      rw [Function.iterate_add_apply, ← Walk.after, Walk.iterate_of_ended hended]
    obtain ⟨s, rest, rfl⟩ := List.exists_cons_of_ne_nil hne
    refine hended s rest ?_
    rw [← hsame, Walk.start, h]
  obtain ⟨s, rest, hplace⟩ : ∃ s rest, (Walk.after whole m fuel).place = .running (s :: rest) := by
    simpa [Walk.Ended] using hnot
  rw [Walk.run_eq, Walk.outcome, hplace]

-- ── Realizing a meaning ──────────────────────────────────────────────────────

variable {α β : Type} {bound bound' : Nat} {mid post : List Stmt}
  {P : α → Machine → Machine → Prop} {Q : β → Machine → Machine → Prop}

/-- Control gets to `post` if the result is a value, and has a statement ahead after `bound`
    statements or more if the result is unfinished. -/
def Realizes (whole : List Stmt) (bound : Nat) (post : List Stmt)
    (Q : α → Machine → Machine → Prop) (ahead : List Stmt) (x : Machine) :
    Except Trouble (α × Machine) → Prop
  | .ok (a, m) => ∃ k x', Passes whole k ahead x post x' ∧ Q a m x'
  | .error .unfinished =>
    ∃ k ahead' x', bound ≤ k ∧ ahead' ≠ [] ∧ Passes whole k ahead x ahead' x'
  | .error .undefined => True

/-- On the way there, control may pass through other code. -/
theorem Realizes.advance {r : Except Trouble (β × Machine)}
    (hpass : Passes whole k ahead x ahead₁ x₁) (h : Realizes whole bound post Q ahead₁ x₁ r) :
    Realizes whole (k + bound) post Q ahead x r := by
  rcases r with ⟨_ | _⟩ | ⟨b, m⟩
  · trivial
  · obtain ⟨k', ahead', x', hle, hne, hpass'⟩ := h
    exact ⟨k + k', ahead', x', Nat.add_le_add_left hle k, hne, hpass.trans hpass'⟩
  · obtain ⟨k', x', hpass', hQ⟩ := h
    exact ⟨k + k', x', hpass.trans hpass', hQ⟩

/-- What goes on for a number of statements goes on for fewer. -/
theorem Realizes.mono {r : Except Trouble (β × Machine)} (h : Realizes whole bound post Q ahead x r)
    (hle : bound' ≤ bound) : Realizes whole bound' post Q ahead x r := by
  rcases r with ⟨_ | _⟩ | ⟨b, m⟩
  · trivial
  · obtain ⟨k, ahead', x', hk, h⟩ := h
    exact ⟨k, ahead', x', Nat.le_trans hle hk, h⟩
  · exact h

/-- Code for one meaning up to some place, and for what follows from there on, is code for both. -/
theorem Realizes.bind {M : Meaning α} {N : α → Meaning β} {m : Machine}
    (h : Realizes whole bound mid P ahead x (M.run m))
    (hN : ∀ a m' x', P a m' x' → Realizes whole bound post Q mid x' ((N a).run m')) :
    Realizes whole bound post Q ahead x ((M >>= N).run m) := by
  rw [run_bind_meaning]
  rcases hM : M.run m with ⟨_ | _⟩ | ⟨a, m'⟩
  · trivial
  · rw [hM] at h
    exact h
  · rw [hM] at h
    obtain ⟨k, x', hpass, hP⟩ := h
    exact ((hN a m' x' hP).advance hpass).mono (Nat.le_add_left _ _)

-- ── Pieces of code ───────────────────────────────────────────────────────────

/-- Wherever the code stands in `whole`, a run through it realizes the meaning: from machines in
    the relation `R` to machines in the relation `Q`. -/
def Simulates (whole : List Stmt) (bound : Nat) (R : Machine → Machine → Prop) (code : List Stmt)
    (Q : α → Machine → Machine → Prop) (M : Meaning α) : Prop :=
  ∀ post, code ++ post <:+ whole → ∀ m x, R m x →
    Realizes whole bound post Q (code ++ post) x (M.run m)

variable {R : Machine → Machine → Prop} {code code' : List Stmt}

/-- Pieces of code one behind the other simulate the meanings one after the other. -/
theorem Simulates.bind {M : Meaning α} {N : α → Meaning β} (h : Simulates whole bound R code P M)
    (h' : ∀ a, Simulates whole bound (P a) code' Q (N a)) :
    Simulates whole bound R (code ++ code') Q (M >>= N) := by
  intro post hsuffix m x hR
  rw [List.append_assoc] at hsuffix ⊢
  have hrest : code' ++ post <:+ whole := (List.suffix_append _ _).trans hsuffix
  exact (h (code' ++ post) hsuffix m x hR).bind fun a m' x' hP => h' a post hrest m' x' hP

theorem simulates_nil (whole : List Stmt) (bound : Nat) (R : Machine → Machine → Prop) :
    Simulates whole bound R [] (fun _ => R) (pure ()) :=
  fun post _ _ x hR => ⟨0, x, passes_refl whole post x, hR⟩

/-- Code without transfers does not have to stand anywhere. -/
theorem simulates_of_performs {M : Meaning α} (hM : Settled M)
    (h : ∀ m x a m', R m x → M.run m = .ok (a, m') → ∃ x', Performs x code x' ∧ P a m' x') :
    Simulates whole bound R code P M := by
  intro post _ m x hR
  rcases hrun : M.run m with ⟨_ | _⟩ | ⟨a, m'⟩
  · trivial
  · exact absurd hrun (hM m)
  · obtain ⟨x', hperf, hP⟩ := h m x a m' hR hrun
    obtain ⟨k, hpass⟩ := passes_of_performs hperf post
    exact ⟨k, x', hpass, hP⟩

-- ── Conditionals and loops ───────────────────────────────────────────────────

/-- A branch on a temporary and what stands between it and the code for the case that it holds. -/
def guard (t : Temp) (ifTrue neg ifFalse : Label) : List Stmt :=
  [.transfer (.branch t ifTrue neg), .label neg, .transfer (.jump ifFalse), .label ifTrue]

/-- A guard leads to the code behind it or to the code at its other label. -/
theorem passes_guard (hnodup : (definedLabels whole).Nodup) {t : Temp} {ifTrue neg ifFalse : Label}
    (hsuffix : guard t ifTrue neg ifFalse ++ ahead <:+ whole)
    (hfalse : .label ifFalse :: rest <:+ whole) (x : Machine) :
    ∃ k, Passes whole k (guard t ifTrue neg ifFalse ++ ahead) x
      (if x.temp t ≠ 0 then ahead else rest) x := by
  have hbehind : .label neg :: .transfer (.jump ifFalse) :: .label ifTrue :: ahead <:+ whole :=
    (List.suffix_cons _ _).trans hsuffix
  by_cases ht : x.temp t ≠ 0
  · have htarget : x.target (.branch t ifTrue neg) = ifTrue := if_pos ht
    rw [if_pos ht]
    refine ⟨2, passes_transfer hnodup ?_ _⟩
    rw [htarget]
    exact ((List.suffix_cons _ _).trans (List.suffix_cons _ _)).trans hbehind
  · have htarget : x.target (.branch t ifTrue neg) = neg := if_neg ht
    rw [if_neg ht]
    have hneg : Passes whole 2 (guard t ifTrue neg ifFalse ++ ahead) x
        (.transfer (.jump ifFalse) :: .label ifTrue :: ahead) x := by
      refine passes_transfer hnodup ?_ _
      rw [htarget]
      exact hbehind
    exact ⟨2 + 2, hneg.trans (passes_transfer (t := .jump ifFalse) hnodup hfalse _)⟩

/-- Behind a guard, the code for the case that its temporary decides is run. -/
theorem realizes_guard (hnodup : (definedLabels whole).Nodup) {t : Temp}
    {ifTrue neg ifFalse : Label} (hsuffix : guard t ifTrue neg ifFalse ++ ahead <:+ whole)
    (hfalse : .label ifFalse :: rest <:+ whole) {A B : Meaning β} {m x : Machine}
    (hA : Realizes whole bound post Q ahead x (A.run m))
    (hB : Realizes whole bound post Q rest x (B.run m)) :
    Realizes whole bound post Q (guard t ifTrue neg ifFalse ++ ahead) x
      ((if x.temp t ≠ 0 then A else B).run m) := by
  obtain ⟨k, hpass⟩ := passes_guard hnodup hsuffix hfalse x
  refine Realizes.mono (Realizes.advance hpass ?_) (Nat.le_add_left bound k)
  split
  · exact hA
  · exact hB

/-- The code of a conditional. -/
def conditional (test : List Stmt) (t : Temp) (thenLabel neg elseLabel endLabel : Label)
    (thenCode elseCode : List Stmt) : List Stmt :=
  test ++ (guard t thenLabel neg elseLabel ++ (thenCode ++
    (.transfer (.jump endLabel) :: .label elseLabel :: (elseCode ++
      [.transfer (.jump endLabel), .label endLabel]))))

/-- The code of a loop. -/
def loop (test : List Stmt) (t : Temp) (condLabel bodyLabel neg endLabel : Label)
    (body : List Stmt) : List Stmt :=
  .label condLabel :: (test ++ (guard t bodyLabel neg endLabel ++ (body ++
    [.transfer (.jump condLabel), .label endLabel])))

variable {test : List Stmt} {t : Temp} {cond : Meaning Word}

theorem suffix_behind {xs ys : List Stmt} (h : xs ++ ys <:+ whole) : ys <:+ whole :=
  (List.suffix_append _ _).trans h

/-- A conditional runs one of its branches. -/
theorem simulates_conditional (hnodup : (definedLabels whole).Nodup)
    (htest : Simulates whole bound R test (fun v m x => R m x ∧ x.temp t = v) cond)
    {thenCode elseCode : List Stmt} {A B : Meaning Unit}
    (hthen : Simulates whole bound R thenCode (fun _ => R) A)
    (helse : Simulates whole bound R elseCode (fun _ => R) B)
    (thenLabel neg elseLabel endLabel : Label) :
    Simulates whole bound R
      (conditional test t thenLabel neg elseLabel endLabel thenCode elseCode) (fun _ => R)
      (do if (← cond) ≠ 0 then A else B) := by
  intro post hsuffix m x hR
  simp only [conditional, List.append_assoc, List.cons_append, List.nil_append] at hsuffix ⊢
  have hguard := suffix_behind hsuffix
  have hA := suffix_behind hguard
  have hjump := suffix_behind hA
  have helseLabel := (List.suffix_cons _ _).trans hjump
  have hB := (List.suffix_cons _ _).trans helseLabel
  have hlast := suffix_behind hB
  have hend := (List.suffix_cons _ _).trans hlast
  refine (htest _ hsuffix m x hR).bind ?_
  rintro v m₁ x₁ ⟨hR₁, rfl⟩
  refine realizes_guard hnodup hguard helseLabel ?_ ?_
  · rw [← bind_pure A]
    refine (hthen _ hA m₁ x₁ hR₁).bind fun _ m₂ x₂ hR₂ => ?_
    exact ⟨2, x₂, passes_transfer (t := .jump endLabel) hnodup hend _, hR₂⟩
  · rw [← bind_pure B]
    refine (helse _ hB m₁ x₁ hR₁).bind fun _ m₂ x₂ hR₂ => ?_
    exact ⟨2, x₂, passes_transfer (t := .jump endLabel) hnodup hend _, hR₂⟩

/-- A loop tests before every round. Each round takes a statement at least, so that a loop that
    is out of rounds has kept control going for as long. -/
theorem realizes_rounds (hnodup : (definedLabels whole).Nodup)
    (htest : Simulates whole bound R test (fun v m x => R m x ∧ x.temp t = v) cond)
    {body : List Stmt} {B : Meaning Unit} (hbody : Simulates whole bound R body (fun _ => R) B)
    {condLabel bodyLabel neg endLabel : Label}
    (hsuffix : .label condLabel :: (test ++ (guard t bodyLabel neg endLabel ++ (body ++
      (.transfer (.jump condLabel) :: .label endLabel :: post)))) <:+ whole)
    {n : Nat} (hn : n ≤ bound) {m x : Machine} (hR : R m x) :
    Realizes whole n post (fun _ => R) (test ++ (guard t bodyLabel neg endLabel ++ (body ++
      (.transfer (.jump condLabel) :: .label endLabel :: post)))) x
      ((rounds cond B n).run m) := by
  have htop := (List.suffix_cons _ _).trans hsuffix
  have hguard := suffix_behind htop
  have hB := suffix_behind hguard
  have hend := (List.suffix_cons _ _).trans (suffix_behind hB)
  induction n generalizing m x with
  | zero =>
      refine ((htest _ htop m x hR).mono hn).bind ?_
      rintro v m₁ x₁ ⟨hR₁, rfl⟩
      refine realizes_guard hnodup hguard hend ?_ ⟨0, x₁, passes_refl whole post x₁, hR₁⟩
      exact ⟨0, _, x₁, Nat.le_refl 0, List.append_ne_nil_of_right_ne_nil _ (List.cons_ne_nil _ _),
        passes_refl whole _ x₁⟩
  | succ n ih =>
      refine ((htest _ htop m x hR).mono hn).bind ?_
      rintro v m₁ x₁ ⟨hR₁, rfl⟩
      refine realizes_guard hnodup hguard hend ?_ ⟨0, x₁, passes_refl whole post x₁, hR₁⟩
      refine ((hbody _ hB m₁ x₁ hR₁).mono hn).bind fun _ m₂ x₂ hR₂ => ?_
      have hback := passes_transfer (t := .jump condLabel) (x := x₂) hnodup hsuffix
        (.label endLabel :: post)
      exact Realizes.mono (Realizes.advance hback (ih (Nat.le_of_succ_le hn) hR₂)) (by omega)

/-- The code of a loop simulates as many rounds as are allowed, by induction on their number. -/
theorem simulates_loop (hnodup : (definedLabels whole).Nodup)
    (htest : Simulates whole bound R test (fun v m x => R m x ∧ x.temp t = v) cond)
    {body : List Stmt} {B : Meaning Unit} (hbody : Simulates whole bound R body (fun _ => R) B)
    (condLabel bodyLabel neg endLabel : Label) :
    Simulates whole bound R (loop test t condLabel bodyLabel neg endLabel body) (fun _ => R)
      (rounds cond B bound) := by
  intro post hsuffix m x hR
  simp only [loop, List.append_assoc, List.cons_append, List.nil_append] at hsuffix ⊢
  exact Realizes.mono (Realizes.advance (passes_label whole condLabel _ x)
    (realizes_rounds hnodup htest hbody hsuffix (Nat.le_refl bound) hR)) (Nat.le_add_left _ _)

end MmixBackend.Flat
