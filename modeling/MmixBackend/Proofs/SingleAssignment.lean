import MmixBackend.Proofs.LoweredShape

/-!
# Flattening assigns its temporaries once

Flattening hands out temporaries where it moves an operation to one, where it copies an operand and
where it names the argument of a call. The code of operands is kept apart until all of them are
there, and copies are numbered after it, from right to left. So neither the order of the numbers nor
that of the moves tells much. What stays is that each piece of code, wherever it will stand,
assigns its own temporaries, each of them once, and reads no others that are not of the tree.

* **`Grounded`** — code that reads only what is known or assigned before.
* **`Accounted`** — code with what it assigns altogether and what may be used behind it;
  **`Accounted.append`** joins it.
* **`Ensures`** — what holds of a step of flattening, with the numbers of temporaries handed out.
* **`ensures_protectAll`** — copies of operands, each at the end of the code of its operand.
* **`ensures_rhs`** and its companions — by induction on the tree.
* **`fresh_temps_are_assigned_once`** — statements.
-/

namespace MmixBackend

open Spill (tempsBetween mem_tempsBetween tempsBetween_self tempsBetween_succ tempsBetween_append
  nodup_tempsBetween)

-- ── Moves in a tree ──────────────────────────────────────────────────────────

namespace Tree

/-- The temporary that an expression stands for as a destination. -/
def Expr.temp? : Expr → Option Temp
  | .temp t => some t
  | _ => none

mutual

/-- The temporaries that the moves in an expression assign, once for each move. -/
def Expr.assigned : Expr → List Temp
  | .const _ => []
  | .temp _ => []
  | .name _ => []
  | .mem addr => addr.assigned
  | .binop _ x y => x.assigned ++ y.assigned
  | .unop _ x => x.assigned
  | .call _ args => exprAssigned args
  | .seq s result => s.assigned ++ result.assigned

/-- The temporaries that the moves in a statement assign, once for each move. -/
def Stmt.assigned : Stmt → List Temp
  | .label _ => []
  | .jump _ => []
  | .branch cond _ _ => cond.assigned
  | .move dst src => dst.temp?.toList ++ dst.assigned ++ src.assigned
  | .eval e => e.assigned
  | .seq ss => stmtAssigned ss

/-- The temporaries that the moves in the expressions of a list assign. -/
def exprAssigned : List Expr → List Temp
  | [] => []
  | e :: es => e.assigned ++ exprAssigned es

/-- The temporaries that the moves in the statements of a list assign. -/
def stmtAssigned : List Stmt → List Temp
  | [] => []
  | s :: ss => s.assigned ++ stmtAssigned ss

end

variable {t : Temp}

mutual

/-- What the moves in an expression assign is among its leaves. By induction on the tree. -/
theorem Expr.mem_leaves_of_assigned (e : Expr) (ht : t ∈ e.assigned) :
    Flat.Atom.temp t ∈ e.leaves := by
  cases e with
  | const value => exact absurd ht List.not_mem_nil
  | temp u => exact absurd ht List.not_mem_nil
  | name l => exact absurd ht List.not_mem_nil
  | mem addr => exact addr.mem_leaves_of_assigned ht
  | unop op x => exact x.mem_leaves_of_assigned ht
  | call f args => exact mem_exprLeaves_of_assigned args ht
  | binop op x y =>
      rcases List.mem_append.mp ht with ht | ht
      · exact List.mem_append_left _ (x.mem_leaves_of_assigned ht)
      · exact List.mem_append_right _ (y.mem_leaves_of_assigned ht)
  | seq s result =>
      rcases List.mem_append.mp ht with ht | ht
      · exact List.mem_append_left _ (s.mem_leaves_of_assigned ht)
      · exact List.mem_append_right _ (result.mem_leaves_of_assigned ht)

/-- What the moves in a statement assign is among its leaves. -/
theorem Stmt.mem_leaves_of_assigned (s : Stmt) (ht : t ∈ s.assigned) :
    Flat.Atom.temp t ∈ s.leaves := by
  cases s with
  | label l => exact absurd ht List.not_mem_nil
  | jump l => exact absurd ht List.not_mem_nil
  | branch cond ifTrue ifFalse => exact cond.mem_leaves_of_assigned ht
  | eval e => exact e.mem_leaves_of_assigned ht
  | seq ss => exact mem_stmtLeaves_of_assigned ss ht
  | move dst src =>
      rw [Stmt.assigned, List.mem_append, List.mem_append, Option.mem_toList] at ht
      rcases ht with (ht | ht) | ht
      · refine List.mem_append_left _ ?_
        cases dst with
        | temp u =>
            obtain rfl : u = t := Option.some.inj ht
            exact List.mem_cons_self
        | _ => cases ht
      · exact List.mem_append_left _ (dst.mem_leaves_of_assigned ht)
      · exact List.mem_append_right _ (src.mem_leaves_of_assigned ht)

theorem mem_exprLeaves_of_assigned (es : List Expr) (ht : t ∈ exprAssigned es) :
    Flat.Atom.temp t ∈ exprLeaves es := by
  cases es with
  | nil => exact absurd ht List.not_mem_nil
  | cons e es =>
      rcases List.mem_append.mp ht with ht | ht
      · exact List.mem_append_left _ (e.mem_leaves_of_assigned ht)
      · exact List.mem_append_right _ (mem_exprLeaves_of_assigned es ht)

theorem mem_stmtLeaves_of_assigned (ss : List Stmt) (ht : t ∈ stmtAssigned ss) :
    Flat.Atom.temp t ∈ stmtLeaves ss := by
  cases ss with
  | nil => exact absurd ht List.not_mem_nil
  | cons s ss =>
      rcases List.mem_append.mp ht with ht | ht
      · exact List.mem_append_left _ (s.mem_leaves_of_assigned ht)
      · exact List.mem_append_right _ (mem_stmtLeaves_of_assigned ss ht)

end

end Tree

namespace Flat

-- ── Flat code ────────────────────────────────────────────────────────────────

/-- The temporaries that a statement reads. -/
def Stmt.reads : Stmt → List Temp
  | .label _ => []
  | .act a => a.reads
  | .transfer t => t.temps

/-- A statement mentions what it reads and what it assigns. -/
theorem Stmt.mem_temps {st : Stmt} {t : Temp} :
    t ∈ st.temps ↔ t ∈ st.reads ∨ st.def? = some t := by
  cases st with
  | label l => simp [Stmt.temps, Stmt.reads, Stmt.def?]
  | transfer x => simp [Stmt.temps, Stmt.reads, Stmt.def?]
  | act a =>
      cases a with
      | move dst r =>
          simp [Stmt.temps, Stmt.reads, Stmt.def?, Action.temps, Action.reads, Action.def?,
            or_comm, eq_comm]
      | store addr src =>
          simp [Stmt.temps, Stmt.reads, Stmt.def?, Action.temps, Action.reads, Action.def?]
      | call f args =>
          simp [Stmt.temps, Stmt.reads, Stmt.def?, Action.temps, Action.reads, Action.def?]

/-- Code in which every statement reads only what is known or what a statement before it assigns. -/
def Grounded (known : Temp → Prop) : List Stmt → Prop
  | [] => True
  | st :: rest => (∀ t ∈ st.reads, known t) ∧ Grounded (After known [st]) rest

section Grounded

variable {known known' : Temp → Prop} {code code' : List Stmt} {t : Temp}

/-- Code stays grounded if more is known. -/
theorem Grounded.mono (hle : ∀ t, known t → known' t) (h : Grounded known code) :
    Grounded known' code := by
  induction code generalizing known known' with
  | nil => trivial
  | cons st code ih => exact ⟨fun t ht => hle t (h.1 t ht), ih (fun t => After.mono hle _) h.2⟩

/-- Code is grounded exactly if its parts are, the second one behind the first. -/
theorem grounded_append :
    Grounded known (code ++ code') ↔ Grounded known code ∧ Grounded (After known code) code' := by
  induction code generalizing known with
  | nil =>
      rw [after_nil]
      exact ⟨fun h => ⟨trivial, h⟩, fun h => h.2⟩
  | cons st code ih =>
      rw [after_cons]
      simp only [List.cons_append, Grounded, ih, and_assoc]

end Grounded

/-- Code that assigns `own`, counting each assignment. It reads only temporaries numbered below `n`
    and what it has assigned before, and so may what comes behind it, as far as `used` tells. -/
structure Accounted (n : Nat) (own : List Temp) (code : List Stmt) (used : List Temp) : Prop where
  defs : (code.filterMap Stmt.def?).Perm own
  grounded : Grounded (·.index < n) code
  used : ∀ t ∈ used, After (·.index < n) code t

namespace Accounted

variable {n : Nat} {own own' : List Temp} {code code' : List Stmt} {used used' : List Temp}

theorem nil (h : ∀ t ∈ used, t.index < n) : Accounted n [] [] used :=
  ⟨.refl [], trivial, fun t ht => .inl (h t ht)⟩

/-- The order in which assignments are counted does not matter. -/
theorem perm (h : Accounted n own code used) (hperm : own.Perm own') : Accounted n own' code used :=
  { h with defs := h.defs.trans hperm }

theorem mono (h : Accounted n own code used) (hused : ∀ t ∈ used', t ∈ used) :
    Accounted n own code used' :=
  { h with used := fun t ht => h.used t (hused t ht) }

/-- Code from two places. Neither reads what the other assigns. -/
theorem append (h : Accounted n own code used) (h' : Accounted n own' code' used') :
    Accounted n (own ++ own') (code ++ code') (used ++ used') := by
  refine ⟨?_, ?_, ?_⟩
  · rw [List.filterMap_append]
    exact h.defs.append h'.defs
  · exact grounded_append.mpr ⟨h.grounded, h'.grounded.mono fun _ => .inl⟩
  · intro t ht
    rw [after_append]
    rcases List.mem_append.mp ht with ht | ht
    · exact .inl (h.used t ht)
    · exact (h'.used t ht).mono (fun _ => .inl) code'

/-- A statement behind the code that it reads from. What it assigns may be used from then on. -/
theorem snoc (h : Accounted n own code used) (st : Stmt) (hst : ∀ t ∈ st.reads, t ∈ used) :
    Accounted n (own ++ st.def?.toList) (code ++ [st]) (st.def?.toList ++ used) := by
  have hdefs : [st].filterMap Stmt.def? = st.def?.toList := by
    cases hdef : st.def? <;> simp [hdef]
  refine ⟨?_, ?_, ?_⟩
  · rw [List.filterMap_append, hdefs]
    exact h.defs.append_right _
  · exact grounded_append.mpr ⟨h.grounded, fun t ht => h.used t (hst t ht), trivial⟩
  · intro t ht
    rw [after_append, After, hdefs]
    rcases List.mem_append.mp ht with ht | ht
    · exact .inr ht
    · exact .inl (h.used t ht)

end Accounted

-- ── Numbers of temporaries ───────────────────────────────────────────────────

/-- Code that was made while the temporaries from `m` on and below `m'` were handed out: it assigns
    these, and those that the moves of the tree assign. -/
structure Numbered (n m : Nat) (assigned : List Temp) (m' : Nat) (code : List Stmt)
    (used : List Temp) : Prop
    extends Accounted n (assigned ++ tempsBetween m m') code used where
  le : m ≤ m'

namespace Numbered

variable {n m m₁ m' : Nat} {assigned assigned' : List Temp} {code code' : List Stmt}
  {used used' : List Temp}

/-- No code hands out and assigns nothing. -/
theorem nil (h : ∀ t ∈ used, t.index < n) : Numbered n m [] m [] used := by
  refine ⟨?_, Nat.le_refl m⟩
  rw [tempsBetween_self]
  exact .nil h

theorem mono (h : Numbered n m assigned m' code used) (hused : ∀ t ∈ used', t ∈ used) :
    Numbered n m assigned m' code used' := ⟨h.toAccounted.mono hused, h.le⟩

/-- Pieces of code one behind the other hand out their temporaries one after the other. -/
theorem append (h : Numbered n m assigned m₁ code used)
    (h' : Numbered n m₁ assigned' m' code' used') :
    Numbered n m (assigned ++ assigned') m' (code ++ code') (used ++ used') := by
  refine ⟨(h.toAccounted.append h'.toAccounted).perm ?_, Nat.le_trans h.le h'.le⟩
  rw [← tempsBetween_append h.le h'.le, List.perm_iff_count]
  intro t
  simp only [List.count_append]
  omega

/-- The code goes on with code that comes from no move of the tree. -/
theorem extend {own : List Temp} (h : Numbered n m assigned m₁ code used)
    (h' : Accounted n (assigned ++ tempsBetween m m₁ ++ own) (code ++ code') used')
    (hle : m₁ ≤ m') (hown : own.Perm (tempsBetween m₁ m')) :
    Numbered n m assigned m' (code ++ code') used' := by
  refine ⟨h'.perm ?_, Nat.le_trans h.le hle⟩
  rw [← tempsBetween_append h.le hle, ← List.append_assoc]
  exact hown.append_left _

/-- A move to a fresh temporary. -/
theorem fresh (h : Numbered n m assigned m' code used) {r : Rhs} (hr : ∀ t ∈ r.temps, t ∈ used) :
    Numbered n m assigned (m' + 1) (code ++ [.act (.move ⟨m'⟩ r)]) (⟨m'⟩ :: used) := by
  refine h.extend (h.toAccounted.snoc _ hr) (Nat.le_succ m') ?_
  rw [tempsBetween_succ]
  rfl

/-- A statement that is in the tree. -/
theorem snoc (h : Numbered n m assigned m' code used) (st : Stmt)
    (hst : ∀ t ∈ st.reads, t ∈ used) :
    Numbered n m (st.def?.toList ++ assigned) m' (code ++ [st]) used := by
  refine ⟨((h.toAccounted.snoc st hst).perm ?_).mono fun t => List.mem_append_right _, h.le⟩
  rw [List.append_assoc st.def?.toList]
  exact List.perm_append_comm

end Numbered

-- ── Steps of flattening ──────────────────────────────────────────────────────

variable {α β : Type} {n m : Nat}

/-- If the step succeeds when `m` temporaries were handed out, `Q` holds of how many are then, of
    its value and of its code. -/
def Ensures (m : Nat) (x : Flatten α) (Q : Nat → α → List Stmt → Prop) : Prop :=
  ∀ s a code s', s.temps = m → Yields x s a code s' → Q s'.temps a code

section Steps

variable {P : Nat → α → List Stmt → Prop} {Q : Nat → β → List Stmt → Prop}

/-- A step that always succeeds in such a way ensures this. -/
theorem ensures_of_yields {x : Flatten α} (h : ∀ s, s.temps = m → ∃ a code s',
    Yields x s a code s' ∧ P s'.temps a code) : Ensures m x P := by
  intro s a code s' hs hyields
  obtain ⟨a₀, code₀, s₀, hyields₀, hP⟩ := h s hs
  obtain ⟨rfl, rfl, rfl⟩ := hyields₀.unique hyields
  exact hP

theorem ensures_pure {a : α} (h : P m a []) : Ensures m (pure a) P :=
  ensures_of_yields fun s hs => ⟨a, [], s, yields_pure a s, hs ▸ h⟩

/-- What a step ensures may be said with less. -/
theorem Ensures.mono {P' : Nat → α → List Stmt → Prop} {x : Flatten α} (hx : Ensures m x P)
    (h : ∀ m' a code, P m' a code → P' m' a code) : Ensures m x P' :=
  fun s a code s' hs hyields => h _ a code (hx s a code s' hs hyields)

/-- What a step ensures may rely on what the step before it has ensured. -/
theorem Ensures.bind {x : Flatten α} {f : α → Flatten β} (hx : Ensures m x P)
    (hf : ∀ m₁ a code, P m₁ a code → Ensures m₁ (f a) fun m' b code' => Q m' b (code ++ code')) :
    Ensures m (x >>= f) Q := by
  intro s b code s' hs h
  obtain ⟨a, code₁, s₁, code₂, hfirst, hsecond, rfl⟩ := h.of_bind
  exact hf _ a code₁ (hx s a code₁ s₁ hs hfirst) s₁ b code₂ s' rfl hsecond

/-- A step that emits nothing, before another one. -/
theorem Ensures.bind_silent {R : Nat → α → Prop} {x : Flatten α} {f : α → Flatten β}
    (hx : Ensures m x fun m' a code => R m' a ∧ code = [])
    (hf : ∀ m₁ a, R m₁ a → Ensures m₁ (f a) Q) : Ensures m (x >>= f) Q := by
  refine hx.bind ?_
  rintro m₁ a _ ⟨ha, rfl⟩
  exact hf m₁ a ha

theorem ensures_emit (code : List Stmt) :
    Ensures m (emit code) fun m' _ code' => m' = m ∧ code' = code :=
  ensures_of_yields fun s hs => ⟨(), code, s, yields_emit code s, hs, rfl⟩

/-- One more temporary is handed out, the next one. -/
theorem ensures_freshTemp : Ensures m (ExceptT.lift Emit.freshTemp) fun m' t code =>
    (m' = m + 1 ∧ t = ⟨m⟩) ∧ code = [] :=
  ensures_of_yields fun s hs =>
    ⟨_, [], _, yields_freshTemp s, ⟨congrArg (· + 1) hs, congrArg Temp.mk hs⟩, rfl⟩

theorem ensures_freshLabel : Ensures m (ExceptT.lift Emit.freshLabel) fun m' _ code =>
    m' = m ∧ code = [] :=
  ensures_of_yields fun s hs => ⟨_, [], { s with labels := s.labels + 1 }, ⟨[], rfl⟩, hs, rfl⟩

theorem ensures_throw (e : Error) : Ensures m (throw e : Flatten α) P := by
  rintro s a code s' hs ⟨events, hrun⟩
  cases congrArg Emitted.value hrun

/-- The code of an operand is kept apart. -/
theorem ensures_capture {x : Flatten Atom} {P : Nat → Atom → List Stmt → Prop}
    (h : Ensures m x P) :
    Ensures m (capture x) fun m' p code => P m' p.atom p.code ∧ code = [] := by
  intro s p code s' hs hyields
  obtain ⟨hx, hcode⟩ := hyields.of_capture
  exact ⟨h s p.atom p.code s' hs hx, hcode⟩

end Steps

-- ── Moves to fresh temporaries ───────────────────────────────────────────────

variable {m₀ : Nat} {assigned : List Temp} {code : List Stmt} {used : List Temp}

/-- Behind code that it reads from, a step that moves a right-hand side to a fresh temporary. -/
theorem Numbered.ensures_move (h : Numbered n m₀ assigned m code used) {r : Rhs}
    (hr : ∀ t ∈ r.temps, t ∈ used) {x : Flatten α} {a : α}
    (hx : ∀ s, s.temps = m → Yields x s a [.act (.move ⟨s.temps⟩ r)] (s.skip 1 0)) :
    Ensures m x fun m' a' code' => a' = a ∧
      Numbered n m₀ assigned m' (code ++ code') (⟨m⟩ :: used) := by
  refine ensures_of_yields fun s hs => ⟨a, _, _, hx s hs, rfl, ?_⟩
  show Numbered n m₀ assigned (s.temps + 1) _ _
  rw [hs]
  exact h.fresh hr

/-- Naming a right-hand side assigns the temporary that it hands out. -/
theorem Numbered.materialize {r : Rhs} (h : Numbered n m₀ assigned m code r.temps) :
    Ensures m (materialize r) fun m' a code' =>
      Numbered n m₀ assigned m' (code ++ code') a.temps := by
  by_cases hr : ∃ a, r = .atom a
  · obtain ⟨a, rfl⟩ := hr
    refine ensures_pure ?_
    rw [List.append_nil]
    exact h
  · refine (h.ensures_move (a := .temp ⟨m⟩) (fun _ ht => ht) fun s hs => ?_).mono ?_
    · rw [← hs]
      exact yields_materialize (fun a ha => hr ⟨a, ha⟩) s
    · rintro m' _ code' ⟨rfl, h'⟩
      exact h'.mono (by simp [Atom.temps])

/-- Naming an atom that may be used makes a temporary that may be used besides. -/
theorem Numbered.nameAtom {a : Atom} (h : Numbered n m₀ assigned m code used)
    (ha : ∀ t ∈ a.temps, t ∈ used) :
    Ensures m (nameAtom a) fun m' t code' =>
      Numbered n m₀ assigned m' (code ++ code') (t :: used) := by
  by_cases htemp : ∃ t, a = .temp t
  · obtain ⟨t, rfl⟩ := htemp
    refine ensures_pure ?_
    rw [List.append_nil]
    refine h.mono ?_
    intro u hu
    rcases List.mem_cons.mp hu with rfl | hu
    · exact ha u List.mem_cons_self
    · exact hu
  · have hname : Flat.nameAtom a = assignFresh (.atom a) := by
      cases a with
      | temp t => exact absurd ⟨t, rfl⟩ htemp
      | _ => rfl
    rw [hname]
    refine (h.ensures_move (r := .atom a) (a := ⟨m⟩) ha fun s hs => ?_).mono ?_
    · rw [← hs]
      exact yields_assignFresh (.atom a) s
    · rintro m' _ code' ⟨rfl, h'⟩
      exact h'

/-- Naming the arguments of a call assigns the temporaries that it hands out. -/
theorem Numbered.nameAtoms {ps : List Part} (h : Numbered n m₀ assigned m code used)
    (hps : ∀ p ∈ ps, ∀ t ∈ p.atom.temps, t ∈ used) :
    Ensures m (ps.mapM fun p => Flat.nameAtom p.atom) fun m' ts code' =>
      Numbered n m₀ assigned m' (code ++ code') (ts ++ used) := by
  induction ps generalizing m code used with
  | nil =>
      rw [List.mapM_nil]
      refine ensures_pure ?_
      rw [List.append_nil]
      exact h
  | cons p ps ih =>
      obtain ⟨hp, hps⟩ := List.forall_mem_cons.mp hps
      rw [List.mapM_cons]
      refine (h.nameAtom hp).bind fun m₁ t code₁ h₁ => ?_
      refine (ih h₁ fun q hq u hu => List.mem_cons_of_mem _ (hps q hq u hu)).bind
        fun m₂ ts code₂ h₂ => ensures_pure ?_
      rw [List.append_nil, ← List.append_assoc]
      refine h₂.mono ?_
      intro u hu
      simpa [or_left_comm] using hu

-- ── Operands ─────────────────────────────────────────────────────────────────

/-- Protecting an operand puts the copy behind its code. -/
theorem ensures_protect {p : Part} {own : List Temp} (h : Accounted n own p.code p.atom.temps)
    (later : List Temp) :
    Ensures m (p.protect later) fun m' p' code => (m ≤ m' ∧
      Accounted n (own ++ tempsBetween m m') p'.code p'.atom.temps) ∧ code = [] := by
  have hkept : Ensures m (pure p : Flatten Part) fun m' p' code => (m ≤ m' ∧
      Accounted n (own ++ tempsBetween m m') p'.code p'.atom.temps) ∧ code = [] := by
    refine ensures_pure ⟨⟨Nat.le_refl m, ?_⟩, rfl⟩
    rw [tempsBetween_self, List.append_nil]
    exact h
  obtain ⟨code, a⟩ := p
  cases a with
  | temp t =>
      rw [Part.protect]
      dsimp only
      split
      · refine ensures_freshTemp.bind_silent ?_
        rintro _ _ ⟨rfl, rfl⟩
        refine ensures_pure ⟨⟨Nat.le_succ m, ?_⟩, rfl⟩
        rw [tempsBetween_succ]
        have hcopy := h.snoc (.act (.move ⟨m⟩ (.atom (.temp t)))) fun u hu => hu
        exact hcopy.mono fun u hu => List.mem_append_left _ hu
      · exact hkept
  | _ => exact hkept

/-- Operands each of which is computed apart, and what their code assigns altogether. -/
inductive Operands (n : Nat) : List Temp → List Part → Prop where
  | nil : Operands n [] []
  | cons {own owns : List Temp} {p : Part} {ps : List Part}
      (hp : Accounted n own p.code p.atom.temps) (hps : Operands n owns ps) :
      Operands n (own ++ owns) (p :: ps)

/-- The code of operands, one behind the other, assigns what each of them assigns. -/
theorem Operands.flatMap {own : List Temp} {ps : List Part} (h : Operands n own ps) :
    Accounted n own (ps.flatMap Part.code) (ps.flatMap fun p => p.atom.temps) := by
  induction h with
  | nil => exact .nil (List.forall_mem_nil _)
  | cons hp _ ih => exact hp.append ih

/-- Copies of operands assign the temporaries that are handed out for them, each at the end of the
    code of its operand. -/
theorem ensures_protectAll {own : List Temp} {ps : List Part} (h : Operands n own ps) :
    Ensures m (Part.protectAll ps) fun m' ps' code => (m ≤ m' ∧
      ∃ own', Operands n own' ps' ∧ own'.Perm (own ++ tempsBetween m m')) ∧ code = [] := by
  induction h with
  | nil =>
      refine ensures_pure ⟨⟨Nat.le_refl m, [], .nil, ?_⟩, rfl⟩
      rw [tempsBetween_self]
      rfl
  | @cons own owns p ps hp _ ih =>
      rw [Part.protectAll]
      refine ih.bind_silent ?_
      rintro m₁ ps' ⟨hle, owns', hps', hperm⟩
      refine (ensures_protect hp _).bind_silent ?_
      rintro m₂ p' ⟨hle', hp'⟩
      refine ensures_pure ⟨⟨Nat.le_trans hle hle', _, .cons hp' hps', ?_⟩, rfl⟩
      -- the copies of the operands to the right have the lower numbers
      rw [← tempsBetween_append hle hle', List.perm_iff_count]
      intro t
      have hcount := hperm.count_eq t
      simp only [List.count_append] at hcount ⊢
      omega

/-- Two operands, and what is left to do with them. -/
theorem ensures_operands {x y : Flatten Atom} {assigned assigned' : List Temp}
    (hx : ∀ m, Ensures m x fun m' a code => Numbered n m assigned m' code a.temps)
    (hy : ∀ m, Ensures m y fun m' a code => Numbered n m assigned' m' code a.temps)
    {f : Atom → Atom → Flatten β} {Q : Nat → β → List Stmt → Prop}
    (hf : ∀ m' a b code, Numbered n m (assigned ++ assigned') m' code (a.temps ++ b.temps) →
      Ensures m' (f a b) fun m'' r code' => Q m'' r (code ++ code')) :
    Ensures m (do
      let p ← capture x
      let q ← capture y
      let p ← p.protect q.defs
      emit (p.code ++ q.code)
      f p.atom q.atom) Q := by
  refine (ensures_capture (hx m)).bind_silent fun m₁ p hp => ?_
  refine (ensures_capture (hy m₁)).bind_silent fun m₂ q hq => ?_
  refine (ensures_protect hp.toAccounted q.defs).bind_silent ?_
  rintro m₃ p' ⟨hle, hp'⟩
  refine (ensures_emit (p'.code ++ q.code)).bind ?_
  rintro m₄ _ _ ⟨rfl, rfl⟩
  refine hf m₄ p'.atom q.atom _ ⟨(hp'.append hq.toAccounted).perm ?_, ?_⟩
  · have hle' := Nat.le_trans hq.le hle
    rw [← tempsBetween_append hp.le hle', ← tempsBetween_append hq.le hle, List.perm_iff_count]
    intro t
    simp only [List.count_append]
    omega
  · exact Nat.le_trans hp.le (Nat.le_trans hq.le hle)

-- ── Trees ────────────────────────────────────────────────────────────────────

/-- What is left over of an expression is moved to a temporary, unless it is an atom. -/
theorem Ensures.materialized {x : Flatten Rhs} {assigned : List Temp}
    (h : Ensures m x fun m' r code => Numbered n m assigned m' code r.temps) :
    Ensures m (x >>= materialize) fun m' a code => Numbered n m assigned m' code a.temps :=
  h.bind fun _ _ _ hr => hr.materialize

/-- An operation on one operand. -/
theorem Ensures.unary {x : Flatten Rhs} {assigned : List Temp}
    (h : Ensures m x fun m' r code => Numbered n m assigned m' code r.temps) {f : Atom → Rhs}
    (hf : ∀ a, (f a).temps = a.temps) :
    Ensures m (do
      let r ← x
      let a ← materialize r
      return f a) fun m' r code => Numbered n m assigned m' code r.temps := by
  have hatom : Ensures m ((x >>= materialize) >>= fun a => pure (f a)) fun m' r code =>
      Numbered n m assigned m' code r.temps := by
    refine h.materialized.bind fun m₁ a code ha => ensures_pure ?_
    rw [List.append_nil, hf]
    exact ha
  rwa [bind_assoc] at hatom

mutual

/-- The code of an expression, with what its outermost operation uses. -/
theorem ensures_rhs (e : Tree.Expr) (he : ∀ t, .temp t ∈ e.leaves → t.index < n) (m : Nat) :
    Ensures m (rhs e) fun m' r code => Numbered n m e.assigned m' code r.temps := by
  cases e with
  | const value => exact ensures_pure (.nil (List.forall_mem_nil _))
  | name l => exact ensures_pure (.nil (List.forall_mem_nil _))
  | temp t =>
      refine ensures_pure (.nil ?_)
      intro u hu
      obtain rfl := List.mem_singleton.mp hu
      exact he u List.mem_cons_self
  | mem addr =>
      rw [rhs]
      exact (ensures_rhs addr he m).unary fun _ => rfl
  | unop op x =>
      rw [rhs]
      exact (ensures_rhs x he m).unary fun _ => rfl
  | binop op x y =>
      have hx := ensures_rhs x fun t ht => he t (List.mem_append_left _ ht)
      have hy := ensures_rhs y fun t ht => he t (List.mem_append_right _ ht)
      rw [rhs]
      refine ensures_operands (β := Rhs) (fun m => (hx m).materialized)
        (fun m => (hy m).materialized) (f := fun a b => pure (.binop op a b)) ?_
      intro m' a b code h
      refine ensures_pure ?_
      rw [List.append_nil]
      exact h
  | call f args =>
      rw [rhs]
      refine (ensures_parts args he m).bind_silent ?_
      rintro m₁ ps ⟨hle, own, hps, hperm⟩
      refine (ensures_protectAll hps).bind_silent ?_
      rintro m₂ ps' ⟨hle', own', hps', hperm'⟩
      refine (ensures_emit _).bind ?_
      rintro m₃ _ _ ⟨rfl, rfl⟩
      -- what the operands own and what protects them was handed out in one range
      have hemitted : Numbered n m (Tree.exprAssigned args) m₃ (ps'.flatMap Part.code)
          (ps'.flatMap fun p => p.atom.temps) := by
        refine ⟨hps'.flatMap.perm (hperm'.trans ?_), Nat.le_trans hle hle'⟩
        rw [← tempsBetween_append hle hle', ← List.append_assoc]
        exact hperm.append_right _
      refine (hemitted.nameAtoms fun p hp t ht => List.mem_flatMap.mpr ⟨p, hp, ht⟩).bind
        fun m₄ ts code h => ensures_pure ?_
      rw [List.append_nil]
      exact h.mono fun t ht => List.mem_append_left _ ht
  | seq st result =>
      rw [rhs]
      refine (ensures_stmt st (fun t ht => he t (List.mem_append_left _ ht)) m).bind
        fun m₁ _ code h₁ => ?_
      refine (ensures_rhs result (fun t ht => he t (List.mem_append_right _ ht)) m₁).mono ?_
      intro m' r code' h'
      exact h₁.append h'

/-- The operands of a call. -/
theorem ensures_parts (es : List Tree.Expr)
    (hes : ∀ t, .temp t ∈ Tree.exprLeaves es → t.index < n) (m : Nat) :
    Ensures m (parts es) fun m' ps code => (m ≤ m' ∧ ∃ own, Operands n own ps ∧
      own.Perm (Tree.exprAssigned es ++ tempsBetween m m')) ∧ code = [] := by
  cases es with
  | nil =>
      refine ensures_pure ⟨⟨Nat.le_refl m, [], .nil, ?_⟩, rfl⟩
      rw [tempsBetween_self]
      rfl
  | cons e es =>
      have he := ensures_rhs e (fun t ht => hes t (List.mem_append_left _ ht)) m
      rw [parts]
      refine (ensures_capture he.materialized).bind_silent fun m₁ p hp => ?_
      refine (ensures_parts es (fun t ht => hes t (List.mem_append_right _ ht)) m₁).bind_silent ?_
      rintro m₂ ps ⟨hle, own, hps, hperm⟩
      refine ensures_pure ⟨⟨Nat.le_trans hp.le hle, _, .cons hp.toAccounted hps, ?_⟩, rfl⟩
      rw [← tempsBetween_append hp.le hle, Tree.exprAssigned, List.perm_iff_count]
      intro t
      have hcount := hperm.count_eq t
      simp only [List.count_append] at hcount ⊢
      omega

/-- The code of a statement. -/
theorem ensures_stmt (st : Tree.Stmt) (hst : ∀ t, .temp t ∈ st.leaves → t.index < n) (m : Nat) :
    Ensures m (stmt st) fun m' _ code => Numbered n m st.assigned m' code [] := by
  have hempty : Numbered n m [] m [] [] := .nil (List.forall_mem_nil _)
  cases st with
  | label l =>
      refine (ensures_emit _).mono ?_
      rintro _ _ _ ⟨rfl, rfl⟩
      exact hempty.snoc (.label l) (List.forall_mem_nil _)
  | jump l =>
      refine (ensures_emit _).mono ?_
      rintro _ _ _ ⟨rfl, rfl⟩
      exact hempty.snoc (.transfer (.jump l)) (List.forall_mem_nil _)
  | branch cond ifTrue ifFalse =>
      rw [stmt]
      refine (ensures_rhs cond hst m).bind fun m₁ r code₁ h₁ => ?_
      refine h₁.materialize.bind fun m₂ a code₂ h₂ => ?_
      refine (h₂.nameAtom fun t ht => ht).bind fun m₃ t code₃ h₃ => ?_
      refine ensures_freshLabel.bind ?_
      rintro m₄ neg _ ⟨rfl, rfl⟩
      refine (ensures_emit _).mono ?_
      rintro m₅ _ _ ⟨rfl, rfl⟩
      have hbranch : ∀ u ∈ (Stmt.transfer (.branch t ifTrue neg)).reads, u ∈ t :: a.temps := by
        intro u hu
        exact List.mem_cons.mpr (.inl (List.mem_singleton.mp hu))
      have h := ((h₃.snoc _ hbranch).snoc (.label neg) (List.forall_mem_nil _)).snoc
        (.transfer (.jump ifFalse)) (List.forall_mem_nil _)
      simp only [List.append_assoc] at h
      exact h.mono (List.forall_mem_nil _)
  | move dst src =>
      cases dst with
      | temp dst =>
          rw [stmt]
          refine (ensures_rhs src (fun t ht => hst t (List.mem_cons_of_mem _ ht)) m).bind
            fun m₁ r code h => ?_
          refine (ensures_emit _).mono ?_
          rintro m₂ _ _ ⟨rfl, rfl⟩
          exact (h.snoc (.act (.move dst r)) fun t ht => ht).mono (List.forall_mem_nil _)
      | mem addr =>
          have hsrc := ensures_rhs src fun t ht => hst t (List.mem_append_right _ ht)
          have haddr := ensures_rhs addr fun t ht => hst t (List.mem_append_left _ ht)
          rw [stmt]
          refine ensures_operands (fun m => (hsrc m).materialized)
            (fun m => (haddr m).materialized) (f := fun a b => emit [.act (.store b a)]) ?_
          intro m' a b code h
          refine (ensures_emit _).mono ?_
          rintro m₂ _ _ ⟨rfl, rfl⟩
          have hreads : ∀ t ∈ (Stmt.act (.store b a)).reads, t ∈ a.temps ++ b.temps :=
            fun t ht => List.mem_append.mpr (List.mem_append.mp ht).symm
          -- the source is flattened first, but the tree has the address first
          refine ⟨((h.snoc _ hreads).mono (List.forall_mem_nil _)).toAccounted.perm ?_, h.le⟩
          show (src.assigned ++ addr.assigned ++ _).Perm (addr.assigned ++ src.assigned ++ _)
          exact List.perm_append_comm.append_right _
      | _ => exact ensures_throw _
  | eval e =>
      rw [stmt]
      refine (ensures_rhs e hst m).bind fun m₁ r code h => ?_
      cases r with
      | call f args =>
          refine (ensures_emit _).mono ?_
          rintro m₂ _ _ ⟨rfl, rfl⟩
          exact (h.snoc (.act (.call f args)) fun t ht => ht).mono (List.forall_mem_nil _)
      | _ =>
          refine ensures_pure ?_
          rw [List.append_nil]
          exact h.mono (List.forall_mem_nil _)
  | seq ss =>
      rw [stmt]
      exact ensures_stmts ss hst m

/-- The code of statements, one after the other. -/
theorem ensures_stmts (ss : List Tree.Stmt)
    (hss : ∀ t, .temp t ∈ Tree.stmtLeaves ss → t.index < n) (m : Nat) :
    Ensures m (stmts ss) fun m' _ code => Numbered n m (Tree.stmtAssigned ss) m' code [] := by
  cases ss with
  | nil => exact ensures_pure (.nil (List.forall_mem_nil _))
  | cons st ss =>
      rw [stmts]
      refine (ensures_stmt st (fun t ht => hss t (List.mem_append_left _ ht)) m).bind
        fun m₁ _ code h₁ => ?_
      refine (ensures_stmts ss (fun t ht => hss t (List.mem_append_right _ ht)) m₁).mono ?_
      intro m' _ code' h'
      exact h₁.append h'

end

/-- **Flattening assigns its temporaries once.** If a statement can be flattened with names that are
    not its own, each temporary that flattening hands out is assigned by exactly one move of the
    flat code, and it is read only behind that move. No other new temporary occurs, and the
    temporaries of the statement are assigned by as many moves as in the statement. -/
theorem fresh_temps_are_assigned_once (st : Tree.Stmt) (names : Supply)
    (htemps : ∀ t, .temp t ∈ st.leaves → t.index < names.temps)
    (hflat : ((stmt st).run.run names).value = .ok ()) :
    let flat := (stmt st).run.run names
    (∀ t : Temp, names.temps ≤ t.index → t.index < flat.supply.temps →
      (flat.code.filterMap Stmt.def?).count t = 1) ∧
    (∀ before x after, flat.code = before ++ x :: after → ∀ t ∈ x.reads, names.temps ≤ t.index →
      t ∈ before.filterMap Stmt.def?) ∧
    (∀ x ∈ flat.code, ∀ t ∈ x.temps, t.index < flat.supply.temps) ∧
    ∀ t : Temp, t.index < names.temps →
      (flat.code.filterMap Stmt.def?).count t = st.assigned.count t := by
  intro flat
  have hyields : Yields (stmt st) names () flat.code flat.supply := by
    refine ⟨flat.events, ?_⟩
    rw [← hflat]
  have h := ensures_stmt st htemps names.temps names () flat.code flat.supply rfl hyields
  have hassigned : ∀ t ∈ st.assigned, t.index < names.temps :=
    fun t ht => htemps t (Tree.Stmt.mem_leaves_of_assigned st ht)
  -- a temporary is assigned as often as in the statement, and once more if it is new
  have hcount : ∀ t, (flat.code.filterMap Stmt.def?).count t =
      st.assigned.count t + (tempsBetween names.temps flat.supply.temps).count t := by
    intro t
    rw [h.defs.count_eq, List.count_append]
  have hread : ∀ before x after, flat.code = before ++ x :: after → ∀ t ∈ x.reads,
      t.index < names.temps ∨ t ∈ before.filterMap Stmt.def? := by
    intro before x after hsplit t ht
    have hgrounded := h.grounded
    rw [hsplit, grounded_append] at hgrounded
    exact hgrounded.2.1 t ht
  refine ⟨?_, ?_, ?_, ?_⟩
  · intro t hlow hhigh
    have hnot : t ∉ st.assigned := fun ht => Nat.not_lt.mpr hlow (hassigned t ht)
    rw [hcount, List.count_eq_zero_of_not_mem hnot, Nat.zero_add]
    exact List.count_eq_one_of_mem (nodup_tempsBetween _ _) (mem_tempsBetween.mpr ⟨hlow, hhigh⟩)
  · intro before x after hsplit t ht hlow
    exact (hread before x after hsplit t ht).resolve_left (Nat.not_lt.mpr hlow)
  · have hdef : ∀ t ∈ flat.code.filterMap Stmt.def?, t.index < flat.supply.temps := by
      intro t ht
      rcases List.mem_append.mp (h.defs.mem_iff.mp ht) with ht | ht
      · exact Nat.lt_of_lt_of_le (hassigned t ht) h.le
      · exact (mem_tempsBetween.mp ht).2
    intro x hx t ht
    rcases Stmt.mem_temps.mp ht with ht | ht
    · obtain ⟨before, after, hsplit⟩ := List.append_of_mem hx
      rcases hread before x after hsplit t ht with hlow | hmem
      · exact Nat.lt_of_lt_of_le hlow h.le
      · refine hdef t ?_
        rw [hsplit, List.filterMap_append]
        exact List.mem_append_left _ hmem
    · exact hdef t (List.mem_filterMap.mpr ⟨x, hx, ht⟩)
  · intro t ht
    have hnot : t ∉ tempsBetween names.temps flat.supply.temps := fun hmem =>
      Nat.not_le.mpr ht (mem_tempsBetween.mp hmem).1
    rw [hcount, List.count_eq_zero_of_not_mem hnot, Nat.add_zero]

/-- A call whose first argument is assigned by the second one, which is a call again, and whose
    third argument is a constant. -/
def clobberedCall : Tree.Stmt :=
  .move (.temp ⟨0⟩) (.call (.named "f")
    [.temp ⟨0⟩, .seq (.move (.temp ⟨0⟩) (.call (.named "g") [.mem (.temp ⟨0⟩)]))
      (.binop .add (.temp ⟨0⟩) (.const 1)), .const 7])

/-- The copy of the first argument has a higher number than the temporaries of the second one, and
    comes before them. -/
theorem fresh_temps_are_assigned_once_clobbered :
    ((stmt clobberedCall).run.run { temps := 1 }).supply.temps = 5 ∧
      (((stmt clobberedCall).run.run { temps := 1 }).code.filterMap Stmt.def?) =
        [⟨3⟩, ⟨1⟩, ⟨0⟩, ⟨2⟩, ⟨4⟩, ⟨0⟩] ∧
      (((stmt clobberedCall).run.run { temps := 1 }).code.filterMap Stmt.def?).count ⟨3⟩ = 1 ∧
      (((stmt clobberedCall).run.run { temps := 1 }).code.filterMap Stmt.def?).count ⟨0⟩ =
        clobberedCall.assigned.count ⟨0⟩ := by
  have hleaves : ∀ t, .temp t ∈ clobberedCall.leaves → t.index < 1 := by
    intro t ht
    simp [clobberedCall, Tree.Stmt.leaves, Tree.Expr.leaves, Tree.exprLeaves] at ht
    simp [ht]
  obtain ⟨honce, -, -, hkept⟩ :=
    fresh_temps_are_assigned_once clobberedCall { temps := 1 } hleaves rfl
  exact ⟨rfl, rfl, honce ⟨3⟩ (by decide) (by decide), hkept ⟨0⟩ (by decide)⟩

end Flat

end MmixBackend
