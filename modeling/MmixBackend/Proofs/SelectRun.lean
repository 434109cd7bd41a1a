import MmixBackend.Proofs.FlatWalk
import MmixBackend.Proofs.FoldLabels
import MmixBackend.Proofs.SelectActions

/-!
# Selected instructions do what the statements do

A walk through flat code and an execution of the instructions selected for it go side by side. At
the boundaries between statements control is at corresponding places, the machines agree and the
same labels have been come by.

* **`Quiet`** — the instructions of an action define no label, and control only goes on from them.
* **`findIdx?_of_some`** — so a jump arrives at the instructions of the statements from the label
  on, if no label is defined twice.
* **`Follows.step`** — one statement, by cases; a branch whose negative label comes next has no jump
  and needs none.
* **`selection_keeps_behaviour`** — any number of statements.
-/

namespace MmixBackend

open Flat Target Machine

namespace Select

-- ── Instructions between labels and jumps ────────────────────────────────────

/-- The instruction is no label, and control only goes on from it. -/
def Inner (i : Instr) : Prop := i.label? = none ∧ Execution.Steady i

variable {α β : Type} {sup : Supply} {i : Instr} {keep : Nat} {next : Option Stmt}

/-- Loading a constant takes inner instructions only. -/
theorem inner_loadConst {value : Word} {dst : Temp} (hi : i ∈ loadConst value dst) : Inner i := by
  rcases mem_loadConst hi with ⟨field, -, rfl⟩ | ⟨part, field, -, rfl⟩ | rfl
  · exact ⟨rfl, fun _ _ _ => rfl⟩
  · exact ⟨rfl, fun _ _ _ => rfl⟩
  · exact ⟨rfl, fun _ _ _ => rfl⟩

/-- Passing arguments takes inner instructions only. -/
theorem inner_storeArgs {args : List Temp} {k : Nat} (hi : i ∈ storeArgs k args) : Inner i := by
  induction args generalizing k with
  | nil => cases hi
  | cons arg args ih =>
      rcases List.mem_cons.mp hi with rfl | hi
      · exact ⟨rfl, fun _ _ _ => rfl⟩
      · exact ih hi

/-- So does a call: control comes back from it. -/
theorem inner_call {f : Label} {args : List Temp} {dst : Option Temp}
    (hi : i ∈ call keep f args dst) : Inner i := by
  unfold call at hi
  rw [List.mem_append, List.mem_append] at hi
  rcases hi with (hi | hi) | hi
  · exact inner_storeArgs hi
  · rw [List.mem_singleton.mp hi]
    exact ⟨rfl, fun _ _ _ => rfl⟩
  · cases dst with
    | none => cases hi
    | some dst =>
        rw [List.mem_singleton.mp hi]
        exact ⟨rfl, fun _ _ _ => rfl⟩

/-- A step of selection emits inner instructions only. -/
def Quiet (x : Emit Instr α) : Prop := ∀ sup, ∀ i ∈ (x.run sup).code, Inner i

theorem quiet_pure (a : α) : Quiet (pure a) := fun _ _ hi => absurd hi List.not_mem_nil

theorem quiet_write {items : List Instr} (h : ∀ i ∈ items, Inner i) : Quiet (Emit.write items) :=
  fun _ => h

theorem quiet_write_one (h : Inner i) : Quiet (Emit.write [i]) :=
  quiet_write (List.forall_mem_singleton.mpr h)

/-- Quiet steps one after the other are quiet. -/
theorem Quiet.bind {x : Emit Instr α} {f : α → Emit Instr β} (hx : Quiet x)
    (hf : ∀ a, Quiet (f a)) : Quiet (x >>= f) := by
  intro sup
  rw [Emit.run_bind]
  exact List.forall_mem_append.mpr ⟨hx sup, hf _ _⟩

theorem quiet_orFresh (dst : Option Temp) : Quiet (orFresh dst) := by
  cases dst with
  | none => exact fun _ _ hi => absurd hi List.not_mem_nil
  | some dst => exact quiet_pure dst

/-- An atom takes inner instructions only. -/
theorem quiet_atom (a : Atom) (dst : Option Temp) : Quiet (atom a dst) := by
  cases a with
  | const value =>
      refine (quiet_orFresh dst).bind fun dst => Quiet.bind ?_ fun _ => quiet_pure dst
      exact quiet_write fun i hi => inner_loadConst hi
  | name l =>
      refine (quiet_orFresh dst).bind fun dst => Quiet.bind ?_ fun _ => quiet_pure dst
      exact quiet_write_one ⟨rfl, fun _ _ _ => rfl⟩
  | temp t =>
      cases dst with
      | none => exact quiet_pure t
      | some dst =>
          rw [atom]
          split
          · exact quiet_pure t
          · refine Quiet.bind ?_ fun _ => quiet_pure dst
            exact quiet_write_one ⟨rfl, fun _ _ _ => rfl⟩

/-- An operator takes inner instructions only. -/
theorem quiet_compute (dst x y : Temp) (scheme : Scheme) : Quiet (compute dst x y scheme) := by
  have hfresh : Quiet (Emit.freshTemp : Emit Instr Temp) := quiet_orFresh none
  cases scheme with
  | direct op => exact quiet_write_one ⟨rfl, fun _ _ _ => rfl⟩
  | remainder =>
      refine hfresh.bind fun q => quiet_write ?_
      simp [Inner, Execution.Steady, Instr.plain, Instr.label?, Target.next]
  | relation yes no =>
      refine hfresh.bind fun c => quiet_write ?_
      simp [Inner, Execution.Steady, Instr.plain, Instr.label?, Target.next]

/-- A right-hand side takes inner instructions only. -/
theorem quiet_rhs (keep : Nat) (r : Rhs) (dst : Option Temp) : Quiet (rhs keep r dst) := by
  cases r with
  | atom a => exact quiet_atom a dst
  | binop op x y =>
      refine (quiet_atom x none).bind fun x => (quiet_atom y none).bind fun y => ?_
      refine (quiet_orFresh dst).bind fun dst => Quiet.bind ?_ fun _ => quiet_pure dst
      exact quiet_compute dst x y (scheme op)
  | unop op x =>
      refine (quiet_atom x none).bind fun x => (quiet_orFresh dst).bind fun dst => ?_
      cases op with
      | neg =>
          refine Quiet.bind ?_ fun _ => quiet_pure dst
          exact quiet_write_one ⟨rfl, fun _ _ _ => rfl⟩
      | not =>
          refine Quiet.bind ?_ fun _ => quiet_pure dst
          exact quiet_write_one ⟨rfl, fun _ _ _ => rfl⟩
  | load addr =>
      refine (quiet_atom addr none).bind fun base => (quiet_orFresh dst).bind fun dst => ?_
      refine Quiet.bind ?_ fun _ => quiet_pure dst
      exact quiet_write_one ⟨rfl, fun _ _ _ => rfl⟩
  | call f args =>
      refine (quiet_orFresh dst).bind fun dst => Quiet.bind ?_ fun _ => quiet_pure dst
      exact quiet_write fun i hi => inner_call hi

/-- An action takes inner instructions only. -/
theorem quiet_act (keep : Nat) (next : Option Stmt) (a : Action) :
    Quiet (stmt keep next (.act a)) := by
  cases a with
  | move dst r => exact (quiet_rhs keep r (some dst)).bind fun _ => quiet_pure ()
  | store addr src =>
      refine (quiet_atom src none).bind fun src => (quiet_atom addr none).bind fun base => ?_
      exact quiet_write_one ⟨rfl, fun _ _ _ => rfl⟩
  | call f args => exact quiet_write fun i hi => inner_call hi

-- ── Where labels are ─────────────────────────────────────────────────────────

/-- Only the instructions of a label define it, and it is the first of them. -/
theorem findIdx?_stmt (l : Label) (st : Stmt) :
    ((stmt keep next st).run sup).code.findIdx? (·.label? = some l) =
      if st = .label l then some 0 else none := by
  cases st with
  | label l' =>
      show [Instr.label l'].findIdx? _ = _
      rw [List.findIdx?_singleton]
      by_cases hl : l' = l
      · simp [hl, Instr.label?]
      · simp [hl, Instr.label?]
  | act a =>
      rw [if_neg (by simp), List.findIdx?_eq_none_iff]
      intro i hi
      simp [(quiet_act keep next a sup i hi).1]
  | transfer t =>
      rw [if_neg (by simp)]
      cases t with
      | jump target => rfl
      | branch cond ifTrue ifFalse =>
          rw [stmt]
          split <;> rfl

/-- The place of a label in the code of statements, from its place in the first one's. -/
theorem findIdx?_stmts_cons (l : Label) (st : Stmt) (sts : List Stmt) (sup : Supply) :
    ((stmts keep (st :: sts)).run sup).code.findIdx? (·.label? = some l) =
      if st = .label l then some 0
      else (((stmts keep sts).run ((stmt keep sts.head? st).run sup).supply).code.findIdx?
        (·.label? = some l)).map (· + ((stmt keep sts.head? st).run sup).code.length) := by
  rw [stmts, Emit.run_bind, List.findIdx?_append, findIdx?_stmt]
  split
  · rfl
  · rfl

/-- A label that statements do not define is not defined by their instructions. -/
theorem findIdx?_of_none {l : Label} {sts : List Stmt} (h : codeFrom l sts = none)
    (sup : Supply) : ((stmts keep sts).run sup).code.findIdx? (·.label? = some l) = none := by
  induction sts generalizing sup with
  | nil => rfl
  | cons st sts ih =>
      rw [codeFrom_eq_none_iff, List.mem_cons, not_or] at h
      rw [findIdx?_stmts_cons, if_neg (Ne.symm h.1), ih (codeFrom_eq_none_iff.mpr h.2)]
      rfl

/-- A jump arrives at the code of the statements from the label on. -/
theorem findIdx?_of_some {l : Label} {sts found : List Stmt} (hlabels : (definedLabels sts).Nodup)
    (h : codeFrom l sts = some found) (hbelow : ∀ st ∈ sts, ∀ t ∈ st.temps, t.index < sup.temps) :
    ∃ pc sup', ((stmts keep sts).run sup).code.findIdx? (·.label? = some l) = some pc ∧
      sup.temps ≤ sup'.temps ∧
      ((stmts keep sts).run sup).code.drop pc = ((stmts keep found).run sup').code := by
  induction sts generalizing sup with
  | nil => cases h
  | cons st sts ih =>
      obtain ⟨hst, hsts⟩ := List.forall_mem_cons.mp hbelow
      rw [findIdx?_stmts_cons]
      by_cases hl : st = .label l
      · subst hl
        have hfound := codeFrom_of_suffix hlabels (List.suffix_refl (.label l :: sts))
        obtain rfl := Option.some.inj (h.symm.trans hfound)
        exact ⟨0, sup, if_pos rfl, Nat.le_refl _, rfl⟩
      · have hgrows := (tidy_stmt keep sts.head? hst).grows
        have htail : (definedLabels sts).Nodup := by
          cases st with
          | label l' => exact (List.nodup_cons.mp hlabels).2
          | _ => exact hlabels
        rw [codeFrom_cons_of_ne hl] at h
        obtain ⟨pc, sup', hpc, hle, hdrop⟩ :=
          ih htail h fun st hst => below_of_grows (hsts st hst) hgrows
        refine ⟨pc + ((stmt keep sts.head? st).run sup).code.length, sup', ?_, hgrows.trans hle, ?_⟩
        · rw [if_neg hl, hpc]
          rfl
        · rw [← hdrop, stmts, Emit.run_bind, Nat.add_comm]
          exact List.drop_length_add_append pc

end Select

-- ── Statements and their instructions ────────────────────────────────────────

namespace Flat

/-- The temporaries that statements mention. -/
def temps (code : List Stmt) : List Temp := code.flatMap Stmt.temps

/-- How many words for arguments a statement needs. -/
def Stmt.outgoing : Stmt → Nat
  | .act a => a.outgoing
  | _ => 0

/-- The address that the next statement loads from or stores to. -/
def Walk.access? (w : Walk) : Option Word :=
  match w.place with
  | .running (.act a :: _) => w.machine.access? a
  | _ => none

end Flat

/-- Control is at the instructions of the statements ahead, or has gone to the same label. Their
    fresh temporaries are numbered `n` and higher. -/
def Placed (keep : Nat) (code : Code) (n : Nat) : Place → Control → Prop
  | .running ahead, c => ∃ pc sup, c = .running pc ∧ n ≤ sup.temps ∧
      code.instrs.drop pc = ((Select.stmts keep ahead).run sup).code
  | .left l, c => c = .left l
  | .failed _, _ => False

section Simulation

variable {set : Setting} {keep : Nat} {list : List Stmt} {code : Code} {names : Supply}

/-- What a walk and an execution of its instructions have in common. -/
structure Follows (set : Setting) (keep : Nat) (list : List Stmt) (code : Code) (n : Nat)
    (w : Walk) (e : Execution) : Prop where
  placed : Placed keep code n w.place e.control
  agrees : Agrees set (temps list) w.machine e.state
  labels : e.state.labels = w.reached
  suffix : ∀ ahead, w.place = .running ahead → ahead <:+ list

/-- What is known of the statements. -/
structure Given (set : Setting) (keep : Nat) (list : List Stmt) (code : Code) (names : Supply) :
    Prop where
  instrs : code.instrs = ((Select.stmts keep list).run names).code
  nodup : (definedLabels list).Nodup
  below : ∀ st ∈ list, ∀ t ∈ st.temps, t.index < names.temps
  fit : ∀ st ∈ list, st.outgoing ≤ set.outgoing
  space : set.outgoing * 8 ≤ UInt64.size

/-- Jumps to one label lead to corresponding places. -/
theorem Given.placed_goto (hg : Given set keep list code names) (l : Label) :
    Placed keep code names.temps (arrival list l) (code.goto l) := by
  have hposition : code.position? l =
      ((Select.stmts keep list).run names).code.findIdx? (·.label? = some l) := by
    rw [Code.position?, hg.instrs]
  rw [arrival, Code.goto, hposition]
  cases hfrom : codeFrom l list with
  | none =>
      rw [Select.findIdx?_of_none hfrom]
      rfl
  | some found =>
      obtain ⟨pc, sup, hpc, hle, hdrop⟩ := Select.findIdx?_of_some hg.nodup hfrom hg.below
      rw [hpc]
      refine ⟨pc, sup, rfl, hle, ?_⟩
      rw [hg.instrs, hdrop]

variable {m m₁ : Machine} {s : Target} {reached : List Label} {rest : List Stmt} {pc : Nat}
  {sup : Supply}

/-- One instruction passes a label. -/
theorem Follows.step_label {l : Label} {e : Execution}
    (h : Follows set keep list code names.temps ⟨.running (.label l :: rest), m, reached⟩ e) :
    Follows set keep list code names.temps ⟨.running rest, m, reached ++ [l]⟩
      (e.run set code 1) := by
  obtain ⟨c, s⟩ := e
  obtain ⟨pc, sup, rfl, hle, hdrop⟩ := h.placed
  have hsteady : ∀ i ∈ [Instr.label l], Execution.Steady i :=
    List.forall_mem_singleton.mpr fun _ _ _ => rfl
  obtain ⟨hrun, hrest⟩ := Execution.run_steady set s hdrop hsteady
  rw [show Execution.run set code 1 ⟨.running pc, s⟩ = _ from hrun]
  refine ⟨⟨pc + 1, sup, rfl, hle, hrest⟩, ⟨h.agrees.file, h.agrees.mem, ?_⟩, ?_, ?_⟩
  · show List.Forall₂ _ _ ((s.history ++ [Seen.label l]).filter _)
    rw [List.filter_append]
    exact (List.append_nil (s.effects set)).symm ▸ h.agrees.effects
  · show (s.history ++ [Seen.label l]).filterMap _ = reached ++ [l]
    rw [List.filterMap_append]
    exact congrArg (· ++ [l]) h.labels
  · rintro ahead ⟨⟩
    exact (List.suffix_cons _ _).trans (h.suffix _ rfl)

/-- All temporaries of the statements were handed out before. -/
theorem Given.below_temps (hg : Given set keep list code names) :
    ∀ t ∈ temps list, t.index < names.temps := by
  intro t ht
  obtain ⟨st, hst, ht⟩ := List.mem_flatMap.mp ht
  exact hg.below st hst t ht

/-- The instructions of an action do what the action does. -/
theorem Follows.step_act (hg : Given set keep list code names) {a : Action} {e : Execution}
    (h : Follows set keep list code names.temps ⟨.running (.act a :: rest), m, reached⟩ e)
    (hact : m.act a = (.ok (), m₁)) (hknown : Known set m₁)
    (havoid : ∀ addr ∈ m.access? a, ¬ set.Outgoing addr) :
    ∃ k, Follows set keep list code names.temps ⟨.running rest, m₁, reached⟩
      (e.run set code k) := by
  obtain ⟨c, s⟩ := e
  obtain ⟨pc, sup, rfl, hle, hdrop⟩ := h.placed
  have hmem : .act a ∈ list := (h.suffix _ rfl).mem List.mem_cons_self
  have hts : ∀ t ∈ a.temps, t ∈ temps list := fun t ht => List.mem_flatMap.mpr ⟨_, hmem, ht⟩
  have hsup : ∀ t ∈ temps list, t.index < sup.temps :=
    fun t ht => (hg.below_temps t ht).trans_le hle
  have hst : ∀ t ∈ (Stmt.act a).temps, t.index < sup.temps := fun t ht => hsup t (hts t ht)
  have hgrows := (Select.tidy_stmt keep rest.head? hst).grows
  rw [Select.stmts, Emit.run_bind] at hdrop
  obtain ⟨hrun, hrest⟩ := Execution.run_steady set s hdrop fun i hi =>
    (Select.quiet_act keep rest.head? a sup i hi).2
  obtain ⟨hagrees, hlabels⟩ :=
    h.agrees.act keep rest.head? hsup hg.space hts (hg.fit _ hmem) hact hknown havoid
  refine ⟨((Select.stmt keep rest.head? (.act a)).run sup).code.length, ?_⟩
  rw [hrun]
  refine ⟨⟨_, _, rfl, hle.trans hgrows, hrest⟩, hagrees, hlabels.trans h.labels, ?_⟩
  rintro ahead ⟨⟩
  exact (List.suffix_cons _ _).trans (h.suffix _ rfl)

/-- Control has jumped to a label on both sides. -/
theorem Follows.jumped (hg : Given set keep list code names) (hagrees : Agrees set (temps list) m s)
    (hlabels : s.labels = reached) (l : Label) :
    Follows set keep list code names.temps ⟨arrival list l, m, reached⟩ ⟨code.goto l, s⟩ := by
  refine ⟨hg.placed_goto l, hagrees, hlabels, ?_⟩
  intro ahead hahead
  rw [arrival] at hahead
  split at hahead
  · next found hfound =>
    cases hahead
    exact suffix_of_codeFrom hfound
  · cases hahead

/-- A branch needs a jump unless its negative label comes next. -/
theorem code_branch (keep : Nat) (cond : Temp) (ifTrue ifFalse : Label) (rest : List Stmt)
    (sup : Supply) :
    ((Select.stmts keep (.transfer (.branch cond ifTrue ifFalse) :: rest)).run sup).code =
      .branch (.branchNonZero ifTrue) [cond] ifTrue ::
        ((if rest.head? = some (.label ifFalse) then [] else [.jump ifFalse]) ++
          ((Select.stmts keep rest).run sup).code) := by
  rw [Select.stmts, Select.stmt]
  by_cases hnext : rest.head? = some (.label ifFalse)
  · simp [hnext]
  · simp [hnext]

/-- The instructions of a transfer lead where the transfer leads. -/
theorem Follows.step_transfer (hg : Given set keep list code names) {t : Transfer} {e : Execution}
    (h : Follows set keep list code names.temps ⟨.running (.transfer t :: rest), m, reached⟩ e) :
    ∃ k, 0 < k ∧ Follows set keep list code names.temps
      ⟨arrival list (m.target t), m, reached⟩ (e.run set code k) := by
  obtain ⟨c, s⟩ := e
  obtain ⟨pc, sup, rfl, hle, hdrop⟩ := h.placed
  cases t with
  | jump l =>
      obtain ⟨hi, -⟩ := drop_eq_cons_iff.mp hdrop
      refine ⟨1, Nat.one_pos, ?_⟩
      show Follows _ _ _ _ _ _ (Execution.step set code ⟨.running pc, s⟩)
      rw [Execution.step_of_getElem? hi]
      exact Follows.jumped hg h.agrees h.labels l
  | branch cond ifTrue ifFalse =>
      have hsuffix := h.suffix _ rfl
      have hmem : .transfer (.branch cond ifTrue ifFalse) ∈ list := hsuffix.mem List.mem_cons_self
      have hcond : s.file cond = m.temp cond :=
        h.agrees.file cond (List.mem_flatMap.mpr ⟨_, hmem, List.mem_singleton_self cond⟩)
      rw [code_branch] at hdrop
      obtain ⟨hi, hdrop⟩ := drop_eq_cons_iff.mp hdrop
      have hstep : Execution.step set code ⟨.running pc, s⟩ =
          ⟨if m.temp cond ≠ 0 then code.goto ifTrue else .running (pc + 1), s⟩ := by
        rw [Execution.step_of_getElem? hi, ← hcond]
        rfl
      by_cases hzero : m.temp cond = 0
      · rw [if_neg (not_not_intro hzero)] at hstep
        have htarget : m.target (.branch cond ifTrue ifFalse) = ifFalse :=
          if_neg (not_not_intro hzero)
        rw [htarget]
        by_cases hnext : rest.head? = some (.label ifFalse)
        · -- the negative label comes next, so control falls through to it
          obtain ⟨rest', rfl⟩ : ∃ rest', rest = .label ifFalse :: rest' :=
            List.head?_eq_some_iff.mp hnext
          rw [if_pos hnext] at hdrop
          have hrest := (List.suffix_cons _ _).trans hsuffix
          have harrival : arrival list ifFalse = .running (.label ifFalse :: rest') := by
            rw [arrival, codeFrom_of_suffix hg.nodup hrest]
          refine ⟨1, Nat.one_pos, ?_⟩
          show Follows _ _ _ _ _ _ (Execution.step set code ⟨.running pc, s⟩)
          rw [harrival, hstep]
          refine ⟨⟨pc + 1, sup, rfl, hle, hdrop⟩, h.agrees, h.labels, ?_⟩
          rintro ahead ⟨⟩
          exact hrest
        · -- otherwise a jump behind the branch leads there
          rw [if_neg hnext] at hdrop
          obtain ⟨hi', -⟩ := drop_eq_cons_iff.mp hdrop
          refine ⟨2, Nat.two_pos, ?_⟩
          show Follows _ _ _ _ _ _
            (Execution.step set code (Execution.step set code ⟨.running pc, s⟩))
          rw [hstep, Execution.step_of_getElem? hi']
          exact Follows.jumped hg h.agrees h.labels ifFalse
      · rw [if_pos hzero] at hstep
        have htarget : m.target (.branch cond ifTrue ifFalse) = ifTrue := if_pos hzero
        refine ⟨1, Nat.one_pos, ?_⟩
        show Follows _ _ _ _ _ _ (Execution.step set code ⟨.running pc, s⟩)
        rw [htarget, hstep]
        exact Follows.jumped hg h.agrees h.labels ifTrue

/-- Where no instruction is ahead, nothing happens. -/
theorem Execution.step_of_getElem?_eq_none {pc : Nat} (h : code.instrs[pc]? = none) (s : Target) :
    Execution.step set code ⟨.running pc, s⟩ = ⟨.running pc, s⟩ := by
  simp only [Execution.step, h]

/-- One statement and its instructions. Either there are some, or control only moves on by one
    statement. -/
theorem Follows.step (hg : Given set keep list code names) {w : Walk} {e : Execution}
    (h : Follows set keep list code names.temps w e) (hknown : Known set (w.step list).machine)
    (havoid : ∀ addr ∈ w.access?, ¬ set.Outgoing addr)
    (hok : ∀ error, (w.step list).place ≠ .failed error) :
    ∃ k, Follows set keep list code names.temps (w.step list) (e.run set code k) ∧
      (0 < k ∨ ∃ st rest, w.place = .running (st :: rest) ∧
        (w.step list).place = .running rest) := by
  obtain ⟨place, m, reached⟩ := w
  cases place with
  | failed error => exact absurd h.placed id
  | left l =>
      obtain ⟨c, s⟩ := e
      obtain rfl : c = .left l := h.placed
      exact ⟨1, h, .inl Nat.one_pos⟩
  | running ahead =>
      cases ahead with
      | nil =>
          obtain ⟨c, s⟩ := e
          obtain ⟨pc, sup, rfl, hle, hdrop⟩ := h.placed
          have hnone : code.instrs[pc]? = none :=
            List.getElem?_eq_none_iff.mpr (List.drop_eq_nil_iff.mp hdrop)
          refine ⟨1, ?_, .inl Nat.one_pos⟩
          show Follows _ _ _ _ _ _ (Execution.step set code ⟨.running pc, s⟩)
          rw [Execution.step_of_getElem?_eq_none hnone]
          exact h
      | cons st rest =>
          cases st with
          | label l => exact ⟨1, h.step_label, .inl Nat.one_pos⟩
          | transfer t =>
              obtain ⟨k, hk, hfollows⟩ := h.step_transfer hg
              exact ⟨k, hfollows, .inl hk⟩
          | act a =>
              rcases hact : m.act a with ⟨error | u, m₁⟩
              · exact absurd (congrArg Walk.place (Walk.step_fail hact)) (hok error)
              · rw [Walk.step_act hact] at hknown ⊢
                obtain ⟨k, hfollows⟩ := h.step_act hg hact hknown havoid
                exact ⟨k, hfollows, .inr ⟨_, rest, rfl, rfl⟩⟩

/-- How many statements before those ahead. -/
def passed (list : List Stmt) : Place → Nat
  | .running ahead => list.length - ahead.length
  | _ => 0

theorem passed_le (list : List Stmt) (place : Place) : passed list place ≤ list.length := by
  cases place with
  | running ahead => exact Nat.sub_le _ _
  | _ => exact Nat.zero_le _

/-- A run of any number of statements. The instructions cannot fall behind, since statements
    without instructions only lead towards the end. -/
theorem follows_after (hg : Given set keep list code names)
    (hstart : Follows set keep list code names.temps (Walk.start list m) ⟨.running 0, s⟩) (n : Nat)
    (hknown : ∀ j ≤ n, Known set (Walk.after list m j).machine)
    (havoid : ∀ j < n, ∀ addr ∈ (Walk.after list m j).access?, ¬ set.Outgoing addr)
    (hok : ∀ error, (Walk.after list m n).place ≠ .failed error) :
    ∃ k, Follows set keep list code names.temps (Walk.after list m n)
        (Execution.run set code k ⟨.running 0, s⟩) ∧
      n ≤ k * (list.length + 1) + passed list (Walk.after list m n).place := by
  induction n with
  | zero => exact ⟨0, hstart, Nat.zero_le _⟩
  | succ n ih =>
      rw [Walk.after_succ] at hok ⊢
      have hokay : ∀ error, (Walk.after list m n).place ≠ .failed error := by
        intro error hfailed
        refine hok error ?_
        rw [Walk.step_of_ended]
        · exact hfailed
        · intro st rest hplace
          cases hfailed.symm.trans hplace
      obtain ⟨k, hfollows, hn⟩ := ih (fun j hj => hknown j (hj.trans (Nat.le_succ n)))
        (fun j hj => havoid j (hj.trans (Nat.lt_succ_self n))) hokay
      have hlast := hknown (n + 1) (Nat.le_refl _)
      rw [Walk.after_succ] at hlast
      obtain ⟨k', hstep, hprogress⟩ := hfollows.step hg hlast (havoid n (Nat.lt_succ_self n)) hok
      rw [← Execution.run_add] at hstep
      refine ⟨k + k', hstep, ?_⟩
      rw [Nat.add_mul]
      rcases hprogress with hk | ⟨st, rest, hplace, hplace'⟩
      · -- some instruction was carried out, which outweighs a whole pass over the statements
        have hpassed := passed_le list (Walk.after list m n).place
        have hmore : list.length + 1 ≤ k' * (list.length + 1) := Nat.le_mul_of_pos_left _ hk
        omega
      · -- none was, but one more statement was passed
        have hlength := (hfollows.suffix _ hplace).length_le
        rw [hplace, passed, List.length_cons] at hn
        rw [hplace', passed]
        rw [List.length_cons] at hlength
        omega

end Simulation

/-- **Selected instructions do what the statements do.** Let no label be defined twice, let the
    temporaries be handed out already, let the words for arguments be enough for every call, and let
    the states agree at the start. Then for every number of statements that are carried out without
    a division by zero, whose loads and stores avoid the words for arguments and in which labels
    stand for their addresses, there is a number of instructions that do the same: control is at the
    corresponding place, all temporaries of the code and the memory outside the words for arguments
    agree, the stores and calls were the same in the same order, and so were the labels. The number
    of instructions grows beyond every bound as the number of statements does. -/
theorem selection_keeps_behaviour (ω : Type) (keep : Nat) (f : Flat.Function) (names : Supply)
    (set : Setting) (hlabels : (definedLabels f.stmts).Nodup)
    (hbelow : ∀ st ∈ f.stmts, ∀ t ∈ st.temps, t.index < names.temps)
    (hfit : ∀ st ∈ f.stmts, st.outgoing ≤ set.outgoing)
    (hspace : set.outgoing * 8 ≤ UInt64.size)
    (m : Machine) (s : Target) (hstart : Agrees set (temps f.stmts) m s) (hnew : s.labels = [])
    (n : Nat) (hknown : ∀ j ≤ n, Known set (m.run f.stmts j).2)
    (havoid : ∀ j < n, ∀ addr ∈ (Walk.after f.stmts m j).access?, ¬ set.Outgoing addr)
    (hok : (m.run f.stmts n).1 ≠ .error .divisionByZero) :
    let code := ((f.select keep : Emit ω Code).run names).value
    let w := Walk.after f.stmts m n
    ∃ k, let e := Execution.run set code k ⟨.running 0, s⟩
      Placed keep code names.temps w.place e.control ∧
        Agrees set (temps f.stmts) (m.run f.stmts n).2 e.state ∧ e.state.labels = w.reached ∧
        n ≤ (k + 1) * (f.stmts.length + 1) := by
  intro code w
  have hg : Given set keep f.stmts code names := ⟨rfl, hlabels, hbelow, hfit, hspace⟩
  have hfollows : Follows set keep f.stmts code names.temps (Walk.start f.stmts m)
      ⟨.running 0, s⟩ := by
    refine ⟨⟨0, names, rfl, Nat.le_refl _, rfl⟩, hstart, hnew, ?_⟩
    rintro ahead ⟨⟩
    exact List.suffix_refl _
  simp only [Walk.snd_run] at hknown ⊢
  obtain ⟨k, hfollows, hn⟩ := follows_after hg hfollows n hknown havoid fun error hfailed =>
    hok (Walk.run_of_failed hfailed)
  have hpassed := passed_le f.stmts (Walk.after f.stmts m n).place
  refine ⟨k, hfollows.placed, hfollows.agrees, hfollows.labels, ?_⟩
  rw [Nat.add_mul, Nat.one_mul]
  omega

/-- Calls and stores in a loop, which a comparison ends. -/
def callingLoop : Flat.Function where
  frame := ⟨.named "f", 1, 0, 16, ⟨0⟩, ⟨1⟩⟩
  stmts :=
    [.label (.fresh 0),
      .act (.move ⟨2⟩ (.binop .sub (.temp ⟨2⟩) (.const 1))),
      .act (.move ⟨3⟩ (.call (.named "g") [⟨2⟩, ⟨1⟩])),
      .act (.store (.name (.named "data")) (.temp ⟨3⟩)),
      .act (.move ⟨3⟩ (.binop .gt (.temp ⟨2⟩) (.const 0))),
      .transfer (.branch ⟨3⟩ (.fresh 0) (.fresh 1)),
      .label (.fresh 1),
      .transfer (.jump (.fresh 2))]
  entry := .fresh 0
  exit := .fresh 2

/-- The stack pointer is 4096, and two words from there on are for arguments. -/
def smallStack : Setting where
  stack := 4096
  address _ := Machine.labelAddress 0
  outgoing := 2
  divide x y := (x / y, x % y)
  divide_eq _ _ _ := rfl

/-- The machine before the loop, which counts down from 2. -/
def beforeLoop : Machine := ({} : Machine).setTemp ⟨2⟩ 2

/-- Two rounds of the loop, with a call and a store each, and the jump to the exit. -/
theorem selection_keeps_behaviour_loop :
    ∃ k, let code := ((callingLoop.select 5 : Emit Unit Code).run ⟨4, 3⟩).value
      let m := (beforeLoop.run callingLoop.stmts 14).2
      let e := Execution.run smallStack code k
        ⟨.running 0, ⟨beforeLoop.temp, beforeLoop.load, 0, []⟩⟩
      e.control = .left callingLoop.exit ∧
        e.state.labels = [.fresh 0, .fresh 0, .fresh 1] ∧ m.effects.size = 4 ∧
        Agrees smallStack (temps callingLoop.stmts) m e.state := by
  have hplace : (Walk.after callingLoop.stmts beforeLoop 14).place = .left (.fresh 2) := by
    decide +kernel
  have hreached : (Walk.after callingLoop.stmts beforeLoop 14).reached =
      [.fresh 0, .fresh 0, .fresh 1] := by
    decide +kernel
  have heffects : (beforeLoop.run callingLoop.stmts 14).2.effects.size = 4 := by
    decide +kernel
  have haddrs : ∀ j ≤ 14, (beforeLoop.run callingLoop.stmts j).2.labelAddrs ∈
      [∅, Std.ExtTreeMap.insert ∅ (.named "data") (Machine.labelAddress 0)] := by
    decide +kernel
  have hknown : ∀ j ≤ 14, Known smallStack (beforeLoop.run callingLoop.stmts j).2 := by
    intro j hj l addr haddr
    rcases List.mem_pair.mp (haddrs j hj) with h | h
    · rw [h, Std.ExtTreeMap.getElem?_empty] at haddr
      cases haddr
    · rw [h, Std.ExtTreeMap.getElem?_insert] at haddr
      split at haddr
      · exact Option.some.inj haddr
      · rw [Std.ExtTreeMap.getElem?_empty] at haddr
        cases haddr
  have haccess : ∀ j < 14, ((Walk.after callingLoop.stmts beforeLoop j).access?.all fun addr =>
      !decide (smallStack.Outgoing addr)) = true := by
    decide +kernel
  have havoid : ∀ j < 14, ∀ addr ∈ (Walk.after callingLoop.stmts beforeLoop j).access?,
      ¬ smallStack.Outgoing addr := by
    intro j hj addr haddr
    have h := haccess j hj
    rw [Option.mem_def.mp haddr] at h
    simpa using h
  have hstart : Agrees smallStack (temps callingLoop.stmts) beforeLoop
      ⟨beforeLoop.temp, beforeLoop.load, 0, []⟩ := ⟨fun _ _ => rfl, fun _ _ => rfl, .nil⟩
  obtain ⟨k, hplaced, hagrees, hlabels, -⟩ :=
    selection_keeps_behaviour Unit 5 callingLoop ⟨4, 3⟩ smallStack (by decide) (by decide)
      (by decide) (by decide) beforeLoop _ hstart rfl 14 hknown havoid (by decide +kernel)
  rw [hplace] at hplaced
  exact ⟨k, hplaced, hlabels.trans hreached, heffects, hagrees⟩

end MmixBackend
