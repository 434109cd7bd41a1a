import Mathlib.Data.List.Permutation
import MmixBackend.Proofs.LabelDiscipline
import MmixBackend.Proofs.SelectedReads
import MmixBackend.Proofs.SpillMeaning
import MmixBackend.Proofs.SpillRewrap

/-!
# Compiled functions read nothing uninitialized

In front of the first instruction of a compiled function, nothing is live but the frame pointer:
every other temporary is written before it is read, whichever way control takes, and so is the
result before control leaves. Spilling keeps that, although it never initializes a slot.

* **`ahead_patched`** — what is ahead in patched code was ahead before, and is not the spilled
  temporary.
* **`Contained.initialized`** — what is live at the start.
* **`reads_nothing_uninitialized`** — selected and allocated code.
* **`call_of_exit_reads_result`** — a call that names the exit label counts as leaving.
-/

namespace MmixBackend

open Flat

-- ── Spilling ─────────────────────────────────────────────────────────────────

namespace Spill

variable {code : Code} {t u : Temp} {d : Word} {n : Nat} {i : Instr} {is rest rest' : List Instr}

/-- What is ahead behind the instruction of a window: the new name of the spilled temporary only if
    the instruction writes it. -/
theorem ahead_window_after (hu : u ≠ code.frame.pointer)
    (h : code.Ahead ((window code t d n i).after ++ rest) u) :
    t ∈ i.defs ∧ u = valueTemp code t n i ∨ code.Ahead rest u := by
  rw [window_after] at h
  split at h
  · next hdef =>
    obtain ⟨-, heq | h⟩ := ahead_store (x := ⟨d, _, valueTemp code t n i⟩) hu h
    · exact .inl ⟨hdef, heq⟩
    · exact .inr h
  · exact .inr h

/-- What is ahead in front of the instruction of a window, if what is ahead behind the window was
    ahead before: its new name only if the instruction reads the spilled temporary, and the spilled
    temporary itself only if control leaves with it. -/
theorem ahead_window_main
    (hrest : ∀ u, u ≠ code.frame.pointer → code.Ahead rest' u → code.Ahead rest u ∧ u ≠ t)
    (hu : u ≠ code.frame.pointer)
    (h : code.Ahead ((window code t d n i).main :: ((window code t d n i).after ++ rest')) u) :
    t ∈ i.uses ∧ u = valueTemp code t n i ∨ code.Ahead (i :: rest) u ∧ u ≠ t ∨
      u = t ∧ Reloads code t i := by
  rcases h with huse | ⟨hbehind, hdef⟩
  · rw [window_main, uses_replace] at huse
    rcases mem_map_rename.mp huse with ⟨huse, hne⟩ | ⟨heq, huse⟩
    · exact .inr (.inl ⟨.inl huse, hne⟩)
    · exact .inl ⟨huse, heq⟩
  · rw [window_main, defs_replace, mem_map_rename, not_or] at hdef
    have hkept : u ≠ t → u ∉ i.defs := fun hne hmem => hdef.1 ⟨hmem, hne⟩
    rcases hbehind with hahead | ⟨hresult, hjump⟩
    · rcases ahead_window_after hu hahead with ⟨hwrite, heq⟩ | hahead
      · exact absurd ⟨heq, hwrite⟩ hdef.2
      · obtain ⟨hahead, hne⟩ := hrest u hu hahead
        exact .inr (.inl ⟨.inr ⟨.inl hahead, hkept hne⟩, hne⟩)
    · rw [window_main, jumps_replace] at hjump
      by_cases hne : u = t
      · subst hne
        exact .inr (.inr ⟨rfl, hresult, hjump⟩)
      · exact .inr (.inl ⟨.inr ⟨.inr ⟨hresult, hjump⟩, hkept hne⟩, hne⟩)

/-- What is ahead of a window was ahead of its instruction. The spilled temporary is not among it:
    it is loaded under its new name in front of what reads it, and as itself where control
    leaves. -/
theorem ahead_window
    (hrest : ∀ u, u ≠ code.frame.pointer → code.Ahead rest' u → code.Ahead rest u ∧ u ≠ t)
    (hu : u ≠ code.frame.pointer) (h : code.Ahead ((window code t d n i).instrs ++ rest') u) :
    code.Ahead (i :: rest) u ∧ u ≠ t := by
  rw [Window.instrs, window_before, List.append_assoc, List.append_assoc, List.cons_append] at h
  have hload : ∀ {code' : List Instr},
      code.Ahead ((if t ∈ i.uses then loadCode code.frame d ⟨n + reloadNeeds code t i + 1⟩
        (valueTemp code t n i) else []) ++ code') u →
      code.Ahead code' u ∧ (t ∈ i.uses → u ≠ valueTemp code t n i) := by
    intro code' h
    split at h
    · obtain ⟨-, hne, h⟩ := ahead_load (x := ⟨d, _, valueTemp code t n i⟩) hu h
      exact ⟨h, fun _ => hne⟩
    · next hnot => exact ⟨h, fun huse => absurd huse hnot⟩
  have hreload : ∀ {code' : List Instr}, code.Ahead (reloadCode code t d n i ++ code') u →
      code.Ahead code' u ∧ (Reloads code t i → u ≠ t) := by
    intro code' h
    rw [reloadCode] at h
    split at h
    · obtain ⟨-, hne, h⟩ := ahead_load (x := ⟨d, ⟨n⟩, t⟩) hu h
      exact ⟨h, fun _ => hne⟩
    · next hnot => exact ⟨h, fun hreloads => absurd hreloads hnot⟩
  obtain ⟨h, hne⟩ := hreload h
  obtain ⟨h, hne'⟩ := hload h
  rcases ahead_window_main hrest hu h with ⟨huse, heq⟩ | hold | ⟨heq, hreloads⟩
  · exact absurd heq (hne' huse)
  · exact hold
  · exact absurd heq (hne hreloads)

/-- Patching puts nothing ahead that was not, and takes away the spilled temporary. -/
theorem ahead_patched (hu : u ≠ code.frame.pointer)
    (h : code.Ahead (patched code t d n is) u) : code.Ahead is u ∧ u ≠ t := by
  induction is generalizing n u with
  | nil => exact h.elim
  | cons i is ih => exact ahead_window (fun u hu h => ih hu h) hu h

/-- A label is patched as it is. -/
theorem instrs_window_label (code : Code) (t : Temp) (d : Word) (n : Nat) (l : Label) :
    (window code t d n (.label l)).instrs = [.label l] := by
  have htouch : ¬Touches t (.label l) := fun h => h.elim List.not_mem_nil List.not_mem_nil
  have hreload : ¬Reloads code t (.label l) := fun h => List.not_mem_nil h.2
  rw [Window.instrs, window, if_neg htouch, reloadCode, if_neg hreload]
  rfl

/-- The window of an instruction that is no label has no label in it. -/
theorem label?_window {j : Instr} (hi : i.label? = none) (hj : j ∈ (window code t d n i).instrs) :
    j.label? = none := by
  rcases List.mem_append.mp hj with hj | hj
  · exact (isPlain_before hj).label?
  · rcases List.mem_cons.mp hj with rfl | hj
    · rw [window_main, label?_replace, hi]
    · exact (isPlain_after hj).label?

/-- Patched code has its labels in front of patched code. -/
theorem suffix_patched {l : Label} {behind : List Instr}
    (h : .label l :: behind <:+ patched code t d n is) :
    ∃ m rest, .label l :: rest <:+ is ∧
      .label l :: behind = patched code t d m (.label l :: rest) := by
  induction is generalizing n with
  | nil => cases List.suffix_nil.mp h
  | cons i is ih =>
      have hnext : .label l :: behind <:+ patched code t d (n + tempsNeeded code t i) is →
          ∃ m rest, .label l :: rest <:+ i :: is ∧
            .label l :: behind = patched code t d m (.label l :: rest) := by
        intro h
        obtain ⟨m, rest, hsuffix, heq⟩ := ih h
        exact ⟨m, rest, hsuffix.trans (List.suffix_cons i is), heq⟩
      replace h : .label l :: behind <:+ (window code t d n i).instrs ++
          patched code t d (n + tempsNeeded code t i) is := h
      cases hi : i.label? with
      | none => exact hnext (Code.suffix_of_labels (fun j hj => label?_window hi hj) h)
      | some l' =>
          cases i with
          | label l₀ =>
              rw [instrs_window_label] at h
              rcases List.suffix_cons_iff.mp h with heq | h
              · obtain ⟨hl, -⟩ := List.cons.inj heq
                obtain rfl := Instr.label.inj hl
                refine ⟨n, is, List.suffix_refl _, heq.trans ?_⟩
                show _ = (window code t d n (.label l)).instrs ++ _
                rw [instrs_window_label]
                rfl
              · exact hnext h
          | move op dst src => cases hi
          | oper op uses defs jumps falls => cases hi

end Spill

namespace Code

variable {code code' : Code} {is : List Instr} {t : Temp}

/-- Patched instructions are contained if the instructions were. -/
theorem Contained.patched (h : code.Contained is) (t : Temp) (d : Word) (n : Nat) :
    code.Contained (Spill.patched code t d n is) := by
  constructor
  · intro u hu
    by_contra hne
    exact hne (h.start u (Spill.ahead_patched hne hu).1)
  · intro l behind hsuffix u hu
    obtain ⟨m, rest, hrest, heq⟩ := Spill.suffix_patched hsuffix
    by_contra hne
    rw [heq] at hu
    exact hne (h.labels l rest hrest u (Spill.ahead_patched hne hu).1)

/-- Whether something is ahead is a matter of the instructions, the result and the exit. -/
theorem ahead_congr (hframe : code'.frame = code.frame) (hexit : code'.exit = code.exit) :
    code'.Ahead is t ↔ code.Ahead is t := by
  induction is with
  | nil => exact Iff.rfl
  | cons i is ih => rw [Ahead, Ahead, Spill.Reloads, Spill.Reloads, ih, hframe, hexit]

/-- Only the frame and the exit of the function count. -/
theorem Contained.congr (h : code.Contained is) (hframe : code'.frame = code.frame)
    (hexit : code'.exit = code.exit) : code'.Contained is := by
  constructor
  · intro t ht
    rw [hframe]
    exact h.start t ((ahead_congr hframe hexit).mp ht)
  · intro l rest hsuffix t ht
    rw [hframe]
    exact h.labels l rest hsuffix t ((ahead_congr hframe hexit).mp ht)

end Code

namespace Allocation

variable {ω : Type} {a a' : Allocation} {k : Nat} {t : Temp} {s : Supply}

/-- A spill keeps a function contained. -/
theorem contained_spill (h : a.code.Contained a.code.instrs)
    (hspill : ((a.spill t : Emit ω _).run s).value = (.ok (), a')) :
    a'.code.Contained a'.code.instrs := by
  obtain ⟨d, -, hframe, hinstrs, -⟩ := spill_eq_ok hspill
  rw [hinstrs]
  exact (h.patched t d s.temps).congr hframe (Spill.exit_spill hspill)

/-- Allocation keeps code that reads nothing uninitialized as it is, with any number of spills. -/
theorem contained_allocate (h : a.code.Contained a.code.instrs)
    (hok : ((a.allocate k : Emit ω _).run s).value = (.ok (), a')) :
    a'.code.Contained a'.code.instrs := by
  obtain ⟨a₁, h₁, -, rfl⟩ := attemptFrom_invariant (P := fun a => a.code.Contained a.code.instrs)
    contained_spill h hok
  exact h₁.congr rfl rfl

end Allocation

-- ── Liveness at the start ────────────────────────────────────────────────────

namespace Code

variable {code : Code} {t : Temp}

/-- Control can get from an instruction to a jump to the exit without the temporary being written on
    the way. -/
inductive Escapes (code : Code) (t : Temp) : Nat → Prop where
  | exit {pc : Nat} {i : Instr} (hi : code.instrs[pc]? = some i) (ht : t ∉ i.defs)
      (hexit : code.exit ∈ i.jumps) : Escapes code t pc
  | step {pc next : Nat} {i : Instr} (hi : code.instrs[pc]? = some i) (ht : t ∉ i.defs)
      (hnext : next ∈ code.successors pc i) (h : Escapes code t next) : Escapes code t pc

/-- The result is live wherever control can leave without writing it. -/
theorem mem_liveIn_of_escapes {pc : Nat} (h : code.Escapes code.frame.result pc) :
    code.frame.result ∈ code.liveSets.liveIn pc := by
  have hpass : ∀ {pc : Nat} {i : Instr}, code.instrs[pc]? = some i →
      code.frame.result ∉ i.defs →
      code.frame.result ∈ code.flow.liveOutAt code.liveSets (code.point pc i) →
      code.frame.result ∈ code.liveSets.liveIn pc := by
    intro pc i hi ht hout
    have hpoint := getElem?_points hi
    refine code.closed_liveSets.liveIn pc _ hpoint _ (Flow.mem_liveInAt.mpr (.inr ⟨?_, ht⟩))
    exact code.closed_liveSets.liveOut pc _ hpoint _ hout
  induction h with
  | exit hi ht hexit =>
      exact hpass hi ht (Flow.mem_liveOutAt.mpr (.inr ⟨decide_eq_true hexit, rfl⟩))
  | step hi ht hnext _ ih => exact hpass hi ht (Flow.mem_liveOutAt.mpr (.inl ⟨_, hnext, ih⟩))

/-- Nothing but the frame pointer is live before the first instruction. In particular, the result is
    written on every way from there to a jump to the exit. -/
structure Initialized (code : Code) : Prop where
  liveIn : ∀ t ∈ code.liveSets.liveIn 0, t = code.frame.pointer
  result : code.Escapes code.frame.result 0 → code.frame.result = code.frame.pointer

/-- In contained code nothing but the frame pointer is live before the first instruction. -/
theorem Contained.initialized (h : code.Contained code.instrs) : code.Initialized := by
  have hquiet : code.QuietAtLabels (· ≠ code.frame.pointer) := by
    intro pc l hl t hne hahead
    rw [drop_of_getElem? hl] at hahead
    refine hne (h.labels l _ ?_ t hahead)
    rw [← drop_of_getElem? hl]
    exact List.drop_suffix pc _
  have hlive : ∀ t ∈ code.liveSets.liveIn 0, t = code.frame.pointer := by
    intro t ht
    by_contra hne
    exact hne (h.start t (ahead_of_liveIn hquiet ht hne))
  exact ⟨hlive, fun hescapes => hlive _ (mem_liveIn_of_escapes hescapes)⟩

end Code

-- ── Compiled functions ───────────────────────────────────────────────────────

/-- The instructions of a function before registers are allocated. -/
def Tree.Function.instructions {ω : Type} (k : Nat) (f : Tree.Function) :
    ExceptT Error (Emit ω) Code := do
  let flat ← Flat.Function.ofTree f
  let laidOut ← ExceptT.lift flat.layOut
  ExceptT.lift (laidOut.select k)

namespace Flat

/-- The code of a lowered function is ready, if the exit is none of the labels that it calls. -/
theorem Function.Composed.ready {callees : List Label} {g : Function} (h : g.Composed callees)
    (hexit : g.exit ∉ definedLabels g.stmts) :
    Ready callees g.exit g.frame (· = g.frame.pointer) g.stmts := by
  obtain ⟨code, last, hstmts, hstructured, hline, hresult⟩ := h
  rw [hstmts, definedLabels_enclosed, List.mem_cons, not_or, definedLabels_append, List.mem_append,
    not_or] at hexit
  rw [hstmts, List.append_assoc]
  refine ⟨Ne.symm hexit.1, hstructured.ready hexit.2.1 (ready_line hline ?_)⟩
  exact ⟨fun _ hu => absurd hu List.not_mem_nil, fun _ => hresult, trivial⟩

end Flat

namespace Source

/-- **Compiled functions read nothing uninitialized.** A function that was lowered can be flattened
    with names that were not taken before, laid out and turned into instructions. If none of its
    calls names the exit label that it gets, nothing but the frame pointer is live before its first
    instruction, and the result is written on every way to a jump to the exit. The same holds after
    register allocation has succeeded, however much it has spilled. -/
theorem reads_nothing_uninitialized {ω : Type} (k : Nat) (scope : Scope) (body : List Command)
    (result : Operand) (c c' : Context) (f : Tree.Function) (names : Supply)
    (hlower : (function scope body result).run.run c = (.ok f, c'))
    (hlabels : c'.supply.labels ≤ names.labels)
    (hcalls : .fresh (names.labels + 1) ∉ f.body.callees) :
    ∃ code s events, (f.instructions k : ExceptT Error (Emit ω) Code).run.run names =
        ⟨.ok code, [], events, s⟩ ∧ code.exit = .fresh (names.labels + 1) ∧ code.Initialized ∧
      ∀ (k' : Nat) (s' : Supply) (a : Allocation),
        ((Allocation.allocate k' { code, spills := {} } : Emit ω _).run s').value = (.ok (), a) →
        a.code.Initialized := by
  obtain ⟨g, s₁, events, hflat, hle, hfresh, -, hexit, hcomposed⟩ :=
    flattened_function (ω := ω) hlower hlabels
  obtain ⟨hnot, hnodup⟩ := List.nodup_cons.mp hfresh.nodup
  have hnext : s₁.freshLabel.1 ∉ definedLabels g.stmts := by
    intro hmem
    obtain ⟨i, hi, hrange⟩ := hfresh.range _ (List.mem_cons_of_mem _ hmem)
    have hi : s₁.labels = i := Label.fresh.inj hi
    omega
  obtain ⟨bs, hlaid, hbs⟩ := Flat.Function.layOut_known (ω := ω) hnodup hnot hnext
    (hcomposed.ready hnot)
  let laid := (g.layOut : Emit ω Flat.Function).run s₁
  let code := ((laid.value.select k : Emit ω Code).run laid.supply).value
  have hstmts : laid.value = { g with stmts := bs.flatMap Block.stmts } := hlaid
  have hnames : laid.value.exit ∉ f.body.callees := by
    rw [hstmts]
    exact hexit ▸ hcalls
  -- the invariant that spills keep as well
  have hcontained : code.Contained code.instrs := by
    refine Flat.Function.contained_select k (congrArg Flat.Function.stmts hstmts) hnames ?_ _
    rw [hstmts]
    exact hbs
  have hrun : ∃ s events, (f.instructions k : ExceptT Error (Emit ω) Code).run.run names =
      ⟨.ok code, [], events, s⟩ := by
    rw [Tree.Function.instructions, Emit.run_bind_except, hflat]
    exact ⟨_, _, rfl⟩
  obtain ⟨s, events', hrun⟩ := hrun
  refine ⟨code, s, events', hrun, ?_, hcontained.initialized, ?_⟩
  · exact (congrArg Flat.Function.exit hstmts).trans hexit
  · intro k' s' a hok
    exact (Allocation.contained_allocate hcontained hok).initialized

/-- The tree of a function that waits for a global to be 0 and then adds up constants. -/
def waitingTree : Tree.Function where
  frame := halvingScope.frame
  body := .move (.temp ⟨0⟩) (.seq
    (.seq [.seq [
      .label (.fresh 0), .branch (.mem (.name (.named "n"))) (.fresh 1) (.fresh 2),
      .label (.fresh 1), .jump (.fresh 0), .label (.fresh 2)]])
    (.binop .add (.binop .add (.const 1) (.const 2)) (.binop .add (.const 3) (.const 4))))

/-- Its instructions. -/
def waitingCode : Code where
  frame := halvingScope.frame
  entry := .fresh 3
  exit := .fresh 4
  instrs := [
    .label (.fresh 3),
    .plain (.loadAddress (.named "n")) [] [⟨5⟩], .plain .load [⟨5⟩] [⟨2⟩],
    .branch (.branchNonZero (.fresh 1)) [⟨2⟩] (.fresh 1),
    .label (.fresh 5),
    .plain (.setLow 1) [] [⟨6⟩], .plain (.setLow 2) [] [⟨7⟩], .plain (.alu .add) [⟨6⟩, ⟨7⟩] [⟨3⟩],
    .plain (.setLow 3) [] [⟨8⟩], .plain (.setLow 4) [] [⟨9⟩], .plain (.alu .add) [⟨8⟩, ⟨9⟩] [⟨4⟩],
    .plain (.alu .add) [⟨3⟩, ⟨4⟩] [⟨0⟩], .jump (.fresh 4),
    .label (.fresh 1), .jump (.fresh 3)]

/-- What allocation with two registers makes of them. -/
def waitingAllocation : Allocation :=
  ((Allocation.allocate 2 ⟨waitingCode, {}⟩ : Emit Stmt _).run
    { temps := 10, labels := 6 }).value.2

/-- With two registers, one of the sums is spilled. -/
theorem reads_nothing_uninitialized_waiting :
    waitingCode.Initialized ∧ waitingAllocation.code.spillSize = 8 ∧
    waitingAllocation.code.Initialized := by
  have hlower : (function halvingScope [.loop (.read (.var "n")) []]
      (.binop .add (.binop .add (.int 1) (.int 2)) (.binop .add (.int 3) (.int 4)))).run.run
      { supply := { temps := 2 } } =
        (.ok waitingTree, { supply := { temps := 2, labels := 3 } }) := rfl
  have hcode : ((waitingTree.instructions 2 : ExceptT Error (Emit Stmt) Code).run.run
      { temps := 2, labels := 3 }).value = .ok waitingCode := by cbv
  obtain ⟨code, s, events, hrun, -, hinit, hspilled⟩ := reads_nothing_uninitialized (ω := Stmt) 2
    halvingScope _ _ _ _ waitingTree { temps := 2, labels := 3 } hlower (Nat.le_refl _) (by decide)
  rw [hrun] at hcode
  obtain rfl : code = waitingCode := Except.ok.inj hcode
  -- allocation is evaluated once, for both its outcome and the bytes of its slots
  have heval : (((Allocation.allocate 2 ⟨waitingCode, {}⟩ : Emit Stmt _).run
      { temps := 10, labels := 6 }).value.1.isOk && waitingAllocation.code.spillSize == 8) =
        true := by decide +kernel
  obtain ⟨hok, hsize⟩ := Bool.and_eq_true_iff.mp heval
  exact ⟨hinit, eq_of_beq hsize,
    hspilled 2 { temps := 10, labels := 6 } _ (Allocation.eq_ok_of_isOk hok)⟩

/-- The tree of a function whose only call names the label that becomes its exit. -/
def leavingTree : Tree.Function where
  frame := halvingScope.frame
  body := .move (.temp ⟨0⟩) (.seq
    (.seq [.eval (.call (.fresh 1) [.mem (.temp ⟨1⟩)])]) (.const 0))

/-- Its instructions. -/
def leavingCode : Code where
  frame := halvingScope.frame
  entry := .fresh 0
  exit := .fresh 1
  instrs := [
    .label (.fresh 0), .plain .load [⟨1⟩] [⟨2⟩], .plain (.storeArg 0) [⟨2⟩] [],
    .branch (.call 2 (.fresh 1)) [] (.fresh 1), .plain (.setLow 0) [] [⟨0⟩], .jump (.fresh 1)]

/-- A call that names the exit label counts as leaving the function, so that the result is live
    from the start. -/
theorem call_of_exit_reads_result :
    (function halvingScope [.eval (.call (.fresh 1) 1 [])] (.int 0)).run.run
      { supply := { temps := 2 } } = (.ok leavingTree, { supply := { temps := 2 } }) ∧
    ((leavingTree.instructions 2 : ExceptT Error (Emit Stmt) Code).run.run
      { temps := 2 }).value = .ok leavingCode ∧
    leavingCode.frame.result ∈ leavingCode.liveSets.liveIn 0 ∧
    leavingCode.frame.result ≠ leavingCode.frame.pointer := by
  refine ⟨rfl, by cbv, ?_, by decide⟩
  refine Code.mem_liveIn_of_escapes ?_
  have hstep : ∀ {pc : Nat} {i : Instr}, leavingCode.instrs[pc]? = some i →
      leavingCode.frame.result ∉ i.defs → pc + 1 ∈ leavingCode.successors pc i →
      leavingCode.Escapes leavingCode.frame.result (pc + 1) →
      leavingCode.Escapes leavingCode.frame.result pc := .step
  exact hstep rfl (by decide) (by decide) (hstep rfl (by decide) (by decide)
    (hstep rfl (by decide) (by decide) (.exit rfl (by decide) (by decide))))

end Source

end MmixBackend
