import MmixBackend.Proofs.FrameLayout
import MmixBackend.Proofs.LegibleCode

/-!
# Code can always be written

Listings and logs show instructions by filling in their templates. No template that selection and
spilling make can fail to be filled in, whatever the registers are. Once allocation has succeeded,
every operand has a register and shows as one. So what a listing shows depends on the registers of
the operands only, and compiling does not depend on who listens to its events.

* **`Rewritten`** — code after any number of spills.
* **`listing_of_registered`** — each line of a listing.
* **`served_attemptFrom`** — all attempts, by induction on the temporaries that may be spilled.
* **`lines_of_served`** — a log of events.
* **`rendering_never_fails`** — all of it.
-/

namespace MmixBackend

-- ── Lists of texts ───────────────────────────────────────────────────────────

/-- If a step succeeds on each member of a list, then it succeeds along the list. -/
theorem exists_mapM_ok {α β ε : Type} {R : α → β → Prop} {f : α → Except ε β} {xs : List α}
    (h : ∀ x ∈ xs, ∃ y, f x = .ok y ∧ R x y) :
    ∃ ys, xs.mapM f = .ok ys ∧ List.Forall₂ R xs ys := by
  induction xs with
  | nil => exact ⟨[], rfl, .nil⟩
  | cons x xs ih =>
      obtain ⟨⟨y, hy, hR⟩, hrest⟩ := List.forall_mem_cons.mp h
      obtain ⟨ys, hys, hforall⟩ := ih hrest
      refine ⟨y :: ys, ?_, .cons hR hforall⟩
      rw [List.mapM_cons, hy, hys]
      rfl

-- ── Listings ─────────────────────────────────────────────────────────────────

/-- Only the names of the operands matter to the text of a template. -/
theorem FilledIn.congr {name name' : Temp → String} {uses defs : List Temp}
    {template text : List Char} (h : FilledIn name uses defs template text)
    (hname : ∀ t, t ∈ uses ∨ t ∈ defs → name t = name' t) :
    FilledIn name' uses defs template text := by
  induction h with
  | nil => exact .nil
  | char hc _ ih => exact .char hc ih
  | source hi ht _ ih =>
      rw [hname _ (.inl (List.mem_of_getElem? ht))]
      exact .source hi ht ih
  | target hi ht _ ih =>
      rw [hname _ (.inr (List.mem_of_getElem? ht))]
      exact .target hi ht ih

namespace Instr

/-- Only the names of the operands matter to the text of an instruction. -/
theorem WrittenAs.congr {name name' : Temp → String} {i : Instr} {text : String}
    (h : i.WrittenAs name text) (hname : ∀ t, Spill.Touches t i → name t = name' t) :
    i.WrittenAs name' text := by
  cases i with
  | label l => exact h
  | move op dst src => exact FilledIn.congr h hname
  | oper op uses defs jumps falls => exact FilledIn.congr h hname

/-- What stands before an instruction in a listing. -/
def indent : Instr → String
  | .label _ => ""
  | _ => "    "

end Instr

/-- How a temporary is written that has a register. -/
def registerText (register : Temp → Nat) (t : Temp) : String := "$" ++ toString (register t)

/-- The listing of the code has a line for each instruction, in which every operand is written as
    its register. -/
def Code.ListsRegisters (code : Code) : Prop :=
  ∃ register : Temp → Nat,
    (∀ i ∈ code.instrs, ∀ t, Spill.Touches t i → code.registers[t]? = some (register t)) ∧
    ∃ lines, code.listing = .ok (String.join lines) ∧
      List.Forall₂ (fun i line => ∃ text, i.WrittenAs (registerText register) text ∧
        line = i.indent ++ text ++ "\n") code.instrs lines

/-- The line of an instruction is its text with what stands before it. -/
theorem Code.lineText_of_render {registers : TempMap Nat} {i : Instr} {text : String}
    (h : i.render registers = .ok text) :
    lineText registers i = .ok (i.indent ++ text ++ "\n") := by
  rw [lineText, h]
  cases i with
  | label l =>
      rw [Instr.indent, String.empty_append]
      rfl
  | move op dst src => rfl
  | oper op uses defs jumps falls => rfl

/-- Code whose operands all have registers is listed with these registers. -/
theorem Code.listing_of_registered {code : Code} (hserved : ∀ i ∈ code.instrs, i.Served)
    (hregistered : ∀ i ∈ code.instrs, ∀ t, Spill.Touches t i → t ∈ code.registers) :
    code.ListsRegisters := by
  have hregister : ∀ i ∈ code.instrs, ∀ t, Spill.Touches t i →
      code.registers[t]? = some (code.registers.getD t 0) := by
    intro i hi t ht
    obtain ⟨r, hr⟩ := Option.isSome_iff_exists.mp
      (Std.ExtTreeMap.mem_iff_isSome_getElem?.mp (hregistered i hi t ht))
    rw [Std.ExtTreeMap.getD_eq_getD_getElem?, hr]
    rfl
  refine ⟨_, hregister, ?_⟩
  have hlines : ∀ i ∈ code.instrs, ∃ line, lineText code.registers i = .ok line ∧
      ∃ text, i.WrittenAs (registerText (code.registers.getD · 0)) text ∧
        line = i.indent ++ text ++ "\n" := by
    intro i hi
    obtain ⟨text, htext⟩ := (hserved i hi).render code.registers
    refine ⟨_, lineText_of_render htext, text, ?_, rfl⟩
    refine (Instr.writtenAs_of_render htext).congr fun t ht => ?_
    rw [Instr.operandText, hregister i hi t ht, registerText]
  obtain ⟨lines, hmap, hforall⟩ := exists_mapM_ok hlines
  refine ⟨lines, ?_, hforall⟩
  rw [listing, hmap]
  rfl

-- ── Logs ─────────────────────────────────────────────────────────────────────

/-- An event that shows instructions with enough operands can be reported. -/
theorem Event.Served.exists_line {e : Event} (h : e.Served) : ∃ line, e.line = .ok line := by
  have hmessage : ∃ text, e.message = .ok text := by
    cases e with
    | liveSets rows =>
        have hrows : ∀ row ∈ rows, ∃ text, row.text = .ok text ∧ True := by
          intro row hrow
          obtain ⟨text, htext⟩ := (h row.instr (List.mem_map_of_mem hrow)).text
          rw [LiveRow.text, htext]
          exact ⟨_, rfl, trivial⟩
        obtain ⟨texts, hmap, -⟩ := exists_mapM_ok (R := fun _ _ => True) hrows
        rw [message, liveTable, hmap]
        exact ⟨_, rfl⟩
    | patched i =>
        obtain ⟨text, htext⟩ := (h i List.mem_cons_self).text
        rw [message, htext]
        exact ⟨_, rfl⟩
    | _ => exact ⟨_, rfl⟩
  obtain ⟨text, htext⟩ := hmessage
  rw [line, htext]
  exact ⟨_, rfl⟩

/-- Events that show such instructions only can be written at every level. -/
theorem Log.lines_of_served {es : List Event} (h : ∀ e ∈ es, e.Served) (wanted : Level) :
    (lines wanted es).2 = none := by
  induction es with
  | nil => rfl
  | cons e es ih =>
      obtain ⟨he, hes⟩ := List.forall_mem_cons.mp h
      obtain ⟨line, hline⟩ := he.exists_line
      rw [lines, hline]
      split
      · exact ih hes
      · exact ih hes

-- ── Spilling and allocation ──────────────────────────────────────────────────

/-- What code becomes when any temporaries are spilled, one after the other, into any slots and with
    any names. -/
inductive Code.Rewritten (code : Code) : Code → Prop
  | refl : Rewritten code code
  | spill {code' : Code} (h : Rewritten code code') (spills : Spills) (t : Temp) (names : Supply) :
      Rewritten code (((Allocation.mk code' spills).spill t : Emit Instr _).run names).value.2.code

/-- Spills do not change how many operands an instruction has. -/
theorem Code.Rewritten.served {code code' : Code} (h : code.Rewritten code')
    (hcode : ∀ i ∈ code.instrs, i.Served) : ∀ i ∈ code'.instrs, i.Served := by
  induction h with
  | refl => exact hcode
  | spill _ spills t names ih =>
      exact (Allocation.leaves_spill Spill.preserved_served ih t names).1

/-- The events of an attempt show instructions of its code only. -/
theorem Attempt.shown_events {code : Code} {a : Attempt} {e : Event} (he : e ∈ a.events code) :
    ∀ i ∈ e.instrs, i ∈ code.instrs := by
  rcases events_cases he with rfl | ⟨-, hnone⟩
  · intro i hi
    obtain ⟨row, hrow, rfl⟩ := List.mem_map.mp hi
    obtain ⟨⟨instr, n⟩, hinstr, rfl⟩ := List.mem_map.mp hrow
    exact (List.mem_zipIdx' hinstr).2 ▸ List.getElem_mem _
  · rw [hnone]
    exact fun _ hi => absurd hi List.not_mem_nil

namespace Allocation

variable {ω : Type} {k n : Nat} {a : Allocation}

/-- Attempts show only instructions that can be written, and leave no others behind. -/
theorem served_attemptFrom (ha : ∀ i ∈ a.code.instrs, i.Served) (s : Supply) :
    (∀ e ∈ ((attemptFrom k n a : Emit ω _).run s).events, e.Served) ∧
      ∀ i ∈ ((attemptFrom k n a : Emit ω _).run s).value.2.code.instrs, i.Served := by
  induction hsize : a.pending.size using Nat.strongRecOn generalizing n a s with
  | ind size ih =>
      -- an attempt shows the instructions that it is about, and a spill those that it patches
      have hattempt : ∀ e ∈ .attempt n a.code.frame.label ::
          (Attempt.make k a.spills.temps a.code).events a.code, e.Served := by
        refine List.forall_mem_cons.mpr ⟨List.forall_mem_nil _, ?_⟩
        intro e he i hi
        exact ha i (Attempt.shown_events he i hi)
      rw [Emit.run, attemptFrom]
      split
      · exact ⟨List.forall_mem_nil _, ha⟩
      · dsimp only
        split
        · refine ⟨List.forall_mem_append.mpr ⟨hattempt, ?_⟩, ha⟩
          exact List.forall_mem_singleton.mpr (List.forall_mem_nil _)
        · next t hstuck =>
          split
          · exact ⟨hattempt, ha⟩
          · next ht =>
            obtain ⟨hcode, hevents⟩ := leaves_spill (ω := ω) Spill.preserved_served ha t s
            have hspill : ∀ e ∈ .attempt n a.code.frame.label ::
                (Attempt.make k a.spills.temps a.code).events a.code ++
                  .spilling t a.code.frame.label :: ((a.spill t : Emit ω _).run s).events,
                e.Served :=
              List.forall_mem_append.mpr
                ⟨hattempt, List.forall_mem_cons.mpr ⟨List.forall_mem_nil _, hevents⟩⟩
            split
            · next e a' hvalue =>
              rw [hvalue] at hcode
              exact ⟨hspill, hcode⟩
            · next a' hvalue =>
              rw [hvalue] at hcode
              have hless := size_pending_spill_lt (Attempt.stuck_ne_pointer hstuck) ht hvalue
              obtain ⟨hrest, hdone⟩ := ih _ (hsize ▸ hless) hcode
                ((a.spill t : Emit ω _).run s).supply rfl
              exact ⟨List.forall_mem_append.mpr ⟨hspill, hrest⟩, hdone⟩

/-- After allocation has succeeded, every operand is listed as a register. -/
theorem lists_allocate (ha : ∀ i ∈ a.code.instrs, i.Served) (s : Supply)
    (hok : ((a.allocate k : Emit ω _).run s).value.1 = .ok ()) :
    ((a.allocate k : Emit ω _).run s).value.2.code.ListsRegisters := by
  have hrounds : Rounds ω k a s ((a.allocate k : Emit ω _).run s).value.2 _ :=
    rounds_of_ok (Prod.ext hok rfl)
  exact Code.listing_of_registered (served_attemptFrom ha s).2 hrounds.registered

end Allocation

-- ── Compilation ──────────────────────────────────────────────────────────────

/-- A fresh label has no backquote. -/
theorem Label.plain_fresh (n : Nat) : (Label.fresh n).Plain := by
  rw [Plain, text, String.toList_append, List.mem_append, not_or]
  exact ⟨by decide, backquote_not_mem_toString n⟩

/-- Everything that is reported while a function is compiled can be written. -/
theorem Tree.Function.leaves_compile {ω : Type} (k : Nat) {f : Tree.Function}
    (h : ∀ l ∈ f.body.labels, l.Plain) :
    Emit.LeavesOk (fun _ => True) Event.Served (fun _ => True)
      (f.compile k : ExceptT Error (Emit ω) Code) := by
  have hnone : ∀ e : Event, e.instrs = [] → e.Served := by
    intro e he
    rw [Event.Served, he]
    exact List.forall_mem_nil _
  refine (Emit.leaves_report (hnone _ rfl)).lift.andThen ?_
  refine Emit.LeavesOk.bind
    (Emit.Leaves.mono_events (Flat.leaves_ofTree Label.plain_fresh h) hnone) ?_
  rintro flat ⟨hflat, hexit⟩
  refine ((Flat.Function.leaves_layOut Label.plain_fresh hexit hflat).mono_events
    hnone).lift.bind fun laidOut hlaidOut => ?_
  refine (Flat.Function.leaves_select k hlaidOut).lift.bind fun code hcode => ?_
  have hallocate : Emit.Leaves (fun _ => True) Event.Served (fun _ => True)
      (Allocation.allocate k ⟨code, {}⟩ : Emit ω _) :=
    ⟨fun _ _ _ => trivial, fun s => (Allocation.served_attemptFrom hcode s).1, fun _ => trivial⟩
  refine hallocate.lift.bind ?_
  rintro ⟨outcome, done⟩ -
  -- if allocation has failed, nothing more is reported
  refine (Emit.leavesOk_mk (V := fun _ => True) fun _ _ => trivial).andThen ?_
  exact (Emit.leaves_report (hnone _ rfl)).lift.andThen (Emit.leavesOk_pure trivial)

/-- So can everything that is reported for functions one after the other. -/
theorem leaves_compileFunctions {ω : Type} (k : Nat) {fs : List Tree.Function}
    (h : ∀ f ∈ fs, ∀ l ∈ f.body.labels, l.Plain) :
    Emit.LeavesOk (fun _ => True) Event.Served (fun _ => True)
      (compileFunctions k fs : ExceptT Error (Emit ω) (List Code)) := by
  induction fs with
  | nil => exact Emit.leavesOk_pure trivial
  | cons f fs ih =>
      obtain ⟨hf, hfs⟩ := List.forall_mem_cons.mp h
      exact (Tree.Function.leaves_compile k hf).bind fun _ _ => (ih hfs).bind fun _ _ =>
        Emit.leavesOk_pure trivial

/-- **Code can always be written.** Take any flat code whose labels have no backquote in them, the
    instructions selected for it, and what any number of spills make of them. Each of these
    instructions can be written under every register assignment. Its text is its template, with
    every reference replaced by the register of the operand it refers to, or by the name of that
    operand if it has none. Registers of other temporaries make no difference. Whenever allocation
    succeeds, the listing shows every operand as a register. What allocation reports can be written
    at every level of detail, whether or not it succeeds, and so can everything that is reported
    while functions with such labels are compiled. -/
theorem rendering_never_fails {ω : Type} (keep : Nat) (f : Flat.Function) (names : Supply)
    (hplain : ∀ st ∈ f.stmts, ∀ l ∈ st.labels, '\x60' ∉ l.text.toList) :
    (∀ code, ((f.select keep : Emit ω Code).run names).value.Rewritten code →
      (∀ i ∈ code.instrs, ∀ registers : TempMap Nat, ∃ text, i.render registers = .ok text ∧
        i.WrittenAs (Instr.operandText registers) text ∧
        ∀ registers' : TempMap Nat, (∀ t, Spill.Touches t i → registers'[t]? = registers[t]?) →
          i.render registers' = .ok text) ∧
      ∀ (k : Nat) (spills : Spills) (names : Supply),
        let r := (Allocation.allocate k ⟨code, spills⟩ : Emit ω _).run names
        (r.value.1 = .ok () → r.value.2.code.ListsRegisters) ∧
          ∀ wanted, (Log.lines wanted r.events).2 = none) ∧
    ∀ (k : Nat) (fs : List Tree.Function) (context : Context),
      (∀ g ∈ fs, ∀ l ∈ g.body.labels, '\x60' ∉ l.text.toList) →
        ∀ wanted,
          (Log.lines wanted (compileProgram k fs context : Emitted ω _).events).2 = none := by
  refine ⟨fun code hcode => ?_, ?_⟩
  · have hselected := (Flat.Function.leaves_select (ω := ω) (R := fun _ => True)
      (Q := fun _ => True) keep hplain).value names
    have hserved := hcode.served hselected
    refine ⟨fun i hi registers => ?_, fun k spills names => ⟨?_, ?_⟩⟩
    · obtain ⟨text, htext⟩ := (hserved i hi).render registers
      refine ⟨text, htext, Instr.writtenAs_of_render htext, ?_⟩
      intro registers' hsame
      rw [Instr.render_congr hsame, htext]
    · exact Allocation.lists_allocate (a := ⟨code, spills⟩) hserved names
    · exact Log.lines_of_served
        (Allocation.served_attemptFrom (a := ⟨code, spills⟩) hserved names).1
  · intro k fs context hlabels
    exact Log.lines_of_served ((leaves_compileFunctions k hlabels).events context.supply)

/-- Tells a function what is left over when an address is divided by three, and does so again unless
    that is zero. -/
def leftover : Flat.Function where
  frame := ⟨.named "f", 1, 0, 8, ⟨0⟩, ⟨1⟩⟩
  entry := .fresh 0
  exit := .fresh 1
  stmts := [
    .label (.fresh 0),
    .act (.move ⟨2⟩ (.binop .mod (.name (.named "n")) (.const 3))),
    .act (.move ⟨0⟩ (.call (.named "tell") [⟨2⟩])),
    .transfer (.branch ⟨2⟩ (.fresh 0) (.fresh 2)),
    .label (.fresh 2),
    .transfer (.jump (.fresh 1))]

/-- Its instructions with what is left over in a slot. -/
def leftoverSpilled : Allocation :=
  (((Allocation.mk ((leftover.select 2 : Emit Instr Code).run { temps := 3, labels := 3 }).value
    {}).spill ⟨2⟩ : Emit Instr _).run { temps := 6, labels := 3 }).value.2

/-- These instructions, for two registers, and another function from its tree. -/
theorem rendering_never_fails_leftover :
    let r := (Allocation.allocate 2 ⟨leftoverSpilled.code, leftoverSpilled.spills⟩ :
      Emit Instr _).run { temps := 12, labels := 3 }
    (∀ st ∈ leftover.stmts, ∀ l ∈ st.labels, '\x60' ∉ l.text.toList) ∧
      (∀ i ∈ leftoverSpilled.code.instrs, ∃ text, i.render ∅ = .ok text ∧
        i.WrittenAs (Instr.operandText ∅) text) ∧
      r.value.1 = .ok () ∧ r.value.2.code.ListsRegisters ∧ (Log.lines .trace r.events).2 = none ∧
      (Log.lines .trace (compileProgram 2 [Source.waitingTree]
        { supply := { temps := 2, labels := 3 } } : Emitted Instr _).events).2 = none := by
  intro r
  have hplain : ∀ st ∈ leftover.stmts, ∀ l ∈ st.labels, '\x60' ∉ l.text.toList := by decide
  have hlabels : ∀ g ∈ [Source.waitingTree], ∀ l ∈ g.body.labels, '\x60' ∉ l.text.toList := by
    decide
  have hok : r.value.1 = .ok () :=
    congrArg Prod.fst (Allocation.eq_ok_of_isOk (by decide +kernel))
  obtain ⟨hcode, hcompile⟩ :=
    rendering_never_fails (ω := Instr) 2 leftover { temps := 3, labels := 3 } hplain
  obtain ⟨htexts, hallocate⟩ := hcode leftoverSpilled.code
    (Code.Rewritten.refl.spill {} ⟨2⟩ { temps := 6, labels := 3 })
  obtain ⟨hlists, hlog⟩ := hallocate 2 leftoverSpilled.spills { temps := 12, labels := 3 }
  refine ⟨hplain, ?_, hok, hlists hok, hlog .trace, hcompile 2 _ _ hlabels .trace⟩
  intro i hi
  obtain ⟨text, htext, hwritten, -⟩ := htexts i hi ∅
  exact ⟨text, htext, hwritten⟩

end MmixBackend
