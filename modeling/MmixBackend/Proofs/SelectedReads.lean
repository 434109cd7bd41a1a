import MmixBackend.Proofs.KnownBlocks
import MmixBackend.Proofs.SpillBlocks

/-!
# What selected instructions read

The instructions of a statement read what the statement reads. Where they take temporaries of their
own, they write them first. So, going backwards along the instructions of a known block, nothing is
ahead at its label but the frame pointer.

* **`Fills`** — what instructions make of what is ahead, from behind them to in front of them.
* **`supplies_rhs`**, **`supplies_act`** — by cases of what is selected.
* **`contained_select`** — the instructions of known blocks.
-/

namespace MmixBackend

open Flat

namespace Code

variable {code : Code} {known known₁ known' : Temp → Prop} {i : Instr} {is js rest : List Instr}

-- ── Stretches without labels ─────────────────────────────────────────────────

/-- There is no label among the instructions, and where nothing but `known'` is ahead behind them,
    nothing but `known` is ahead in front of them. -/
structure Fills (code : Code) (known : Temp → Prop) (is : List Instr) (known' : Temp → Prop) :
    Prop where
  labels : ∀ i ∈ is, i.label? = none
  ahead : ∀ rest, (∀ t, code.Ahead rest t → known' t) → ∀ t, code.Ahead (is ++ rest) t → known t

theorem fills_nil (known : Temp → Prop) : code.Fills known [] known :=
  ⟨List.forall_mem_nil _, fun _ h => h⟩

/-- What the first instructions make known, the ones behind them may read. -/
theorem Fills.append (h : code.Fills known is known₁) (h' : code.Fills known₁ js known') :
    code.Fills known (is ++ js) known' := by
  refine ⟨List.forall_mem_append.mpr ⟨h.labels, h'.labels⟩, ?_⟩
  intro rest hrest t ht
  rw [List.append_assoc] at ht
  exact h.ahead (js ++ rest) (h'.ahead rest hrest) t ht

/-- Less may be known behind instructions than they make known. -/
theorem Fills.weaken (h : code.Fills known is known₁) (hle : ∀ t, known' t → known₁ t) :
    code.Fills known is known' :=
  ⟨h.labels, fun rest hrest => h.ahead rest fun t ht => hle t (hrest t ht)⟩

/-- An instruction that reads only what is known, and leaves only with a known result, makes known
    what it writes. -/
theorem fills_instr (hlabel : i.label? = none) (huses : ∀ t ∈ i.uses, known t)
    (hexit : code.exit ∈ i.jumps → known code.frame.result) :
    code.Fills known [i] fun t => known t ∨ t ∈ i.defs := by
  refine ⟨List.forall_mem_singleton.mpr hlabel, ?_⟩
  rintro rest hrest t (huse | ⟨hahead | ⟨rfl, hjump⟩, hdef⟩)
  · exact huses t huse
  · exact (hrest t hahead).resolve_right hdef
  · exact hexit hjump

theorem fills_plain {op : Operation} {uses defs : List Temp} (huses : ∀ t ∈ uses, known t) :
    code.Fills known [.plain op uses defs] fun t => known t ∨ t ∈ defs :=
  fills_instr rfl huses fun hjump => absurd hjump List.not_mem_nil

/-- A branch makes nothing known, and needs the result if it may leave. -/
theorem fills_branch {op : Operation} {uses : List Temp} {l : Label} (huses : ∀ t ∈ uses, known t)
    (hexit : code.exit = l → known code.frame.result) :
    code.Fills known [.branch op uses l] known := by
  refine (fills_instr (i := .branch op uses l) rfl huses ?_).weaken fun _ => .inl
  intro hjump
  exact hexit (List.mem_singleton.mp hjump)

theorem fills_jump {l : Label} (hexit : code.exit = l → known code.frame.result) :
    code.Fills known [.jump l] known := by
  refine (fills_instr (i := .jump l) rfl (List.forall_mem_nil _) ?_).weaken fun _ => .inl
  intro hjump
  exact hexit (List.mem_singleton.mp hjump)

/-- Instructions that read nothing unknown, whatever they write. -/
theorem fills_all (h : ∀ i ∈ is, Spill.IsPlain i ∧ ∀ t ∈ i.uses, known t) :
    code.Fills known is known := by
  induction is with
  | nil => exact fills_nil known
  | cons i is ih =>
      obtain ⟨⟨⟨op, uses, defs, rfl⟩, huses⟩, hrest⟩ := List.forall_mem_cons.mp h
      exact ((fills_plain huses).weaken fun _ => .inl).append (ih hrest)

/-- The instructions for a constant read nothing that was not known. -/
theorem fills_loadConst (known : Temp → Prop) (value : Word) (dst : Temp) :
    code.Fills known (loadConst value dst) fun t => known t ∨ t ∈ [dst] := by
  have hsplit : loadConst value dst =
      [.plain (.setLow (constField value.toInt.natAbs 0)) [] [dst]] ++
        (loadConst value dst).tail := rfl
  rw [hsplit]
  refine (fills_plain (List.forall_mem_nil _)).append (fills_all ?_)
  intro i hi
  have hi := List.mem_of_mem_tail hi
  refine ⟨Spill.isPlain_loadConst hi, ?_⟩
  intro t ht
  exact .inr (List.mem_singleton.mpr (Spill.touches_loadConst hi (.inl ht)))

/-- Passing arguments that are known makes nothing known. -/
theorem fills_storeArgs {args : List Temp} (hargs : ∀ t ∈ args, known t) (n : Nat) :
    code.Fills known (Select.storeArgs n args) known := by
  induction args generalizing n with
  | nil => exact fills_nil known
  | cons arg args ih =>
      obtain ⟨harg, hargs⟩ := List.forall_mem_cons.mp hargs
      exact ((fills_plain (List.forall_mem_singleton.mpr harg)).weaken fun _ => .inl).append
        (ih hargs (n + 1))

/-- A call of a function that is not the exit. -/
theorem fills_call {f : Label} {args : List Temp} (keep : Nat) (hf : f ≠ code.exit)
    (hargs : ∀ t ∈ args, known t) (dst : Option Temp) :
    code.Fills known (Select.call keep f args dst) fun t => known t ∨ t ∈ dst := by
  have hcall : code.Fills known [.branch (.call keep f) [] f] known :=
    fills_branch (List.forall_mem_nil _) fun heq => absurd heq.symm hf
  refine ((fills_storeArgs hargs 0).append hcall).append ?_
  cases dst with
  | none => exact (fills_nil known).weaken fun t ht => ht.resolve_right (Option.not_mem_none t)
  | some dst =>
      refine (fills_plain (List.forall_mem_nil _)).weaken ?_
      rintro t (ht | ht)
      · exact .inl ht
      · exact .inr (List.mem_singleton.mpr (Option.some.inj ht).symm)

end Code

namespace Select

open Code

variable {α β : Type} {code : Code} {known : Temp → Prop} {x y dst : Temp} {callees : List Label}

-- ── Steps of selection ───────────────────────────────────────────────────────

/-- From every supply, the step emits instructions without labels that read only what is known;
    what holds of its value is told by what is known behind them. -/
def Supplies (code : Code) (known : Temp → Prop) (m : Emit Instr α)
    (Q : (Temp → Prop) → α → Prop) : Prop :=
  ∀ s, ∃ known', (∀ t, known t → known' t) ∧ code.Fills known (m.run s).code known' ∧
    Q known' (m.run s).value

variable {m : Emit Instr α} {f : α → Emit Instr β} {P : (Temp → Prop) → α → Prop}
  {Q : (Temp → Prop) → β → Prop}

theorem supplies_pure {b : β} (h : Q known b) : Supplies code known (pure b) Q :=
  fun _ => ⟨known, fun _ ht => ht, fills_nil known, h⟩

/-- A step may rely on what the steps before it have made known. -/
theorem Supplies.bind (hm : Supplies code known m P)
    (hf : ∀ a known', (∀ t, known t → known' t) → P known' a → Supplies code known' (f a) Q) :
    Supplies code known (m >>= f) Q := by
  intro s
  obtain ⟨known₁, hle, hfills, ha⟩ := hm s
  obtain ⟨known', hle', hfills', hb⟩ := hf _ known₁ hle ha (m.run s).supply
  exact ⟨known', fun t ht => hle' t (hle t ht), hfills.append hfills', hb⟩

/-- Instructions that write what is known behind them. -/
theorem supplies_write {is : List Instr} {defs : Temp → Prop}
    (h : code.Fills known is fun t => known t ∨ defs t) :
    Supplies code known (Emit.write is) fun known' _ => ∀ t, defs t → known' t :=
  fun _ => ⟨_, fun _ => .inl, h, fun _ => .inr⟩

/-- The value is known, and it is the destination if one is given. -/
def Given (dst : Option Temp) (known : Temp → Prop) (v : Temp) : Prop :=
  known v ∧ ∀ d, dst = some d → v = d

/-- The destination is kept if there is one. -/
theorem supplies_orFresh (dst : Option Temp) :
    Supplies code known (orFresh dst) fun _ v => ∀ d, dst = some d → v = d := by
  intro s
  refine ⟨known, fun _ ht => ht, ?_, ?_⟩
  · cases dst <;> exact fills_nil known
  · rintro d rfl
    rfl

/-- A destination is chosen and then written. -/
theorem supplies_dst {dst : Option Temp} {write : Temp → Emit Instr Unit}
    (h : ∀ d known', (∀ t, known t → known' t) →
      Supplies code known' (write d) fun known'' _ => known'' d) :
    Supplies code known (do let d ← orFresh dst; write d; return d) (Given dst) := by
  refine (supplies_orFresh dst).bind fun d known' hle hd => ?_
  exact (h d known' hle).bind fun _ _ _ hknown => supplies_pure ⟨hknown, hd⟩

/-- A single instruction that writes the destination. -/
theorem supplies_plain {op : Operation} {uses : List Temp} (huses : ∀ t ∈ uses, known t)
    (dst : Temp) :
    Supplies code known (Emit.write [.plain op uses [dst]]) fun known' _ => known' dst := by
  intro s
  have hwrite : Supplies code known (Emit.write [.plain op uses [dst]]) fun known' _ =>
      ∀ t, t ∈ [dst] → known' t := supplies_write (fills_plain huses)
  obtain ⟨known', hle, hfills, hdefs⟩ := hwrite s
  exact ⟨known', hle, hfills, hdefs dst List.mem_cons_self⟩

/-- The instructions for a known atom make its destination known. -/
theorem supplies_atom {a : Atom} (h : KnownAtom known a) (dst : Option Temp) :
    Supplies code known (atom a dst) (Given dst) := by
  cases a with
  | temp t =>
      have ht : known t := h t List.mem_cons_self
      cases dst with
      | none => exact supplies_pure ⟨ht, nofun⟩
      | some dst =>
          rw [atom]
          split
          · next heq => exact supplies_pure ⟨ht, fun d hd => heq ▸ Option.some.inj hd⟩
          · have hcopy : code.Fills known [.copy dst t] fun u => known u ∨ u ∈ [dst] :=
              fills_instr rfl (List.forall_mem_singleton.mpr ht) fun hjump =>
                absurd hjump List.not_mem_nil
            refine (supplies_write hcopy).bind fun _ known' _ hdefs => ?_
            exact supplies_pure ⟨hdefs dst List.mem_cons_self, fun d hd => Option.some.inj hd⟩
  | const value =>
      refine supplies_dst fun d known' _ s => ?_
      obtain ⟨known'', hle, hfills, hdefs⟩ := supplies_write (fills_loadConst known' value d) s
      exact ⟨known'', hle, hfills, hdefs d List.mem_cons_self⟩
  | name l => exact supplies_dst fun d _ _ => supplies_plain (List.forall_mem_nil _) d

/-- An operand of an operation, in a temporary of its own choice. -/
theorem supplies_operand {a : Atom} (h : KnownAtom known a) :
    Supplies code known (atom a none) fun known' v => known' v := by
  intro s
  obtain ⟨known', hle, hfills, hgiven⟩ := supplies_atom h none s
  exact ⟨known', hle, hfills, hgiven.1⟩

theorem supplies_freshTemp : Supplies code known Emit.freshTemp fun _ _ => True :=
  fun _ => ⟨known, fun _ ht => ht, fills_nil known, trivial⟩

/-- The instructions for an operator with known operands make its destination known. -/
theorem supplies_compute (hx : known x) (hy : known y) (scheme : Scheme) :
    Supplies code known (compute dst x y scheme) fun known' _ => known' dst := by
  have hxy : ∀ known' : Temp → Prop, (∀ t, known t → known' t) → ∀ t ∈ [x, y], known' t := by
    intro known' hle t ht
    rcases List.mem_cons.mp ht with rfl | ht
    · exact hle _ hx
    · exact hle _ (List.mem_singleton.mp ht ▸ hy)
  cases scheme with
  | direct op => exact supplies_plain (hxy known fun _ ht => ht) dst
  | remainder =>
      refine supplies_freshTemp.bind fun quotient known' hle _ s => ?_
      have hfills : code.Fills known' ([.plain (.alu .div) [x, y] [quotient]] ++
          [.plain .remainder [] [dst]]) fun t => (known' t ∨ t ∈ [quotient]) ∨ t ∈ [dst] :=
        (fills_plain (hxy known' hle)).append (fills_plain (List.forall_mem_nil _))
      exact ⟨_, fun _ ht => .inl (.inl ht), hfills, .inr List.mem_cons_self⟩
  | relation yes no =>
      refine supplies_freshTemp.bind fun cmp known' hle _ s => ?_
      have hcmp : code.Fills known' [.plain (.alu .cmp) [x, y] [cmp]]
          fun t => known' t ∨ t ∈ [cmp] := fills_plain (hxy known' hle)
      have hyes : code.Fills (fun t => known' t ∨ t ∈ [cmp]) [.plain (.setIf yes true) [cmp] [dst]]
          fun t => (known' t ∨ t ∈ [cmp]) ∨ t ∈ [dst] :=
        fills_plain (List.forall_mem_singleton.mpr (.inr List.mem_cons_self))
      -- the second conditional set also reads the destination, which the first one has written
      have hno : code.Fills (fun t => (known' t ∨ t ∈ [cmp]) ∨ t ∈ [dst])
          [.plain (.setIf no false) [cmp, dst] [dst]]
          fun t => ((known' t ∨ t ∈ [cmp]) ∨ t ∈ [dst]) ∨ t ∈ [dst] := by
        refine fills_plain (List.forall_mem_cons.mpr ⟨.inl (.inr List.mem_cons_self), ?_⟩)
        exact List.forall_mem_singleton.mpr (.inr List.mem_cons_self)
      exact ⟨_, fun _ ht => .inl (.inl (.inl ht)), (hcmp.append hyes).append hno,
        .inr List.mem_cons_self⟩

/-- The instructions for a known right-hand side make its destination known, if it does not call the
    exit. -/
theorem supplies_rhs (keep : Nat) {r : Rhs} (h : KnownRhs callees known r)
    (hexit : code.exit ∉ callees) (dst : Option Temp) :
    Supplies code known (rhs keep r dst) (Given dst) := by
  obtain ⟨htemps, hcallee⟩ := h
  cases r with
  | atom a => exact supplies_atom htemps dst
  | binop op a b =>
      obtain ⟨ha, hb⟩ := List.forall_mem_append.mp htemps
      refine (supplies_operand ha).bind fun x known₁ hle hx => ?_
      refine (supplies_operand fun t ht => hle t (hb t ht)).bind fun y known₂ hle' hy => ?_
      refine supplies_dst fun d known₃ hle'' => ?_
      exact supplies_compute (hle'' x (hle' x hx)) (hle'' y hy) (scheme op)
  | unop op a =>
      refine (supplies_operand htemps).bind fun x known₁ hle hx => ?_
      have hwrite : ∀ op', ∀ d known', (∀ t, known₁ t → known' t) → Supplies code known'
          (Emit.write [.plain op' [x] [d]]) fun known'' _ => known'' d :=
        fun op' d known' hle' => supplies_plain (List.forall_mem_singleton.mpr (hle' x hx)) d
      cases op with
      | neg => exact supplies_dst (hwrite .negate)
      | not => exact supplies_dst (hwrite .flip)
  | load addr =>
      refine (supplies_operand htemps).bind fun x known₁ hle hx => ?_
      exact supplies_dst fun d known₂ hle' =>
        supplies_plain (List.forall_mem_singleton.mpr (hle' x hx)) d
  | call f args =>
      refine supplies_dst fun d known₁ hle s => ?_
      have hf : f ≠ code.exit := fun heq => hexit (heq ▸ hcallee f rfl)
      exact ⟨_, fun _ => .inl, fills_call keep hf (fun t ht => hle t (htemps t ht)) (some d),
        .inr rfl⟩

-- ── Statements ───────────────────────────────────────────────────────────────

/-- An action that reads nothing unknown; what it assigns is known behind it. -/
theorem supplies_act (keep : Nat) (next : Option Stmt) {a : Action}
    (h : Line callees known [.act a]) (hexit : code.exit ∉ callees) :
    Supplies code known (stmt keep next (.act a)) fun known' _ =>
      ∀ t, After known [.act a] t → known' t := by
  obtain ⟨hreads, hcallee, -⟩ := h
  cases a with
  | move dst r =>
      refine (supplies_rhs keep ⟨hreads, hcallee⟩ hexit (some dst)).bind ?_
      rintro v known' hle ⟨hv, hdst⟩
      obtain rfl := hdst dst rfl
      refine supplies_pure ?_
      rintro t (ht | ht)
      · exact hle t ht
      · exact List.mem_singleton.mp ht ▸ hv
  | store addr src =>
      obtain ⟨haddr, hsrc⟩ := List.forall_mem_append.mp hreads
      refine (supplies_operand hsrc).bind fun x known₁ hle hx => ?_
      refine (supplies_operand fun t ht => hle t (haddr t ht)).bind fun y known₂ hle' hy s => ?_
      refine ⟨known₂, fun _ ht => ht, ?_, ?_⟩
      · refine (fills_plain (List.forall_mem_cons.mpr ⟨hle' x hx, ?_⟩)).weaken fun _ => .inl
        exact List.forall_mem_singleton.mpr hy
      · rintro t (ht | ht)
        · exact hle' t (hle t ht)
        · cases ht
  | call f args =>
      have hf : f ≠ code.exit := fun heq => hexit (heq ▸ hcallee f rfl)
      intro s
      refine ⟨known, fun _ ht => ht, ?_, ?_⟩
      · exact (fills_call keep hf hreads none).weaken fun _ => .inl
      · rintro t (ht | ht)
        · exact ht
        · cases ht

/-- The actions of a block. -/
theorem fills_acts (code : Code) (keep : Nat) {acts : List Action}
    (h : Line callees known (acts.map .act)) (hexit : code.exit ∉ callees) (rest : List Stmt)
    (s : Supply) :
    ∃ is s', ((stmts keep (acts.map .act ++ rest)).run s).code =
        is ++ ((stmts keep rest).run s').code ∧
      code.Fills known is (After known (acts.map .act)) := by
  induction acts generalizing known s with
  | nil =>
      refine ⟨[], s, rfl, ?_⟩
      rw [List.map_nil, after_nil]
      exact fills_nil known
  | cons a acts ih =>
      obtain ⟨hfirst, hacts⟩ := line_cons.mp h
      let next := (acts.map Stmt.act ++ rest).head?
      obtain ⟨known', -, hfills, hafter⟩ := supplies_act keep next hfirst hexit s
      obtain ⟨is, s', hcode, hfills'⟩ := ih hacts ((stmt keep next (.act a)).run s).supply
      refine ⟨((stmt keep next (.act a)).run s).code ++ is, s', ?_, ?_⟩
      · rw [List.append_assoc, ← hcode]
        rfl
      · rw [List.map_cons, after_cons]
        exact (hfills.weaken hafter).append hfills'

/-- The transfer at the end of a block. -/
theorem fills_transfer (keep : Nat) {last : Transfer} (htest : ∀ t ∈ last.temps, known t)
    (hresult : code.exit ∈ last.targets → known code.frame.result) (rest : List Stmt)
    (s : Supply) :
    ∃ is, ((stmts keep (.transfer last :: rest)).run s).code =
        is ++ ((stmts keep rest).run s).code ∧ code.Fills known is known := by
  have hjump : ∀ l ∈ last.targets, code.Fills known [.jump l] known :=
    fun l hl => fills_jump fun heq => hresult (heq ▸ hl)
  cases last with
  | jump l => exact ⟨[.jump l], rfl, hjump l List.mem_cons_self⟩
  | branch t l l' =>
      have hbranch : code.Fills known [.branch (.branchNonZero l) [t] l] known :=
        fills_branch htest fun heq => hresult (heq ▸ List.mem_cons_self)
      refine ⟨((stmt keep rest.head? (.transfer (.branch t l l'))).run s).code, ?_, ?_⟩
      · rw [stmts, Emit.run_bind, stmt, Emit.run_bind]
        split <;> rfl
      · rw [stmt, Emit.run_bind]
        refine hbranch.append ?_
        split
        · exact hjump l' (List.mem_cons_of_mem _ List.mem_cons_self)
        · exact fills_nil known

end Select

-- ── Whole functions ──────────────────────────────────────────────────────────

namespace Code

variable {code : Code} {is rest : List Instr}

/-- At each label of the instructions, and at their start, nothing is ahead but the frame
    pointer. -/
structure Contained (code : Code) (is : List Instr) : Prop where
  start : ∀ t, code.Ahead is t → t = code.frame.pointer
  labels : ∀ l rest, .label l :: rest <:+ is →
    ∀ t, code.Ahead (.label l :: rest) t → t = code.frame.pointer

theorem contained_nil (code : Code) : code.Contained [] := by
  refine ⟨fun t ht => ht.elim, ?_⟩
  intro l rest h
  cases List.suffix_nil.mp h

/-- A label reads nothing. -/
theorem ahead_label {l : Label} {t : Temp} (h : code.Ahead (.label l :: rest) t) :
    code.Ahead rest t := by
  rcases h with huse | ⟨hahead | ⟨-, hjump⟩, -⟩
  · cases huse
  · exact hahead
  · cases hjump

/-- A label that is a suffix of two parts, of which the first has no labels. -/
theorem suffix_of_labels {l : Label} (hlabels : ∀ i ∈ is, i.label? = none) {behind : List Instr}
    (h : .label l :: behind <:+ is ++ rest) : .label l :: behind <:+ rest := by
  induction is with
  | nil => exact h
  | cons i is ih =>
      obtain ⟨hi, his⟩ := List.forall_mem_cons.mp hlabels
      rcases List.suffix_cons_iff.mp h with heq | h
      · obtain ⟨rfl, -⟩ := List.cons.inj heq
        cases hi
      · exact ih his h

/-- A label and instructions that read only what they have written, in front of such code. -/
theorem Contained.label {known : Temp → Prop} (hrest : code.Contained rest) (l : Label)
    (hpointer : known code.frame.pointer) (h : code.Fills (· = code.frame.pointer) is known) :
    code.Contained (.label l :: (is ++ rest)) := by
  have hahead : ∀ t, code.Ahead (.label l :: (is ++ rest)) t → t = code.frame.pointer := by
    intro t ht
    exact h.ahead rest (fun u hu => hrest.start u hu ▸ hpointer) t (ahead_label ht)
  refine ⟨hahead, ?_⟩
  intro l' behind hsuffix
  rcases List.suffix_cons_iff.mp hsuffix with heq | hsuffix
  · rw [heq]
    exact hahead
  · exact hrest.labels l' behind (suffix_of_labels h.labels hsuffix)

end Code

/-- The instructions of known blocks read nothing that they have not written. -/
theorem contained_stmts (code : Code) {callees : List Label} (keep : Nat)
    (hexit : code.exit ∉ callees) {bs : List Block}
    (h : ∀ b ∈ bs, b.Known callees code.exit code.frame) (s : Supply) :
    code.Contained ((Select.stmts keep (bs.flatMap Block.stmts)).run s).code := by
  induction bs generalizing s with
  | nil => exact code.contained_nil
  | cons b bs ih =>
      obtain ⟨hb, hbs⟩ := List.forall_mem_cons.mp h
      obtain ⟨is, s₁, hcode, hfills⟩ := Select.fills_acts code keep hb.line hexit
        (.transfer b.last :: bs.flatMap Block.stmts) s
      obtain ⟨is', hcode', hfills'⟩ := Select.fills_transfer keep hb.test hb.result
        (bs.flatMap Block.stmts) s₁
      have hall : ((Select.stmts keep ((b :: bs).flatMap Block.stmts)).run s).code =
          .label b.label :: ((is ++ is') ++
            ((Select.stmts keep (bs.flatMap Block.stmts)).run s₁).code) := by
        rw [List.flatMap_cons, BlockGraph.stmts_append, List.append_assoc, ← hcode', ← hcode]
        rfl
      rw [hall]
      exact (ih hbs s₁).label b.label (.inl rfl) (hfills.append hfills')

/-- A function that is made of known blocks is turned into such instructions. -/
theorem Flat.Function.contained_select {ω : Type} {f : Flat.Function} {bs : List Block}
    {callees : List Label} (keep : Nat) (hstmts : f.stmts = bs.flatMap Block.stmts)
    (hexit : f.exit ∉ callees) (h : ∀ b ∈ bs, b.Known callees f.exit f.frame) (s : Supply) :
    Code.Contained ((f.select keep : Emit ω Code).run s).value
      ((f.select keep : Emit ω Code).run s).value.instrs := by
  show Code.Contained _ ((Select.stmts keep f.stmts).run s).code
  rw [hstmts]
  exact contained_stmts _ keep hexit h s

end MmixBackend
