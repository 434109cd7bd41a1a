import MmixBackend.Proofs.LabelSources
import MmixBackend.Proofs.SupplyIndependence
import MmixBackend.Proofs.TemplateText

/-!
# Instructions that can be written

The template of an operation refers to operands by their numbers, and labels stand in it as they
are. So an instruction can be written if it has as many operands as its template refers to and if no
label brings in a backquote. Selection makes only such instructions, and spilling keeps the numbers
of operands, whatever it puts in their places.

* **`FilledIn`** — what text a template stands for; **`filledIn_of_fillTemplate`** that filling in
  gives it.
* **`Operation.references`** — how many operands each template refers to, and
  **`refersWithin_template`** that it refers to no others.
* **`Instr.Served.render`** — an instruction with enough operands can be written.
* **`Select.serves_stmts`**, **`Spill.preserved_served`** — selection and spilling.
-/

namespace MmixBackend

-- ── What a template stands for ───────────────────────────────────────────────

/-- The text that a template stands for. A backquote, `s` or `d`, and the digit of a number stand
    for the name of the temporary with that number among those read or written. Every other
    character stands for itself. -/
inductive FilledIn (name : Temp → String) (uses defs : List Temp) : List Char → List Char → Prop
  | nil : FilledIn name uses defs [] []
  | char {c : Char} {cs text : List Char} (hc : c ≠ '\x60') (h : FilledIn name uses defs cs text) :
      FilledIn name uses defs (c :: cs) (c :: text)
  | source {i : Nat} {t : Temp} {cs text : List Char} (hi : i < 10) (ht : uses[i]? = some t)
      (h : FilledIn name uses defs cs text) :
      FilledIn name uses defs ('\x60' :: 's' :: Nat.digitChar i :: cs) ((name t).toList ++ text)
  | target {i : Nat} {t : Temp} {cs text : List Char} (hi : i < 10) (ht : defs[i]? = some t)
      (h : FilledIn name uses defs cs text) :
      FilledIn name uses defs ('\x60' :: 'd' :: Nat.digitChar i :: cs) ((name t).toList ++ text)

/-- A digit is the digit of a number below 10. -/
theorem eq_digitChar_of_isDigit {c : Char} (h : c.isDigit = true) :
    c.toNat - '0'.toNat < 10 ∧ c = Nat.digitChar (c.toNat - '0'.toNat) := by
  obtain ⟨hlo, hhi⟩ : 48 ≤ c.toNat ∧ c.toNat ≤ 57 := Char.isDigit_iff_toNat.mp h
  have hdigits : ∀ n, n < 10 → Char.ofNat (n + 48) = Nat.digitChar n := by decide
  show c.toNat - 48 < 10 ∧ c = Nat.digitChar (c.toNat - 48)
  have hlt : c.toNat - 48 < 10 := by omega
  refine ⟨hlt, ?_⟩
  rw [← hdigits _ hlt, Nat.sub_add_cancel hlo, Char.ofNat_toNat]

namespace Piece

/-- A reference has the letter of its kind and the digit of its number. -/
theorem reference?_eq_some {kind digit : Char} {p : Piece} (h : reference? kind digit = some p) :
    ∃ i, i < 10 ∧ digit = Nat.digitChar i ∧
      (kind = 's' ∧ p = .source i ∨ kind = 'd' ∧ p = .target i) := by
  rw [reference?] at h
  split at h
  · next hdigit =>
    obtain ⟨hlt, heq⟩ := eq_digitChar_of_isDigit hdigit
    refine ⟨_, hlt, heq, ?_⟩
    split at h
    · next hs => exact .inl ⟨hs, (Option.some.inj h).symm⟩
    · split at h
      · next hd => exact .inr ⟨hd, (Option.some.inj h).symm⟩
      · cases h
  · cases h

end Piece

section Fill

variable {name : Temp → String} {uses defs : List Temp} {template text : String}

/-- The pieces of a template, filled in and joined, are the text that it stands for. By induction
    along the pieces. -/
theorem filledIn_of_pieces {cs : List Char} {ps : List Piece} {texts : List String}
    (hps : Piece.ofChars? cs = some ps)
    (htexts : ps.mapM (Piece.fill? name uses defs) = some texts) :
    FilledIn name uses defs cs (String.join texts).toList := by
  fun_induction Piece.ofChars? cs generalizing ps texts with
  | case1 =>
      obtain rfl := Option.some.inj hps
      obtain rfl := Option.some.inj htexts
      exact .nil
  | case2 kind digit rest ih =>
      obtain ⟨p, hp, hrest⟩ := Option.bind_eq_some_iff.mp hps
      obtain ⟨ps', hps', hcons⟩ := Option.bind_eq_some_iff.mp hrest
      obtain rfl := Option.some.inj hcons
      rw [List.mapM_cons] at htexts
      obtain ⟨x, hx, htexts⟩ := Option.bind_eq_some_iff.mp htexts
      obtain ⟨xs, hxs, hjoin⟩ := Option.bind_eq_some_iff.mp htexts
      obtain rfl := Option.some.inj hjoin
      have hcs := ih hps' hxs
      rw [String.join_cons, String.toList_append]
      obtain ⟨i, hi, rfl, ⟨rfl, rfl⟩ | ⟨rfl, rfl⟩⟩ := Piece.reference?_eq_some hp
      · obtain ⟨t, ht, rfl⟩ := Option.map_eq_some_iff.mp hx
        exact .source hi ht hcs
      · obtain ⟨t, ht, rfl⟩ := Option.map_eq_some_iff.mp hx
        exact .target hi ht hcs
  | case3 => cases hps
  | case4 c rest hc ih =>
      obtain ⟨ps', hps', hcons⟩ := Option.bind_eq_some_iff.mp hps
      obtain rfl := Option.some.inj hcons
      rw [List.mapM_cons] at htexts
      obtain ⟨x, hx, htexts⟩ := Option.bind_eq_some_iff.mp htexts
      obtain ⟨xs, hxs, hjoin⟩ := Option.bind_eq_some_iff.mp htexts
      obtain rfl := Option.some.inj hx
      obtain rfl := Option.some.inj hjoin
      rw [String.join_cons, String.toList_append, String.toList_singleton]
      exact .char hc (ih hps' hxs)

/-- Filling in a template gives the text that it stands for. -/
theorem filledIn_of_fillTemplate (h : fillTemplate name template uses defs = .ok text) :
    FilledIn name uses defs template.toList text.toList := by
  obtain ⟨ps, texts, hps, htexts, rfl⟩ := exists_of_fillTemplate h
  exact filledIn_of_pieces hps htexts

end Fill

-- ── The operands that a template refers to ───────────────────────────────────

/-- Is the piece no reference, or one to an operand that is there? -/
def Piece.within (reads writes : Nat) : Piece → Bool
  | .char _ => true
  | .source i => i < reads
  | .target i => i < writes

/-- Can the template be cut into pieces, and are the operands there that it refers to? -/
def refersWithin (reads writes : Nat) (template : String) : Bool :=
  (Piece.ofChars? template.toList).any (·.all (Piece.within reads writes))

section Refer

variable {reads writes : Nat} {first second template : String}

/-- A template refers to operands that are there if it can be cut into such pieces. -/
theorem refersWithin_iff : refersWithin reads writes template = true ↔
    ∃ ps, Piece.ofChars? template.toList = some ps ∧ ∀ p ∈ ps, p.within reads writes = true := by
  rw [refersWithin, Option.any_eq_true]
  simp only [List.all_eq_true]

/-- Templates one after the other refer to the same operands. -/
theorem refersWithin_append (h : refersWithin reads writes first = true)
    (h' : refersWithin reads writes second = true) :
    refersWithin reads writes (first ++ second) = true := by
  obtain ⟨ps, hps, hwithin⟩ := refersWithin_iff.mp h
  obtain ⟨qs, hqs, hwithin'⟩ := refersWithin_iff.mp h'
  refine refersWithin_iff.mpr ⟨ps ++ qs, ?_, List.forall_mem_append.mpr ⟨hwithin, hwithin'⟩⟩
  rw [String.toList_append]
  exact Piece.ofChars?_append hps hqs

/-- Text without a backquote refers to no operand. -/
theorem refersWithin_plain (h : '\x60' ∉ template.toList) :
    refersWithin reads writes template = true :=
  refersWithin_iff.mpr ⟨_, Piece.ofChars?_plain h, List.forall_mem_map.mpr fun _ _ => rfl⟩

/-- A number refers to no operand. -/
theorem refersWithin_number (n : Nat) : refersWithin reads writes (toString n) = true :=
  refersWithin_plain (backquote_not_mem_toString n)

/-- More operands do no harm. -/
theorem refersWithin_mono {reads' writes' : Nat} (h : refersWithin reads writes template = true)
    (hreads : reads ≤ reads') (hwrites : writes ≤ writes') :
    refersWithin reads' writes' template = true := by
  obtain ⟨ps, hps, hwithin⟩ := refersWithin_iff.mp h
  refine refersWithin_iff.mpr ⟨ps, hps, fun p hp => ?_⟩
  have hp' := hwithin p hp
  cases p with
  | char c => rfl
  | source i => exact decide_eq_true ((of_decide_eq_true hp').trans_le hreads)
  | target i => exact decide_eq_true ((of_decide_eq_true hp').trans_le hwrites)

/-- A template can be filled in if the operands are there that it refers to. -/
theorem exists_fillTemplate {uses defs : List Temp}
    (h : refersWithin uses.length defs.length template = true) (name : Temp → String) :
    ∃ text, fillTemplate name template uses defs = .ok text := by
  obtain ⟨ps, hps, hwithin⟩ := refersWithin_iff.mp h
  have hfill : ∀ p ∈ ps, ∃ text, p.fill? name uses defs = some text := by
    intro p hp
    have hp' := hwithin p hp
    cases p with
    | char c => exact ⟨_, rfl⟩
    | source i =>
        have hi : i < uses.length := of_decide_eq_true hp'
        exact ⟨name uses[i], by rw [Piece.fill?, List.getElem?_eq_getElem hi]; rfl⟩
    | target i =>
        have hi : i < defs.length := of_decide_eq_true hp'
        exact ⟨name defs[i], by rw [Piece.fill?, List.getElem?_eq_getElem hi]; rfl⟩
  have htexts : ∃ texts, ps.mapM (Piece.fill? name uses defs) = some texts := by
    clear hps hwithin
    induction ps with
    | nil => exact ⟨[], rfl⟩
    | cons p ps ih =>
        obtain ⟨⟨x, hx⟩, hrest⟩ := List.forall_mem_cons.mp hfill
        obtain ⟨xs, hxs⟩ := ih hrest
        exact ⟨x :: xs, by rw [List.mapM_cons, hx, hxs]; rfl⟩
  obtain ⟨texts, htexts⟩ := htexts
  exact ⟨_, fillTemplate_eq_ok hps htexts⟩

end Refer

-- ── Operations ───────────────────────────────────────────────────────────────

/-- The text of the label has no backquote. -/
def Label.Plain (l : Label) : Prop := '\x60' ∉ l.text.toList

namespace Operation

/-- How many of the temporaries read and of those written the template of an operation refers to.
    Nothing is known about templates that are given. -/
def references : Operation → Option (Nat × Nat)
  | .copy | .negate | .flip | .setIf .. | .load => some (1, 1)
  | .setLow _ | .increase .. | .loadAddress _ | .remainder | .loadResult => some (0, 1)
  | .alu _ => some (2, 1)
  | .store => some (2, 0)
  | .storeArg _ | .branchNonZero _ => some (1, 0)
  | .jump _ | .call .. => some (0, 0)
  | .verbatim _ => none

/-- The template of an operation refers to as many operands as it is said to. -/
theorem refersWithin_template {op : Operation} {r w : Nat} (hop : op.references = some (r, w))
    (hlabels : ∀ l ∈ op.labels, l.Plain) : refersWithin r w op.template = true := by
  have hlabel : ∀ {r w : Nat} {l : Label}, l ∈ op.labels → refersWithin r w l.text = true :=
    fun hl => refersWithin_plain (hlabels _ hl)
  -- numbers and labels are cut off, since only what stands around them is known
  cases op <;> cases hop <;> rw [template]
  case copy | negate | flip | remainder | load | store =>
    simp [refersWithin, Piece.ofChars?, Piece.reference?, Piece.within]
  case alu op =>
    refine refersWithin_append ?_ ?_
    · cases op <;> exact refersWithin_plain (by decide)
    · simp [refersWithin, Piece.ofChars?, Piece.reference?, Piece.within]
  case setLow field =>
    refine refersWithin_append ?_ (refersWithin_number field)
    simp [refersWithin, Piece.ofChars?, Piece.reference?, Piece.within]
  case increase part field =>
    refine refersWithin_append (refersWithin_append ?_ ?_) (refersWithin_number field)
    · cases part <;> exact refersWithin_plain (by decide)
    · simp [refersWithin, Piece.ofChars?, Piece.reference?, Piece.within]
  case setIf test value =>
    refine refersWithin_append (refersWithin_append ?_ ?_) ?_
    · cases test <;> exact refersWithin_plain (by decide)
    · simp [refersWithin, Piece.ofChars?, Piece.reference?, Piece.within]
    · cases value <;> exact refersWithin_plain (by decide)
  case storeArg i =>
    refine refersWithin_append (refersWithin_append (refersWithin_append ?_ ?_) ?_) ?_
    · simp [refersWithin, Piece.ofChars?, Piece.reference?, Piece.within]
    · exact refersWithin_number _
    · exact refersWithin_plain (by decide)
    · exact refersWithin_number _
  case loadResult =>
    refine refersWithin_append (refersWithin_append ?_ (refersWithin_number _)) ?_
    · simp [refersWithin, Piece.ofChars?, Piece.reference?, Piece.within]
    · exact refersWithin_plain (by decide)
  case loadAddress l =>
    refine refersWithin_append ?_ (hlabel List.mem_cons_self)
    simp [refersWithin, Piece.ofChars?, Piece.reference?, Piece.within]
  case branchNonZero target =>
    refine refersWithin_append ?_ (hlabel List.mem_cons_self)
    simp [refersWithin, Piece.ofChars?, Piece.reference?, Piece.within]
  case jump target =>
    exact refersWithin_append (refersWithin_plain (by decide)) (hlabel List.mem_cons_self)
  case call keep f =>
    refine refersWithin_append (refersWithin_append (refersWithin_append ?_ ?_) ?_) ?_
    · exact refersWithin_plain (by decide)
    · exact refersWithin_number keep
    · exact refersWithin_plain (by decide)
    · exact hlabel List.mem_cons_self

/-- Is it an operation of the machine with enough operands for its template? -/
def suits (op : Operation) (reads writes : Nat) : Bool :=
  op.references.any fun (r, w) => r ≤ reads && w ≤ writes

/-- The template of an operation refers only to operands of an instruction that it suits. -/
theorem refersWithin_of_suits {op : Operation} {reads writes : Nat}
    (hop : op.suits reads writes = true) (hlabels : ∀ l ∈ op.labels, l.Plain) :
    refersWithin reads writes op.template = true := by
  obtain ⟨⟨r, w⟩, hrefers, hle⟩ := (Option.any_eq_true _ _).mp hop
  obtain ⟨hr, hw⟩ := Bool.and_eq_true_iff.mp hle
  exact refersWithin_mono (refersWithin_template hrefers hlabels) (of_decide_eq_true hr)
    (of_decide_eq_true hw)

end Operation

-- ── Instructions ─────────────────────────────────────────────────────────────

namespace Instr

/-- The text that an instruction stands for, with the names of its operands. -/
def WrittenAs (name : Temp → String) (i : Instr) (text : String) : Prop :=
  match i with
  | .label l => text = l.text
  | .move op dst src => FilledIn name [src] [dst] op.template.toList text.toList
  | .oper op uses defs _ _ => FilledIn name uses defs op.template.toList text.toList

/-- The instruction has enough operands for its template, and its labels do not get in the way. -/
def Served : Instr → Prop
  | .label _ => True
  | .move op _ _ => op.suits 1 1 = true ∧ ∀ l ∈ op.labels, l.Plain
  | .oper op uses defs _ _ =>
    op.suits uses.length defs.length = true ∧ ∀ l ∈ op.labels, l.Plain

variable {i : Instr} {registers registers' : TempMap Nat}

/-- An instruction with enough operands can be written under every register assignment. -/
theorem Served.render (h : i.Served) (registers : TempMap Nat) :
    ∃ text, i.render registers = .ok text := by
  cases i with
  | label l => exact ⟨_, rfl⟩
  | move op dst src => exact exists_fillTemplate (Operation.refersWithin_of_suits h.1 h.2) _
  | oper op uses defs jumps falls =>
      exact exists_fillTemplate (Operation.refersWithin_of_suits h.1 h.2) _

/-- An instruction with enough operands has a text. -/
theorem Served.text (h : i.Served) : ∃ text, i.text = .ok text := by
  cases i with
  | label l => exact ⟨_, rfl⟩
  | move op dst src => exact h.render ∅
  | oper op uses defs jumps falls => exact h.render ∅

/-- The text of an instruction is the one that it stands for. -/
theorem writtenAs_of_render {text : String} (h : i.render registers = .ok text) :
    i.WrittenAs (operandText registers) text := by
  cases i with
  | label l => exact (Except.ok.inj h).symm
  | move op dst src => exact filledIn_of_fillTemplate h
  | oper op uses defs jumps falls => exact filledIn_of_fillTemplate h

/-- Only the registers of its own operands matter for how an instruction is written. -/
theorem render_congr (h : ∀ t, Spill.Touches t i → registers'[t]? = registers[t]?) :
    i.render registers' = i.render registers := by
  have htext : ∀ t, t ∈ i.uses ∨ t ∈ i.defs → operandText registers' (id t) =
      operandText registers t := by
    intro t ht
    rw [operandText, id, h t ht, operandText]
  cases i with
  | label l => rfl
  | move op dst src => exact fillTemplate_map htext op.template
  | oper op uses defs jumps falls =>
      have hfill := fillTemplate_map htext op.template
      rwa [List.map_id, List.map_id] at hfill

theorem served_plain {op : Operation} {uses defs : List Temp}
    (hop : op.suits uses.length defs.length = true) (hlabels : ∀ l ∈ op.labels, l.Plain) :
    (plain op uses defs).Served := ⟨hop, hlabels⟩

theorem served_branch {op : Operation} {uses : List Temp} {target : Label}
    (hop : op.suits uses.length 0 = true) (hlabels : ∀ l ∈ op.labels, l.Plain) :
    (branch op uses target).Served := ⟨hop, hlabels⟩

theorem served_jump {target : Label} (h : target.Plain) : (jump target).Served :=
  ⟨rfl, List.forall_mem_singleton.mpr h⟩

theorem served_copy (dst src : Temp) : (copy dst src).Served := ⟨rfl, List.forall_mem_nil _⟩

end Instr

-- ── Selection ────────────────────────────────────────────────────────────────

theorem served_loadConst {value : Word} {dst : Temp} {i : Instr} (hi : i ∈ loadConst value dst) :
    i.Served := by
  rcases mem_loadConst hi with ⟨field, -, rfl⟩ | ⟨part, field, -, rfl⟩ | rfl
  · exact Instr.served_plain rfl (List.forall_mem_nil _)
  · exact Instr.served_plain rfl (List.forall_mem_nil _)
  · exact Instr.served_plain rfl (List.forall_mem_nil _)

namespace Select

open Emit Flat Instr

variable {Q : Event → Prop}

/-- The step emits instructions that can be written. -/
abbrev Serves (Q : Event → Prop) {α : Type} (x : Emit Instr α) : Prop :=
  Leaves Instr.Served Q (fun _ => True) x

theorem serves_write_one {i : Instr} (h : i.Served) : Serves Q (write [i]) :=
  leaves_write (List.forall_mem_singleton.mpr h)

theorem serves_orFresh (dst : Option Temp) : Serves Q (orFresh dst) := by
  cases dst with
  | none => exact leaves_freshTemp
  | some dst => exact leaves_pure trivial

/-- Writes instructions on a destination and gives it. -/
theorem serves_into (dst : Option Temp) {f : Temp → Emit Instr Unit} (hf : ∀ t, Serves Q (f t)) :
    Serves Q (do
      let t ← orFresh dst
      f t
      return t) :=
  (serves_orFresh dst).bind fun t _ => (hf t).bind fun _ _ => leaves_pure trivial

/-- The instructions for an atom can be written. -/
theorem serves_atom {a : Atom} (ha : ∀ l ∈ a.labels, l.Plain) (dst : Option Temp) :
    Serves Q (atom a dst) := by
  cases a with
  | const value => exact serves_into dst fun t => leaves_write fun i => served_loadConst
  | name l => exact serves_into dst fun t => serves_write_one (served_plain rfl ha)
  | temp t =>
      cases dst with
      | none => exact leaves_pure trivial
      | some dst =>
          rw [atom]
          split
          · exact leaves_pure trivial
          · exact (serves_write_one (served_copy dst t)).bind fun _ _ => leaves_pure trivial

/-- The instructions for an operator can be written. -/
theorem serves_compute (dst x y : Temp) (scheme : Scheme) : Serves Q (compute dst x y scheme) := by
  cases scheme with
  | direct op => exact serves_write_one (served_plain rfl (List.forall_mem_nil _))
  | remainder =>
      refine leaves_freshTemp.bind fun quotient _ => leaves_write ?_
      refine List.forall_mem_cons.mpr ⟨?_, List.forall_mem_singleton.mpr ?_⟩
      · exact served_plain rfl (List.forall_mem_nil _)
      · exact served_plain rfl (List.forall_mem_nil _)
  | relation yes no =>
      refine leaves_freshTemp.bind fun cmp _ => leaves_write ?_
      refine List.forall_mem_cons.mpr ⟨?_, List.forall_mem_cons.mpr ⟨?_, ?_⟩⟩
      · exact served_plain rfl (List.forall_mem_nil _)
      · exact served_plain rfl (List.forall_mem_nil _)
      · exact List.forall_mem_singleton.mpr (served_plain rfl (List.forall_mem_nil _))

theorem served_storeArgs {args : List Temp} {k : Nat} {i : Instr} (hi : i ∈ storeArgs k args) :
    i.Served := by
  induction args generalizing k with
  | nil => cases hi
  | cons arg args ih =>
      rcases List.mem_cons.mp hi with rfl | hi
      · exact served_plain rfl (List.forall_mem_nil _)
      · exact ih hi

/-- The instructions for a call can be written. -/
theorem served_call {keep : Nat} {f : Label} (hf : f.Plain) (args : List Temp)
    (dst : Option Temp) : ∀ i ∈ call keep f args dst, i.Served := by
  refine List.forall_mem_append.mpr ⟨List.forall_mem_append.mpr ⟨?_, ?_⟩, ?_⟩
  · exact fun i => served_storeArgs
  · exact List.forall_mem_singleton.mpr (served_branch rfl (List.forall_mem_singleton.mpr hf))
  · cases dst with
    | none => exact List.forall_mem_nil _
    | some dst =>
        exact List.forall_mem_singleton.mpr (served_plain rfl (List.forall_mem_nil _))

/-- The instructions for a right-hand side can be written. -/
theorem serves_rhs (keep : Nat) {r : Rhs} (hr : ∀ l ∈ r.labels, l.Plain) (dst : Option Temp) :
    Serves Q (rhs keep r dst) := by
  cases r with
  | atom a => exact serves_atom hr dst
  | binop op x y =>
      obtain ⟨hx, hy⟩ := List.forall_mem_append.mp hr
      refine (serves_atom hx none).bind fun x _ => (serves_atom hy none).bind fun y _ => ?_
      exact serves_into dst fun t => serves_compute t x y (scheme op)
  | unop op x =>
      have hx : ∀ l ∈ x.labels, l.Plain := hr
      refine (serves_atom hx none).bind fun x _ => (serves_orFresh dst).bind fun t _ => ?_
      cases op with
      | neg =>
          refine (serves_write_one ?_).bind fun _ _ => leaves_pure trivial
          exact served_plain rfl (List.forall_mem_nil _)
      | not =>
          refine (serves_write_one ?_).bind fun _ _ => leaves_pure trivial
          exact served_plain rfl (List.forall_mem_nil _)
  | load addr =>
      have haddr : ∀ l ∈ addr.labels, l.Plain := hr
      refine (serves_atom haddr none).bind fun base _ => serves_into dst fun t => ?_
      exact serves_write_one (served_plain rfl (List.forall_mem_nil _))
  | call f args =>
      exact serves_into dst fun t => leaves_write (served_call (hr f List.mem_cons_self) args _)

/-- The instructions for a statement can be written. -/
theorem serves_stmt (keep : Nat) (next : Option Stmt) {st : Stmt} (h : st.Over Label.Plain) :
    Serves Q (stmt keep next st) := by
  cases st with
  | label l => exact serves_write_one trivial
  | transfer t =>
      cases t with
      | jump target => exact serves_write_one (served_jump (h target List.mem_cons_self))
      | branch cond ifTrue ifFalse =>
          obtain ⟨htrue, hfalse⟩ := List.forall_mem_cons.mp h
          refine (serves_write_one ?_).bind fun _ _ => ?_
          · exact served_branch rfl (List.forall_mem_singleton.mpr htrue)
          · split
            · exact serves_write_one (served_jump (hfalse ifFalse List.mem_cons_self))
            · exact leaves_pure trivial
  | act a =>
      cases a with
      | move dst r => exact (serves_rhs keep h (some dst)).bind fun _ _ => leaves_pure trivial
      | store addr src =>
          obtain ⟨haddr, hsrc⟩ := List.forall_mem_append.mp h
          refine (serves_atom hsrc none).bind fun x _ => (serves_atom haddr none).bind fun y _ => ?_
          exact serves_write_one (served_plain rfl (List.forall_mem_nil _))
      | call f args => exact leaves_write (served_call (h f List.mem_cons_self) args none)

/-- All instructions that are selected can be written. By induction on the statements. -/
theorem serves_stmts (keep : Nat) {sts : List Stmt} (h : ∀ st ∈ sts, st.Over Label.Plain) :
    Serves Q (stmts keep sts) := by
  induction sts with
  | nil => exact leaves_pure trivial
  | cons st sts ih =>
      obtain ⟨hst, hsts⟩ := List.forall_mem_cons.mp h
      exact (serves_stmt keep _ hst).bind fun _ _ => ih hsts

end Select

/-- Selection makes instructions that can be written. -/
theorem Flat.Function.leaves_select {ω : Type} {R : ω → Prop} {Q : Event → Prop} (keep : Nat)
    {f : Flat.Function} (h : ∀ st ∈ f.stmts, st.Over Label.Plain) :
    Emit.Leaves R Q (fun code => ∀ i ∈ code.instrs, i.Served) (f.select keep : Emit ω Code) := by
  refine (Select.serves_stmts keep h).collect.bind ?_
  rintro ⟨instrs, _⟩ ⟨hinstrs, -⟩
  exact Emit.leaves_pure hinstrs

-- ── Spilling ─────────────────────────────────────────────────────────────────

/-- Replacing a temporary keeps the number of operands. -/
theorem Instr.Served.replace {i : Instr} (h : i.Served) (t v : Temp) :
    ((i.replaceUses t v).replaceDefs t v).Served := by
  cases i with
  | label l => trivial
  | move op dst src => exact h
  | oper op uses defs jumps falls =>
      simpa only [replaceUses, replaceDefs, Served, List.length_map] using h

/-- The instructions that the event shows have enough operands. -/
def Event.Served (e : Event) : Prop := ∀ i ∈ e.instrs, i.Served

/-- What spilling puts in can be written, and what it changes can still be. -/
theorem Spill.preserved_served : Preserved Instr.Served Event.Served where
  const _ _ _ hi := served_loadConst hi
  sub _ _ _ := Instr.served_plain rfl (List.forall_mem_nil _)
  load _ _ := Instr.served_plain rfl (List.forall_mem_nil _)
  store _ _ := Instr.served_plain rfl (List.forall_mem_nil _)
  patched _ t v hi := hi.replace t v
  report _ t v hi := List.forall_mem_singleton.mpr (hi.replace t v)

end MmixBackend
