import MmixBackend.Lowering
import MmixBackend.Proofs.FlattenPlain
import MmixBackend.Proofs.SourceMeaning

/-!
# Lowering operands keeps their values

The tree that a place or an operand is lowered to has no statements inside, reads no temporary but
the frame pointer, and comes to the value that the operand has. The label of a literal is the one
that the string table ends up with: a literal keeps the label it has got.

* **`Lowered.binop`** — how an operation is put together.
* **`value_lowered`** — by induction on the operand.
-/

namespace MmixBackend

open Machine

namespace Context

variable {c c₁ c' : Context} {literals : Source.Literals}

/-- The literals have the labels that they have got so far. -/
def Within (c : Context) (literals : Source.Literals) : Prop :=
  ∀ (text : String) (l : Label), c.strings[text]? = some l → literals[text]? = some l

/-- The label of a literal. -/
def IsLiteral (c : Context) (l : Label) : Prop := ∃ text : String, c.strings[text]? = some l

/-- Labels were only taken, literals have kept theirs, and those of new literals were taken in
    between. -/
structure Grows (c c' : Context) : Prop where
  labels : c.supply.labels ≤ c'.supply.labels
  strings : c.Within c'.strings
  literals : ∀ l, c'.IsLiteral l → c.IsLiteral l ∨
    ∃ i, l = .fresh i ∧ c.supply.labels ≤ i ∧ i < c'.supply.labels

/-- Literals that fit a later context fit an earlier one. -/
theorem Grows.within (h : c.Grows c') (h' : c'.Within literals) : c.Within literals :=
  fun text l hl => h' text l (h.strings text l hl)

theorem Grows.refl (c : Context) : c.Grows c :=
  ⟨Nat.le_refl _, fun _ _ h => h, fun _ h => .inl h⟩

/-- Contexts grow step by step. -/
theorem Grows.trans (h : c.Grows c₁) (h' : c₁.Grows c') : c.Grows c' := by
  have hle := h.labels
  have hle' := h'.labels
  refine ⟨Nat.le_trans hle hle', h.within h'.strings, ?_⟩
  intro l hl
  obtain hl | ⟨i, rfl, hi⟩ := h'.literals l hl
  · obtain hl | ⟨i, rfl, hi⟩ := h.literals l hl
    · exact .inl hl
    · exact .inr ⟨i, rfl, by omega⟩
  · exact .inr ⟨i, rfl, by omega⟩

/-- Taking a label leaves the literals alone. -/
theorem grows_freshLabel (c : Context) : c.Grows c.freshLabel.2 :=
  ⟨Nat.le_succ _, fun _ _ h => h, fun _ h => .inl h⟩

/-- The labels of literals were taken before. -/
def Tidy (c : Context) : Prop := ∀ l, c.IsLiteral l → ∃ i, l = .fresh i ∧ i < c.supply.labels

/-- A context that grows stays tidy: new literals take new labels. -/
theorem Grows.tidy (h : c.Grows c') (hc : c.Tidy) : c'.Tidy := by
  intro l hl
  obtain hl | ⟨i, rfl, -, hi⟩ := h.literals l hl
  · obtain ⟨i, rfl, hi⟩ := hc l hl
    exact ⟨i, rfl, Nat.lt_of_lt_of_le hi h.labels⟩
  · exact ⟨i, rfl, hi⟩

/-- No label that is still to be taken belongs to a literal. -/
theorem Tidy.not_isLiteral (h : c.Tidy) {i : Nat} (hi : c.supply.labels ≤ i) :
    ¬c.IsLiteral (.fresh i) := by
  intro hl
  obtain ⟨j, hj, hlt⟩ := h _ hl
  have hij : i = j := Label.fresh.inj hj
  omega

/-- A label that was taken for something else does not become that of a literal. -/
theorem Grows.not_isLiteral (h : c.Grows c') {i : Nat} (hi : i < c.supply.labels)
    (hnot : ¬c.IsLiteral (.fresh i)) : ¬c'.IsLiteral (.fresh i) := by
  intro hl
  obtain hl | ⟨j, hj, hle, -⟩ := h.literals _ hl
  · exact hnot hl
  · have hij : i = j := Label.fresh.inj hj
    omega

/-- A literal gets a label and keeps it. -/
theorem grows_internString (text : String) (c : Context) :
    c.Grows (c.internString text).2 ∧
      (c.internString text).2.strings[text]? = some (c.internString text).1 := by
  rw [internString]
  split
  · next l hl => exact ⟨Grows.refl c, hl⟩
  · next hnone =>
    refine ⟨⟨Nat.le_succ _, ?_, ?_⟩, Std.ExtTreeMap.getElem?_insert_self⟩
    · intro text' l hl
      have hne : text ≠ text' := by
        rintro rfl
        rw [hnone] at hl
        cases hl
      show (c.strings.insert text _)[text']? = some l
      rw [Std.ExtTreeMap.getElem?_insert, if_neg (by simpa using hne), hl]
    · rintro l ⟨text', hl⟩
      replace hl : (c.strings.insert text (.fresh c.supply.labels))[text']? = some l := hl
      rw [Std.ExtTreeMap.getElem?_insert] at hl
      split at hl
      · exact .inr ⟨_, (Option.some.inj hl).symm, Nat.le_refl _, Nat.lt_succ_self _⟩
      · exact .inl ⟨text', hl⟩

end Context

namespace Source

variable {scope : Scope} {c c₁ c' : Context} {e x y : Tree.Expr} {α β : Type}

/-- Two steps come to an end exactly if the first one does and the second one does from there. -/
theorem run_meaning_eq_ok {x : Meaning α} {f : α → Meaning β} {m m' : Machine} {b : β} :
    (x >>= f).run m = .ok (b, m') ↔
      ∃ a m₁, x.run m = .ok (a, m₁) ∧ (f a).run m₁ = .ok (b, m') := by
  rw [run_bind_meaning]
  rcases x.run m with error | ⟨a, m₁⟩
  · constructor
    · intro h
      cases h
    · rintro ⟨a, m₁, h, -⟩
      cases h
  · constructor
    · intro h
      exact ⟨a, m₁, rfl, h⟩
    · rintro ⟨a', m₂, h, hf⟩
      cases h
      exact hf

/-- Lowering from one context to another has given this expression for something of this
    meaning. -/
structure Lowered (scope : Scope) (c c' : Context) (meaning : Literals → Meaning Word)
    (e : Tree.Expr) : Prop where
  grows : c.Grows c'
  plain : e.Plain
  temps : ∀ t, .temp t ∈ e.leaves → t = scope.frame.pointer
  means : ∀ literals, c'.Within literals → ∀ m v m',
    (meaning literals).run m = .ok (v, m') → (eval e).run.run m = (.ok v, m')

theorem lowered_const (scope : Scope) (c : Context) (v : Word) :
    Lowered scope c c (fun _ => pure v) (.const v) := by
  refine ⟨Context.Grows.refl c, trivial, ?_, ?_⟩
  · intro t ht
    cases List.mem_singleton.mp ht
  · intro literals _ m w m' h
    cases h
    rw [eval]
    rfl

theorem lowered_name (scope : Scope) (c : Context) (l : Label) :
    Lowered scope c c (fun _ => modifyGet (·.labelAddr l)) (.name l) := by
  refine ⟨Context.Grows.refl c, trivial, ?_, ?_⟩
  · intro t ht
    cases List.mem_singleton.mp ht
  · intro literals _ m w m' h
    rw [eval]
    have hpair : (m.labelAddr l) = (w, m') := Except.ok.inj h
    show ((.ok (m.labelAddr l).1, (m.labelAddr l).2) : Except RunError Word × Machine) = _
    rw [hpair]

/-- Reading the word at an address. -/
theorem Lowered.mem {M : Literals → Meaning Word} (h : Lowered scope c c' M e) :
    Lowered scope c c' (fun literals => do
      let addr ← M literals
      return (← get).load addr) (.mem e) := by
  refine ⟨h.grows, h.plain, h.temps, ?_⟩
  intro literals hliterals m w m' hrun
  obtain ⟨addr, m₁, haddr, hload⟩ := run_meaning_eq_ok.mp hrun
  cases hload
  rw [eval]
  exact run_bind_eq_ok.mpr ⟨addr, m', h.means literals hliterals m addr m' haddr, rfl⟩

theorem Lowered.unop {M : Literals → Meaning Word} (h : Lowered scope c c' M e) (op : UnOp) :
    Lowered scope c c' (fun literals => do
      return op.value (← M literals)) (.unop op e) := by
  refine ⟨h.grows, h.plain, h.temps, ?_⟩
  intro literals hliterals m w m' hrun
  obtain ⟨v, m₁, hv, hvalue⟩ := run_meaning_eq_ok.mp hrun
  cases hvalue
  rw [eval]
  exact run_bind_eq_ok.mpr ⟨v, m', h.means literals hliterals m v m' hv, rfl⟩

/-- Two operands, the first one lowered first and computed first. -/
theorem Lowered.binop {M N : Literals → Meaning Word} (hx : Lowered scope c c₁ M x)
    (hy : Lowered scope c₁ c' N y) (op : BinOp) :
    Lowered scope c c' (fun literals => do
      let a ← M literals
      let b ← N literals
      applied op a b) (.binop op x y) := by
  refine ⟨hx.grows.trans hy.grows, ⟨hx.plain, hy.plain⟩, ?_, ?_⟩
  · intro t ht
    rcases List.mem_append.mp ht with ht | ht
    · exact hx.temps t ht
    · exact hy.temps t ht
  · intro literals hliterals m v m' hrun
    obtain ⟨a, m₁, ha, hrun⟩ := run_meaning_eq_ok.mp hrun
    obtain ⟨b, m₂, hb, hrun⟩ := run_meaning_eq_ok.mp hrun
    have hbefore : c₁.Within literals := hy.grows.within hliterals
    rw [eval]
    refine run_bind_eq_ok.mpr ⟨a, m₁, hx.means literals hbefore m a m₁ ha, ?_⟩
    refine run_bind_eq_ok.mpr ⟨b, m₂, hy.means literals hliterals m₁ b m₂ hb, ?_⟩
    rw [applied] at hrun
    rw [divide]
    cases hv : op.value? a b with
    | none =>
        rw [hv] at hrun
        cases hrun
    | some w =>
        rw [hv] at hrun
        cases hrun
        rfl

/-- Only what an operand means counts, not how this is put. -/
theorem Lowered.congr {M N : Literals → Meaning Word} (h : Lowered scope c c' M e)
    (heq : ∀ literals, N literals = M literals) : Lowered scope c c' N e :=
  ⟨h.grows, h.plain, h.temps, fun literals hl m v m' hrun =>
    h.means literals hl m v m' (heq literals ▸ hrun)⟩

/-- A sum with a constant. -/
theorem Lowered.add_const {M : Literals → Meaning Word} (h : Lowered scope c c' M e) (k : Word) :
    Lowered scope c c' (fun literals => do
      return (← M literals) + k) (.binop .add e (.const k)) :=
  (h.binop (lowered_const scope c' k) .add).congr fun _ => rfl

/-- Following static links is lowered to as many loads. -/
theorem lowered_linkedPointer (scope : Scope) (c : Context) (hops : Nat) :
    Lowered scope c c (fun _ => linkedPointer scope.frame.pointer hops)
      (followLinks scope.frame.pointer hops) := by
  induction hops with
  | zero =>
      refine ⟨Context.Grows.refl c, trivial, ?_, ?_⟩
      · intro t ht
        exact Flat.Atom.temp.inj (List.mem_singleton.mp ht)
      · intro literals _ m v m' h
        cases h
        rw [followLinks, eval]
        rfl
  | succ hops ih => exact ih.mem

/-- A frame that can be seen is lowered to the links that lead to it. -/
theorem lowered_pointerAt {depth : Nat} (h : scope.frameAt depth = .ok e) (c : Context) :
    Lowered scope c c (fun _ => scope.pointerAt depth) e := by
  rw [Scope.frameAt] at h
  split at h
  · next hdepth =>
    obtain rfl := Except.ok.inj h
    refine (lowered_linkedPointer scope c _).congr fun _ => ?_
    rw [Scope.pointerAt, if_pos hdepth]
  · cases h

/-- A variable with a place is lowered to its address. -/
theorem lowered_locate {name : String} (h : scope.varAddr name = .ok e) (c : Context) :
    Lowered scope c c (fun _ => scope.locate name) e := by
  rw [Scope.varAddr] at h
  split at h
  · cases h
  · next l haccess =>
    obtain rfl := Except.ok.inj h
    refine (lowered_name scope c l).congr fun _ => ?_
    rw [Scope.locate, haccess]
  · next offset depth haccess =>
    cases hframe : scope.frameAt depth with
    | error error =>
        rw [hframe] at h
        cases h
    | ok base =>
        rw [hframe] at h
        obtain rfl := Except.ok.inj h
        refine ((lowered_pointerAt hframe c).add_const offset).congr fun _ => ?_
        rw [Scope.locate, haccess]

/-- The same for a list of expressions. -/
structure LoweredAll (scope : Scope) (c c' : Context) (meaning : Literals → Meaning (List Word))
    (es : List Tree.Expr) : Prop where
  grows : c.Grows c'
  plain : Tree.PlainExprs es
  temps : ∀ t, .temp t ∈ Tree.exprLeaves es → t = scope.frame.pointer
  means : ∀ literals, c'.Within literals → ∀ m vs m',
    (meaning literals).run m = .ok (vs, m') → (evalAll es).run.run m = (.ok vs, m')

/-- Operands from left to right: the first one, and then the others in the context that it
    leaves. -/
theorem Lowered.cons {M : Literals → Meaning Word} {N : Literals → Meaning (List Word)}
    {es : List Tree.Expr} (h : Lowered scope c c₁ M e) (hs : LoweredAll scope c₁ c' N es) :
    LoweredAll scope c c' (fun literals => do
      let value ← M literals
      let values ← N literals
      return value :: values) (e :: es) := by
  refine ⟨h.grows.trans hs.grows, ⟨h.plain, hs.plain⟩, ?_, ?_⟩
  · intro t ht
    rcases List.mem_append.mp ht with ht | ht
    · exact h.temps t ht
    · exact hs.temps t ht
  · intro literals hliterals m vs m' hrun
    obtain ⟨a, m₁, ha, hrun⟩ := run_meaning_eq_ok.mp hrun
    obtain ⟨as, m₂, has, hrun⟩ := run_meaning_eq_ok.mp hrun
    cases hrun
    have hbefore : c₁.Within literals := hs.grows.within hliterals
    rw [evalAll]
    refine run_bind_eq_ok.mpr ⟨a, m₁, h.means literals hbefore m a m₁ ha, ?_⟩
    exact run_bind_eq_ok.mpr ⟨as, m', hs.means literals hliterals m₁ as m' has, rfl⟩

theorem LoweredAll.congr {M N : Literals → Meaning (List Word)} {es : List Tree.Expr}
    (h : LoweredAll scope c c' M es) (heq : ∀ literals, N literals = M literals) :
    LoweredAll scope c c' N es :=
  ⟨h.grows, h.plain, h.temps, fun literals hl m vs m' hrun =>
    h.means literals hl m vs m' (heq literals ▸ hrun)⟩

/-- A call of lowered arguments is lowered. -/
theorem LoweredAll.call {N : Literals → Meaning (List Word)} {es : List Tree.Expr}
    (h : LoweredAll scope c c' N es) (f : Label) :
    Lowered scope c c' (fun literals => do
      let args ← N literals
      modifyGet (·.call f args)) (.call f es) := by
  refine ⟨h.grows, h.plain, h.temps, ?_⟩
  intro literals hliterals m v m' hrun
  obtain ⟨vs, m₁, hvs, hrun⟩ := run_meaning_eq_ok.mp hrun
  have hpair : m₁.call f vs = (v, m') := Except.ok.inj hrun
  rw [eval]
  refine run_bind_eq_ok.mpr ⟨vs, m₁, h.means literals hliterals m vs m₁ hvs, ?_⟩
  show ((.ok (m₁.call f vs).1, (m₁.call f vs).2) : Except RunError Word × Machine) = _
  rw [hpair]

theorem loweredAll_nil (scope : Scope) (c : Context) :
    LoweredAll scope c c (fun _ => pure []) [] := by
  refine ⟨Context.Grows.refl c, trivial, ?_, ?_⟩
  · intro t ht
    cases ht
  · intro literals _ m vs m' h
    cases h
    rw [evalAll]
    rfl

/-- A literal has the label that it was given. -/
theorem lowered_internString (scope : Scope) (c : Context) (text : String) :
    Lowered scope c (c.internString text).2
      (fun literals => (Operand.str text).meaning scope literals)
      (.name (c.internString text).1) := by
  obtain ⟨hgrows, htext⟩ := c.grows_internString text
  have h := lowered_name scope (c.internString text).2 (c.internString text).1
  refine ⟨hgrows, h.plain, h.temps, ?_⟩
  intro literals hliterals m v m' hrun
  rw [Operand.meaning, hliterals text _ htext] at hrun
  exact h.means literals hliterals m v m' hrun

/-- The address of an element. -/
theorem Lowered.element {M N : Literals → Meaning Word} (hx : Lowered scope c c₁ M x)
    (hy : Lowered scope c₁ c' N y) (elemSize : Word) :
    Lowered scope c c' (fun literals => do
      let base ← M literals
      let index ← N literals
      return base + index * elemSize) (.binop .add x (.binop .mul y (.const elemSize))) := by
  refine (hx.binop (hy.binop (lowered_const scope c' elemSize) .mul) .add).congr fun literals => ?_
  refine congrArg (M literals >>= ·) (funext fun base => ?_)
  rw [bind_assoc]
  rfl

mutual

/-- The tree of a place computes its address. -/
theorem addr_lowered (place : Place) {c c' : Context} {e : Tree.Expr}
    (h : (addr scope place).run.run c = (.ok e, c')) :
    Lowered scope c c' (fun literals => place.meaning scope literals) e := by
  cases place with
  | var name =>
      rw [addr] at h
      obtain ⟨haddr, rfl⟩ := Prod.mk.inj h
      refine (lowered_locate haddr c).congr fun literals => ?_
      rw [Place.meaning]
  | index array index elemSize =>
      rw [addr] at h
      obtain ⟨base, c₁, hbase, h⟩ := run_bind_eq_ok.mp h
      obtain ⟨i, c₂, hi, h⟩ := run_bind_eq_ok.mp h
      obtain ⟨rfl, rfl⟩ := eq_of_ok_eq h
      refine ((addr_lowered array hbase).element (value_lowered index hi) elemSize).congr
        fun literals => ?_
      rw [Place.meaning]
  | field record offset =>
      rw [addr] at h
      obtain ⟨base, c₁, hbase, h⟩ := run_bind_eq_ok.mp h
      obtain ⟨rfl, rfl⟩ := eq_of_ok_eq h
      refine ((addr_lowered record hbase).add_const offset).congr fun literals => ?_
      rw [Place.meaning]
  | deref ptr =>
      rw [addr] at h
      refine (value_lowered ptr h).congr fun literals => ?_
      rw [Place.meaning]

/-- The tree of an operand computes its value. -/
theorem value_lowered (operand : Operand) {c c' : Context} {e : Tree.Expr}
    (h : (value scope operand).run.run c = (.ok e, c')) :
    Lowered scope c c' (fun literals => operand.meaning scope literals) e := by
  cases operand with
  | int n =>
      rw [value] at h
      obtain ⟨rfl, rfl⟩ := eq_of_ok_eq h
      refine (lowered_const scope c n).congr fun literals => ?_
      rw [Operand.meaning]
  | str text =>
      rw [value] at h
      obtain ⟨l, c₁, hl, h⟩ := run_bind_eq_ok.mp h
      obtain ⟨rfl, rfl⟩ := eq_of_ok_eq h
      obtain ⟨rfl, rfl⟩ := eq_of_ok_eq hl
      exact lowered_internString scope c text
  | read place =>
      rw [value] at h
      obtain ⟨base, c₁, hbase, h⟩ := run_bind_eq_ok.mp h
      obtain ⟨rfl, rfl⟩ := eq_of_ok_eq h
      refine (addr_lowered place hbase).mem.congr fun literals => ?_
      rw [Operand.meaning]
  | addrOf place =>
      rw [value] at h
      refine (addr_lowered place h).congr fun literals => ?_
      rw [Operand.meaning]
  | binop op x y =>
      rw [value] at h
      obtain ⟨a, c₁, ha, h⟩ := run_bind_eq_ok.mp h
      obtain ⟨b, c₂, hb, h⟩ := run_bind_eq_ok.mp h
      obtain ⟨rfl, rfl⟩ := eq_of_ok_eq h
      refine ((value_lowered x ha).binop (value_lowered y hb) op).congr fun literals => ?_
      rw [Operand.meaning]
  | unop op x =>
      rw [value] at h
      obtain ⟨a, c₁, ha, h⟩ := run_bind_eq_ok.mp h
      obtain ⟨rfl, rfl⟩ := eq_of_ok_eq h
      refine ((value_lowered x ha).unop op).congr fun literals => ?_
      rw [Operand.meaning]
  | call f depth args =>
      rw [value] at h
      obtain ⟨link, c₁, hlink, h⟩ := run_bind_eq_ok.mp h
      obtain ⟨as, c₂, has, h⟩ := run_bind_eq_ok.mp h
      obtain ⟨rfl, rfl⟩ := eq_of_ok_eq h
      obtain ⟨hframe, rfl⟩ := Prod.mk.inj hlink
      -- the static link is passed in front of the arguments
      refine (((lowered_pointerAt hframe c).cons (values_lowered args has)).call f).congr
        fun literals => ?_
      rw [Operand.meaning, bind_assoc]
      refine congrArg (scope.pointerAt (depth - 1) >>= ·) (funext fun base => ?_)
      rw [bind_assoc]
      rfl

/-- Operands are lowered one after the other. By induction on the source, with places and single
    operands. -/
theorem values_lowered (operands : List Operand) {c c' : Context} {es : List Tree.Expr}
    (h : (values scope operands).run.run c = (.ok es, c')) :
    LoweredAll scope c c' (fun literals => operandMeanings scope literals operands) es := by
  cases operands with
  | nil =>
      rw [values] at h
      obtain ⟨rfl, rfl⟩ := eq_of_ok_eq h
      refine (loweredAll_nil scope c).congr fun literals => ?_
      rw [operandMeanings]
  | cons x xs =>
      rw [values] at h
      obtain ⟨a, c₁, ha, h⟩ := run_bind_eq_ok.mp h
      obtain ⟨as, c₂, has, h⟩ := run_bind_eq_ok.mp h
      obtain ⟨rfl, rfl⟩ := eq_of_ok_eq h
      refine ((value_lowered x ha).cons (values_lowered xs has)).congr fun literals => ?_
      rw [operandMeanings]

end

end Source

end MmixBackend
