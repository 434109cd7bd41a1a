import MmixBackend.Code
import MmixBackend.Emit
import MmixBackend.Proofs.Image

/-!
# Other names

A renaming gives other names to temporaries and labels. It carries code to code that is written in
the other names, and registers go over with their temporaries.

A step of code generation takes its names from a supply. Started with another supply it takes other
names, and if it treats names as nothing but names, it does the same under these names.

* **`Renaming.shift`** — leaves the names handed out so far alone and moves all others up.
* **`Mirrors`**, **`Tracks`** — a step does what another one does, under other names; the second
  one is about steps that may fail.
* **`Mirrors.bind`**, **`Tracks.bind`** — one step after another.
-/

namespace MmixBackend

/-- Other names for temporaries and labels. -/
structure Renaming where
  temp : Temp → Temp
  label : Label → Label

variable {ρ : Renaming}

-- ── Code under other names ───────────────────────────────────────────────────

/-- A frame under other names. -/
def Frame.rename (ρ : Renaming) (frame : Frame) : Frame :=
  { frame with
    label := ρ.label frame.label
    result := ρ.temp frame.result
    pointer := ρ.temp frame.pointer }

namespace Flat

/-- An atom under other names. -/
def Atom.rename (ρ : Renaming) : Atom → Atom
  | .const value => .const value
  | .temp t => .temp (ρ.temp t)
  | .name l => .name (ρ.label l)

/-- A right-hand side under other names. -/
def Rhs.rename (ρ : Renaming) : Rhs → Rhs
  | .atom a => .atom (a.rename ρ)
  | .binop op x y => .binop op (x.rename ρ) (y.rename ρ)
  | .unop op x => .unop op (x.rename ρ)
  | .load addr => .load (addr.rename ρ)
  | .call f args => .call (ρ.label f) (args.map ρ.temp)

/-- An action under other names. -/
def Action.rename (ρ : Renaming) : Action → Action
  | .move dst r => .move (ρ.temp dst) (r.rename ρ)
  | .store addr src => .store (addr.rename ρ) (src.rename ρ)
  | .call f args => .call (ρ.label f) (args.map ρ.temp)

/-- A transfer under other names. -/
def Transfer.rename (ρ : Renaming) : Transfer → Transfer
  | .jump target => .jump (ρ.label target)
  | .branch cond ifTrue ifFalse => .branch (ρ.temp cond) (ρ.label ifTrue) (ρ.label ifFalse)

/-- A flat statement under other names. -/
def Stmt.rename (ρ : Renaming) : Stmt → Stmt
  | .label l => .label (ρ.label l)
  | .act a => .act (a.rename ρ)
  | .transfer t => .transfer (t.rename ρ)

/-- A flat function under other names. -/
def Function.rename (ρ : Renaming) (f : Function) : Function where
  frame := f.frame.rename ρ
  stmts := f.stmts.map (Stmt.rename ρ)
  entry := ρ.label f.entry
  exit := ρ.label f.exit

theorem Stmt.def?_rename (st : Stmt) : (st.rename ρ).def? = st.def?.map ρ.temp := by
  cases st with
  | label l => rfl
  | act a => cases a <;> rfl
  | transfer t => rfl

end Flat

/-- An operation under other names. -/
def Operation.rename (ρ : Renaming) : Operation → Operation
  | .loadAddress l => .loadAddress (ρ.label l)
  | .branchNonZero target => .branchNonZero (ρ.label target)
  | .jump target => .jump (ρ.label target)
  | .call keep f => .call keep (ρ.label f)
  | op => op

/-- An instruction under other names. -/
def Instr.rename (ρ : Renaming) : Instr → Instr
  | .label l => .label (ρ.label l)
  | .move op dst src => .move (op.rename ρ) (ρ.temp dst) (ρ.temp src)
  | .oper op uses defs jumps falls =>
    .oper (op.rename ρ) (uses.map ρ.temp) (defs.map ρ.temp) (jumps.map ρ.label) falls

/-- The code of a function under other names. -/
def Code.rename (ρ : Renaming) (code : Code) : Code where
  frame := code.frame.rename ρ
  instrs := code.instrs.map (Instr.rename ρ)
  entry := ρ.label code.entry
  exit := ρ.label code.exit
  registers := imageMap ρ.temp id code.registers
  spillSize := code.spillSize

namespace Instr

/-- An instruction reads the same temporaries under their new names. -/
@[simp] theorem uses_rename (i : Instr) : (i.rename ρ).uses = i.uses.map ρ.temp := by
  cases i <;> rfl

/-- It writes the same temporaries under their new names. -/
@[simp] theorem defs_rename (i : Instr) : (i.rename ρ).defs = i.defs.map ρ.temp := by
  cases i <;> rfl

/-- It jumps to the same labels under their new names. -/
@[simp] theorem jumps_rename (i : Instr) : (i.rename ρ).jumps = i.jumps.map ρ.label := by
  cases i <;> rfl

@[simp] theorem fallsThrough_rename (i : Instr) : (i.rename ρ).fallsThrough = i.fallsThrough := by
  cases i <;> rfl

@[simp] theorem label?_rename (i : Instr) : (i.rename ρ).label? = i.label?.map ρ.label := by
  cases i <;> rfl

end Instr

namespace Renaming

/-- A renaming that keeps the order tells temporaries apart. -/
@[simp] theorem temp_eq_iff [KeepsOrder ρ.temp] {t u : Temp} : ρ.temp t = ρ.temp u ↔ t = u :=
  KeepsOrder.apply_eq_iff

/-- It tells labels apart as well. -/
@[simp] theorem label_eq_iff [KeepsOrder ρ.label] {l l' : Label} :
    ρ.label l = ρ.label l' ↔ l = l' := KeepsOrder.apply_eq_iff

@[simp] theorem temp_mem_map [KeepsOrder ρ.temp] {t : Temp} {ts : List Temp} :
    ρ.temp t ∈ ts.map ρ.temp ↔ t ∈ ts := by
  simp [List.mem_map]

@[simp] theorem label_mem_map [KeepsOrder ρ.label] {l : Label} {ls : List Label} :
    ρ.label l ∈ ls.map ρ.label ↔ l ∈ ls := by
  simp [List.mem_map]

end Renaming

-- ── Names handed out ─────────────────────────────────────────────────────────

/-- The label is a name, or was handed out before. -/
def Label.Below (s : Supply) : Label → Prop
  | .named _ => True
  | .fresh index => index < s.labels

namespace Supply

/-- Names are only ever taken. -/
instance : LE Supply := ⟨fun s s' => s.temps ≤ s'.temps ∧ s.labels ≤ s'.labels⟩

theorem le_refl (s : Supply) : s ≤ s := ⟨Nat.le_refl _, Nat.le_refl _⟩

theorem le_of_eq {s s' : Supply} (h : s = s') : s ≤ s' := h ▸ s.le_refl

theorem le_trans {s s₁ s' : Supply} (h : s ≤ s₁) (h' : s₁ ≤ s') : s ≤ s' :=
  ⟨Nat.le_trans h.1 h'.1, Nat.le_trans h.2 h'.2⟩

/-- A supply that is further on is some names further on. -/
theorem exists_skip {s s' : Supply} (h : s ≤ s') : ∃ d : Supply, s.skip d.temps d.labels = s' :=
  ⟨⟨s'.temps - s.temps, s'.labels - s.labels⟩,
    congr (congrArg Supply.mk (Nat.add_sub_cancel' h.1)) (Nat.add_sub_cancel' h.2)⟩

/-- Only what both supplies have handed out is taken. -/
def inf (s s' : Supply) : Supply := ⟨min s.temps s'.temps, min s.labels s'.labels⟩

theorem inf_le_left (s s' : Supply) : s.inf s' ≤ s := ⟨Nat.min_le_left _ _, Nat.min_le_left _ _⟩

theorem inf_le_right (s s' : Supply) : s.inf s' ≤ s' := ⟨Nat.min_le_right _ _, Nat.min_le_right _ _⟩

end Supply

/-- More labels may be handed out later. -/
theorem Label.Below.mono {s s' : Supply} {l : Label} (h : l.Below s) (hle : s ≤ s') :
    l.Below s' := by
  cases l with
  | named name => trivial
  | fresh index => exact Nat.lt_of_lt_of_le h hle.2

/-- A label that two supplies have handed out is one that both have. -/
theorem Label.below_inf {s s' : Supply} (l : Label) (h : l.Below s) (h' : l.Below s') :
    l.Below (s.inf s') := by
  cases l with
  | named name => trivial
  | fresh index => exact Nat.lt_min.mpr ⟨h, h'⟩

namespace Renaming

/-- The renaming leaves alone what was handed out so far. -/
structure Fixes (ρ : Renaming) (s : Supply) : Prop where
  temp : ∀ t : Temp, t.index < s.temps → ρ.temp t = t
  label : ∀ l : Label, l.Below s → ρ.label l = l

/-- What leaves alone more leaves alone less. -/
theorem Fixes.mono {s s' : Supply} (h : ρ.Fixes s') (hle : s ≤ s') : ρ.Fixes s where
  temp t ht := h.temp t (Nat.lt_of_lt_of_le ht hle.1)
  label l hl := h.label l (hl.mono hle)

/-- The renaming moves what is handed out between two supplies by `d`. -/
structure Moves (ρ : Renaming) (d s s' : Supply) : Prop where
  temp : ∀ i, s.temps ≤ i → i < s'.temps → ρ.temp ⟨i⟩ = ⟨i + d.temps⟩
  label : ∀ i, s.labels ≤ i → i < s'.labels → ρ.label (.fresh i) = .fresh (i + d.labels)

/-- Names that are left alone are moved by nothing. -/
theorem Fixes.moves {s s' : Supply} (h : ρ.Fixes s') : ρ.Moves {} s s' where
  temp i _ hi := h.temp ⟨i⟩ hi
  label i _ hi := h.label (.fresh i) hi

/-- What is moved in a range is moved in a part of it. -/
theorem Moves.narrow {d s s' s₁ s₂ : Supply} (h : ρ.Moves d s s') (hle : s ≤ s₁) (hle' : s₂ ≤ s') :
    ρ.Moves d s₁ s₂ where
  temp i hi hi' := h.temp i (Nat.le_trans hle.1 hi) (Nat.lt_of_lt_of_le hi' hle'.1)
  label i hi hi' := h.label i (Nat.le_trans hle.2 hi) (Nat.lt_of_lt_of_le hi' hle'.2)

/-- Moves all numbers but the first `n` up by `d`. -/
def shiftIndex (n d i : Nat) : Nat := if i < n then i else i + d

theorem shiftIndex_of_lt {n d i : Nat} (h : i < n) : shiftIndex n d i = i := if_pos h

theorem shiftIndex_of_le {n d i : Nat} (h : n ≤ i) : shiftIndex n d i = i + d :=
  if_neg (Nat.not_lt.mpr h)

/-- Moving numbers up keeps their order. -/
theorem compare_shiftIndex (n d i j : Nat) :
    compare (shiftIndex n d i) (shiftIndex n d j) = compare i j := by
  simp only [Nat.compare_eq_ite_lt, shiftIndex]
  grind

/-- Moves all names but those handed out so far up by `d`. -/
def shift (s d : Supply) : Renaming where
  temp t := ⟨shiftIndex s.temps d.temps t.index⟩
  label
    | .named name => .named name
    | .fresh index => .fresh (shiftIndex s.labels d.labels index)

/-- A shift leaves alone what was handed out so far. -/
theorem shift_fixes (s d : Supply) : (shift s d).Fixes s where
  temp t ht := congrArg Temp.mk (shiftIndex_of_lt ht)
  label l hl := by
    cases l with
    | named name => rfl
    | fresh index => exact congrArg Label.fresh (shiftIndex_of_lt hl)

/-- What is left alone by moving the others was handed out before. -/
theorem lt_of_shift_eq {s d : Supply} {t : Temp} (hd : 0 < d.temps) (h : (shift s d).temp t = t) :
    t.index < s.temps := by
  refine Nat.lt_of_not_le fun hle => ?_
  have hindex : t.index + d.temps = t.index :=
    (shiftIndex_of_le hle).symm.trans (congrArg Temp.index h)
  omega

/-- A shift moves what is handed out later. -/
theorem shift_moves {s₀ d s s' : Supply} (hle : s₀ ≤ s) : (shift s₀ d).Moves d s s' where
  temp _ hi _ := congrArg Temp.mk (shiftIndex_of_le (Nat.le_trans hle.1 hi))
  label _ hi _ := congrArg Label.fresh (shiftIndex_of_le (Nat.le_trans hle.2 hi))

instance (s d : Supply) : KeepsOrder (shift s d).temp where
  compare_eq a b := compare_shiftIndex _ _ a.index b.index

instance (s d : Supply) : KeepsOrder (shift s d).label where
  compare_eq a b := by
    cases a with
    | named a => cases b <;> rfl
    | fresh a =>
      cases b with
      | named b => rfl
      | fresh b => exact compare_shiftIndex _ _ a b

end Renaming

-- ── Steps under other names ──────────────────────────────────────────────────

section Steps

variable {ω α β : Type} {d : Supply} {item : ω → ω} {φ : α → α} {ψ : β → β}

/-- The second result is the first one under other names. -/
structure Renamed (d : Supply) (item : ω → ω) (φ : α → α) (r r' : Emitted ω α) : Prop where
  value : r'.value = φ r.value
  code : r'.code = r.code.map item
  supply : r'.supply = r.supply.skip d.temps d.labels

/-- Started with a supply that is `d` further on, the second step does what the first one does,
    under the names that the renaming gives to those the first one takes. -/
structure Mirrors (ρ : Renaming) (d : Supply) (item : ω → ω) (φ : α → α) (x y : Emit ω α) :
    Prop where
  grows : ∀ s, s ≤ (x.run s).supply
  renamed : ∀ s, ρ.Moves d s (x.run s).supply →
    Renamed d item φ (x.run s) (y.run (s.skip d.temps d.labels))

/-- The same for steps that may fail, and then fail alike. -/
def Tracks {ε : Type} (ρ : Renaming) (d : Supply) (item : ω → ω) (φ : α → α)
    (x y : ExceptT ε (Emit ω) α) : Prop :=
  Mirrors ρ d item (Except.map φ) x.run y.run

theorem mirrors_pure (a : α) :
    Mirrors ρ d item φ (pure a : Emit ω α) (pure (φ a)) where
  grows s := s.le_refl
  renamed _ _ := ⟨rfl, rfl, rfl⟩

theorem mirrors_pure_of_eq {a b : α} (h : φ a = b) :
    Mirrors ρ d item φ (pure a : Emit ω α) (pure b) := h ▸ mirrors_pure a

/-- One step after another. -/
theorem Mirrors.bind {x y : Emit ω α} {f g : α → Emit ω β} (hx : Mirrors ρ d item φ x y)
    (hf : ∀ a, Mirrors ρ d item ψ (f a) (g (φ a))) :
    Mirrors ρ d item ψ (x >>= f) (y >>= g) where
  grows s := Supply.le_trans (hx.grows s) ((hf _).grows _)
  renamed s hmoves := by
    obtain ⟨hvalue, hcode, hsupply⟩ := hx.renamed s (hmoves.narrow s.le_refl ((hf _).grows _))
    have hrest := (hf (x.run s).value).renamed (x.run s).supply
      (hmoves.narrow (hx.grows s) (Supply.le_refl _))
    rw [← hvalue, ← hsupply] at hrest
    refine ⟨hrest.value, ?_, hrest.supply⟩
    rw [Emit.run_bind, Emit.run_bind]
    dsimp only
    rw [hcode, hrest.code, List.map_append]

/-- A fresh temporary has its new name further on. -/
theorem mirrors_freshTemp : Mirrors ρ d item ρ.temp Emit.freshTemp Emit.freshTemp where
  grows s := ⟨Nat.le_succ _, Nat.le_refl _⟩
  renamed s hmoves := by
    refine ⟨(hmoves.temp s.temps (Nat.le_refl _) (Nat.lt_succ_self _)).symm, rfl, ?_⟩
    exact congrArg (Supply.mk · (s.labels + d.labels)) (Nat.add_right_comm ..)

/-- So has a fresh label. -/
theorem mirrors_freshLabel : Mirrors ρ d item ρ.label Emit.freshLabel Emit.freshLabel where
  grows s := ⟨Nat.le_refl _, Nat.le_succ _⟩
  renamed s hmoves := by
    refine ⟨(hmoves.label s.labels (Nat.le_refl _) (Nat.lt_succ_self _)).symm, rfl, ?_⟩
    exact congrArg (Supply.mk (s.temps + d.temps)) (Nat.add_right_comm ..)

/-- Writing items mirrors writing the renamed items. -/
theorem mirrors_write (items : List ω) :
    Mirrors ρ d item id (Emit.write items) (Emit.write (items.map item)) where
  grows s := s.le_refl
  renamed _ _ := ⟨rfl, rfl, rfl⟩

/-- What is reported does not matter. -/
theorem mirrors_reportAll (es es' : List Event) :
    Mirrors ρ d item id (Emit.reportAll es : Emit ω Unit) (Emit.reportAll es') where
  grows s := s.le_refl
  renamed _ _ := ⟨rfl, rfl, rfl⟩

/-- What a step would have emitted is handed over under other names. -/
theorem Mirrors.collect {ω' : Type} {item' : ω' → ω'} {x y : Emit ω α}
    (h : Mirrors ρ d item φ x y) :
    Mirrors ρ d item' (fun p => (p.1.map item, φ p.2)) (Emit.collect x) (Emit.collect y) where
  grows := h.grows
  renamed s hmoves := by
    obtain ⟨hvalue, hcode, hsupply⟩ := h.renamed s hmoves
    exact ⟨Prod.ext hcode hvalue, rfl, hsupply⟩

variable {ε : Type}

theorem tracks_pure (a : α) :
    Tracks ρ d item φ (pure a : ExceptT ε (Emit ω) α) (pure (φ a)) :=
  mirrors_pure (Except.ok a : Except ε α)

theorem tracks_pure_of_eq {a b : α} (h : φ a = b) :
    Tracks ρ d item φ (pure a : ExceptT ε (Emit ω) α) (pure b) := h ▸ tracks_pure a

/-- An outcome without names. -/
theorem tracks_outcome (r : Except ε α) :
    Tracks ρ d item id (ExceptT.mk (pure r) : ExceptT ε (Emit ω) α) (ExceptT.mk (pure r)) := by
  cases r with
  | error e => exact mirrors_pure (Except.error e : Except ε α)
  | ok a => exact mirrors_pure (Except.ok a : Except ε α)

/-- A failure tracks the same failure. -/
theorem tracks_throw (e : ε) :
    Tracks ρ d item φ (throw e : ExceptT ε (Emit ω) α) (throw e) :=
  mirrors_pure (Except.error e : Except ε α)

/-- Steps that mirror each other track each other where steps may fail. -/
theorem Mirrors.lift {x y : Emit ω α} (h : Mirrors ρ d item φ x y) :
    Tracks ρ d item φ (ExceptT.lift x : ExceptT ε (Emit ω) α) (ExceptT.lift y) := by
  rw [Tracks, ExceptT.run_lift, ExceptT.run_lift, map_eq_pure_bind, map_eq_pure_bind]
  exact h.bind fun a => mirrors_pure (Except.ok a : Except ε α)

/-- A step that is left out in both cases or in none. -/
theorem tracks_when {p q : Prop} [Decidable p] [Decidable q] (h : q ↔ p)
    {x y : ExceptT ε (Emit ω) Unit} (hxy : Tracks ρ d item id x y) :
    Tracks ρ d item id (if p then x else pure ()) (if q then y else pure ()) := by
  by_cases hp : p
  · rw [if_pos hp, if_pos (h.mpr hp)]
    exact hxy
  · rw [if_neg hp, if_neg fun hq => hp (h.mp hq)]
    exact tracks_pure ()

/-- One step after another, up to the first one that fails. -/
theorem Tracks.bind {x y : ExceptT ε (Emit ω) α} {f g : α → ExceptT ε (Emit ω) β}
    (hx : Tracks ρ d item φ x y) (hf : ∀ a, Tracks ρ d item ψ (f a) (g (φ a))) :
    Tracks ρ d item ψ (x >>= f) (y >>= g) := by
  refine Mirrors.bind (f := ExceptT.bindCont f) (g := ExceptT.bindCont g) hx fun r => ?_
  cases r with
  | error e => exact mirrors_pure (Except.error e : Except ε β)
  | ok a => exact hf a

/-- Steps along a list track each other if each of them does. By induction on the list. -/
theorem tracks_mapM {γ : Type} {f : γ → ExceptT ε (Emit ω) α} {χ : γ → γ}
    (hf : ∀ c, Tracks ρ d item φ (f c) (f (χ c))) (cs : List γ) :
    Tracks ρ d item (List.map φ) (cs.mapM f) ((cs.map χ).mapM f) := by
  induction cs with
  | nil => exact tracks_pure []
  | cons c cs ih =>
    rw [List.map_cons, List.mapM_cons, List.mapM_cons]
    exact (hf c).bind fun a => ih.bind fun as => tracks_pure (a :: as)

end Steps

end MmixBackend
