import MmixBackend.Proofs.CompileRenamed

/-!
# The code does not depend on the supply

A function is compiled from two supplies that are past its own names, or a list of functions is
compiled in two orders. Each function comes out with the same instructions on the same registers;
only the numbers of fresh temporaries and labels are others, and they are in the same order.

The two runs need not be ahead of each other in temporaries and labels alike. So both are compared
with a third one, from a supply that is ahead of neither: what was handed out by both is left alone,
and all other names are moved up.

* **`Code.Corresponds`** — the same code with other fresh names.
* **`Renaming.carry`** — from the fresh names of one run to those of the other.
* **`compileFunctions_cases`** — a list of functions, one after the other.
* **`output_independent_of_supply`** — one function, and functions in any order.
-/

namespace MmixBackend

-- ── The names in code ────────────────────────────────────────────────────────

/-- The labels that an operation mentions. -/
def Operation.labels : Operation → List Label
  | .loadAddress l => [l]
  | .branchNonZero target => [target]
  | .jump target => [target]
  | .call _ f => [f]
  | _ => []

/-- The labels that an instruction mentions. -/
def Instr.labels : Instr → List Label
  | .label l => [l]
  | .move op _ _ => op.labels
  | .oper op _ _ jumps _ => op.labels ++ jumps

namespace Code

/-- The temporaries of a function. -/
def temps (code : Code) : List Temp :=
  code.frame.result :: code.frame.pointer :: code.instrs.flatMap fun i => i.uses ++ i.defs

/-- The labels of a function. -/
def labels (code : Code) : List Label :=
  code.frame.label :: code.entry :: code.exit :: code.instrs.flatMap Instr.labels

/-- The second code is the first one with other names for what is handed out from `s` on. They are
    handed out from `s'` on, and they are in the same order. -/
structure Corresponds (s s' : Supply) (ρ : Renaming) (code code' : Code) : Prop where
  own : ρ.Fixes s
  freshTemps : ∀ t ∈ code.temps, s.temps ≤ t.index → s'.temps ≤ (ρ.temp t).index
  freshLabels : ∀ i, .fresh i ∈ code.labels → s.labels ≤ i →
    ∃ j, s'.labels ≤ j ∧ ρ.label (.fresh i) = .fresh j
  orderTemps : ∀ t ∈ code.temps, ∀ u ∈ code.temps, compare (ρ.temp t) (ρ.temp u) = compare t u
  orderLabels : ∀ l ∈ code.labels, ∀ m ∈ code.labels,
    compare (ρ.label l) (ρ.label m) = compare l m
  frame : code'.frame = code.frame
  instrs : code'.instrs = code.instrs.map (Instr.rename ρ)
  entry : code'.entry = ρ.label code.entry
  exit : code'.exit = ρ.label code.exit
  /-- Each operand is in the same register. -/
  registers : ∀ i ∈ code.instrs, ∀ t, Spill.Touches t i →
    ∃ r, code.registers[t]? = some r ∧ code'.registers[ρ.temp t]? = some r
  /-- With the registers filled in, only the labels are others. -/
  texts : ∀ i ∈ code.instrs,
    (i.rename ρ).render code'.registers = (i.rename { ρ with temp := id }).render code.registers
  spillSize : code'.spillSize = code.spillSize
  frameSize : code'.frameSize = code.frameSize

end Code

variable {ρ σ τ : Renaming} {k : Nat} {s s' s₀ d d' : Supply} {f : Tree.Function}

-- ── One renaming after another ───────────────────────────────────────────────

/-- Renaming an operation twice is renaming it once. -/
theorem Operation.rename_rename (hlabel : ∀ l, σ.label (ρ.label l) = τ.label l) (op : Operation) :
    (op.rename ρ).rename σ = op.rename τ := by
  cases op <;> simp [Operation.rename, hlabel]

/-- Renaming an instruction twice is renaming it once. -/
theorem Instr.rename_rename (htemp : ∀ t, σ.temp (ρ.temp t) = τ.temp t)
    (hlabel : ∀ l, σ.label (ρ.label l) = τ.label l) (i : Instr) :
    (i.rename ρ).rename σ = i.rename τ := by
  have htemps : σ.temp ∘ ρ.temp = τ.temp := funext htemp
  have hlabels : σ.label ∘ ρ.label = τ.label := funext hlabel
  cases i with
  | label l => exact congrArg Instr.label (hlabel l)
  | move op dst src =>
      simp only [Instr.rename, Operation.rename_rename hlabel, htemp]
  | oper op uses defs jumps falls =>
      simp only [Instr.rename, Operation.rename_rename hlabel, List.map_map, htemps, hlabels]

theorem Operation.labels_rename (op : Operation) :
    (op.rename ρ).labels = op.labels.map ρ.label := by
  cases op <;> rfl

theorem Instr.labels_rename (i : Instr) : (i.rename ρ).labels = i.labels.map ρ.label := by
  cases i <;> simp [Instr.rename, Instr.labels, Operation.labels_rename]

/-- What an instruction mentions under other names is another name of what it mentioned. -/
theorem Instr.touched_rename {i : Instr} {t : Temp} (h : Spill.Touches t (i.rename ρ)) :
    ∃ u, Spill.Touches u i ∧ ρ.temp u = t := by
  rw [Spill.Touches, Instr.uses_rename, Instr.defs_rename, List.mem_map, List.mem_map] at h
  rcases h with ⟨u, hu, rfl⟩ | ⟨u, hu, rfl⟩
  · exact ⟨u, .inl hu, rfl⟩
  · exact ⟨u, .inr hu, rfl⟩

namespace Code

/-- The temporaries of renamed code are renamed. -/
theorem temps_rename (code : Code) : (code.rename ρ).temps = code.temps.map ρ.temp := by
  simp [temps, rename, Frame.rename, List.flatMap_map, List.map_flatMap]

/-- The labels of renamed code are renamed. -/
theorem labels_rename (code : Code) : (code.rename ρ).labels = code.labels.map ρ.label := by
  simp [labels, rename, Frame.rename, List.flatMap_map, List.map_flatMap, Instr.labels_rename]

end Code

-- ── Texts ────────────────────────────────────────────────────────────────────

/-- A template is filled in alike if its operands are written alike. -/
theorem fillTemplate_map {name name' : Temp → String} {g : Temp → Temp} {uses defs : List Temp}
    (h : ∀ t, t ∈ uses ∨ t ∈ defs → name' (g t) = name t) (template : String) :
    fillTemplate name' template (uses.map g) (defs.map g) =
      fillTemplate name template uses defs := by
  have hlist : ∀ ts : List Temp, (∀ t ∈ ts, name' (g t) = name t) → ∀ i : Nat,
      ((ts.map g)[i]?).map name' = (ts[i]?).map name := by
    intro ts hts i
    rw [List.getElem?_map]
    cases ht : ts[i]? with
    | none => rfl
    | some t => exact congrArg some (hts t (List.mem_of_getElem? ht))
  have hfill : Piece.fill? name' (uses.map g) (defs.map g) = Piece.fill? name uses defs := by
    funext p
    cases p with
    | char c => rfl
    | source i => exact hlist uses (fun t ht => h t (.inl ht)) i
    | target i => exact hlist defs (fun t ht => h t (.inr ht)) i
  rw [fillTemplate, hfill, fillTemplate]

/-- Instructions whose operands have the same registers are written the same, but for their
    labels. -/
theorem Instr.render_rename {registers registers' : TempMap Nat} {i : Instr}
    (h : ∀ t, Spill.Touches t i → ∃ r, registers[t]? = some r ∧ registers'[ρ.temp t]? = some r) :
    (i.rename ρ).render registers' = (i.rename { ρ with temp := id }).render registers := by
  have hop : ∀ op : Operation, op.rename { ρ with temp := id } = op.rename ρ := by
    intro op
    cases op <;> rfl
  have htext : ∀ t, t ∈ i.uses ∨ t ∈ i.defs →
      operandText registers' (ρ.temp t) = operandText registers t := by
    intro t ht
    obtain ⟨r, hr, hr'⟩ := h t ht
    rw [operandText, operandText, hr, hr']
  cases i with
  | label l => rfl
  | move op dst src =>
      simp only [rename, render, hop]
      exact fillTemplate_map htext _
  | oper op uses defs jumps falls =>
      simp only [rename, render, hop, List.map_id]
      exact fillTemplate_map htext _

-- ── From one run to another ──────────────────────────────────────────────────

namespace Renaming

/-- Moves all numbers but the first `n` so that `n` comes to be `m`. -/
def carryIndex (n m i : Nat) : Nat := if i < n then i else i - n + m

theorem carryIndex_of_lt {n m i : Nat} (h : i < n) : carryIndex n m i = i := if_pos h

/-- From one shift of the numbers to another. -/
theorem carryIndex_shiftIndex (n d d' i : Nat) :
    carryIndex (n + d) (n + d') (shiftIndex n d i) = shiftIndex n d' i := by
  simp only [carryIndex, shiftIndex]
  grind

/-- What is handed out by the first run is handed out by the second one. -/
theorem le_shiftIndex {n d d' m m' i : Nat} (hle : n ≤ m) (hm' : m' ≤ n + d')
    (h : m ≤ shiftIndex n d i) : m' ≤ shiftIndex n d' i := by
  simp only [shiftIndex] at *
  grind

/-- From what is handed out from `s` on to what is handed out from `s'` on. -/
def carry (s s' : Supply) : Renaming where
  temp t := ⟨carryIndex s.temps s'.temps t.index⟩
  label
    | .named name => .named name
    | .fresh index => .fresh (carryIndex s.labels s'.labels index)

/-- What was handed out before keeps its name. -/
theorem carry_fixes (s s' : Supply) : (carry s s').Fixes s where
  temp t ht := congrArg Temp.mk (carryIndex_of_lt ht)
  label l hl := by
    cases l with
    | named name => rfl
    | fresh index => exact congrArg Label.fresh (carryIndex_of_lt hl)

/-- From the temporaries after one supply to those after another. -/
theorem carry_shift_temp (s d d' : Supply) (t : Temp) :
    (carry (s.skip d.temps d.labels) (s.skip d'.temps d'.labels)).temp ((shift s d).temp t) =
      (shift s d').temp t := congrArg Temp.mk (carryIndex_shiftIndex ..)

/-- From the labels after one supply to those after another. -/
theorem carry_shift_label (s d d' : Supply) (l : Label) :
    (carry (s.skip d.temps d.labels) (s.skip d'.temps d'.labels)).label ((shift s d).label l) =
      (shift s d').label l := by
  cases l with
  | named name => rfl
  | fresh index => exact congrArg Label.fresh (carryIndex_shiftIndex ..)

end Renaming

open Renaming

/-- Two runs that do what a third one does, each under names that are further on. -/
theorem Code.corresponds_shifted {code : Code} (hf : f.Below s₀) (hframe : code.frame = f.frame)
    (hregisters : ∀ i ∈ code.instrs, ∀ t, Spill.Touches t i → t ∈ code.registers) (hle : s₀ ≤ s)
    (hd : s ≤ s₀.skip d.temps d.labels) (hd' : s' ≤ s₀.skip d'.temps d'.labels) :
    Corresponds s s' (carry (s₀.skip d.temps d.labels) (s₀.skip d'.temps d'.labels))
      (code.rename (shift s₀ d)) (code.rename (shift s₀ d')) := by
  have htemp := carry_shift_temp s₀ d d'
  have hlabel := carry_shift_label s₀ d d'
  have hsame : ∀ e : Supply, (code.rename (shift s₀ e)).frame = f.frame := by
    intro e
    show code.frame.rename (shift s₀ e) = f.frame
    rw [hframe]
    exact hf.frame_rename (shift_fixes s₀ e)
  -- each operand comes from one of the third run, whose register both have kept
  have hoperands : ∀ i ∈ (code.rename (shift s₀ d)).instrs, ∀ t, Spill.Touches t i →
      ∃ r, (code.rename (shift s₀ d)).registers[t]? = some r ∧
        (code.rename (shift s₀ d')).registers[(carry (s₀.skip d.temps d.labels)
          (s₀.skip d'.temps d'.labels)).temp t]? = some r := by
    intro i hi t ht
    obtain ⟨j, hj, rfl⟩ := List.mem_map.mp hi
    obtain ⟨u, hu, rfl⟩ := Instr.touched_rename ht
    obtain ⟨r, hr⟩ := Option.isSome_iff_exists.mp
      (Std.ExtTreeMap.mem_iff_isSome_getElem?.mp (hregisters j hj u hu))
    rw [htemp]
    exact ⟨r, getElem?_imageMap.trans (congrArg (Option.map id) hr),
      getElem?_imageMap.trans (congrArg (Option.map id) hr)⟩
  refine
    { own := (carry_fixes ..).mono hd
      freshTemps := ?_
      freshLabels := ?_
      orderTemps := ?_
      orderLabels := ?_
      frame := (hsame d').trans (hsame d).symm
      instrs := ?_
      entry := (hlabel code.entry).symm
      exit := (hlabel code.exit).symm
      registers := hoperands
      texts := fun i hi => Instr.render_rename (hoperands i hi)
      spillSize := rfl
      frameSize := ?_ }
  · rw [temps_rename]
    intro t ht hfresh
    obtain ⟨u, -, rfl⟩ := List.mem_map.mp ht
    rw [htemp]
    exact le_shiftIndex hle.1 hd'.1 hfresh
  · rw [labels_rename]
    intro i hi hfresh
    obtain ⟨l, -, hl⟩ := List.mem_map.mp hi
    rw [← hl, hlabel]
    cases l with
    | named name => cases hl
    | fresh index =>
        rw [← Label.fresh.inj hl] at hfresh
        exact ⟨_, le_shiftIndex hle.2 hd'.2 hfresh, rfl⟩
  · rw [temps_rename]
    intro t ht u hu
    obtain ⟨t, -, rfl⟩ := List.mem_map.mp ht
    obtain ⟨u, -, rfl⟩ := List.mem_map.mp hu
    rw [htemp, htemp, KeepsOrder.compare_eq, KeepsOrder.compare_eq]
  · rw [labels_rename]
    intro l hl m hm
    obtain ⟨l, -, rfl⟩ := List.mem_map.mp hl
    obtain ⟨m, -, rfl⟩ := List.mem_map.mp hm
    rw [hlabel, hlabel, KeepsOrder.compare_eq, KeepsOrder.compare_eq]
  · show code.instrs.map _ = (code.instrs.map _).map _
    rw [List.map_map]
    exact List.map_congr_left fun i _ => (Instr.rename_rename htemp hlabel i).symm
  · rw [frameSize, frameSize, hsame, hsame]
    rfl

-- ── Functions one after the other ────────────────────────────────────────────

section Functions

variable {ω : Type} {fs : List Tree.Function}

/-- If the first function is refused, all of them are. -/
theorem compileFunctions_of_error {e : Error}
    (h : ((f.compile k : ExceptT Error (Emit ω) Code).run.run s).value = .error e) :
    ((compileFunctions k (f :: fs) : ExceptT Error (Emit ω) (List Code)).run.run s).value =
      .error e := by
  rw [compileFunctions, Emit.run_bind_except, h]

/-- Behind a function, the others are compiled with the supply that it leaves. -/
theorem compileFunctions_of_ok {code : Code}
    (h : ((f.compile k : ExceptT Error (Emit ω) Code).run.run s).value = .ok code) :
    ((compileFunctions k (f :: fs) : ExceptT Error (Emit ω) (List Code)).run.run s).value =
      ((compileFunctions k fs : ExceptT Error (Emit ω) (List Code)).run.run
        ((f.compile k : ExceptT Error (Emit ω) Code).run.run s).supply).value.map (code :: ·) := by
  rw [compileFunctions, Emit.run_bind_except, h]
  dsimp only
  rw [Emit.run_bind_except]
  cases ((compileFunctions k fs : ExceptT Error (Emit ω) (List Code)).run.run
    ((f.compile k : ExceptT Error (Emit ω) Code).run.run s).supply).value with
  | error e => rfl
  | ok codes => rfl

/-- Functions that are compiled one after the other come out as each of them does from the supply
    `s₀`, under names that are further on; or one of them is refused. -/
theorem compileFunctions_cases (hk : 2 ≤ k) (hmax : k ≤ maxRegisters) (hle : s₀ ≤ s)
    (hfs : ∀ f ∈ fs, f.Below s₀ ∧ f.HasRoom k s₀) :
    ((∃ f ∈ fs, ∃ e, ((f.compile k : ExceptT Error (Emit ω) Code).run.run s₀).value = .error e) ∧
      ∃ dst, ((compileFunctions k fs : ExceptT Error (Emit ω) (List Code)).run.run s).value =
        .error (.badDestination dst)) ∨
    ((∀ f ∈ fs, ∃ code, ((f.compile k : ExceptT Error (Emit ω) Code).run.run s₀).value =
        .ok code) ∧
      ∃ codes, ((compileFunctions k fs : ExceptT Error (Emit ω) (List Code)).run.run s).value =
          .ok codes ∧ codes.length = fs.length ∧
        ∀ (i : Nat) (f : Tree.Function), fs[i]? = some f → ∃ (code : Code) (d : Supply),
          ((f.compile k : ExceptT Error (Emit ω) Code).run.run s₀).value = .ok code ∧
            s ≤ s₀.skip d.temps d.labels ∧ codes[i]? = some (code.rename (shift s₀ d))) := by
  induction fs generalizing s with
  | nil =>
      refine .inr ⟨List.forall_mem_nil _, [], rfl, rfl, fun i f hi => ?_⟩
      rw [List.getElem?_nil] at hi
      cases hi
  | cons f fs ih =>
      obtain ⟨⟨hf, hroom⟩, hfs⟩ := List.forall_mem_cons.mp hfs
      -- the functions before have handed out `d` names since `s₀`
      obtain ⟨d, rfl⟩ := Supply.exists_skip hle
      obtain ⟨hvalue, hgrows⟩ := Tree.Function.compile_shifted (ω := ω) hk hmax hf hroom d
      rcases Tree.Function.compile_ends (ω := ω) hk hmax hf hroom with
        ⟨dst, herror⟩ | ⟨code, hok, -⟩
      · rw [herror] at hvalue
        exact .inl ⟨⟨f, List.mem_cons_self, _, herror⟩, dst, compileFunctions_of_error hvalue⟩
      · rw [hok] at hvalue
        rcases ih (Supply.le_trans hle hgrows) hfs with
          ⟨⟨g, hg, e, herror⟩, dst, hrest⟩ | ⟨hall, codes, hrest, hlength, hcodes⟩
        · refine .inl ⟨⟨g, List.mem_cons_of_mem _ hg, e, herror⟩, dst, ?_⟩
          rw [compileFunctions_of_ok hvalue, hrest]
          rfl
        · refine .inr ⟨List.forall_mem_cons.mpr ⟨⟨code, hok⟩, hall⟩,
            code.rename (shift s₀ d) :: codes, ?_, congrArg (· + 1) hlength, ?_⟩
          · rw [compileFunctions_of_ok hvalue, hrest]
            rfl
          · intro i g hi
            cases i with
            | zero =>
                obtain rfl : f = g := Option.some.inj hi
                exact ⟨code, d, hok, Supply.le_refl _, rfl⟩
            | succ i =>
                obtain ⟨code', d', hok', hle', hi'⟩ := hcodes i g hi
                exact ⟨code', d', hok', Supply.le_trans hgrows hle', hi'⟩

end Functions

/-- A function that is compiled from one supply is compiled alike from all that are further on. -/
theorem Tree.Function.corresponds_of_ok {ω : Type} {code : Code} (hk : 2 ≤ k)
    (hmax : k ≤ maxRegisters) (hf : f.Below s₀) (hroom : f.HasRoom k s₀)
    (hok : ((f.compile k : ExceptT Error (Emit ω) Code).run.run s₀).value = .ok code)
    (hle : s₀ ≤ s) (hd : s ≤ s₀.skip d.temps d.labels) (hd' : s' ≤ s₀.skip d'.temps d'.labels) :
    Code.Corresponds s s' (carry (s₀.skip d.temps d.labels) (s₀.skip d'.temps d'.labels))
      (code.rename (shift s₀ d)) (code.rename (shift s₀ d')) := by
  rcases compile_ends (ω := ω) hk hmax hf hroom with
    ⟨dst, herror⟩ | ⟨code', hok', hframe, hregisters⟩
  · cases hok.symm.trans herror
  · obtain rfl := Except.ok.inj (hok.symm.trans hok')
    exact Code.corresponds_shifted hf hframe hregisters hle hd hd'

/-- What holds of two supplies holds of one that is ahead of neither. -/
theorem Tree.Function.admissible_inf {s₁ s₂ : Supply}
    (h : f.Below s₁ ∧ f.Below s₂ ∧ f.HasRoom k s₁) :
    f.Below (s₁.inf s₂) ∧ f.HasRoom k (s₁.inf s₂) := by
  obtain ⟨h₁, h₂, hroom⟩ := h
  obtain ⟨d, hd⟩ := Supply.exists_skip (s₁.inf_le_left s₂)
  rw [← hd] at hroom
  exact ⟨h₁.inf h₂, hroom.back (h₁.inf h₂)⟩

/-- **The code does not depend on the supply.** Let there be 2 to 251 registers, and let a function
    be compiled from two supplies that are past every temporary and fresh label in it, where as many
    slots have a distance as there are temporaries that may be spilled. Both times the function is
    refused for the same move without a destination, or both times it is compiled. Then the codes
    correspond: a renaming that leaves alone what was handed out before and keeps the order of the
    names in the code takes one list of instructions to the other, with each operand in the same
    register, and the spill slots and the frames take the same number of bytes.

    So if a list of functions is compiled in two orders, either both runs refuse a function, or each
    function has corresponding codes in both. -/
theorem output_independent_of_supply {ω : Type} (k : Nat) (hk : 2 ≤ k) (hmax : k ≤ 251)
    (s₁ s₂ : Supply) :
    (∀ f : Tree.Function, f.Below s₁ ∧ f.Below s₂ ∧ f.HasRoom k s₁ →
      let r₁ := (f.compile k : ExceptT Error (Emit ω) Code).run.run s₁
      let r₂ := (f.compile k : ExceptT Error (Emit ω) Code).run.run s₂
      (∃ dst, r₁.value = .error (.badDestination dst) ∧ r₂.value = .error (.badDestination dst)) ∨
        ∃ (code₁ code₂ : Code) (ρ : Renaming), r₁.value = .ok code₁ ∧ r₂.value = .ok code₂ ∧
          code₁.Corresponds s₁ s₂ ρ code₂) ∧
    ∀ fs gs : List Tree.Function, fs.Perm gs →
      (∀ f ∈ fs, f.Below s₁ ∧ f.Below s₂ ∧ f.HasRoom k s₁) →
      let r₁ := (compileFunctions k fs : ExceptT Error (Emit ω) (List Code)).run.run s₁
      let r₂ := (compileFunctions k gs : ExceptT Error (Emit ω) (List Code)).run.run s₂
      (∃ dst₁ dst₂, r₁.value = .error (.badDestination dst₁) ∧
          r₂.value = .error (.badDestination dst₂)) ∨
        ∃ codes₁ codes₂, r₁.value = .ok codes₁ ∧ r₂.value = .ok codes₂ ∧
          codes₁.length = fs.length ∧ codes₂.length = gs.length ∧
          ∀ (i j : Nat) (f : Tree.Function), fs[i]? = some f → gs[j]? = some f →
            ∃ (code₁ code₂ : Code) (ρ : Renaming), codes₁[i]? = some code₁ ∧
              codes₂[j]? = some code₂ ∧ code₁.Corresponds s₁ s₂ ρ code₂ := by
  -- both runs are compared with one that starts below both supplies
  have hle₁ := s₁.inf_le_left s₂
  have hle₂ := s₁.inf_le_right s₂
  refine ⟨?_, ?_⟩
  · intro f hf r₁ r₂
    obtain ⟨hbelow, hroom⟩ := Tree.Function.admissible_inf hf
    obtain ⟨d₁, hd₁⟩ := Supply.exists_skip hle₁
    obtain ⟨d₂, hd₂⟩ := Supply.exists_skip hle₂
    have hvalue₁ := (Tree.Function.compile_shifted (ω := ω) hk hmax hbelow hroom d₁).1
    have hvalue₂ := (Tree.Function.compile_shifted (ω := ω) hk hmax hbelow hroom d₂).1
    rw [hd₁] at hvalue₁
    rw [hd₂] at hvalue₂
    rcases Tree.Function.compile_ends (ω := ω) hk hmax hbelow hroom with
      ⟨dst, herror⟩ | ⟨code, hok, -⟩
    · rw [herror] at hvalue₁ hvalue₂
      exact .inl ⟨dst, hvalue₁, hvalue₂⟩
    · rw [hok] at hvalue₁ hvalue₂
      exact .inr ⟨_, _, _, hvalue₁, hvalue₂, Tree.Function.corresponds_of_ok hk hmax hbelow hroom
        hok hle₁ (Supply.le_of_eq hd₁.symm) (Supply.le_of_eq hd₂.symm)⟩
  · intro fs gs hperm hfs r₁ r₂
    have hbase : ∀ f ∈ fs, f.Below (s₁.inf s₂) ∧ f.HasRoom k (s₁.inf s₂) := fun f hf =>
      Tree.Function.admissible_inf (hfs f hf)
    rcases compileFunctions_cases (ω := ω) hk hmax hle₁ hbase with
      ⟨⟨f, hf, e, herror⟩, dst₁, hr₁⟩ | ⟨hall, codes₁, hr₁, hlength₁, hcodes₁⟩ <;>
    rcases compileFunctions_cases (ω := ω) hk hmax hle₂ fun f hf => hbase f (hperm.mem_iff.mpr hf)
      with ⟨⟨g, hg, e', herror'⟩, dst₂, hr₂⟩ | ⟨hall', codes₂, hr₂, hlength₂, hcodes₂⟩
    · exact .inl ⟨dst₁, dst₂, hr₁, hr₂⟩
    · -- cannot be: the second run has compiled the function that the first one refuses
      obtain ⟨code, hok⟩ := hall' f (hperm.mem_iff.mp hf)
      cases hok.symm.trans herror
    · obtain ⟨code, hok⟩ := hall g (hperm.mem_iff.mpr hg)
      cases hok.symm.trans herror'
    · refine .inr ⟨codes₁, codes₂, hr₁, hr₂, hlength₁, hlength₂, fun i j f hi hj => ?_⟩
      obtain ⟨hbelow, hroom⟩ := hbase f (List.mem_of_getElem? hi)
      obtain ⟨code, d₁, hok, hd₁, hi⟩ := hcodes₁ i f hi
      obtain ⟨code', d₂, hok', hd₂, hj⟩ := hcodes₂ j f hj
      obtain rfl := Except.ok.inj (hok.symm.trans hok')
      exact ⟨_, _, _, hi, hj,
        Tree.Function.corresponds_of_ok hk hmax hbelow hroom hok hle₁ hd₁ hd₂⟩

section Swapped

open Source

/-- The tree of a function that sets its result. -/
def settingTree : Tree.Function where
  frame := halvingScope.frame
  body := .move (.temp ⟨0⟩) (.const 7)

/-- Its instructions. -/
def settingCode : Code where
  frame := halvingScope.frame
  entry := .fresh 3
  exit := .fresh 4
  instrs := [.label (.fresh 3), .plain (.setLow 7) [] [⟨0⟩], .jump (.fresh 4)]

theorem waitingTree_below (ht : 2 ≤ s.temps) (hl : 3 ≤ s.labels) : waitingTree.Below s := by
  refine ⟨trivial, ?_, ?_, ?_⟩
  · exact Nat.lt_of_lt_of_le Nat.zero_lt_two ht
  · exact ht
  · simp only [waitingTree, Tree.Stmt.Below, Tree.Expr.Below, Tree.StmtsBelow, Label.Below,
      true_and, and_true]
    omega

theorem settingTree_below (ht : 2 ≤ s.temps) : settingTree.Below s :=
  have hresult : 0 < s.temps := Nat.lt_of_lt_of_le Nat.zero_lt_two ht
  ⟨trivial, hresult, ht, hresult, trivial⟩

/-- A function alone and together with another one, in both orders. -/
theorem output_independent_of_supply_swapped :
    let s₁ : Supply := { temps := 2, labels := 3 }
    let s₂ : Supply := { temps := 9, labels := 20 }
    (∃ (code₁ code₂ : Code) (ρ : Renaming),
      ((waitingTree.compile 2 : ExceptT Error (Emit Flat.Stmt) Code).run.run s₁).value =
        .ok code₁ ∧
      ((waitingTree.compile 2 : ExceptT Error (Emit Flat.Stmt) Code).run.run s₂).value =
        .ok code₂ ∧ code₁.Corresponds s₁ s₂ ρ code₂) ∧
    ∃ (codes₁ codes₂ : List Code) (code₁ code₂ : Code) (ρ : Renaming),
      ((compileFunctions 2 [waitingTree, settingTree] :
        ExceptT Error (Emit Flat.Stmt) (List Code)).run.run s₁).value = .ok codes₁ ∧
      ((compileFunctions 2 [settingTree, waitingTree] :
        ExceptT Error (Emit Flat.Stmt) (List Code)).run.run s₂).value = .ok codes₂ ∧
      codes₁[0]? = some code₁ ∧ codes₂[1]? = some code₂ ∧ code₁.Corresponds s₁ s₂ ρ code₂ := by
  intro s₁ s₂
  have hwaiting : ((waitingTree.instructions 2 : ExceptT Error (Emit Flat.Stmt) Code).run.run
      s₁).value = .ok waitingCode := by cbv
  have hsetting : ((settingTree.instructions 2 : ExceptT Error (Emit Flat.Stmt) Code).run.run
      s₁).value = .ok settingCode := by cbv
  have hslots : ∀ slot < 9, ∃ distance, halvingScope.frame.slotDistance slot = .ok distance := by
    have hok : ∀ slot < 9, (halvingScope.frame.slotDistance slot).isOk = true := by decide
    exact fun slot hslot => exists_ok_of_isOk (hok slot hslot)
  have hfs : ∀ f ∈ [waitingTree, settingTree], f.Below s₁ ∧ f.Below s₂ ∧ f.HasRoom 2 s₁ := by
    rw [List.forall_mem_cons, List.forall_mem_singleton]
    refine ⟨⟨waitingTree_below (by decide) (by decide), waitingTree_below (by decide) (by decide),
      ?_⟩, settingTree_below (by decide), settingTree_below (by decide), ?_⟩
    · exact Tree.Function.hasRoom_of_ok hwaiting (by decide +kernel) hslots
    · exact Tree.Function.hasRoom_of_ok hsetting (by decide +kernel) hslots
  have hok : ∀ f ∈ [waitingTree, settingTree], ∀ e,
      ((f.compile 2 : ExceptT Error (Emit Flat.Stmt) Code).run.run s₁).value ≠ .error e := by
    rw [List.forall_mem_cons, List.forall_mem_singleton]
    obtain ⟨⟨hfirst, -, hroom₁⟩, hsecond⟩ := List.forall_mem_cons.mp hfs
    obtain ⟨hsecond, -, hroom₂⟩ := List.forall_mem_singleton.mp hsecond
    obtain ⟨_, hfirst, -⟩ := Tree.Function.compile_of_ok (by decide) (by decide) hfirst hroom₁
      hwaiting
    obtain ⟨_, hsecond, -⟩ := Tree.Function.compile_of_ok (by decide) (by decide) hsecond hroom₂
      hsetting
    rw [hfirst, hsecond]
    exact ⟨(fun _ h => by cases h), fun _ h => by cases h⟩
  obtain ⟨hone, hmany⟩ := output_independent_of_supply (ω := Flat.Stmt) 2 (by decide) (by decide)
    s₁ s₂
  refine ⟨?_, ?_⟩
  · refine (hone waitingTree (hfs _ List.mem_cons_self)).resolve_left ?_
    rintro ⟨dst, herror, -⟩
    exact hok _ List.mem_cons_self _ herror
  · rcases hmany [waitingTree, settingTree] [settingTree, waitingTree] (.swap ..) hfs with
      ⟨dst₁, -, herror, -⟩ | ⟨codes₁, codes₂, h₁, h₂, -, -, hcodes⟩
    · rcases compileFunctions_cases (ω := Flat.Stmt) (k := 2) (by decide) (by decide) s₁.le_refl
        fun f hf => ⟨(hfs f hf).1, (hfs f hf).2.2⟩ with ⟨⟨f, hf, e, hrefused⟩, -⟩ | ⟨-, codes, h, -⟩
      · exact absurd hrefused (hok f hf e)
      · cases h.symm.trans herror
    · obtain ⟨code₁, code₂, ρ, hi, hj, hcode⟩ := hcodes 0 1 waitingTree rfl rfl
      exact ⟨codes₁, codes₂, code₁, code₂, ρ, h₁, h₂, hi, hj, hcode⟩

end Swapped

end MmixBackend
