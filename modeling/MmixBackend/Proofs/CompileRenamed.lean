import MmixBackend.Program
import MmixBackend.Proofs.AllocationRenamed
import MmixBackend.Proofs.FlattenRefusals
import MmixBackend.Proofs.FlattenRenamed
import MmixBackend.Proofs.LayoutRenamed
import MmixBackend.Proofs.RegisterCollision
import MmixBackend.Proofs.UninitializedReads

/-!
# Compiling under other names

A function whose names were handed out before is compiled from two supplies. Both times it is
refused for the same move, or it is compiled to the same code under other names.

All passes but the last one treat names alike whatever happens. Allocation also counts its attempts,
so it has to come to an end with registers first: the supply knows every temporary of the
instructions, and then allocation does not stall.

* **`temps_known`** — a renaming of nothing but unknown names changes nothing.
* **`compile_ends`** — a function is refused for a move, or it is compiled.
* **`compile_shifted`** — the same from a supply that is further on.
-/

namespace MmixBackend

variable {ρ : Renaming} {d s s₀ : Supply} {ω : Type} {item : ω → ω} {k : Nat} {f : Tree.Function}

-- ── Known temporaries ────────────────────────────────────────────────────────

namespace Flat

theorem Atom.temps_rename (a : Atom) : (a.rename ρ).temps = a.temps.map ρ.temp := by
  cases a <;> rfl

theorem Rhs.temps_rename (r : Rhs) : (r.rename ρ).temps = r.temps.map ρ.temp := by
  cases r <;> simp [Rhs.rename, Rhs.temps, Atom.temps_rename]

theorem Stmt.temps_rename (st : Stmt) : (st.rename ρ).temps = st.temps.map ρ.temp := by
  cases st with
  | label l => rfl
  | act a =>
      cases a <;> simp [Stmt.rename, Action.rename, Stmt.temps, Action.temps, Rhs.temps_rename,
        Atom.temps_rename]
  | transfer t => cases t <;> rfl

end Flat

namespace Tree.Function

/-- The flat form of a function after its blocks were laid out. -/
def laidOut (f : Tree.Function) : ExceptT Error (Emit ω) Flat.Function := do
  let flat ← Flat.Function.ofTree f
  ExceptT.lift flat.layOut

/-- Instructions are selected from the flat form that was laid out. -/
theorem instructions_eq (k : Nat) (f : Tree.Function) :
    (f.instructions k : ExceptT Error (Emit ω) Code) =
      f.laidOut >>= fun laid => ExceptT.lift (laid.select k) := (bind_assoc ..).symm

/-- The flat form that was laid out does not depend on the names that are handed out. -/
theorem tracks_laidOut [KeepsOrder ρ.temp] [KeepsOrder ρ.label] (hρ : ρ.Fixes s₀)
    (hf : f.Below s₀) :
    Tracks ρ d item (Flat.Function.rename ρ) (f.laidOut : ExceptT Error (Emit ω) _) f.laidOut :=
  (Flat.tracks_ofTree hρ hf).bind fun flat => flat.mirrors_layOut.lift

/-- Neither do the instructions selected from it. -/
theorem tracks_instructions [KeepsOrder ρ.temp] [KeepsOrder ρ.label] (hρ : ρ.Fixes s₀)
    (hf : f.Below s₀) :
    Tracks ρ d item (Code.rename ρ) (f.instructions k : ExceptT Error (Emit ω) _)
      (f.instructions k) := by
  rw [instructions_eq]
  exact (tracks_laidOut hρ hf).bind fun laid => (laid.mirrors_select k).lift

/-- Up to there names are only handed out. -/
theorem grows_laidOut (hf : f.Below s₀) (s : Supply) :
    s ≤ ((f.laidOut : ExceptT Error (Emit ω) _).run.run s).supply := by
  let ρ := Renaming.shift s₀ {}
  have htracks : Tracks ρ {} id (Flat.Function.rename ρ) (f.laidOut : ExceptT Error (Emit ω) _)
      f.laidOut := tracks_laidOut (Renaming.shift_fixes ..) hf
  exact htracks.grows s

/-- The supply knows every temporary of the flat code: if those it does not know are moved, the code
    stays the same. -/
theorem temps_known (hf : f.Below s) {laid : Flat.Function}
    (h : ((f.laidOut : ExceptT Error (Emit ω) _).run.run s).value = .ok laid) :
    ∀ st ∈ laid.stmts, ∀ t ∈ st.temps,
      t.index < ((f.laidOut : ExceptT Error (Emit ω) _).run.run s).supply.temps := by
  let s' := ((f.laidOut : ExceptT Error (Emit ω) _).run.run s).supply
  let ρ := Renaming.shift s' { temps := 1, labels := 1 }
  have hρ : ρ.Fixes s' := Renaming.shift_fixes ..
  have hle : s ≤ s' := grows_laidOut hf s
  have htracks : Tracks ρ {} id (Flat.Function.rename ρ) (f.laidOut : ExceptT Error (Emit ω) _)
      f.laidOut := tracks_laidOut (hρ.mono hle) hf
  have hsame : laid = laid.rename ρ := by
    have hvalue := (htracks.renamed s hρ.moves).value
    rw [h] at hvalue
    exact Except.ok.inj (h.symm.trans hvalue)
  intro st hst t ht
  have hstmts : laid.stmts.map (Flat.Stmt.rename ρ) = laid.stmts.map id :=
    (congrArg Flat.Function.stmts hsame).symm.trans (List.map_id _).symm
  have htemps : st.temps.map ρ.temp = st.temps.map id := by
    rw [← Flat.Stmt.temps_rename, List.map_inj_left.mp hstmts st hst, List.map_id]
    rfl
  exact Renaming.lt_of_shift_eq Nat.one_pos (List.map_inj_left.mp htemps t ht)

theorem frame_laidOut {laid : Flat.Function}
    (h : ((f.laidOut : ExceptT Error (Emit ω) _).run.run s).value = .ok laid) :
    laid.frame = f.frame := by
  rw [laidOut, Emit.run_bind_except, Flat.run_ofTree] at h
  cases hbody : ((Flat.stmt f.body).run.run (s.skip 0 2)).value with
  | error e =>
      rw [hbody] at h
      cases h
  | ok _ =>
      rw [hbody] at h
      dsimp only [Except.map] at h
      rw [ExceptT.run_lift, Emit.run_map] at h
      exact (congrArg Flat.Function.frame (Except.ok.inj h)).symm

/-- What instructions a function has does not depend on what is emitted around it. -/
theorem instructions_any (ω ω' : Type) (k : Nat) (f : Tree.Function) (s : Supply) :
    ((f.instructions k : ExceptT Error (Emit ω) Code).run.run s).value =
      ((f.instructions k : ExceptT Error (Emit ω') Code).run.run s).value := by
  rw [instructions, Emit.run_bind_except, Flat.run_ofTree, instructions, Emit.run_bind_except,
    Flat.run_ofTree]
  cases ((Flat.stmt f.body).run.run (s.skip 0 2)).value with
  | error e => rfl
  | ok _ => rfl

/-- Allocation can be started with the instructions of a function. -/
theorem progressing_instructions (hf : f.Below s) {code : Code}
    (h : ((f.instructions k : ExceptT Error (Emit ω) _).run.run s).value = .ok code) :
    code.frame = f.frame ∧
      Allocation.Progressing (Allocation.mk code {}).pending.size 1 ⟨code, {}⟩
        ((f.instructions k : ExceptT Error (Emit ω) _).run.run s).supply := by
  rw [instructions_eq, Emit.run_bind_except] at h ⊢
  cases hlaid : ((f.laidOut : ExceptT Error (Emit ω) _).run.run s).value with
  | error e =>
      rw [hlaid] at h
      cases h
  | ok laid =>
      have hle := grows_laidOut (ω := ω) hf s
      have hframe := frame_laidOut hlaid
      obtain ⟨hgrows, hcode⟩ := laid.modest_select (ω := ω) k (temps_known hf hlaid)
      rw [hlaid] at h
      dsimp only at h ⊢
      rw [ExceptT.run_lift, Emit.run_map] at h ⊢
      obtain rfl := Except.ok.inj h
      refine ⟨hframe, Allocation.progressing_start hcode ?_ ?_⟩
      · show laid.frame.result.index < _
        rw [hframe]
        exact hf.result.trans_le (hle.1.trans hgrows)
      · show laid.frame.pointer.index < _
        rw [hframe]
        exact hf.pointer.trans_le (hle.1.trans hgrows)

end Tree.Function

-- ── The start of allocation ──────────────────────────────────────────────────

namespace Allocation

variable {a a' : Allocation} {s' : Supply}

/-- Allocation keeps the frame. -/
theorem Rounds.frame (h : Rounds ω k a s a' s') : a'.code.frame = a.code.frame := by
  induction h with
  | colored _ => rfl
  | again _ _ hspill _ ih =>
      obtain ⟨-, -, hframe, -⟩ := spill_eq_ok hspill
      exact ih.trans hframe

/-- Whatever an instruction mentions has a register in the end. -/
theorem Rounds.registered (h : Rounds ω k a s a' s') :
    ∀ i ∈ a'.code.instrs, ∀ t, Spill.Touches t i → t ∈ a'.code.registers := by
  induction h with
  | @colored a _ hstuck =>
      intro i hi t ht
      obtain ⟨pc, hpc⟩ := List.getElem?_of_mem hi
      refine Attempt.mem_assignments hstuck (Code.mem_interference hpc ?_)
      exact ht.imp_right .inl
  | again _ _ _ _ ih => exact ih

variable [KeepsOrder ρ.temp]

theorem start_rename (code : Code) :
    (Allocation.mk code {}).rename ρ = ⟨code.rename ρ, {}⟩ := by
  have hslots : imageMap ρ.temp id (∅ : TempMap Nat) = ∅ := imageMap_empty
  have htemps : imageSet ρ.temp (∅ : TempSet) = ∅ := imageSet_empty
  rw [rename, Spills.rename, hslots, htemps]

/-- The temporaries that may be spilled are the same under their new names. -/
theorem pending_rename (a : Allocation) : (a.rename ρ).pending = imageSet ρ.temp a.pending := by
  have htemps : (a.rename ρ).code.frame.result ::
      (a.rename ρ).code.instrs.flatMap (fun i => i.uses ++ i.defs) =
        (a.code.frame.result :: a.code.instrs.flatMap fun i => i.uses ++ i.defs).map ρ.temp := by
    simp [rename, Code.rename, Frame.rename, List.flatMap_map, List.map_flatMap]
  have hmay : ∀ t, decide (ρ.temp t ≠ (a.rename ρ).code.frame.pointer ∧
      ρ.temp t ∉ (a.rename ρ).spills.temps) =
        decide (t ≠ a.code.frame.pointer ∧ t ∉ a.spills.temps) := fun t => decide_eq_decide.mpr
    (and_congr (not_congr Renaming.temp_eq_iff) (not_congr apply_mem_imageSet))
  rw [pending, htemps, ← imageSet_ofList]
  symm
  exact imageSet_filter hmay

end Allocation

-- ── Compiling ────────────────────────────────────────────────────────────────

namespace Tree.Function

/-- There is a distance that fits in a word for as many slots as there are temporaries that may be
    spilled. -/
def HasRoom (k : Nat) (s : Supply) (f : Tree.Function) : Prop :=
  ∀ code, ((f.instructions k : ExceptT Error (Emit Instr) Code).run.run s).value = .ok code →
    ∀ slot < (Allocation.mk code {}).pending.size, ∃ distance,
      f.frame.slotDistance slot = .ok distance

/-- There is room if the temporaries that may be spilled are at most `n` and `n` slots have a
    distance. -/
theorem hasRoom_of_ok {code : Code} {n : Nat}
    (h : ((f.instructions k : ExceptT Error (Emit ω) Code).run.run s).value = .ok code)
    (hsize : (Allocation.mk code {}).pending.size ≤ n)
    (hslots : ∀ slot < n, ∃ distance, f.frame.slotDistance slot = .ok distance) :
    f.HasRoom k s := by
  intro code' h' slot hslot
  obtain rfl := Except.ok.inj (h.symm.trans ((instructions_any ω Instr k f s).trans h'))
  exact hslots slot (hslot.trans_le hsize)

/-- The number of temporaries that may be spilled is the same for all supplies. -/
theorem HasRoom.back (hf : f.Below s₀) (h : f.HasRoom k (s₀.skip d.temps d.labels)) :
    f.HasRoom k s₀ := by
  let ρ := Renaming.shift s₀ d
  have htracks : Tracks ρ d id (Code.rename ρ) (f.instructions k : ExceptT Error (Emit Instr) Code)
      (f.instructions k) := tracks_instructions (Renaming.shift_fixes ..) hf
  intro code hcode slot hslot
  have hvalue := (htracks.renamed s₀ (Renaming.shift_moves s₀.le_refl)).value
  rw [hcode] at hvalue
  refine h _ hvalue slot ?_
  rw [← Allocation.start_rename, Allocation.pending_rename, size_imageSet]
  exact hslot

/-- Compiling a function selects its instructions, allocates registers and reports both. -/
theorem compile_eq (k : Nat) (f : Tree.Function) :
    (f.compile k : ExceptT Error (Emit ω) Code) = (do
      ExceptT.lift (Emit.report (.compiling f.frame.label))
      let selected ← f.instructions k
      let (outcome, done) ← ExceptT.lift (Allocation.allocate k { code := selected, spills := {} })
      ExceptT.mk (pure outcome)
      ExceptT.lift (Emit.report (.compiled f.frame.label done.code.instrs.length))
      return done.code) := by
  simp only [compile, instructions, bind_assoc]

/-- A report at the start changes neither what comes of the rest nor the names it takes. -/
theorem run_report_bind {α : Type} (event : Event) (x : ExceptT Error (Emit ω) α) (s : Supply) :
    ((ExceptT.lift (Emit.report event) >>= fun _ => x).run.run s).value = (x.run.run s).value ∧
      ((ExceptT.lift (Emit.report event) >>= fun _ => x).run.run s).supply =
        (x.run.run s).supply := ⟨rfl, rfl⟩

/-- If no instructions can be selected, compiling fails with the same error. -/
theorem compile_of_error {e : Error}
    (h : ((f.instructions k : ExceptT Error (Emit ω) Code).run.run s).value = .error e) :
    ((f.compile k : ExceptT Error (Emit ω) Code).run.run s).value = .error e ∧
      ((f.compile k : ExceptT Error (Emit ω) Code).run.run s).supply =
        ((f.instructions k : ExceptT Error (Emit ω) Code).run.run s).supply := by
  rw [compile_eq, (run_report_bind ..).1, (run_report_bind ..).2, Emit.run_bind_except, h]
  exact ⟨rfl, rfl⟩

/-- If attempts end with a register for every temporary, compiling succeeds with their code. -/
theorem compile_of_rounds {code : Code} {a : Allocation} {s' : Supply}
    (h : ((f.instructions k : ExceptT Error (Emit ω) Code).run.run s).value = .ok code)
    (hpos : 0 < ((f.instructions k : ExceptT Error (Emit ω) Code).run.run s).supply.temps)
    (hrounds : Allocation.Rounds ω k ⟨code, {}⟩
      ((f.instructions k : ExceptT Error (Emit ω) Code).run.run s).supply a s') :
    ((f.compile k : ExceptT Error (Emit ω) Code).run.run s).value = .ok a.code ∧
      ((f.compile k : ExceptT Error (Emit ω) Code).run.run s).supply = s' := by
  obtain ⟨hvalue, hsupply⟩ := hrounds.run (n := 1) hpos
  have hallocate : ((ExceptT.lift (Allocation.allocate k ⟨code, {}⟩) :
      ExceptT Error (Emit ω) _).run.run
        ((f.instructions k : ExceptT Error (Emit ω) Code).run.run s).supply).value =
      .ok (.ok (), a) := by
    rw [ExceptT.run_lift, Emit.run_map]
    exact congrArg Except.ok hvalue
  rw [compile_eq, (run_report_bind ..).1, (run_report_bind ..).2, Emit.run_bind_except, h]
  dsimp only
  rw [Emit.run_bind_except, hallocate]
  exact ⟨rfl, hsupply⟩

/-- Allocation of the instructions of a function does not stall. -/
theorem rounds_instructions (hk : 2 ≤ k) (hmax : k ≤ maxRegisters) (hf : f.Below s)
    (hroom : f.HasRoom k s) {code : Code}
    (h : ((f.instructions k : ExceptT Error (Emit ω) Code).run.run s).value = .ok code) :
    ∃ a s', Allocation.Rounds ω k ⟨code, {}⟩
      ((f.instructions k : ExceptT Error (Emit ω) Code).run.run s).supply a s' := by
  obtain ⟨hframe, hstart⟩ := progressing_instructions hf h
  rcases Allocation.attemptFrom_converges (ω := ω) hk (hmax.trans (by decide)) hstart with
    hok | ⟨slot, hslot, fault, herror, -⟩
  · exact ⟨_, _, Allocation.rounds_of_ok (Prod.ext hok rfl)⟩
  · obtain ⟨distance, hd⟩ := hroom code ((instructions_any Instr ω k f s).trans h) slot hslot
    rw [← hframe, herror] at hd
    cases hd

/-- A function that has instructions is compiled. Its code has its frame, and a register for
    whatever is mentioned. -/
theorem compile_of_ok (hk : 2 ≤ k) (hmax : k ≤ maxRegisters) (hf : f.Below s)
    (hroom : f.HasRoom k s) {code : Code}
    (h : ((f.instructions k : ExceptT Error (Emit ω) Code).run.run s).value = .ok code) :
    ∃ code', ((f.compile k : ExceptT Error (Emit ω) Code).run.run s).value = .ok code' ∧
      code'.frame = f.frame ∧
        ∀ i ∈ code'.instrs, ∀ t, Spill.Touches t i → t ∈ code'.registers := by
  obtain ⟨hframe, hstart⟩ := progressing_instructions hf h
  obtain ⟨a, s', hrounds⟩ := rounds_instructions hk hmax hf hroom h
  exact ⟨a.code, (compile_of_rounds h hstart.attempts hrounds).1, hrounds.frame.trans hframe,
    hrounds.registered⟩

/-- A function is refused for a move without a destination, or it is compiled. -/
theorem compile_ends (hk : 2 ≤ k) (hmax : k ≤ maxRegisters) (hf : f.Below s)
    (hroom : f.HasRoom k s) :
    (∃ dst, ((f.compile k : ExceptT Error (Emit ω) Code).run.run s).value =
        .error (.badDestination dst)) ∨
      ∃ code, ((f.compile k : ExceptT Error (Emit ω) Code).run.run s).value = .ok code ∧
        code.frame = f.frame ∧
          ∀ i ∈ code.instrs, ∀ t, Spill.Touches t i → t ∈ code.registers := by
  cases h : ((f.instructions k : ExceptT Error (Emit ω) Code).run.run s).value with
  | error e =>
      have hrefuses : Flat.Refuses (f.instructions k : ExceptT Error (Emit ω) Code)
          f.body.statements :=
        (Flat.refuses_ofTree f).andThen fun _ => (Flat.refuses_lift _).andThen fun _ =>
          Flat.refuses_lift _
      obtain ⟨dst, rfl⟩ := hrefuses.eq_badDestination h
      exact .inl ⟨dst, (compile_of_error h).1⟩
  | ok code => exact .inr (compile_of_ok hk hmax hf hroom h)

/-- **From a supply that is further on,** the outcome is the same under other names. -/
theorem compile_shifted (hk : 2 ≤ k) (hmax : k ≤ maxRegisters) (hf : f.Below s₀)
    (hroom : f.HasRoom k s₀) (d : Supply) :
    ((f.compile k : ExceptT Error (Emit ω) Code).run.run (s₀.skip d.temps d.labels)).value =
        ((f.compile k : ExceptT Error (Emit ω) Code).run.run s₀).value.map
          (Code.rename (.shift s₀ d)) ∧
      s₀.skip d.temps d.labels ≤ ((f.compile k : ExceptT Error (Emit ω) Code).run.run
        (s₀.skip d.temps d.labels)).supply := by
  let ρ := Renaming.shift s₀ d
  have htracks : Tracks ρ d id (Code.rename ρ) (f.instructions k : ExceptT Error (Emit ω) Code)
      (f.instructions k) := tracks_instructions (Renaming.shift_fixes ..) hf
  have hgrows := htracks.grows (s₀.skip d.temps d.labels)
  obtain ⟨hvalue, -, hsupply⟩ := htracks.renamed s₀ (Renaming.shift_moves s₀.le_refl)
  cases h : ((f.instructions k : ExceptT Error (Emit ω) Code).run.run s₀).value with
  | error e =>
      rw [h] at hvalue
      rw [(compile_of_error hvalue).1, (compile_of_error hvalue).2, (compile_of_error h).1]
      exact ⟨rfl, hgrows⟩
  | ok code =>
      obtain ⟨-, hstart⟩ := progressing_instructions hf h
      obtain ⟨a, s', hrounds⟩ := rounds_instructions hk hmax hf hroom h
      rw [h] at hvalue
      have hmoved : ρ.Moves d ((f.instructions k : ExceptT Error (Emit ω) Code).run.run s₀).supply
          s' := Renaming.shift_moves (htracks.grows s₀)
      have hrounds' := hrounds.rename hmoved
      rw [Allocation.start_rename, ← hsupply] at hrounds'
      have hpos : 0 < ((f.instructions k : ExceptT Error (Emit ω) Code).run.run
          (s₀.skip d.temps d.labels)).supply.temps := by
        rw [hsupply]
        exact Nat.lt_add_right _ hstart.attempts
      obtain ⟨hcompiled, hlast⟩ := compile_of_rounds hvalue hpos hrounds'
      rw [hcompiled, hlast, (compile_of_rounds h hstart.attempts hrounds).1]
      exact ⟨rfl, Supply.le_trans hgrows hrounds'.grows⟩

end Tree.Function

end MmixBackend
