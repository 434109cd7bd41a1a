import MmixBackend.Proofs.AllocationBound
import MmixBackend.Proofs.ColoringRenamed
import MmixBackend.Proofs.SelectRenamed

/-!
# Allocation under other names

Spilling takes fresh temporaries and marks those between two counts of the supply. Under other names
the marked ones are the images, and each attempt gets stuck where it got stuck before. The only
number that is not a name is that of the attempts, which is compared with the temporaries handed
out; but an attempt never comes too late for that, as each spill takes a temporary.

* **`tracks_instrs`** — what spilling puts around the instructions.
* **`spill_rename`** — a spill.
* **`Rounds`** — attempts that end well, without their numbers, and **`Rounds.rename`** under other
  names.
-/

namespace MmixBackend

variable {ρ : Renaming} {d : Supply}

-- ── Instructions of a spill ──────────────────────────────────────────────────

namespace Instr

variable [KeepsOrder ρ.temp]

theorem map_replace_rename (old new : Temp) (ts : List Temp) :
    (ts.map ρ.temp).map (fun t => if t = ρ.temp old then ρ.temp new else t) =
      (ts.map fun t => if t = old then new else t).map ρ.temp := by
  rw [List.map_map, List.map_map]
  refine List.map_congr_left fun t _ => ?_
  simp only [Function.comp_apply, Renaming.temp_eq_iff]
  split <;> rfl

/-- Replacing what an instruction reads does not depend on the names. -/
theorem replaceUses_rename (old new : Temp) (i : Instr) :
    (i.rename ρ).replaceUses (ρ.temp old) (ρ.temp new) = (i.replaceUses old new).rename ρ := by
  cases i with
  | label l => rfl
  | move op dst src =>
    simp only [rename, replaceUses, Renaming.temp_eq_iff]
    split <;> rfl
  | oper op uses defs jumps falls => simp only [rename, replaceUses, map_replace_rename]

/-- Replacing what an instruction writes does not depend on the names. -/
theorem replaceDefs_rename (old new : Temp) (i : Instr) :
    (i.rename ρ).replaceDefs (ρ.temp old) (ρ.temp new) = (i.replaceDefs old new).rename ρ := by
  cases i with
  | label l => rfl
  | move op dst src =>
    simp only [rename, replaceDefs, Renaming.temp_eq_iff]
    split <;> rfl
  | oper op uses defs jumps falls => simp only [rename, replaceDefs, map_replace_rename]

end Instr

namespace Spill

/-- The address of a slot does not depend on the names. -/
theorem tracks_slotAddress (frame : Frame) (slot : Nat) :
    Tracks ρ d (Instr.rename ρ) ρ.temp (slotAddress frame slot)
      (slotAddress (frame.rename ρ) slot) := by
  refine mirrors_freshTemp.lift.bind fun addr => ?_
  refine (tracks_outcome (frame.slotDistance slot)).bind fun distance => ?_
  refine (Mirrors.lift (Select.mirrors_write_of_eq ?_)).bind fun _ => tracks_pure addr
  rw [List.map_append, loadConst_rename]
  rfl

/-- Loading from a slot does not depend on the names. -/
theorem tracks_loadSlot (frame : Frame) (slot : Nat) (dst : Temp) :
    Tracks ρ d (Instr.rename ρ) id (loadSlot frame slot dst)
      (loadSlot (frame.rename ρ) slot (ρ.temp dst)) :=
  (tracks_slotAddress frame slot).bind fun addr =>
    (mirrors_write [Instr.plain .load [addr] [dst]]).lift

/-- Storing to a slot does not depend on the names. -/
theorem tracks_storeSlot (frame : Frame) (slot : Nat) (src : Temp) :
    Tracks ρ d (Instr.rename ρ) id (storeSlot frame slot src)
      (storeSlot (frame.rename ρ) slot (ρ.temp src)) :=
  (tracks_slotAddress frame slot).bind fun addr =>
    (mirrors_write [Instr.plain .store [src, addr] []]).lift

/-- What is handed out in between is handed out further on under its new names. -/
theorem tempsBetween_moved {s s' : Supply} (h : ρ.Moves d s s') :
    tempsBetween (s.temps + d.temps) (s'.temps + d.temps) =
      (tempsBetween s.temps s'.temps).map ρ.temp := by
  rw [tempsBetween, tempsBetween, Nat.add_sub_add_right, List.map_map, Nat.add_comm s.temps,
    ← List.map_add_range', List.map_map]
  refine List.map_congr_left fun i hi => ?_
  rw [List.mem_range'_1] at hi
  exact (congrArg Temp.mk (Nat.add_comm ..)).trans (h.temp i hi.1 (by omega)).symm

variable [KeepsOrder ρ.temp]

theorem touches_rename {t : Temp} {i : Instr} : Touches (ρ.temp t) (i.rename ρ) ↔ Touches t i := by
  simp [Touches]

/-- Exchanging the spilled temporary does not depend on the names. -/
theorem tracks_exchange (frame : Frame) (t : Temp) (slot : Nat) (i : Instr) :
    Tracks ρ d (Instr.rename ρ) id (exchange frame t slot i)
      (exchange (frame.rename ρ) (ρ.temp t) slot (i.rename ρ)) := by
  refine mirrors_freshTemp.lift.bind fun value => ?_
  have huses : ρ.temp t ∈ (i.rename ρ).uses ↔ t ∈ i.uses := by simp
  have hdefs : ρ.temp t ∈ (i.rename ρ).defs ↔ t ∈ i.defs := by simp
  have hpatched : ((i.rename ρ).replaceUses (ρ.temp t) (ρ.temp value)).replaceDefs (ρ.temp t)
      (ρ.temp value) = ((i.replaceUses t value).replaceDefs t value).rename ρ := by
    rw [Instr.replaceUses_rename, Instr.replaceDefs_rename]
  have hrest : Tracks ρ d (Instr.rename ρ) id
      (do
        ExceptT.lift (Emit.report (.patched ((i.replaceUses t value).replaceDefs t value)))
        ExceptT.lift (Emit.write [(i.replaceUses t value).replaceDefs t value])
        if t ∈ i.defs then storeSlot frame slot value : Patch Unit)
      (do
        ExceptT.lift (Emit.report
          (.patched (((i.replaceUses t value).replaceDefs t value).rename ρ)))
        ExceptT.lift (Emit.write [((i.replaceUses t value).replaceDefs t value).rename ρ])
        if ρ.temp t ∈ (i.rename ρ).defs then storeSlot (frame.rename ρ) slot (ρ.temp value)) :=
    (mirrors_reportAll _ _).lift.bind fun _ => (mirrors_write _).lift.bind fun _ =>
      tracks_when hdefs (tracks_storeSlot frame slot value)
  rw [hpatched]
  by_cases hu : t ∈ i.uses
  · rw [if_pos hu, if_pos (huses.mpr hu)]
    exact (tracks_loadSlot frame slot value).bind fun _ => hrest
  · rw [if_neg hu, if_neg (fun h => hu (huses.mp h))]
    exact hrest

variable [KeepsOrder ρ.label]

theorem reloads_rename {code : Code} {t : Temp} {i : Instr} :
    Reloads (code.rename ρ) (ρ.temp t) (i.rename ρ) ↔ Reloads code t i := by
  simp [Reloads, Code.rename, Frame.rename]

/-- What a spill makes of an instruction does not depend on the names. -/
theorem tracks_instr (code : Code) (t : Temp) (slot : Nat) (i : Instr) :
    Tracks ρ d (Instr.rename ρ) id (instr code t slot i)
      (instr (code.rename ρ) (ρ.temp t) slot (i.rename ρ)) := by
  refine (tracks_when reloads_rename (tracks_loadSlot code.frame slot t)).bind fun _ => ?_
  by_cases ht : Touches t i
  · rw [if_pos ht, if_pos (touches_rename.mpr ht)]
    exact tracks_exchange code.frame t slot i
  · rw [if_neg ht, if_neg (fun h => ht (touches_rename.mp h))]
    exact (mirrors_write [i]).lift

/-- What a spill makes of the code does not depend on the names. By induction on the
    instructions. -/
theorem tracks_instrs (code : Code) (t : Temp) (slot : Nat) (is : List Instr) :
    Tracks ρ d (Instr.rename ρ) id (instrs code t slot is)
      (instrs (code.rename ρ) (ρ.temp t) slot (is.map (Instr.rename ρ))) := by
  induction is with
  | nil => exact tracks_pure ()
  | cons i is ih => exact (tracks_instr code t slot i).bind fun _ => ih

end Spill

-- ── A spill ──────────────────────────────────────────────────────────────────

/-- What spilling has done so far, under other names. -/
def Spills.rename (ρ : Renaming) (s : Spills) : Spills :=
  ⟨imageMap ρ.temp id s.slots, imageSet ρ.temp s.temps⟩

namespace Allocation

/-- A function during register allocation, under other names. -/
def rename (ρ : Renaming) (a : Allocation) : Allocation := ⟨a.code.rename ρ, a.spills.rename ρ⟩

/-- What a spill leaves: the patched instructions, a slot for the temporary, and the temporaries
    that must not be spilled any more. -/
def patched (a : Allocation) (t : Temp) (created : List Temp) (is : List Instr) : Allocation :=
  let spills := { a.spills.reserve t with
    temps := a.spills.temps.insertMany (if t = a.code.frame.result then t :: created else created) }
  ⟨{ a.code with instrs := is, spillSize := spills.size }, spills⟩

section Spilling

variable {ω : Type} (a : Allocation) (t : Temp) (s : Supply)

/-- A spill takes as many temporaries as patching the instructions does. -/
theorem supply_spill :
    ((a.spill t : Emit ω _).run s).supply =
      ((Spill.instrs a.code t (a.spills.slotOf t) a.code.instrs).run.run s).supply := by
  rw [Emit.run, spill]
  dsimp only
  split <;> rfl

theorem grows_spill : s ≤ ((a.spill t : Emit ω _).run s).supply := by
  rw [supply_spill]
  exact (Spill.tracks_instrs (ρ := Renaming.shift {} {}) (d := {}) ..).grows s

/-- A spill succeeds if the instructions can be patched and there are more of them then. -/
theorem spill_eq_ok_iff {a' : Allocation} :
    ((a.spill t : Emit ω _).run s).value = (.ok (), a') ↔
      let r := (Spill.instrs a.code t (a.spills.slotOf t) a.code.instrs).run.run s
      r.value = .ok () ∧ a.code.instrs.length < r.code.length ∧
        a.patched t (Spill.tempsBetween s.temps r.supply.temps) r.code = a' := by
  rw [Emit.run, spill]
  dsimp only
  split
  · next f heq =>
    rw [heq]
    exact ⟨(fun h => by cases h), fun h => by cases h.1⟩
  · next heq =>
    rw [heq]
    split
    · next hlt => exact ⟨fun h => ⟨rfl, hlt, congrArg Prod.snd h⟩, fun h => congrArg _ h.2.2⟩
    · next hlt =>
      refine ⟨fun h => ?_, fun h => absurd h.2.1 hlt⟩
      cases congrArg Prod.fst h

end Spilling

variable [KeepsOrder ρ.temp]

/-- A temporary has the same slot under another name. -/
theorem slotOf_rename (s : Spills) (t : Temp) : (s.rename ρ).slotOf (ρ.temp t) = s.slotOf t := by
  rw [Spills.slotOf, Spills.rename]
  dsimp only
  rw [size_imageMap]
  exact getD_imageMap (g := id)

/-- A slot is reserved for a temporary under any name. -/
theorem reserve_rename (s : Spills) (t : Temp) :
    (s.rename ρ).reserve (ρ.temp t) = (s.reserve t).rename ρ := by
  rw [Spills.reserve, Spills.reserve, Spills.rename, Spills.rename]
  dsimp only
  rw [size_imageMap, imageMap_insertIfNew]
  rfl

theorem size_rename (s : Spills) : (s.rename ρ).size = s.size := by
  rw [Spills.size, Spills.size, Spills.rename, size_imageMap]

/-- What a spill leaves does not depend on the names. -/
theorem patched_rename (a : Allocation) (t : Temp) (created : List Temp) (is : List Instr) :
    (a.rename ρ).patched (ρ.temp t) (created.map ρ.temp) (is.map (Instr.rename ρ)) =
      (a.patched t created is).rename ρ := by
  have htemps : (a.rename ρ).spills.temps.insertMany
      (if ρ.temp t = (a.rename ρ).code.frame.result then ρ.temp t :: created.map ρ.temp
        else created.map ρ.temp) =
      imageSet ρ.temp (a.spills.temps.insertMany
        (if t = a.code.frame.result then t :: created else created)) := by
    have hresult : (a.rename ρ).code.frame.result = ρ.temp a.code.frame.result := rfl
    rw [imageSet_insertMany, hresult]
    simp only [Renaming.temp_eq_iff]
    split <;> rfl
  have hslots : ((a.rename ρ).spills.reserve (ρ.temp t)).slots =
      imageMap ρ.temp id (a.spills.reserve t).slots := congrArg Spills.slots (reserve_rename ..)
  rw [patched, htemps]
  dsimp only
  rw [hslots]
  exact congrArg (Allocation.mk · _) (congrArg (Code.mk _ _ _ _ _) (size_rename _))

variable [KeepsOrder ρ.label] {ω : Type} {a a' : Allocation} {t : Temp} {s : Supply} {k n : Nat}

/-- A successful spill succeeds under other names, with the same slot. -/
theorem spill_rename (hspill : ((a.spill t : Emit ω _).run s).value = (.ok (), a'))
    (hmoves : ρ.Moves d s ((a.spill t : Emit ω _).run s).supply) :
    (((a.rename ρ).spill (ρ.temp t) : Emit ω _).run (s.skip d.temps d.labels)).value =
        (.ok (), a'.rename ρ) ∧
      (((a.rename ρ).spill (ρ.temp t) : Emit ω _).run (s.skip d.temps d.labels)).supply =
        ((a.spill t : Emit ω _).run s).supply.skip d.temps d.labels := by
  have hslot : (a.rename ρ).spills.slotOf (ρ.temp t) = a.spills.slotOf t := slotOf_rename ..
  have htracks : Tracks ρ d (Instr.rename ρ) id
      (Spill.instrs a.code t (a.spills.slotOf t) a.code.instrs)
      (Spill.instrs (a.rename ρ).code (ρ.temp t) (a.spills.slotOf t) (a.rename ρ).code.instrs) :=
    Spill.tracks_instrs ..
  rw [supply_spill] at hmoves
  obtain ⟨hvalue, hcode, hsupply⟩ := htracks.renamed s hmoves
  obtain ⟨hok, hlength, rfl⟩ := (spill_eq_ok_iff a t s).mp hspill
  have hcreated := Spill.tempsBetween_moved hmoves
  rw [supply_spill, supply_spill, spill_eq_ok_iff, hslot]
  refine ⟨⟨hvalue.trans (congrArg (Except.map id) hok), ?_, ?_⟩, hsupply⟩
  · show (a.code.instrs.map _).length < _
    rw [hcode, List.length_map, List.length_map]
    exact hlength
  · rw [← patched_rename, ← hcreated, ← hcode, hsupply]
    rfl

-- ── All attempts ─────────────────────────────────────────────────────────────

/-- Attempts that end with a register for every temporary, whatever their numbers are. -/
inductive Rounds (ω : Type) (k : Nat) : Allocation → Supply → Allocation → Supply → Prop where
  | colored {a : Allocation} {s : Supply}
      (hstuck : (Attempt.make k a.spills.temps a.code).selection.stuck = none) :
      Rounds ω k a s
        (a.finish (Attempt.make k a.spills.temps a.code).selection.graph.assignments) s
  | again {a a₁ a' : Allocation} {s s' : Supply} {t : Temp}
      (hstuck : (Attempt.make k a.spills.temps a.code).selection.stuck = some t)
      (ht : t ∉ a.spills.temps) (hspill : ((a.spill t : Emit ω _).run s).value = (.ok (), a₁))
      (rest : Rounds ω k a₁ ((a.spill t : Emit ω _).run s).supply a' s') :
      Rounds ω k a s a' s'

/-- Allocation that succeeds is made of such attempts. -/
theorem rounds_of_ok (h : ((attemptFrom k n a : Emit ω _).run s).value = (.ok (), a')) :
    Rounds ω k a s a' ((attemptFrom k n a : Emit ω _).run s).supply := by
  induction hsize : a.pending.size using Nat.strongRecOn generalizing n a s with
  | ind size ih =>
      have hround := attemptFrom_round (ω := ω) k n a s
      generalize (attemptFrom k n a : Emit ω _).run s = r at h hround
      cases hround with
      | exhausted _ => cases h
      | colored _ es _ hstuck =>
          obtain rfl : a.finish _ = a' := congrArg Prod.snd h
          exact .colored hstuck
      | refused _ es _ t _ _ => cases h
      | failed _ es es' _ _ t e a' _ _ _ => cases h
      | again _ es es' _ _ t a₁ hstuck ht hspill =>
          have hless := size_pending_spill_lt (Attempt.stuck_ne_pointer hstuck) ht hspill
          exact .again hstuck ht hspill (ih _ (hsize ▸ hless) h rfl)

/-- A spill has taken a temporary from the supply for the attempt that follows. -/
theorem lt_temps_spill (hstuck : (Attempt.make k a.spills.temps a.code).selection.stuck = some t)
    (hspill : ((a.spill t : Emit ω _).run s).value = (.ok (), a')) :
    s.temps < ((a.spill t : Emit ω _).run s).supply.temps := by
  have hneeds := Attempt.needed_of_stuck hstuck
  obtain ⟨distance, hd, -⟩ := spill_eq_ok hspill
  have hsupply := (spill_of_ok (ω := ω) (s := s) hd hneeds).2
  have hpos := Spill.totalNeeded_pos hneeds
  omega

/-- Such attempts succeed, if they are not numbered too high. -/
theorem Rounds.run {s' : Supply} (h : Rounds ω k a s a' s') (hn : n ≤ s.temps) :
    ((attemptFrom k n a : Emit ω _).run s).value = (.ok (), a') ∧
      ((attemptFrom k n a : Emit ω _).run s).supply = s' := by
  induction h generalizing n with
  | @colored a s hstuck =>
      have hround := attemptFrom_round (ω := ω) k n a s
      generalize (attemptFrom k n a : Emit ω _).run s = r at hround
      cases hround with
      | exhausted h => exact absurd hn (Nat.not_le.mpr h)
      | colored _ es _ _ => exact ⟨rfl, rfl⟩
      | refused _ es _ t h _ => cases hstuck.symm.trans h
      | failed _ es es' _ _ t e a' h _ _ => cases hstuck.symm.trans h
      | again _ es es' _ _ t a₁ h _ _ => cases hstuck.symm.trans h
  | @again a a₁ a' s s' t hstuck ht hspill _ ih =>
      have hnext := lt_temps_spill hstuck hspill
      have hround := attemptFrom_round (ω := ω) k n a s
      generalize (attemptFrom k n a : Emit ω _).run s = r at hround
      cases hround with
      | exhausted h => exact absurd hn (Nat.not_le.mpr h)
      | colored _ es _ h => cases hstuck.symm.trans h
      | refused _ es _ u h hu =>
          obtain rfl := Option.some.inj (hstuck.symm.trans h)
          exact absurd hu ht
      | failed _ es es' _ _ u e a₂ h _ hfail =>
          obtain rfl := Option.some.inj (hstuck.symm.trans h)
          cases congrArg Prod.fst (hspill.symm.trans hfail)
      | again _ es es' _ _ u a₂ h _ hsame =>
          obtain rfl := Option.some.inj (hstuck.symm.trans h)
          obtain rfl : a₁ = a₂ := congrArg Prod.snd (hspill.symm.trans hsame)
          exact ih (by omega)

/-- Attempts only hand out more temporaries. -/
theorem Rounds.grows {s' : Supply} (h : Rounds ω k a s a' s') : s ≤ s' := by
  induction h with
  | colored _ => exact Supply.le_refl _
  | again _ _ _ _ ih => exact Supply.le_trans (grows_spill ..) ih

/-- Colouring gets stuck at the same temporary under its new name. -/
theorem stuck_rename (k : Nat) (a : Allocation) :
    (Attempt.make k (a.rename ρ).spills.temps (a.rename ρ).code).selection.stuck =
      (Attempt.make k a.spills.temps a.code).selection.stuck.map ρ.temp :=
  congrArg ColorGraph.Selection.stuck (Attempt.selection_rename ..)

/-- The last attempt assigns the same registers under the new names. -/
theorem finish_rename (k : Nat) (a : Allocation) :
    (a.rename ρ).finish
        (Attempt.make k (a.rename ρ).spills.temps (a.rename ρ).code).selection.graph.assignments =
      (a.finish (Attempt.make k a.spills.temps a.code).selection.graph.assignments).rename ρ := by
  have hselection := Attempt.selection_rename (ρ := ρ) k a.spills.temps a.code
  have hregisters := (congrArg (·.graph.assignments) hselection).trans
    (ColorGraph.assignments_rename _)
  simp only [finish, rename, Code.rename, size_rename]
  exact congrArg (fun registers => Allocation.mk (Code.mk _ _ _ _ registers _) _) hregisters

/-- The attempts under other names get stuck on the same temporaries. -/
theorem Rounds.rename {s' : Supply} (h : Rounds ω k a s a' s') (hmoves : ρ.Moves d s s') :
    Rounds ω k (a.rename ρ) (s.skip d.temps d.labels) (a'.rename ρ)
      (s'.skip d.temps d.labels) := by
  induction h with
  | @colored a s hstuck =>
      rw [← finish_rename]
      exact .colored ((stuck_rename k a).trans (congrArg (Option.map ρ.temp) hstuck))
  | @again a a₁ a' s s' t hstuck ht hspill rest ih =>
      obtain ⟨hvalue, hsupply⟩ := spill_rename hspill (hmoves.narrow s.le_refl rest.grows)
      refine .again ((stuck_rename k a).trans (congrArg (Option.map ρ.temp) hstuck))
        (fun hmem => ht (apply_mem_imageSet.mp hmem)) hvalue ?_
      rw [hsupply]
      exact ih (hmoves.narrow (grows_spill a t s) (Supply.le_refl _))

end Allocation

end MmixBackend
