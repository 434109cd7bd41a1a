import MmixBackend.Proofs.ColoringMeaning

/-!
# Registers never collide

Two temporaries meet at an instruction if they are live together before or behind it, or if it
writes one of them while the other one is live behind it or is written by it as well. Code that
allocation has finished gives temporaries that meet different registers.

* **`Code.adj_interference_iff`** — the interference graph of a function relates the temporaries
  that meet somewhere, and no others.
* **`register?_selectAll_lt`** — a register that is given is one of the palette.
* **`Attempt.register_bound`** — so only the frame pointer has a register outside of the palette.
* **`registers_never_collide`** — all of it for the code that allocation leaves behind, after any
  number of spills.
-/

namespace MmixBackend

-- ── Temporaries that meet ────────────────────────────────────────────────────

namespace Code

variable {code : Code} {a b t : Temp}

/-- The temporaries are live together before or behind the instruction, or it writes one of them
    and the other one is live behind it or is written by it as well. -/
def MeetAt (code : Code) (pc : Nat) (i : Instr) (a b : Temp) : Prop :=
  (a ∈ code.liveSets.liveIn pc ∧ b ∈ code.liveSets.liveIn pc) ∨
    (a ∈ code.liveSets.liveOut pc ∧ b ∈ code.liveSets.liveOut pc) ∨
    (a ∈ i.defs ∧ (b ∈ code.liveSets.liveOut pc ∨ b ∈ i.defs)) ∨
    (b ∈ i.defs ∧ (a ∈ code.liveSets.liveOut pc ∨ a ∈ i.defs))

/-- Two temporaries have an edge at an instruction exactly if they meet there. -/
theorem edgesAt_iff_meetAt {pc : Nat} {i : Instr} (hne : a ≠ b) :
    ((a, b) ∈ Interference.edgesAt i (code.liveSets.getD pc {}) ∨
      (b, a) ∈ Interference.edgesAt i (code.liveSets.getD pc {})) ↔ code.MeetAt pc i a b := by
  rw [Interference.mem_edgesAt, Interference.mem_edgesAt]
  constructor
  · rintro ((h | h | h) | (h | h | h))
    · obtain ⟨ha, hb⟩ := Interference.mem_of_mem_pairs h
      exact .inl ⟨Std.ExtTreeSet.mem_toList.mp ha, Std.ExtTreeSet.mem_toList.mp hb⟩
    · obtain ⟨ha, hb⟩ := Interference.mem_of_mem_pairs h
      exact .inr (.inl ⟨Std.ExtTreeSet.mem_toList.mp ha, Std.ExtTreeSet.mem_toList.mp hb⟩)
    · exact .inr (.inr (.inl h))
    · obtain ⟨hb, ha⟩ := Interference.mem_of_mem_pairs h
      exact .inl ⟨Std.ExtTreeSet.mem_toList.mp ha, Std.ExtTreeSet.mem_toList.mp hb⟩
    · obtain ⟨hb, ha⟩ := Interference.mem_of_mem_pairs h
      exact .inr (.inl ⟨Std.ExtTreeSet.mem_toList.mp ha, Std.ExtTreeSet.mem_toList.mp hb⟩)
    · exact .inr (.inr (.inr h))
  · rintro (⟨ha, hb⟩ | ⟨ha, hb⟩ | h | h)
    · exact (Interference.mem_pairs_of_mem hne (Std.ExtTreeSet.mem_toList.mpr ha)
        (Std.ExtTreeSet.mem_toList.mpr hb)).imp .inl .inl
    · exact (Interference.mem_pairs_of_mem hne (Std.ExtTreeSet.mem_toList.mpr ha)
        (Std.ExtTreeSet.mem_toList.mpr hb)).imp (fun h => .inr (.inl h)) fun h => .inr (.inl h)
    · exact .inl (.inr (.inr h))
    · exact .inr (.inr (.inr h))

theorem getElem?_of_mem_rows {row : Instr × Live}
    (h : row ∈ code.instrs.zip code.liveSets.toList) :
    ∃ pc, code.instrs[pc]? = some row.1 ∧ code.liveSets.getD pc {} = row.2 := by
  obtain ⟨pc, hpc⟩ := List.mem_iff_getElem?.mp h
  obtain ⟨hi, hlive⟩ := List.getElem?_zip_eq_some.mp hpc
  refine ⟨pc, hi, ?_⟩
  rw [Array.getElem?_toList] at hlive
  rw [Array.getD_eq_getD_getElem?, hlive]
  rfl

/-- The interference graph relates the temporaries that meet somewhere. -/
theorem adj_interference_iff :
    code.interference.Adj a b ↔
      a ≠ b ∧ ∃ pc i, code.instrs[pc]? = some i ∧ code.MeetAt pc i a b := by
  rw [interference, Interference.adj_compute_iff]
  refine and_congr_right ?_
  intro hne
  constructor
  · rintro ⟨row, hrow, h⟩
    obtain ⟨pc, hi, hlive⟩ := getElem?_of_mem_rows hrow
    rw [← hlive] at h
    exact ⟨pc, row.1, hi, (edgesAt_iff_meetAt hne).mp h⟩
  · rintro ⟨pc, i, hi, h⟩
    exact ⟨_, mem_rows hi, (edgesAt_iff_meetAt hne).mpr h⟩

end Code

-- ── The palette ──────────────────────────────────────────────────────────────

namespace ColorGraph

variable {g : ColorGraph} {t u : Temp} {r : Nat}

/-- A free register is one of the colours. -/
theorem freeRegister?_lt (h : g.freeRegister? t = some r) : r < g.colors := by
  rw [freeRegister?] at h
  split at h
  · next hlt =>
    obtain rfl := Option.some.inj h
    exact hlt
  · cases h

@[simp] theorem colors_take (g : ColorGraph) (t : Temp) : (g.take t).colors = g.colors := by
  rw [take]
  split <;> rfl

theorem colors_simplify (g : ColorGraph) (spans : TempMap Nat) (spillTemps : TempSet) :
    (g.simplify spans spillTemps).2.colors = g.colors := by
  fun_induction simplify g spans spillTemps with
  | case1 g t _ _ picks rest heq ih =>
      rw [heq] at ih
      exact ih.trans (colors_take g t)
  | case2 g _ t _ _ picks rest heq ih =>
      rw [heq] at ih
      exact ih.trans (colors_take g t)
  | case3 g _ _ => rfl

/-- Only temporaries that are put back get a register, and it is one of the palette. -/
theorem register?_selectAll_lt {ts : List Temp}
    (h : (g.selectAll ts).graph.register? t = some r) :
    g.register? t = some r ∨ t ∈ ts ∧ r < g.colors := by
  induction ts generalizing g with
  | nil => exact .inl h
  | cons u ts ih =>
      rw [selectAll] at h
      split at h
      · exact .inl h
      · next q hq =>
        rcases ih h with h | ⟨hmem, hlt⟩
        · by_cases hut : u = t
          · obtain rfl := hut
            have hnode : u ∈ g.nodes := mem_nodes_assign.mp (mem_nodes_of_register? h)
            rw [register?_assign_self hnode] at h
            obtain rfl := Option.some.inj h
            exact .inr ⟨List.mem_cons_self, freeRegister?_lt hq⟩
          · rw [register?_assign_of_ne hut] at h
            exact .inl h
        · exact .inr ⟨List.mem_cons_of_mem _ hmem, hlt⟩

end ColorGraph

namespace Attempt

open ColorGraph

variable {k : Nat} {spillTemps : TempSet} {code : Code} {t : Temp} {r : Nat}

/-- The frame pointer keeps its own register, all others have one of the palette. -/
theorem register_bound (h : (make k spillTemps code).selection.graph.assignments[t]? = some r) :
    if t = code.frame.pointer then r = framePointer else r < k := by
  rw [getElem?_assignments, selection_make] at h
  rcases register?_selectAll_lt h with h | ⟨hmem, hlt⟩
  · rw [register?, look_simplify] at h
    have hpre : (precolored code)[t]? = some r := register?_ofInterference h
    rw [getElem?_precolored] at hpre
    split at hpre
    · next hptr =>
      rw [if_pos hptr.symm]
      exact (Option.some.inj hpre).symm
    · cases hpre
  · obtain ⟨p, hp, rfl⟩ := List.mem_map.mp (List.mem_reverse.mp hmem)
    have hptr : p.temp ≠ code.frame.pointer := by
      intro heq
      refine not_mem_active_of_precolored ?_ (mem_active_of_mem_simplify hp)
      rw [heq, Std.ExtTreeMap.mem_iff_isSome_getElem?, getElem?_precolored, if_pos rfl]
      rfl
    rw [if_neg hptr]
    rw [colors_simplify] at hlt
    exact hlt

end Attempt

-- ── Code that allocation has finished ────────────────────────────────────────

namespace Coloring

open Code

/-- Temporaries that meet in code which an attempt has coloured have different registers. -/
theorem registers_ne_of_meetAt {k : Nat} {a : Allocation}
    (hstuck : (Attempt.make k a.spills.temps a.code).selection.stuck = none) {pc : Nat} {i : Instr}
    (hi : a.code.instrs[pc]? = some i) {t u : Temp} (hne : t ≠ u) (h : a.code.MeetAt pc i t u)
    (ht : t ∈ i.uses ∨ t ∈ i.defs ∨ t ∈ a.code.liveSets.liveIn pc ∨
      t ∈ a.code.liveSets.liveOut pc) :
    (Attempt.make k a.spills.temps a.code).selection.graph.assignments[t]? ≠
      (Attempt.make k a.spills.temps a.code).selection.graph.assignments[u]? := by
  intro heq
  have hadj : a.code.interference.Adj t u := adj_interference_iff.mpr ⟨hne, pc, i, hi, h⟩
  have hmem := Attempt.mem_assignments hstuck (mem_interference hi ht)
  obtain ⟨r, hr⟩ := Option.isSome_iff_exists.mp (Std.ExtTreeMap.mem_iff_isSome_getElem?.mp hmem)
  exact Attempt.proper_assignments hadj hr (heq ▸ hr)

/-- **Registers never collide.** In the code that a successful allocation leaves behind, whatever an
    instruction or its live sets mention has a register: the frame pointer its own one, everything
    else one of the `k` registers. Temporaries that are live together, before or behind an
    instruction, have different registers, and an instruction writes no register of another
    temporary that is live behind it or that it writes as well. -/
theorem registers_never_collide {ω : Type} (k : Nat) (a a' : Allocation) (names : Supply)
    (h : ((a.allocate k : Emit ω _).run names).value = (.ok (), a')) (pc : Nat) (i : Instr)
    (hi : a'.code.instrs[pc]? = some i) :
    (∀ t, t ∈ i.uses ∨ t ∈ i.defs ∨ t ∈ a'.code.liveSets.liveIn pc ∨
        t ∈ a'.code.liveSets.liveOut pc →
      ∃ r, a'.code.registers[t]? = some r ∧
        if t = a'.code.frame.pointer then r = 253 else r < k) ∧
    (∀ t u, t ≠ u → t ∈ a'.code.liveSets.liveIn pc → u ∈ a'.code.liveSets.liveIn pc →
      a'.code.registers[t]? ≠ a'.code.registers[u]?) ∧
    (∀ t u, t ≠ u → t ∈ a'.code.liveSets.liveOut pc → u ∈ a'.code.liveSets.liveOut pc →
      a'.code.registers[t]? ≠ a'.code.registers[u]?) ∧
    ∀ d ∈ i.defs, ∀ u, d ≠ u → u ∈ a'.code.liveSets.liveOut pc ∨ u ∈ i.defs →
      a'.code.registers[d]? ≠ a'.code.registers[u]? := by
  obtain ⟨a₁, hstuck, rfl⟩ := Allocation.attemptFrom_eq_ok h
  refine ⟨?_, ?_, ?_, ?_⟩
  · intro t ht
    have hnode : t ∈ a₁.code.interference.neighbours := mem_interference hi ht
    have hmem := Attempt.mem_assignments hstuck hnode
    obtain ⟨r, hr⟩ := Option.isSome_iff_exists.mp (Std.ExtTreeMap.mem_iff_isSome_getElem?.mp hmem)
    exact ⟨r, hr, Attempt.register_bound hr⟩
  · intro t u hne ht hu
    exact registers_ne_of_meetAt hstuck hi hne (.inl ⟨ht, hu⟩) (.inr (.inr (.inl ht)))
  · intro t u hne ht hu
    exact registers_ne_of_meetAt hstuck hi hne (.inr (.inl ⟨ht, hu⟩)) (.inr (.inr (.inr ht)))
  · intro d hd u hne hu
    exact registers_ne_of_meetAt hstuck hi hne (.inr (.inr (.inl ⟨hd, hu⟩))) (.inr (.inl hd))

/-- Three numbers that are needed at the same time. -/
def pressed : Code where
  frame := ⟨.named "f", 1, 0, 0, ⟨0⟩, ⟨1⟩⟩
  entry := .named "f"
  exit := .named "exit"
  instrs := [.plain (.setLow 1) [] [⟨2⟩], .plain (.setLow 2) [] [⟨3⟩], .plain (.setLow 3) [] [⟨4⟩],
    .plain (.alu .add) [⟨3⟩, ⟨4⟩] [⟨5⟩], .plain (.alu .add) [⟨2⟩, ⟨5⟩] [⟨0⟩],
    .jump (.named "exit")]

/-- What allocation with two registers makes of them. -/
def relieved : Allocation :=
  ((Allocation.allocate 2 ⟨pressed, {}⟩ : Emit Instr _).run { temps := 6 }).value.2

/-- With two registers one of the three numbers is spilled. Behind the instruction that sets the
    third one, the second and the third are live together. -/
theorem registers_never_collide_pressed :
    relieved.code.spillSize = 8 ∧ relieved.code.instrs[5]? = some (.plain (.setLow 3) [] [⟨4⟩]) ∧
    relieved.code.registers[(⟨3⟩ : Temp)]? ≠ relieved.code.registers[(⟨4⟩ : Temp)]? := by
  have hok : ((Allocation.allocate 2 ⟨pressed, {}⟩ : Emit Instr _).run { temps := 6 }).value =
      (.ok (), relieved) :=
    Allocation.eq_ok_of_isOk (by decide +kernel)
  have hi : relieved.code.instrs[5]? = some (.plain (.setLow 3) [] [⟨4⟩]) := by decide +kernel
  obtain ⟨-, -, hout, -⟩ := registers_never_collide 2 _ _ _ hok 5 _ hi
  exact ⟨by decide +kernel, hi, hout ⟨3⟩ ⟨4⟩ (by decide) (by decide +kernel) (by decide +kernel)⟩

end Coloring

end MmixBackend
