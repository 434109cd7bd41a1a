import Mathlib.Logic.Relation
import MmixBackend.Proofs.LiveAhead

/-!
# Liveness is exact

A temporary is live before an instruction exactly if there is a way from there to an instruction
that reads it, along which nothing writes it before. The graph of successors may have any shape,
with cycles, with labels that are defined twice and with labels that are not defined at all.

* **`settle_eq`** — sweeping goes on until a sweep changes nothing, and no longer.
* **`reaches_of_liveIn`** — what the live sets hold is demanded somewhere: having a way to a demand
  satisfies the equations of liveness, and the live sets hold no more than any solution.
* **`liveIn_of_reaches`** — nothing that is demanded is missed, by induction on the way.
* **`liveness_exact`** — so the live sets are the least solution of the equations.
-/

namespace MmixBackend

-- ── Sweeping comes to an end ─────────────────────────────────────────────────

namespace Flow

variable {flow : Flow} {sets : LiveSets}

/-- Sets are swept until a sweep changes nothing; the sweep that finds this out is counted too. Each
    sweep before it takes away some of the room. -/
theorem settle_eq (h : Bounded flow sets) :
    ∃ k, flow.settle sets = (flow.sweep^[k] sets, k + 1) ∧
      flow.sweep (flow.sweep^[k] sets) = flow.sweep^[k] sets ∧
      (∀ j < k, flow.sweep (flow.sweep^[j] sets) ≠ flow.sweep^[j] sets) ∧
      k ≤ flow.room sets := by
  fun_induction settle flow sets with
  | case1 sets swept hroom settled sweeps heq ih =>
      obtain ⟨k, hsettle, hfixed, hmoves, hle⟩ := ih (h.updates _)
      obtain ⟨rfl, rfl⟩ := Prod.mk.inj (heq.symm.trans hsettle)
      refine ⟨k + 1, rfl, hfixed, ?_, Nat.le_trans (Nat.succ_le_succ hle) hroom⟩
      intro j hj
      cases j with
      | zero =>
          intro hsame
          have hswept : swept = sets := hsame
          rw [hswept] at hroom
          exact Nat.lt_irrefl _ hroom
      | succ j => exact hmoves j (Nat.lt_of_succ_lt_succ hj)
  | case2 sets swept hroom =>
      have hsame : swept = sets := sweep_eq_of_room_le h (Nat.not_lt.mp hroom)
      exact ⟨0, by rw [hsame]; rfl, hsame, fun j hj => absurd hj (Nat.not_lt_zero j),
        Nat.zero_le _⟩

end Flow

namespace Code

variable {code : Code} {i j : Nat} {instr : Instr} {t : Temp}

-- ── Ways to a demand ─────────────────────────────────────────────────────────

/-- Control may go from instruction `i` to instruction `j`, and `i` does not write the temporary. -/
def Carries (code : Code) (t : Temp) (i j : Nat) : Prop :=
  ∃ instr, code.instrs[i]? = some instr ∧ j ∈ code.successors i instr ∧ t ∉ instr.defs

/-- Instruction `j` reads the temporary, or it is the result of the function and control may leave
    from `j`, which does not write it. -/
def Demands (code : Code) (t : Temp) (j : Nat) : Prop :=
  ∃ instr, code.instrs[j]? = some instr ∧
    (t ∈ instr.uses ∨ code.exit ∈ instr.jumps ∧ t = code.frame.result ∧ t ∉ instr.defs)

/-- There is a way from instruction `i` to one that demands the temporary, and no instruction before
    that one writes it. -/
def Reaches (code : Code) (t : Temp) (i : Nat) : Prop :=
  ∃ j, Relation.ReflTransGen (code.Carries t) i j ∧ code.Demands t j

/-- A way to a demand can be extended at its start by an instruction that does not write the
    temporary. -/
theorem Reaches.step (hi : code.Carries t i j) (h : code.Reaches t j) : code.Reaches t i := by
  obtain ⟨k, hway, hdemand⟩ := h
  exact ⟨k, hway.head hi, hdemand⟩

/-- Behind an instruction, the temporary is demanded on the way on. -/
def ReachesBehind (code : Code) (t : Temp) (i : Nat) (instr : Instr) : Prop :=
  (∃ j ∈ code.successors i instr, code.Reaches t j) ∨
    code.exit ∈ instr.jumps ∧ t = code.frame.result

/-- What is demanded behind an instruction that does not write it is demanded before it. -/
theorem ReachesBehind.before (h : code.ReachesBehind t i instr) (hi : code.instrs[i]? = some instr)
    (hdef : t ∉ instr.defs) : code.Reaches t i := by
  rcases h with ⟨j, hj, hreach⟩ | ⟨hexit, hresult⟩
  · exact hreach.step ⟨instr, hi, hj, hdef⟩
  · exact ⟨i, .refl, instr, hi, .inr ⟨hexit, hresult, hdef⟩⟩

/-- Having a way to a demand satisfies the equations of liveness. -/
theorem admits_reaches (code : Code) :
    code.flow.Admits (fun i t => code.Reaches t i) fun i t =>
      ∀ instr, code.instrs[i]? = some instr → code.ReachesBehind t i instr := by
  refine ⟨?_, ?_, ?_, ?_⟩
  · intro i p hp j hj t hreach instr hi
    obtain ⟨instr', hi', rfl⟩ := getElem?_instrs_of_points hp
    obtain rfl := Option.some.inj (hi.symm.trans hi')
    exact .inl ⟨j, hj, hreach⟩
  · intro i p hp hexits instr hi
    obtain ⟨instr', hi', rfl⟩ := getElem?_instrs_of_points hp
    obtain rfl := Option.some.inj (hi.symm.trans hi')
    exact .inr ⟨of_decide_eq_true hexits, rfl⟩
  · intro i p hp t huse
    obtain ⟨instr, hi, rfl⟩ := getElem?_instrs_of_points hp
    exact ⟨i, .refl, instr, hi, .inl huse⟩
  · intro i p hp t hbehind hdef
    obtain ⟨instr, hi, rfl⟩ := getElem?_instrs_of_points hp
    exact (hbehind instr hi).before hi hdef

/-- What is live before an instruction is demanded on a way from there. -/
theorem reaches_of_liveIn (h : t ∈ code.liveSets.liveIn i) : code.Reaches t i :=
  (within_liveSets code.admits_reaches).liveIn i t h

/-- What is live behind an instruction is demanded on a way on from there. -/
theorem reachesBehind_of_liveOut (hi : code.instrs[i]? = some instr)
    (h : t ∈ code.liveSets.liveOut i) : code.ReachesBehind t i instr :=
  (within_liveSets code.admits_reaches).liveOut i t h instr hi

/-- What an instruction demands is live before it. -/
theorem Demands.liveIn (h : code.Demands t i) : t ∈ code.liveSets.liveIn i := by
  obtain ⟨instr, hi, huse | ⟨hexit, rfl, hdef⟩⟩ := h
  · exact mem_liveIn_of_use hi huse
  · exact mem_liveIn_of_liveOut hi (result_mem_liveOut hi hexit) hdef

/-- Along a way to a demand the temporary is live. -/
theorem liveIn_of_reaches (h : code.Reaches t i) : t ∈ code.liveSets.liveIn i := by
  obtain ⟨j, hway, hdemand⟩ := h
  induction hway using Relation.ReflTransGen.head_induction_on with
  | refl => exact hdemand.liveIn
  | head hstep _ ih =>
      obtain ⟨instr, hi, hj, hdef⟩ := hstep
      exact mem_liveIn_of_liveOut hi (mem_liveOut_of_successor hi hj ih) hdef

-- ── The least solution ───────────────────────────────────────────────────────

/-- What is live before and behind the instructions satisfies the two equations of liveness. -/
structure Solution (code : Code) (ins outs : Nat → Temp → Prop) : Prop where
  liveOut : ∀ i instr, code.instrs[i]? = some instr → ∀ t, outs i t ↔
    (∃ j ∈ code.successors i instr, ins j t) ∨ code.exit ∈ instr.jumps ∧ t = code.frame.result
  liveIn : ∀ i instr, code.instrs[i]? = some instr → ∀ t, ins i t ↔
    t ∈ instr.uses ∨ outs i t ∧ t ∉ instr.defs

/-- A solution of the two equations allows itself. -/
theorem Solution.admits {ins outs : Nat → Temp → Prop} (h : code.Solution ins outs) :
    code.flow.Admits ins outs := by
  refine ⟨?_, ?_, ?_, ?_⟩
  · intro i p hp j hj t hin
    obtain ⟨instr, hi, rfl⟩ := getElem?_instrs_of_points hp
    exact (h.liveOut i instr hi t).mpr (.inl ⟨j, hj, hin⟩)
  · intro i p hp hexits
    obtain ⟨instr, hi, rfl⟩ := getElem?_instrs_of_points hp
    exact (h.liveOut i instr hi _).mpr (.inr ⟨of_decide_eq_true hexits, rfl⟩)
  · intro i p hp t huse
    obtain ⟨instr, hi, rfl⟩ := getElem?_instrs_of_points hp
    exact (h.liveIn i instr hi t).mpr (.inl huse)
  · intro i p hp t hout hdef
    obtain ⟨instr, hi, rfl⟩ := getElem?_instrs_of_points hp
    exact (h.liveIn i instr hi t).mpr (.inr ⟨hout, hdef⟩)

/-- The live sets satisfy the equation for what is live behind an instruction. -/
theorem mem_liveOut_iff (hi : code.instrs[i]? = some instr) :
    t ∈ code.liveSets.liveOut i ↔ (∃ j ∈ code.successors i instr, t ∈ code.liveSets.liveIn j) ∨
      code.exit ∈ instr.jumps ∧ t = code.frame.result := by
  constructor
  · intro h
    refine (reachesBehind_of_liveOut hi h).imp_left ?_
    rintro ⟨j, hj, hreach⟩
    exact ⟨j, hj, liveIn_of_reaches hreach⟩
  · rintro (⟨j, hj, hlive⟩ | ⟨hexit, rfl⟩)
    · exact mem_liveOut_of_successor hi hj hlive
    · exact result_mem_liveOut hi hexit

/-- The live sets satisfy the equation for what is live before an instruction. -/
theorem mem_liveIn_iff (hi : code.instrs[i]? = some instr) :
    t ∈ code.liveSets.liveIn i ↔
      t ∈ instr.uses ∨ t ∈ code.liveSets.liveOut i ∧ t ∉ instr.defs := by
  constructor
  · intro h
    obtain ⟨j, hway, hdemand⟩ := reaches_of_liveIn h
    rcases hway.cases_head with rfl | ⟨k, ⟨instr', hi', hk, hdef⟩, hrest⟩
    · obtain ⟨instr', hi', hread⟩ := hdemand
      obtain rfl := Option.some.inj (hi.symm.trans hi')
      refine hread.imp_right ?_
      rintro ⟨hexit, rfl, hdef⟩
      exact ⟨result_mem_liveOut hi hexit, hdef⟩
    · obtain rfl := Option.some.inj (hi.symm.trans hi')
      exact .inr ⟨mem_liveOut_of_successor hi hk (liveIn_of_reaches ⟨j, hrest, hdemand⟩), hdef⟩
  · rintro (huse | ⟨hout, hdef⟩)
    · exact mem_liveIn_of_use hi huse
    · exact mem_liveIn_of_liveOut hi hout hdef

theorem solution_liveSets (code : Code) :
    code.Solution (fun i t => t ∈ code.liveSets.liveIn i) fun i t =>
      t ∈ code.liveSets.liveOut i :=
  ⟨fun _ _ hi _ => mem_liveOut_iff hi, fun _ _ hi _ => mem_liveIn_iff hi⟩

/-- The live sets that sweeping starts from. -/
def emptySets (code : Code) : LiveSets := Array.replicate code.flow.points.size {}

/-- Sweeping starts within what can be live. -/
theorem bounded_emptySets (code : Code) : Flow.Bounded code.flow code.emptySets :=
  ⟨Array.size_replicate, within_empty _ _ _⟩

/-- **Liveness is exact.** Whatever the code is like, sweeping from empty sets comes to a sweep that
    changes nothing, after no more sweeps than there is room in the sets, and stops there. Then a
    temporary is live before an instruction exactly if there is a way from there to an instruction
    that demands it, and no instruction before that one writes it. It is live behind an instruction
    exactly if it is live before one that control may go to, or if it is the result and control may
    leave. So the live sets are the least solution of the two equations of liveness. -/
theorem liveness_exact (code : Code) :
    (∃ k, code.liveness = (code.flow.sweep^[k] code.emptySets, k + 1) ∧
      code.flow.sweep code.liveSets = code.liveSets ∧
      (∀ j < k, code.flow.sweep (code.flow.sweep^[j] code.emptySets) ≠
        code.flow.sweep^[j] code.emptySets) ∧
      k ≤ 2 * code.instrs.length * code.flow.temps.size) ∧
    (∀ i t, t ∈ code.liveSets.liveIn i ↔
      ∃ j, Relation.ReflTransGen (code.Carries t) i j ∧ code.Demands t j) ∧
    (∀ i instr, code.instrs[i]? = some instr → ∀ t, t ∈ code.liveSets.liveOut i ↔
      (∃ j ∈ code.successors i instr, t ∈ code.liveSets.liveIn j) ∨
        code.exit ∈ instr.jumps ∧ t = code.frame.result) ∧
    code.Solution (fun i t => t ∈ code.liveSets.liveIn i)
      (fun i t => t ∈ code.liveSets.liveOut i) ∧
    ∀ ins outs, code.Solution ins outs → ∀ i, ∀ t,
      (t ∈ code.liveSets.liveIn i → ins i t) ∧ (t ∈ code.liveSets.liveOut i → outs i t) := by
  refine ⟨?_, fun i t => ⟨reaches_of_liveIn, liveIn_of_reaches⟩, fun i instr hi t =>
    mem_liveOut_iff hi, code.solution_liveSets, ?_⟩
  · obtain ⟨k, hsettle, hfixed, hmoves, hle⟩ := Flow.settle_eq code.bounded_emptySets
    have hliveness : code.liveness = (code.flow.sweep^[k] code.emptySets, k + 1) := hsettle
    have hsets : code.liveSets = code.flow.sweep^[k] code.emptySets :=
      congrArg Prod.fst hliveness
    refine ⟨k, hliveness, ?_, hmoves, Nat.le_trans hle ?_⟩
    · rw [hsets]
      exact hfixed
    · have hsize : code.flow.points.size = code.instrs.length := by simp [flow]
      rw [Flow.room, hsize]
      exact Nat.sub_le _ _
  · intro ins outs hsolution i t
    have hwithin := within_liveSets hsolution.admits
    exact ⟨hwithin.liveIn i t, hwithin.liveOut i t⟩

/-- A loop whose label is defined once more behind it. -/
def twiceLabelled : Code where
  frame := ⟨.named "f", 1, 0, 0, ⟨0⟩, ⟨1⟩⟩
  entry := .named "f"
  exit := .named "exit"
  instrs := [.label (.fresh 0), .plain (.alu .sub) [⟨2⟩, ⟨3⟩] [⟨2⟩],
    .branch (.branchNonZero (.fresh 0)) [⟨2⟩] (.fresh 0), .label (.fresh 0), .copy ⟨0⟩ ⟨2⟩,
    .jump (.named "exit")]

/-- The branch leads to the first of the two labels. So what is read in the loop is live before the
    branch, and it is not live behind the loop. -/
theorem liveness_exact_twice_labelled :
    (⟨3⟩ : Temp) ∈ twiceLabelled.liveSets.liveIn 2 ∧
      (⟨3⟩ : Temp) ∉ twiceLabelled.liveSets.liveIn 3 := by
  have hloop : twiceLabelled.Carries ⟨3⟩ 2 0 := ⟨_, rfl, by decide, by decide⟩
  have hhead : twiceLabelled.Carries ⟨3⟩ 0 1 := ⟨_, rfl, by decide, by decide⟩
  have hread : twiceLabelled.Demands ⟨3⟩ 1 := ⟨_, rfl, .inl (by decide)⟩
  obtain ⟨-, hlive, -⟩ := liveness_exact twiceLabelled
  exact ⟨(hlive 2 ⟨3⟩).mpr ⟨1, .head hloop (.single hhead), hread⟩, by decide +kernel⟩

end Code

end MmixBackend
