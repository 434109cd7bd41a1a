import MmixBackend.Proofs.ColoringProper
import MmixBackend.Proofs.InstrRun
import MmixBackend.Proofs.LivenessFixpoint

/-!
# Colouring keeps what code does

Code runs over temporaries, and it runs over registers, where each temporary stands for its
register and many temporaries share one. The two runs stay together: control and memory are the
same, and a temporary that is live has the value of its register. Of a temporary that is not live
nothing is said, its register may hold something else.

* **`mem_liveOut_of_next`** — what is live where control goes is live behind the instruction.
* **`Code.WellColored`** — what a step needs of the registers: an instruction that writes a
  temporary does not write the register of another one that is live behind it.
* **`agrees_step`** — one step of both runs.
* **`coloring_keeps_behaviour`** — every number of steps, for code that allocation has finished.
-/

namespace MmixBackend

open Cpu

-- ── Live sets along a run ────────────────────────────────────────────────────

namespace Code

variable {code : Code} {pc : Nat} {i : Instr} {t : Temp}

theorem getElem?_points (hi : code.instrs[pc]? = some i) :
    code.flow.points[pc]? = some (code.point pc i) := by
  show (code.instrs.zipIdx.map fun row => code.point row.2 row.1).toArray[pc]? = _
  rw [List.getElem?_toArray, List.getElem?_map, List.getElem?_zipIdx, hi]
  simp

theorem size_liveSets (code : Code) : code.liveSets.size = code.instrs.length := by
  rw [code.closed_liveSets.size]
  simp [flow]

theorem mem_addAll {xs acc : List Nat} {j : Nat} :
    j ∈ xs.foldl (fun succs x => if x ∈ succs then succs else succs ++ [x]) acc ↔
      j ∈ acc ∨ j ∈ xs := by
  induction xs generalizing acc with
  | nil => simp
  | cons x xs ih =>
      rw [List.foldl_cons, ih]
      split
      · next hx =>
        constructor
        · rintro (h | h)
          · exact .inl h
          · exact .inr (List.mem_cons_of_mem _ h)
        · rintro (h | h)
          · exact .inl h
          · rcases List.mem_cons.mp h with rfl | h
            · exact .inl hx
            · exact .inr h
      · simp [or_assoc]

/-- The position of a label that an instruction may jump to is a successor. -/
theorem mem_successors_of_jump {l : Label} {j : Nat} (hl : l ∈ i.jumps)
    (hj : code.position? l = some j) : j ∈ code.successors pc i :=
  mem_addAll.mpr (.inr (List.mem_filterMap.mpr ⟨l, hl, hj⟩))

/-- The next instruction is a successor of one that falls through to it. -/
theorem mem_successors_of_fallsThrough (hfalls : i.fallsThrough = true)
    (hlt : pc + 1 < code.instrs.length) : pc + 1 ∈ code.successors pc i := by
  refine mem_addAll.mpr (.inl ?_)
  rw [hfalls]
  simp [hlt]

/-- What is live before a successor is live behind the instruction. -/
theorem mem_liveOut_of_successor (hi : code.instrs[pc]? = some i) {j : Nat}
    (hj : j ∈ code.successors pc i) (ht : t ∈ code.liveSets.liveIn j) :
    t ∈ code.liveSets.liveOut pc :=
  code.closed_liveSets.liveOut pc _ (getElem?_points hi) t
    (Flow.mem_liveOutAt.mpr (.inl ⟨j, hj, ht⟩))

/-- The result is live behind a jump to the exit. -/
theorem result_mem_liveOut (hi : code.instrs[pc]? = some i) (hexit : code.exit ∈ i.jumps) :
    code.frame.result ∈ code.liveSets.liveOut pc :=
  code.closed_liveSets.liveOut pc _ (getElem?_points hi) _
    (Flow.mem_liveOutAt.mpr (.inr ⟨decide_eq_true hexit, rfl⟩))

/-- What an instruction reads is live before it. -/
theorem mem_liveIn_of_use (hi : code.instrs[pc]? = some i) (ht : t ∈ i.uses) :
    t ∈ code.liveSets.liveIn pc :=
  code.closed_liveSets.liveIn pc _ (getElem?_points hi) t (Flow.mem_liveInAt.mpr (.inl ht))

/-- What is live behind an instruction that does not write it is live before it. -/
theorem mem_liveIn_of_liveOut (hi : code.instrs[pc]? = some i)
    (ht : t ∈ code.liveSets.liveOut pc) (hdef : t ∉ i.defs) : t ∈ code.liveSets.liveIn pc :=
  code.closed_liveSets.liveIn pc _ (getElem?_points hi) t
    (Flow.mem_liveInAt.mpr (.inr ⟨ht, hdef⟩))

/-- What is live where control goes is live behind the instruction from which it goes there. -/
theorem mem_liveOut_of_next {κ : Type} {sem : Semantics} {loc : Temp → κ} {s : Cpu κ} {q : Nat}
    (hi : code.instrs[pc]? = some i) (hnext : s.next sem code loc pc i = .running q)
    (ht : t ∈ code.liveSets.liveIn q) : t ∈ code.liveSets.liveOut pc := by
  rw [next] at hnext
  split at hnext
  · next l hl =>
    rw [goto] at hnext
    split at hnext
    · next j hj =>
      obtain rfl := Control.running.inj hnext
      exact mem_liveOut_of_successor hi (mem_successors_of_jump (mem_jumps_of_taken? hl) hj) ht
    · cases hnext
  · split at hnext
    · next hfalls =>
      obtain rfl := Control.running.inj hnext
      rcases Nat.lt_or_ge (pc + 1) code.instrs.length with hlt | hge
      · exact mem_liveOut_of_successor hi (mem_successors_of_fallsThrough hfalls hlt) ht
      · -- behind the last instruction nothing is live
        rw [← size_liveSets] at hge
        simp [LiveSets.liveIn, hge] at ht
    · cases hnext

-- ── Registers ────────────────────────────────────────────────────────────────

/-- The register that stands for a temporary. -/
def registerOf (code : Code) (t : Temp) : Nat := code.registers.getD t 0

/-- The registers fit the code: whatever an instruction or its live sets mention has a register,
    and the registers that an instruction writes are not those of others that are live behind it. -/
structure WellColored (code : Code) : Prop where
  registered : ∀ pc i, code.instrs[pc]? = some i →
    ∀ t, t ∈ i.uses ∨ t ∈ i.defs ∨ t ∈ code.liveSets.liveIn pc ∨ t ∈ code.liveSets.liveOut pc →
      t ∈ code.registers
  apart : ∀ pc i, code.instrs[pc]? = some i →
    ∀ d ∈ i.defs, ∀ t ∈ code.liveSets.liveOut pc, code.registerOf d = code.registerOf t → d = t

theorem mem_rows (hi : code.instrs[pc]? = some i) :
    (i, code.liveSets.getD pc {}) ∈ code.instrs.zip code.liveSets.toList := by
  have hlt : pc < code.instrs.length := (List.getElem?_eq_some_iff.mp hi).1
  have hlt' : pc < code.liveSets.size := code.size_liveSets ▸ hlt
  refine List.mem_of_getElem? (i := pc) (List.getElem?_zip_eq_some.mpr ⟨hi, ?_⟩)
  simp [hlt']

/-- What an instruction or its live sets mention is a node of the interference graph. -/
theorem mem_interference (hi : code.instrs[pc]? = some i)
    (ht : t ∈ i.uses ∨ t ∈ i.defs ∨ t ∈ code.liveSets.liveIn pc ∨ t ∈ code.liveSets.liveOut pc) :
    t ∈ code.interference.neighbours :=
  Interference.mem_compute_iff.mpr ⟨_, mem_rows hi, Interference.mem_mentioned.mpr ht⟩

/-- The registers that an attempt finds fit the code. -/
theorem wellColored_of_make {k : Nat} {a : Allocation}
    (hstuck : (Attempt.make k a.spills.temps a.code).selection.stuck = none) :
    WellColored
      (a.finish (Attempt.make k a.spills.temps a.code).selection.graph.assignments).code := by
  have hregistered : ∀ pc i, a.code.instrs[pc]? = some i → ∀ t, t ∈ i.uses ∨ t ∈ i.defs ∨
      t ∈ a.code.liveSets.liveIn pc ∨ t ∈ a.code.liveSets.liveOut pc →
      t ∈ (Attempt.make k a.spills.temps a.code).selection.graph.assignments := by
    intro pc i hi t ht
    exact Attempt.mem_assignments hstuck (mem_interference hi ht)
  refine ⟨hregistered, ?_⟩
  intro pc i hi d hd t ht heq
  refine Decidable.byContradiction fun hne => ?_
  have hadj : a.code.interference.Adj d t :=
    Interference.adj_of_def_of_liveOut (mem_rows hi) hd ht hne
  -- both have a register, and neighbours do not have the same one
  obtain ⟨r, hr⟩ := Option.isSome_iff_exists.mp (Std.ExtTreeMap.mem_iff_isSome_getElem?.mp
    (hregistered pc i hi d (.inr (.inl hd))))
  obtain ⟨q, hq⟩ := Option.isSome_iff_exists.mp (Std.ExtTreeMap.mem_iff_isSome_getElem?.mp
    (hregistered pc i hi t (.inr (.inr (.inr ht)))))
  have hrq : r = q := by
    rw [registerOf, registerOf, Std.ExtTreeMap.getD_eq_getD_getElem?,
      Std.ExtTreeMap.getD_eq_getD_getElem?] at heq
    simpa [Allocation.finish, hr, hq] using heq
  exact Attempt.proper_assignments hadj hr (hrq ▸ hq)

end Code

-- ── Both runs ────────────────────────────────────────────────────────────────

namespace Coloring

variable {sem : Semantics} {code : Code} {s : Cpu Temp} {s' : Cpu Nat}

/-- The states of the two runs belong together: control and memory are the same, and what is live
    where control is has the value of its register. -/
structure Agrees (code : Code) (s : Cpu Temp) (s' : Cpu Nat) : Prop where
  control : s'.control = s.control
  mem : s'.mem = s.mem
  live : ∀ pc, s.control = .running pc → ∀ t ∈ code.liveSets.liveIn pc,
    s'.file (code.registerOf t) = s.file t

/-- The same instruction comes next in states that agree. -/
theorem current?_of_agrees (h : Agrees code s s') : s'.current? code = s.current? code := by
  rw [current?, current?, h.control]

section Step

variable {pc : Nat} {i : Instr}

/-- The instruction gets the same sources in both states and so responds the same. -/
theorem response_eq (h : Agrees code s s') (hs : s.current? code = some (pc, i)) :
    s'.response sem code.registerOf i = s.response sem id i := by
  obtain ⟨hpc, hi⟩ := current?_eq_some hs
  have huses : i.uses.map (fun t => s'.file (code.registerOf t)) = i.uses.map s.file := by
    refine List.map_congr_left ?_
    intro t ht
    exact h.live pc hpc t (Code.mem_liveIn_of_use hi ht)
  rw [response, huses, h.mem]
  rfl

/-- The same jump is taken in both states. -/
theorem taken?_eq (h : Agrees code s s') (hs : s.current? code = some (pc, i)) :
    s'.taken? sem code.registerOf i = s.taken? sem id i := by
  rw [taken?, taken?, response_eq h hs]

/-- Control goes on to the same place in both states. -/
theorem next_eq (h : Agrees code s s') (hs : s.current? code = some (pc, i)) :
    s'.next sem code code.registerOf pc i = s.next sem code id pc i := by
  rw [next, next, taken?_eq h hs]

/-- Behind an instruction, what is live there has the value of its register. -/
theorem file_perform (hcode : code.WellColored) (h : Agrees code s s')
    (hs : s.current? code = some (pc, i)) {t : Temp} (ht : t ∈ code.liveSets.liveOut pc) :
    (s'.perform sem code.registerOf i).file (code.registerOf t) =
      (s.perform sem id i).file t := by
  obtain ⟨hpc, hi⟩ := current?_eq_some hs
  show writeAll (i.defs.map code.registerOf) _ s'.file (code.registerOf t) =
    writeAll (i.defs.map id) _ s.file t
  rw [response_eq h hs, List.map_id]
  refine writeAll_map _ _ _ _ _ _ ?_ ?_
  · intro d hd
    exact hcode.apart pc i hi d hd t ht
  · intro hdef
    exact h.live pc hpc t (Code.mem_liveIn_of_liveOut hi ht hdef)

end Step

/-- States still agree after a step: what the instruction overwrites is not live behind it. -/
theorem agrees_step (hcode : code.WellColored) (h : Agrees code s s') :
    Agrees code (s.step sem code id) (s'.step sem code code.registerOf) := by
  cases hs : s.current? code with
  | none =>
      have hs' := (current?_of_agrees h).trans hs
      rw [step_of_no_current hs, step_of_no_current hs']
      exact h
  | some current =>
      obtain ⟨pc, i⟩ := current
      have hs' := (current?_of_agrees h).trans hs
      rw [step_of_current hs, step_of_current hs']
      refine ⟨next_eq h hs, ?_, ?_⟩
      · show (s'.response sem code.registerOf i).mem = (s.response sem id i).mem
        rw [response_eq h hs]
      · intro q hq t ht
        exact file_perform hcode h hs
          (Code.mem_liveOut_of_next (current?_eq_some hs).2 hq ht)

/-- In states that agree, the function is left with the same value. -/
theorem exitValue?_eq (hcode : code.WellColored) (h : Agrees code s s') :
    s'.exitValue? sem code code.registerOf = s.exitValue? sem code id := by
  cases hs : s.current? code with
  | none =>
      have hs' := (current?_of_agrees h).trans hs
      rw [exitValue?, exitValue?, hs, hs']
      rfl
  | some current =>
      obtain ⟨pc, i⟩ := current
      have hs' := (current?_of_agrees h).trans hs
      rw [exitValue?, exitValue?, hs, hs']
      show (if s'.taken? sem code.registerOf i = some code.exit then _ else none) =
        if s.taken? sem id i = some code.exit then _ else none
      rw [taken?_eq h hs]
      split
      · next htaken =>
        have hlive := Code.result_mem_liveOut (current?_eq_some hs).2 (mem_jumps_of_taken? htaken)
        rw [step_of_current hs, step_of_current hs']
        exact congrArg some (file_perform hcode h hs hlive)
      · rfl

/-- States still agree after any number of steps. By induction on the steps. -/
theorem agrees_run (hcode : code.WellColored) (h : Agrees code s s') (n : Nat) :
    Agrees code (s.run sem code id n) (s'.run sem code code.registerOf n) := by
  induction n with
  | zero => exact h
  | succ n ih =>
      rw [run_add n 1, run_add n 1]
      exact agrees_step hcode ih

/-- **Registers stand for temporaries.** Code that allocation has finished does over registers what
    it does over temporaries: from states that agree on what is live at the start, after every
    number of steps control and memory are the same, everything live has the value of its register,
    and where control jumps to the exit label the register of the result holds the result. -/
theorem coloring_keeps_behaviour {ω : Type} (sem : Semantics) (k : Nat) (a a' : Allocation)
    (names : Supply) (h : ((a.allocate k : Emit ω _).run names).value = (.ok (), a'))
    (s : Cpu Temp) (s' : Cpu Nat) (hstart : Agrees a'.code s s') :
    (∀ pc i, a'.code.instrs[pc]? = some i → ∀ t, t ∈ i.uses ∨ t ∈ i.defs ∨
      t ∈ a'.code.liveSets.liveIn pc ∨ t ∈ a'.code.liveSets.liveOut pc → t ∈ a'.code.registers) ∧
    ∀ n, Agrees a'.code (s.run sem a'.code id n) (s'.run sem a'.code a'.code.registerOf n) ∧
      (s'.run sem a'.code a'.code.registerOf n).exitValue? sem a'.code a'.code.registerOf =
        (s.run sem a'.code id n).exitValue? sem a'.code id := by
  obtain ⟨a₁, hstuck, rfl⟩ := Allocation.attemptFrom_eq_ok h
  have hcode := Code.wellColored_of_make hstuck
  refine ⟨hcode.registered, ?_⟩
  intro n
  have hrun : Agrees _ (s.run sem _ id n) (s'.run sem _ (Code.registerOf _) n) :=
    agrees_run hcode hstart n
  exact ⟨hrun, exitValue?_eq hcode hrun⟩

/-- Adds up numbers in a loop that also writes a temporary which nothing reads. -/
def summing : Code where
  frame := ⟨.named "f", 1, 8, 0, ⟨0⟩, ⟨1⟩⟩
  entry := .named "f"
  exit := .named "exit"
  instrs := [.label (.named "top"), .plain (.alu .add) [⟨3⟩, ⟨0⟩] [⟨3⟩],
    .plain (.setLow 9) [] [⟨4⟩], .plain (.alu .sub) [⟨0⟩, ⟨2⟩] [⟨0⟩],
    .oper (.branchNonZero (.named "top")) [⟨0⟩] [] [.named "top"] true,
    .plain (.alu .sub) [⟨3⟩, ⟨2⟩] [⟨5⟩], .move .copy ⟨0⟩ ⟨5⟩,
    .oper (.jump (.named "exit")) [] [] [.named "exit"] false]

/-- What allocation with four registers makes of it. -/
def summed : Allocation :=
  ((Allocation.allocate 4 ⟨summing, {}⟩ : Emit Instr _).run { temps := 6 }).value.2

/-- A meaning of the operations that it uses. Any other operation jumps. -/
def summingMeaning : Semantics
  | .setLow field, _, mem => ⟨fun _ => Word.ofCount field, mem, none⟩
  | .alu .add, [x, y], mem => ⟨fun _ => x + y, mem, none⟩
  | .alu .sub, [x, y], mem => ⟨fun _ => x - y, mem, none⟩
  | .copy, [x], mem => ⟨fun _ => x, mem, none⟩
  | .branchNonZero _, [x], mem => ⟨fun _ => 0, mem, if x = 0 then none else some 0⟩
  | _, _, mem => ⟨fun _ => 0, mem, some 0⟩

/-- The temporaries at its start: it counts down from 4 by 2. -/
def summingTemps : Cpu Temp where
  control := .running 0
  file t := if t = ⟨0⟩ then 4 else if t = ⟨2⟩ then 2 else 0
  mem _ := 0

/-- The same numbers in the registers of these temporaries. -/
def summingRegisters : Cpu Nat where
  control := .running 0
  file r := if r = 3 then 4 else if r = 2 then 2 else 0
  mem _ := 0

/-- The dead temporary and one of the live ones share a register, the loop runs twice, and after
    12 steps control jumps to the exit with 4 in the register of the result. -/
theorem coloring_keeps_behaviour_summing :
    summed.code.registerOf ⟨4⟩ = summed.code.registerOf ⟨5⟩ ∧
    Agrees summed.code summingTemps summingRegisters ∧
    (summingRegisters.run summingMeaning summed.code summed.code.registerOf 12).exitValue?
      summingMeaning summed.code summed.code.registerOf = some 4 := by
  have hok : ((Allocation.allocate 4 ⟨summing, {}⟩ : Emit Instr _).run { temps := 6 }).value =
      (.ok (), summed) :=
    Allocation.eq_ok_of_isOk (by decide +kernel)
  have hstart : Agrees summed.code summingTemps summingRegisters := by
    refine ⟨rfl, rfl, ?_⟩
    intro pc hpc t ht
    obtain rfl := Control.running.inj hpc
    have hall : ∀ t ∈ (summed.code.liveSets.liveIn 0).toList,
        summingRegisters.file (summed.code.registerOf t) = summingTemps.file t := by
      decide +kernel
    exact hall t (Std.ExtTreeSet.mem_toList.mpr ht)
  have hexit : (summingTemps.run summingMeaning summed.code id 12).exitValue?
      summingMeaning summed.code id = some 4 := by
    decide +kernel
  have hkeeps := coloring_keeps_behaviour summingMeaning 4 _ _ _ hok _ _ hstart
  exact ⟨by decide +kernel, hstart, (hkeeps.2 12).2.trans hexit⟩

end Coloring

end MmixBackend
