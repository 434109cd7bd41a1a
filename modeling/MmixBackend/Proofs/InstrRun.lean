import Mathlib.Logic.Function.Iterate
import MmixBackend.Finite
import MmixBackend.Liveness

/-!
# Running instructions

What an instruction does is left open: a `Semantics` says, for each operation, which values it
writes, what it makes of the memory and which of the instruction's labels it jumps to, given the
values it reads and the memory. A run keeps values in *places*: over temporaries the place of a
temporary is the temporary itself, over registers it is its register.

* **`Cpu.step`** — one instruction: read, respond, write, and go to the label chosen or on.
* **`Cpu.collect`** — what is observed during a number of steps: which instructions are carried
  out, and what the result of the function is whenever control jumps to the exit label.
* **`writeAll_map`** — writing to renamed places is writing, seen through the renaming, as long as
  no other place that is written gets the same name.
* **`run_straight`** — instructions without jumps are carried out one after the other.
-/

namespace MmixBackend

-- ── What operations do ───────────────────────────────────────────────────────

/-- The memory of the target machine, by words. -/
abbrev Memory := Word → Word

/-- What an operation comes to: a value for each place it writes, by number, the memory behind it
    and the number of the label that control jumps to, if it does not go on. -/
structure Response where
  values : Nat → Word
  mem : Memory
  choice : Option Nat

/-- What each operation does with the values it reads and the memory. -/
abbrev Semantics := Operation → List Word → Memory → Response

/-- What an instruction does; a label does nothing. -/
def Instr.respond (sem : Semantics) (i : Instr) (vals : List Word) (mem : Memory) : Response :=
  match i with
  | .label _ => ⟨fun _ => 0, mem, none⟩
  | .move op _ _ => sem op vals mem
  | .oper op _ _ _ _ => sem op vals mem

/-- Control goes on from the instruction, and nowhere else. -/
def Instr.Straight (i : Instr) : Prop := i.jumps = [] ∧ i.fallsThrough = true

/-- Where control is. -/
inductive Control where
  | running (pc : Nat)
  /-- Gone to a label that the function does not define. -/
  | left (l : Label)
  /-- Behind an instruction that neither jumped nor goes on. -/
  | stuck
  deriving DecidableEq, Repr

/-- Where a jump to a label leads. -/
def Code.goto (code : Code) (l : Label) : Control :=
  match code.position? l with
  | some pc => .running pc
  | none => .left l

-- ── Steps ────────────────────────────────────────────────────────────────────

/-- The state of a run. -/
structure Cpu (κ : Type) where
  control : Control
  file : κ → Word
  mem : Memory

variable {κ : Type}

namespace Cpu

section Choice

variable (sem : Semantics) (code : Code) (loc : Temp → κ)

/-- What an instruction does in this state. -/
def response (s : Cpu κ) (i : Instr) : Response :=
  i.respond sem (i.uses.map fun t => s.file (loc t)) s.mem

/-- The label that control jumps to from an instruction. -/
def taken? (s : Cpu κ) (i : Instr) : Option Label :=
  (s.response sem loc i).choice.bind (i.jumps[·]?)

/-- Where control goes from instruction number `pc`. -/
def next (s : Cpu κ) (pc : Nat) (i : Instr) : Control :=
  match s.taken? sem loc i with
  | some l => code.goto l
  | none => if i.fallsThrough then .running (pc + 1) else .stuck

/-- The instruction that comes next, with its number. -/
def current? (s : Cpu κ) : Option (Nat × Instr) :=
  match s.control with
  | .running pc => code.instrs[pc]?.map (pc, ·)
  | _ => none

/-- The number of the instruction that is carried out. -/
def executed? (s : Cpu κ) : Option Nat := (s.current? code).map Prod.fst

variable {sem code loc}

theorem current?_of_running {s : Cpu κ} {pc : Nat} {i : Instr} (hs : s.control = .running pc)
    (hi : code.instrs[pc]? = some i) : s.current? code = some (pc, i) := by
  rw [current?, hs]
  show code.instrs[pc]?.map (pc, ·) = _
  rw [hi]
  rfl

/-- The instruction that comes next is the one where control is. -/
theorem current?_eq_some {s : Cpu κ} {pc : Nat} {i : Instr} (h : s.current? code = some (pc, i)) :
    s.control = .running pc ∧ code.instrs[pc]? = some i := by
  rw [current?] at h
  split at h
  · next pc' hs =>
    obtain ⟨j, hj, heq⟩ := Option.map_eq_some_iff.mp h
    obtain ⟨rfl, rfl⟩ := Prod.mk.inj heq
    exact ⟨hs, hj⟩
  · cases h

/-- Control jumps only to labels of the instruction. -/
theorem mem_jumps_of_taken? {s : Cpu κ} {i : Instr} {l : Label}
    (h : s.taken? sem loc i = some l) : l ∈ i.jumps := by
  obtain ⟨k, -, hk⟩ := Option.bind_eq_some_iff.mp h
  exact List.mem_of_getElem? hk

/-- Control does not jump from a straight instruction. -/
theorem taken?_of_straight {s : Cpu κ} {i : Instr} (hi : i.Straight) :
    s.taken? sem loc i = none := by
  rw [taken?, hi.1]
  cases (s.response sem loc i).choice with
  | none => rfl
  | some k => rfl

end Choice

end Cpu

variable [DecidableEq κ]

/-- Writes the values to the places in order. -/
def writeAll : List κ → (Nat → Word) → (κ → Word) → κ → Word
  | [], _, file => file
  | k :: ks, values, file =>
    writeAll ks (fun n => values (n + 1)) (Function.update file k (values 0))

/-- Other places keep their values. -/
theorem writeAll_of_not_mem {ks : List κ} {k : κ} (h : k ∉ ks) (values : Nat → Word)
    (file : κ → Word) : writeAll ks values file k = file k := by
  induction ks generalizing values file with
  | nil => rfl
  | cons k' ks ih =>
      rw [List.mem_cons, not_or] at h
      rw [writeAll, ih h.2, Function.update_of_ne h.1]

/-- Writing to renamed places is writing to the places, as far as the renaming tells them apart. -/
theorem writeAll_map {ι : Type} [DecidableEq ι] (rename : ι → κ) (ks : List ι) (u : ι)
    (file : ι → Word) (file' : κ → Word) (values : Nat → Word)
    (hinj : ∀ k ∈ ks, rename k = rename u → k = u)
    (heq : u ∉ ks → file' (rename u) = file u) :
    writeAll (ks.map rename) values file' (rename u) = writeAll ks values file u := by
  induction ks generalizing values file file' with
  | nil => exact heq List.not_mem_nil
  | cons k ks ih =>
      rw [List.map_cons, writeAll, writeAll]
      refine ih _ _ _ (fun x hx => hinj x (List.mem_cons_of_mem _ hx)) ?_
      intro hu
      by_cases hk : k = u
      · rw [hk, Function.update_self, Function.update_self]
      · have hne : rename u ≠ rename k := by
          intro h
          exact hk (hinj k List.mem_cons_self h.symm)
        rw [Function.update_of_ne hne, Function.update_of_ne (Ne.symm hk)]
        refine heq ?_
        rw [List.mem_cons, not_or]
        exact ⟨Ne.symm hk, hu⟩

namespace Cpu

variable (sem : Semantics) (code : Code) (loc : Temp → κ)

/-- Carries out what an instruction does to places and memory. -/
def perform (s : Cpu κ) (i : Instr) : Cpu κ :=
  { s with
    file := writeAll (i.defs.map loc) (s.response sem loc i).values s.file
    mem := (s.response sem loc i).mem }

/-- Carries out what instructions do to places and memory. -/
def performAll (s : Cpu κ) (is : List Instr) : Cpu κ := is.foldl (perform sem loc) s

/-- Carries out one instruction. Where there is none, nothing happens. -/
def step (s : Cpu κ) : Cpu κ :=
  match s.current? code with
  | some (pc, i) => { s.perform sem loc i with control := s.next sem code loc pc i }
  | none => s

/-- The result of the function, if the instruction carried out jumps to the exit label. -/
def exitValue? (s : Cpu κ) : Option Word :=
  (s.current? code).bind fun (_, i) =>
    if s.taken? sem loc i = some code.exit then
      some ((s.step sem code loc).file (loc code.frame.result))
    else none

/-- The state after a number of steps. -/
def run (n : Nat) (s : Cpu κ) : Cpu κ := (step sem code loc)^[n] s

/-- What is observed during a number of steps. -/
def collect {α : Type} (observe : Cpu κ → Option α) : Nat → Cpu κ → List α
  | 0, _ => []
  | n + 1, s => (observe s).toList ++ collect observe n (s.step sem code loc)

variable {sem code loc}

/-- Steps taken in two portions are the same steps. -/
theorem run_add (m n : Nat) (s : Cpu κ) :
    s.run sem code loc (m + n) = (s.run sem code loc m).run sem code loc n := by
  rw [run, Nat.add_comm, Function.iterate_add_apply]
  rfl

/-- What is observed in two portions of steps is observed one after the other. -/
theorem collect_add {α : Type} (observe : Cpu κ → Option α) (m n : Nat) (s : Cpu κ) :
    s.collect sem code loc observe (m + n) =
      s.collect sem code loc observe m ++
        (s.run sem code loc m).collect sem code loc observe n := by
  induction m generalizing s with
  | zero =>
      rw [Nat.zero_add]
      rfl
  | succ m ih =>
      rw [Nat.add_right_comm, collect, ih, collect, List.append_assoc]
      rfl

theorem collect_succ {α : Type} (observe : Cpu κ → Option α) (n : Nat) (s : Cpu κ) :
    s.collect sem code loc observe (n + 1) =
      s.collect sem code loc observe n ++ (observe (s.run sem code loc n)).toList := by
  rw [collect_add]
  exact congrArg (_ ++ ·) (List.append_nil _)

/-- A step carries out the instruction that comes next and moves control. -/
theorem step_of_current {s : Cpu κ} {pc : Nat} {i : Instr} (h : s.current? code = some (pc, i)) :
    s.step sem code loc = { s.perform sem loc i with control := s.next sem code loc pc i } := by
  rw [step, h]

/-- Where no instruction comes next, a step changes nothing. -/
theorem step_of_no_current {s : Cpu κ} (h : s.current? code = none) :
    s.step sem code loc = s := by
  rw [step, h]

/-- Once no instruction comes next, a run stays as it is. -/
theorem run_of_no_current {s : Cpu κ} {n : Nat}
    (h : (s.run sem code loc n).current? code = none) (k : Nat) :
    s.run sem code loc (n + k) = s.run sem code loc n := by
  induction k with
  | zero => rfl
  | succ k ih =>
      rw [← Nat.add_assoc, run_add (n + k) 1, ih]
      exact step_of_no_current h

-- ── Instructions without jumps ───────────────────────────────────────────────

/-- Behind a straight instruction, control is at the next one. -/
theorem step_of_straight {s : Cpu κ} {pc : Nat} {i : Instr} (h : s.current? code = some (pc, i))
    (hi : i.Straight) :
    s.step sem code loc = { s.perform sem loc i with control := .running (pc + 1) } := by
  rw [step_of_current h, next, taken?_of_straight hi]
  show ({ s.perform sem loc i with
    control := if i.fallsThrough then .running (pc + 1) else .stuck } : Cpu κ) = _
  rw [if_pos hi.2]

/-- A straight instruction does not leave the function. -/
theorem exitValue?_of_straight {s : Cpu κ} {pc : Nat} {i : Instr}
    (h : s.current? code = some (pc, i)) (hi : i.Straight) :
    s.exitValue? sem code loc = none := by
  rw [exitValue?, h]
  show (if s.taken? sem loc i = some code.exit then _ else none) = none
  rw [taken?_of_straight hi, if_neg nofun]

/-- What instructions do does not depend on where control is. -/
theorem performAll_control (s : Cpu κ) (c : Control) (is : List Instr) :
    performAll sem loc { s with control := c } is =
      { s.performAll sem loc is with control := c } := by
  induction is generalizing s with
  | nil => rfl
  | cons i is ih => exact ih (s.perform sem loc i)

/-- Instructions without jumps are carried out one after the other, and none leaves the
    function. -/
theorem run_straight {is rest : List Instr} {pc : Nat} {s : Cpu κ} (hs : s.control = .running pc)
    (hcode : code.instrs.drop pc = is ++ rest) (hstraight : ∀ i ∈ is, i.Straight) :
    s.run sem code loc is.length =
      { s.performAll sem loc is with control := .running (pc + is.length) } ∧
    s.collect sem code loc (executed? code) is.length = List.range' pc is.length ∧
    s.collect sem code loc (exitValue? sem code loc) is.length = [] := by
  induction is generalizing s pc with
  | nil =>
      refine ⟨?_, rfl, rfl⟩
      show s = { s with control := .running pc }
      rw [← hs]
  | cons i is ih =>
      obtain ⟨hi, hcode'⟩ := drop_eq_cons_iff.mp hcode
      have hcurrent := current?_of_running hs hi
      have hstep : s.step sem code loc =
          { s.perform sem loc i with control := .running (pc + 1) } :=
        step_of_straight hcurrent (hstraight i List.mem_cons_self)
      have hcontrol : (s.step sem code loc).control = .running (pc + 1) := by rw [hstep]
      obtain ⟨hrun, hexecuted, hexits⟩ :=
        ih hcontrol hcode' fun j hj => hstraight j (List.mem_cons_of_mem _ hj)
      refine ⟨?_, ?_, ?_⟩
      · have hsucc : s.run sem code loc (is.length + 1) =
            (s.step sem code loc).run sem code loc is.length := rfl
        rw [List.length_cons, hsucc, hrun, hstep, performAll_control, Nat.add_right_comm,
          Nat.add_assoc]
        rfl
      · rw [List.length_cons, collect, hexecuted, executed?, hcurrent]
        rfl
      · rw [List.length_cons, collect, hexits,
          exitValue?_of_straight hcurrent (hstraight i List.mem_cons_self)]
        rfl

end Cpu

end MmixBackend
