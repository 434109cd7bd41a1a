import MmixBackend.Proofs.TargetMeaning

/-!
# The target machine over temporaries

Here every operation has its meaning: arithmetic is modulo `2 ^ 64`, comparisons are signed, a
conditional set leaves its destination alone when the test fails, and memory is a word for each
address. Two things the machine takes as given: a division by something other than 0 gives
quotient and remainder toward zero, and a call finds its arguments in the words from the stack
pointer on and leaves its answer in the first of them.

A state remembers the labels, stores and calls it has come by. The stores that pass arguments are
among them; the other stores and the calls are the *effects*. As on the reference machine, a call
is answered by its number among the effects.

* **`Execution.step`** — one instruction.
* **`run_steady`** — instructions that only go on are carried out one after the other.
* **`performAll_loadConst`** — a constant is loaded, for every word.
-/

namespace MmixBackend

-- ── What a run takes as given ────────────────────────────────────────────────

/-- The surroundings of a run. -/
structure Setting where
  /-- The stack pointer. -/
  stack : Word
  /-- The address that each label stands for. -/
  address : Label → Word
  /-- How many words from the stack pointer on are for arguments. -/
  outgoing : Nat
  /-- Quotient and remainder. -/
  divide : Word → Word → Word × Word
  divide_eq : ∀ x y, y ≠ 0 → divide x y = (x / y, x % y)

namespace Setting

/-- The address of argument `i`. -/
def slot (set : Setting) (i : Nat) : Word := set.stack + Word.ofCount (i * 8)

/-- The address is one of those for arguments. -/
def Outgoing (set : Setting) (addr : Word) : Prop := ∃ i, i < set.outgoing ∧ addr = set.slot i

/-- The words for arguments are different words of the address space. -/
theorem slot_inj {set : Setting} {i j : Nat} (hspace : set.outgoing * 8 ≤ UInt64.size)
    (hi : i < set.outgoing) (hj : j < set.outgoing) (h : set.slot i = set.slot j) : i = j := by
  have hcount : Word.ofCount (i * 8) = Word.ofCount (j * 8) := by
    rw [slot, slot] at h
    exact (Int64.add_right_inj _).mp h
  have hbits : BitVec.ofNat 64 (i * 8) = BitVec.ofNat 64 (j * 8) := congrArg Int64.toBitVec hcount
  have hnat := congrArg BitVec.toNat hbits
  rw [BitVec.toNat_ofNat, BitVec.toNat_ofNat] at hnat
  rw [UInt64.size] at hspace
  omega

instance (set : Setting) (addr : Word) : Decidable (set.Outgoing addr) :=
  Nat.decidableExistsLT (p := fun i => addr = set.slot i) set.outgoing

end Setting

/-- Something that a run comes by. -/
inductive Seen where
  | label (l : Label)
  | store (addr value : Word)
  /-- A call, with the words from the stack pointer on. -/
  | call (f : Label) (args : Nat → Word)

namespace Seen

/-- Is it a call, or a store that does not pass an argument? -/
def isEffect (set : Setting) : Seen → Bool
  | .label _ => false
  | .store addr _ => ¬ set.Outgoing addr
  | .call .. => true

/-- The label that was come by. -/
def label? : Seen → Option Label
  | .label l => some l
  | _ => none

end Seen

/-- What the machine keeps, apart from where control is. -/
structure Target where
  file : Temp → Word
  mem : Memory
  /-- What the last division left behind. -/
  remainder : Word
  history : List Seen

namespace Target

-- ── Instructions ─────────────────────────────────────────────────────────────

/-- The labels that control has come by, in order. -/
def labels (s : Target) : List Label := s.history.filterMap Seen.label?

/-- The effects so far, in order. -/
def effects (set : Setting) (s : Target) : List Seen := s.history.filter (·.isEffect set)

/-- Another value in a temporary. -/
def put (s : Target) (t : Temp) (value : Word) : Target :=
  { s with file := Function.update s.file t value }

/-- Keeps in mind what was come by. -/
def note (s : Target) (seen : Seen) : Target := { s with history := s.history ++ [seen] }

/-- Stores a word. -/
def write (s : Target) (addr value : Word) : Target :=
  { s.note (.store addr value) with mem := Function.update s.mem addr value }

section Meaning

variable (set : Setting)

/-- Calls a function. -/
def call (s : Target) (f : Label) : Target :=
  let s' := s.note (.call f fun i => s.mem (set.slot i))
  let answer := 1000 + Word.ofCount (s'.effects set).length
  { s' with mem := Function.update s.mem (set.slot 0) answer }

/-- What a signed comparison gives. -/
def compared (x y : Word) : Word := if x < y then -1 else if y < x then 1 else 0

/-- The result of an operation that leaves all but its destination alone. -/
def value? (s : Target) : Operation → List Word → Option Word
  | .copy, [x] => some x
  | .setLow field, [] => some (Word.ofCount field)
  | .increase part field, [x] => some (x + Word.ofCount (field <<< part.shift))
  | .negate, [x] => some (0 - x)
  | .flip, [x] => some (x ^^^ 1)
  | .loadAddress l, [] => some (set.address l)
  | .alu .add, [x, y] => some (x + y)
  | .alu .sub, [x, y] => some (x - y)
  | .alu .mul, [x, y] => some (x * y)
  | .alu .and, [x, y] => some (x &&& y)
  | .alu .or, [x, y] => some (x ||| y)
  | .alu .xor, [x, y] => some (x ^^^ y)
  | .alu .cmp, [x, y] => some (compared x y)
  | .remainder, [] => some s.remainder
  | .load, [addr] => some (s.mem addr)
  | .loadResult, [] => some (s.mem (set.slot 0))
  | _, _ => none

/-- Carries out an operation on the values read. -/
def operate (s : Target) (op : Operation) (vals : List Word) (defs : List Temp) : Target :=
  match op, vals, defs with
  | .store, [x, addr], _ => s.write addr x
  | .storeArg i, [x], _ => s.write (set.slot i) x
  | .call _ f, _, _ => s.call set f
  | .setIf test value, x :: _, [dst] => if test.holds x then s.put dst (.ofBool value) else s
  | .alu .div, [x, y], [dst] =>
    { s.put dst (set.divide x y).1 with remainder := (set.divide x y).2 }
  | op, vals, [dst] =>
    match s.value? set op vals with
    | some value => s.put dst value
    | none => s
  | _, _, _ => s

/-- Carries out what an instruction does, apart from where control goes. -/
def perform (s : Target) : Instr → Target
  | .label l => s.note (.label l)
  | .move op dst src => s.operate set op [s.file src] [dst]
  | .oper op uses defs _ _ => s.operate set op (uses.map s.file) defs

/-- Carries out what instructions do. -/
def performAll (s : Target) (is : List Instr) : Target := is.foldl (perform set) s

end Meaning

/-- Where control goes from instruction number `pc`. -/
def next (code : Code) (s : Target) (pc : Nat) : Instr → Control
  | .oper (.jump target) _ _ _ _ => code.goto target
  | .oper (.branchNonZero target) [t] _ _ _ =>
    if s.file t ≠ 0 then code.goto target else .running (pc + 1)
  | _ => .running (pc + 1)

end Target

/-- A run on its way. -/
structure Execution where
  control : Control
  state : Target

namespace Execution

/-- Carries out one instruction. Where there is none, nothing happens. -/
def step (set : Setting) (code : Code) (e : Execution) : Execution :=
  match e.control with
  | .running pc =>
    match code.instrs[pc]? with
    | some i => ⟨e.state.next code pc i, e.state.perform set i⟩
    | none => e
  | _ => e

/-- The execution after a number of instructions. -/
def run (set : Setting) (code : Code) (n : Nat) (e : Execution) : Execution :=
  (step set code)^[n] e

end Execution

-- ── Small facts ──────────────────────────────────────────────────────────────

namespace Target

variable {set : Setting} {s : Target} {t dst : Temp}

@[simp] theorem put_self (s : Target) (t : Temp) : s.put t (s.file t) = s := by
  rw [put, Function.update_eq_self]

@[simp] theorem file_put_self (s : Target) (t : Temp) (x : Word) : (s.put t x).file t = x := by
  show Function.update s.file t x t = x
  rw [Function.update_self]

/-- The other temporaries keep their values. -/
theorem file_put_of_ne (s : Target) (h : t ≠ dst) (x : Word) :
    (s.put dst x).file t = s.file t := by
  show Function.update s.file dst x t = s.file t
  rw [Function.update_of_ne h]

@[simp] theorem performAll_cons (s : Target) (i : Instr) (is : List Instr) :
    s.performAll set (i :: is) = (s.perform set i).performAll set is := rfl

/-- Instructions are carried out one after the other. -/
theorem performAll_append (s : Target) (is js : List Instr) :
    s.performAll set (is ++ js) = (s.performAll set is).performAll set js :=
  List.foldl_append

-- ── Constants ────────────────────────────────────────────────────────────────

/-- The part of a state that a run over temporaries is about in general. -/
def cpu (s : Target) : Cpu Temp := ⟨.stuck, s.file, s.mem⟩

/-- A state is its general part, the remainder register and what was come by. -/
theorem ext_cpu {s s' : Target} (hcpu : s'.cpu = s.cpu) (hremainder : s'.remainder = s.remainder)
    (hhistory : s'.history = s.history) : s' = s := by
  cases s
  cases s'
  obtain ⟨-, rfl, rfl⟩ := Cpu.mk.inj hcpu
  obtain rfl := hremainder
  obtain rfl := hhistory
  rfl

/-- Instructions that load constants do to places and memory what they do in general, and nothing
    else. -/
theorem performAll_of_mem_loadConst (set : Setting) {value : Word} {is : List Instr}
    (his : ∀ i ∈ is, i ∈ loadConst value dst) (other : Semantics) (s : Target) :
    (s.performAll set is).cpu = s.cpu.performAll (machine other) id is ∧
      (s.performAll set is).remainder = s.remainder ∧
      (s.performAll set is).history = s.history := by
  induction is generalizing s with
  | nil => exact ⟨rfl, rfl, rfl⟩
  | cons i is ih =>
      obtain ⟨hi, htail⟩ := List.forall_mem_cons.mp his
      rcases mem_loadConst hi with ⟨field, -, rfl⟩ | ⟨part, field, -, rfl⟩ | rfl
      · exact ih htail (s.put dst (Word.ofCount field))
      · exact ih htail (s.put dst (s.file dst + Word.ofCount (field <<< part.shift)))
      · exact ih htail (s.put dst (0 - s.file dst))

/-- Loading a constant leaves it in the destination and changes nothing else. -/
theorem performAll_loadConst (s : Target) (value : Word) (dst : Temp) :
    s.performAll set (loadConst value dst) = s.put dst value := by
  have other : Semantics := fun _ _ mem => ⟨fun _ => 0, mem, none⟩
  obtain ⟨hcpu, hremainder, hhistory⟩ := performAll_of_mem_loadConst set (fun i hi => hi) other s
  refine ext_cpu ?_ hremainder hhistory
  rw [hcpu, Cpu.performAll_loadConst (mmix_machine other).toImmediate]
  rfl

end Target

namespace Execution

variable {set : Setting} {code : Code}

-- ── Instructions that only go on ─────────────────────────────────────────────

/-- Control goes on from the instruction in every state. -/
def Steady (i : Instr) : Prop :=
  ∀ (code : Code) (s : Target) (pc : Nat), s.next code pc i = .running (pc + 1)

/-- Instructions carried out in two portions are the same instructions. -/
theorem run_add (m n : Nat) (e : Execution) :
    e.run set code (m + n) = (e.run set code m).run set code n := by
  rw [run, Nat.add_comm, Function.iterate_add_apply]
  rfl

/-- A step carries out the instruction that control is at. -/
theorem step_of_getElem? {pc : Nat} {s : Target} {i : Instr} (h : code.instrs[pc]? = some i) :
    step set code ⟨.running pc, s⟩ = ⟨s.next code pc i, s.perform set i⟩ := by
  simp only [step, h]

/-- Instructions that only go on are carried out one after the other. -/
theorem run_steady (set : Setting) (s : Target) {is rest : List Instr} {pc : Nat}
    (hcode : code.instrs.drop pc = is ++ rest) (hsteady : ∀ i ∈ is, Steady i) :
    run set code is.length ⟨.running pc, s⟩ =
        ⟨.running (pc + is.length), s.performAll set is⟩ ∧
      code.instrs.drop (pc + is.length) = rest := by
  induction is generalizing s pc with
  | nil => exact ⟨rfl, hcode⟩
  | cons i is ih =>
      obtain ⟨hi, hcode'⟩ := drop_eq_cons_iff.mp hcode
      obtain ⟨hsteady, hrest⟩ := List.forall_mem_cons.mp hsteady
      have hlength : pc + 1 + is.length = pc + (i :: is).length := by
        rw [List.length_cons]
        omega
      have hstep : step set code ⟨.running pc, s⟩ = ⟨.running (pc + 1), s.perform set i⟩ := by
        rw [step_of_getElem? hi, hsteady]
      obtain ⟨hrun, hdrop⟩ := ih (s.perform set i) hcode' hrest
      rw [hlength] at hrun hdrop
      refine ⟨?_, hdrop⟩
      show run set code is.length (step set code ⟨.running pc, s⟩) = _
      rw [hstep, hrun, Target.performAll_cons]

end Execution

end MmixBackend
