import MmixBackend.Instr.Select
import MmixBackend.Proofs.InstrRun

/-!
# What the machine's own operations mean

The semantics of instructions is a parameter of the theory. `Mmix` says of such a semantics that
the operations which constants and spill slots are made of do what they do on the machine, where
arithmetic is modulo `2 ^ 64` and a load or a store accesses the octabyte around its address.

* **`performAll_loadConst`** — the instructions that load a constant leave exactly this constant in
  their destination, for every word.
-/

namespace MmixBackend

/-- The address of the octabyte around an address: its three lowest bits do not matter. -/
def octabyte (addr : Word) : Word := addr &&& (-8)

/-- An operation with one result gives this value and leaves this memory behind. -/
def Response.Gives (r : Response) (value : Word) (mem : Memory) : Prop :=
  r.values 0 = value ∧ r.mem = mem

/-- The operations that constants are made of have the machine's meaning. -/
structure Immediate (sem : Semantics) : Prop where
  setLow : ∀ (field : Nat) (mem : Memory), field < 65536 →
    (sem (.setLow field) [] mem).Gives (Word.ofCount field) mem
  increase : ∀ (part : Part) (field : Nat) (x : Word) (mem : Memory), field < 65536 →
    (sem (.increase part field) [x] mem).Gives (x + Word.ofCount (field <<< part.shift)) mem
  negate : ∀ (x : Word) (mem : Memory), (sem .negate [x] mem).Gives (0 - x) mem

/-- The operations that constants and spill slots are made of have the machine's meaning. -/
structure Mmix (sem : Semantics) : Prop extends Immediate sem where
  sub : ∀ (x y : Word) (mem : Memory), (sem (.alu .sub) [x, y] mem).Gives (x - y) mem
  load : ∀ (addr : Word) (mem : Memory), (sem .load [addr] mem).Gives (mem (octabyte addr)) mem
  store : ∀ (x addr : Word) (mem : Memory),
    (sem .store [x, addr] mem).mem = Function.update mem (octabyte addr) x

/-- The machine's meaning of these operations, beside any meaning of the other ones. -/
def machine (other : Semantics) (op : Operation) (vals : List Word) (mem : Memory) : Response :=
  match op, vals with
  | .setLow field, _ => ⟨fun _ => Word.ofCount field, mem, none⟩
  | .increase part field, [x] => ⟨fun _ => x + Word.ofCount (field <<< part.shift), mem, none⟩
  | .negate, [x] => ⟨fun _ => 0 - x, mem, none⟩
  | .alu .sub, [x, y] => ⟨fun _ => x - y, mem, none⟩
  | .load, [addr] => ⟨fun _ => mem (octabyte addr), mem, none⟩
  | .store, [x, addr] => ⟨fun _ => 0, Function.update mem (octabyte addr) x, none⟩
  | _, _ => other op vals mem

/-- The machine's operations have the machine's meaning, whatever the others mean. -/
theorem mmix_machine (other : Semantics) : Mmix (machine other) where
  setLow _ _ _ := ⟨rfl, rfl⟩
  increase _ _ _ _ _ := ⟨rfl, rfl⟩
  negate _ _ := ⟨rfl, rfl⟩
  sub _ _ _ := ⟨rfl, rfl⟩
  load _ _ := ⟨rfl, rfl⟩
  store _ _ _ := rfl

namespace Cpu

variable {sem : Semantics}

theorem performAll_append {κ : Type} [DecidableEq κ] (loc : Temp → κ) (s : Cpu κ)
    (is js : List Instr) :
    s.performAll sem loc (is ++ js) = (s.performAll sem loc is).performAll sem loc js :=
  List.foldl_append

/-- Another value in a temporary. -/
def put (s : Cpu Temp) (t : Temp) (value : Word) : Cpu Temp :=
  { s with file := Function.update s.file t value }

@[simp] theorem put_self (s : Cpu Temp) (t : Temp) : s.put t (s.file t) = s := by
  rw [put, Function.update_eq_self]

@[simp] theorem put_put (s : Cpu Temp) (t : Temp) (x y : Word) :
    (s.put t x).put t y = s.put t y := by
  simp only [put, Function.update_idem]

@[simp] theorem file_put_self (s : Cpu Temp) (t : Temp) (x : Word) : (s.put t x).file t = x := by
  show Function.update s.file t x t = x
  rw [Function.update_self]

/-- The other temporaries keep their values. -/
theorem file_put_of_ne (s : Cpu Temp) {t u : Temp} (h : u ≠ t) (x : Word) :
    (s.put t x).file u = s.file u := by
  show Function.update s.file t x u = s.file u
  rw [Function.update_of_ne h]

/-- An operation with one result puts it in its destination and changes nothing else. -/
theorem perform_plain {s : Cpu Temp} {op : Operation} {uses : List Temp} {dst : Temp}
    {value : Word} (h : (sem op (uses.map s.file) s.mem).Gives value s.mem) :
    s.performAll sem id [.plain op uses [dst]] = s.put dst value := by
  obtain ⟨hvalue, hmem⟩ := h
  show ({ s.put dst ((sem op (uses.map s.file) s.mem).values 0) with
    mem := (sem op (uses.map s.file) s.mem).mem } : Cpu Temp) = _
  rw [hvalue, hmem]
  rfl

/-- Another word in memory. -/
def putMem (s : Cpu Temp) (addr value : Word) : Cpu Temp :=
  { s with mem := Function.update s.mem addr value }

/-- A store changes the octabyte around its address. -/
theorem perform_store (hsem : Mmix sem) (s : Cpu Temp) (src addr : Temp) :
    s.performAll sem id [.plain .store [src, addr] []] =
      s.putMem (octabyte (s.file addr)) (s.file src) := by
  have hstore := hsem.store (s.file src) (s.file addr) s.mem
  rw [putMem, ← hstore]
  rfl

-- ── Constants ────────────────────────────────────────────────────────────────

/-- Whether or not its field is zero, a part of a magnitude is added to the destination. -/
theorem performAll_addPart (hsem : Immediate sem) (s : Cpu Temp) (magnitude : Nat) (dst : Temp)
    (part : Part) :
    s.performAll sem id (addPart magnitude dst part) =
      s.put dst (s.file dst + Word.ofCount (constField magnitude part.shift <<< part.shift)) := by
  rw [addPart]
  split
  · next hzero =>
    have hsame : s.file dst + Word.ofCount (constField magnitude part.shift <<< part.shift) =
        s.file dst := by
      rw [hzero, Nat.zero_shiftLeft]
      exact Int64.add_zero _
    rw [hsame, put_self]
    rfl
  · exact perform_plain (hsem.increase part _ (s.file dst) s.mem (constField_lt _ _))

/-- The last instruction for a constant gives it its sign. -/
theorem performAll_negateIf (hsem : Immediate sem) (s : Cpu Temp) (value : Word) (dst : Temp) :
    s.performAll sem id (if value < 0 then [.plain .negate [dst] [dst]] else []) =
      s.put dst (if value < 0 then 0 - s.file dst else s.file dst) := by
  split
  · exact perform_plain (hsem.negate (s.file dst) s.mem)
  · exact (put_self s dst).symm

/-- The four fields of a magnitude of 64 bits make up the magnitude. -/
theorem sum_constField {magnitude : Nat} (h : magnitude < UInt64.size) :
    Word.ofCount (constField magnitude 0) +
      Word.ofCount (constField magnitude Part.mediumLow.shift <<< Part.mediumLow.shift) +
      Word.ofCount (constField magnitude Part.mediumHigh.shift <<< Part.mediumHigh.shift) +
      Word.ofCount (constField magnitude Part.high.shift <<< Part.high.shift) =
        Word.ofCount magnitude := by
  have hsum : constField magnitude 0 +
      constField magnitude Part.mediumLow.shift <<< Part.mediumLow.shift +
      constField magnitude Part.mediumHigh.shift <<< Part.mediumHigh.shift +
      constField magnitude Part.high.shift <<< Part.high.shift = magnitude := by
    rw [UInt64.size] at h
    simp only [constField, Part.shift]
    omega
  simp only [Word.ofCount]
  rw [← Int64.ofNat_add, ← Int64.ofNat_add, ← Int64.ofNat_add, hsum]

/-- A word is its magnitude with its sign, the least word included. -/
theorem word_of_magnitude (value : Word) :
    (if value < 0 then 0 - Word.ofCount value.toInt.natAbs
      else Word.ofCount value.toInt.natAbs) = value := by
  have hzero : (0 : Word).toInt = 0 := rfl
  rw [Word.ofCount, ← Int64.ofInt_eq_ofNat]
  simp only [Int64.lt_iff_toInt_lt, hzero]
  split
  · have hnat : -((value.toInt.natAbs : Nat) : Int) = value.toInt := by omega
    rw [Int64.zero_sub, ← Int64.ofInt_neg, hnat, Int64.ofInt_toInt]
  · have hnat : ((value.toInt.natAbs : Nat) : Int) = value.toInt := by omega
    rw [hnat, Int64.ofInt_toInt]

/-- Loading a constant leaves it in the destination and changes nothing else. -/
theorem performAll_loadConst (hsem : Immediate sem) (s : Cpu Temp) (value : Word) (dst : Temp) :
    s.performAll sem id (loadConst value dst) = s.put dst value := by
  have hmagnitude : value.toInt.natAbs < UInt64.size := by
    rw [UInt64.size]
    have hlt := value.toInt_lt
    have hle := value.le_toInt
    omega
  have hset : s.performAll sem id [.plain (.setLow (constField value.toInt.natAbs 0)) [] [dst]] =
      s.put dst (Word.ofCount (constField value.toInt.natAbs 0)) :=
    perform_plain (hsem.setLow _ s.mem (constField_lt _ _))
  show s.performAll sem id ([.plain (.setLow _) [] [dst]] ++ addPart _ dst .mediumLow ++
    addPart _ dst .mediumHigh ++ addPart _ dst .high ++
    if value < 0 then [.plain .negate [dst] [dst]] else []) = _
  rw [performAll_append, performAll_append, performAll_append, performAll_append, hset,
    performAll_addPart hsem, performAll_addPart hsem, performAll_addPart hsem,
    performAll_negateIf hsem]
  simp only [put_put, file_put_self, sum_constField hmagnitude, word_of_magnitude]

end Cpu

end MmixBackend
