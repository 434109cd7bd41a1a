import MmixBackend.Error
import MmixBackend.Instr.Select

/-!
# Spilling

A temporary for which there is no register moves to a slot of the stack frame. Each
instruction that reads or writes it gets a fresh *value* temporary instead, loaded from the
slot before a read and stored to it after a write; the address is computed anew each time.

The result of the function has to be in its register when control leaves: when it is spilled,
it is loaded again before each jump to the exit label.
-/

namespace MmixBackend

/-- What spilling has done so far. -/
structure Spills where
  /-- The slot of each spilled temporary. -/
  slots : TempMap Nat := ∅
  /-- The temporaries that must not be spilled any more. -/
  temps : TempSet := ∅

namespace Spills

/-- The slot of a temporary: its own, or else the next one. -/
def slotOf (s : Spills) (t : Temp) : Nat := s.slots.getD t s.slots.size

/-- Makes sure that a temporary has a slot. -/
def reserve (s : Spills) (t : Temp) : Spills :=
  { s with slots := s.slots.insertIfNew t s.slots.size }

/-- The bytes that the slots take. -/
def size (s : Spills) : Word := Word.ofCount (s.slots.size * 8)

end Spills

/-- A function during register allocation. -/
structure Allocation where
  code : Code
  spills : Spills

namespace Spill

/-- Patching emits instructions and stops when an address does not fit in a word. -/
abbrev Patch := ExceptT Fault (Emit Instr)

/-- The address of a slot, in a fresh temporary. -/
def slotAddress (frame : Frame) (slot : Nat) : Patch Temp := do
  let addr ← ExceptT.lift Emit.freshTemp
  let distance ← ExceptT.mk (pure (frame.slotDistance slot))
  ExceptT.lift (Emit.write (loadConst distance addr ++
    [.plain (.alu .sub) [frame.pointer, addr] [addr]]))
  return addr

/-- Loads a slot. -/
def loadSlot (frame : Frame) (slot : Nat) (dst : Temp) : Patch Unit := do
  let addr ← slotAddress frame slot
  ExceptT.lift (Emit.write [.plain .load [addr] [dst]])

/-- Stores to a slot. -/
def storeSlot (frame : Frame) (slot : Nat) (src : Temp) : Patch Unit := do
  let addr ← slotAddress frame slot
  ExceptT.lift (Emit.write [.plain .store [src, addr] []])

/-- Does control leave the function here, with the spilled temporary as its result? -/
def Reloads (code : Code) (t : Temp) (i : Instr) : Prop :=
  t = code.frame.result ∧ code.exit ∈ i.jumps

/-- Does the instruction read or write the temporary? -/
def Touches (t : Temp) (i : Instr) : Prop := t ∈ i.uses ∨ t ∈ i.defs

instance (code : Code) (t : Temp) (i : Instr) : Decidable (Reloads code t i) :=
  inferInstanceAs (Decidable (_ ∧ _))

instance (t : Temp) (i : Instr) : Decidable (Touches t i) := inferInstanceAs (Decidable (_ ∨ _))

/-- Loads the spilled temporary itself where control leaves with it. -/
def reload (code : Code) (t : Temp) (slot : Nat) (i : Instr) : Patch Unit :=
  if Reloads code t i then loadSlot code.frame slot t else return ()

/-- Puts a fresh value temporary in the place of the spilled one. -/
def exchange (frame : Frame) (t : Temp) (slot : Nat) (i : Instr) : Patch Unit := do
  let value ← ExceptT.lift Emit.freshTemp
  if t ∈ i.uses then loadSlot frame slot value
  let patched := (i.replaceUses t value).replaceDefs t value
  ExceptT.lift (Emit.report (.patched patched))
  ExceptT.lift (Emit.write [patched])
  if t ∈ i.defs then storeSlot frame slot value

/-- Patches one instruction of the function for a spilled temporary. -/
def instr (code : Code) (t : Temp) (slot : Nat) (i : Instr) : Patch Unit := do
  reload code t slot i
  if Touches t i then exchange code.frame t slot i else ExceptT.lift (Emit.write [i])

/-- Patches instructions in order. -/
def instrs (code : Code) (t : Temp) (slot : Nat) : List Instr → Patch Unit
  | [] => return ()
  | i :: rest => do
    instr code t slot i
    instrs code t slot rest

/-- The temporaries numbered from `lo` on and below `hi`. -/
def tempsBetween (lo hi : Nat) : List Temp := (List.range' lo (hi - lo)).map Temp.mk

end Spill

namespace Allocation

/-- Moves `t` to the stack. The temporaries that this creates must not be spilled later, nor may
    the result of the function once it was. It is an error if nothing mentions `t`. If the slot
    has no address, it stays reserved and the function is left without code. -/
def spill {ω : Type} (a : Allocation) (t : Temp) : Emit ω (Except Error Unit × Allocation) :=
  fun s =>
    let reserved := a.spills.reserve t
    let r := (Spill.instrs a.code t (a.spills.slotOf t) a.code.instrs).run.run s
    match r.value with
    | .error f =>
      let lost := { a with code := { a.code with instrs := [] }, spills := reserved }
      ⟨(.error (.fault f), lost), [], r.events, r.supply⟩
    | .ok () =>
      let created := Spill.tempsBetween s.temps r.supply.temps
      let marked := if t = a.code.frame.result then t :: created else created
      let spills := { reserved with temps := reserved.temps.insertMany marked }
      let code := { a.code with instrs := r.code, spillSize := spills.size }
      let outcome :=
        if a.code.instrs.length < r.code.length then .ok ()
        else .error (.stalled a.code.frame.label (.nothingAdded t))
      ⟨(outcome, { code, spills }), [], r.events, r.supply⟩

end Allocation

end MmixBackend
