import MmixBackend.Proofs.TargetMeaning
import MmixBackend.Proofs.TemplateText

/-!
# Loading constants exactly

A constant is loaded by its magnitude, sixteen bits at a time, and negated if it is negative. The
magnitude of the least word is no word itself, but its bits are, and negating them modulo `2 ^ 64`
gives the least word back. So what is in the destination at the end is the constant, whichever of
the 64-bit words it is and whatever was in the destination before.

* **`ImmediateText`** — how the instructions are written, with fields of sixteen bits.
* **`loadConst_exact`** — a run through the instructions leaves the constant in the destination, and
  they mention nothing else.
-/

namespace MmixBackend

open Instr

-- ── How the instructions are written ─────────────────────────────────────────

/-- How an operation that constants are made of is written, if its register is written `x`. -/
inductive ImmediateText (x : String) : Operation → String → Prop where
  | setLow {field : Nat} (h : field < 65536) :
    ImmediateText x (.setLow field) ("SETL " ++ x ++ "," ++ toString field)
  | increase {part : Part} {field : Nat} (h : field < 65536) :
    ImmediateText x (.increase part field) (part.mnemonic ++ " " ++ x ++ "," ++ toString field)
  | negate : ImmediateText x .negate ("NEG " ++ x ++ ",0," ++ x)

section Text

variable {name : Temp → String} {uses : List Temp} {dst : Temp}

theorem fillTemplate_destination :
    fillTemplate name " \x60d0," uses [dst] = .ok (" " ++ name dst ++ ",") := by
  have hparts : " \x60d0," = " " ++ "\x60d0" ++ "," := by decide
  have hblank : fillTemplate name " " uses [dst] = .ok " " := fillTemplate_plain (by decide)
  have hcomma : fillTemplate name "," uses [dst] = .ok "," := fillTemplate_plain (by decide)
  rw [hparts]
  exact fillTemplate_append (fillTemplate_append hblank (fillTemplate_target dst)) hcomma

/-- An operation with a field is written with its destination and the digits of the field. -/
theorem fillTemplate_field {mnemonic : String} (hplain : '\x60' ∉ mnemonic.toList) (field : Nat) :
    fillTemplate name (mnemonic ++ " \x60d0," ++ toString field) uses [dst] =
      .ok (mnemonic ++ " " ++ name dst ++ "," ++ toString field) := by
  have hmnemonic : fillTemplate name mnemonic uses [dst] = .ok mnemonic := fillTemplate_plain hplain
  have hfield : fillTemplate name (toString field) uses [dst] = .ok (toString field) :=
    fillTemplate_plain (backquote_not_mem_toString field)
  rw [fillTemplate_append (fillTemplate_append hmnemonic fillTemplate_destination) hfield]
  simp only [String.append_assoc]

/-- How the first instruction for a constant is written. -/
theorem fillTemplate_setLow (field : Nat) :
    fillTemplate name ("SETL \x60d0," ++ toString field) uses [dst] =
      .ok ("SETL " ++ name dst ++ "," ++ toString field) := by
  have hmnemonic : "SETL \x60d0," = "SETL" ++ " \x60d0," := by decide
  have hblank : "SETL " = "SETL" ++ " " := by decide
  have hplain : '\x60' ∉ "SETL".toList := by decide
  rw [hmnemonic, hblank, fillTemplate_field hplain field]

/-- How the last instruction for a negative constant is written. -/
theorem fillTemplate_negate (name : Temp → String) (dst : Temp) :
    fillTemplate name "NEG \x60d0,0,\x60s0" [dst] [dst] =
      .ok ("NEG " ++ name dst ++ ",0," ++ name dst) := by
  have hparts : "NEG \x60d0,0,\x60s0" = "NEG " ++ "\x60d0" ++ ",0," ++ "\x60s0" := by decide
  have hneg : fillTemplate name "NEG " [dst] [dst] = .ok "NEG " := fillTemplate_plain (by decide)
  have hzero : fillTemplate name ",0," [dst] [dst] = .ok ",0," := fillTemplate_plain (by decide)
  rw [hparts]
  have hdst := fillTemplate_append hneg (fillTemplate_target dst)
  exact fillTemplate_append (fillTemplate_append hdst hzero) (fillTemplate_source dst)

end Text

/-- Under every register assignment, the instructions that load a constant are written as they
    should be. -/
theorem render_loadConst {value : Word} {dst : Temp} {i : Instr} (hi : i ∈ loadConst value dst) :
    ∃ op uses, i = .plain op uses [dst] ∧ uses ⊆ [dst] ∧ ∀ registers, ∃ text,
      i.render registers = .ok text ∧ ImmediateText (operandText registers dst) op text := by
  rcases mem_loadConst hi with ⟨field, hfield, rfl⟩ | ⟨part, field, hfield, rfl⟩ | rfl
  · refine ⟨.setLow field, [], rfl, List.nil_subset _, fun registers => ?_⟩
    exact ⟨_, fillTemplate_setLow field, .setLow hfield⟩
  · refine ⟨.increase part field, [dst], rfl, List.Subset.refl _, fun registers => ?_⟩
    have hplain : '\x60' ∉ part.mnemonic.toList := by cases part <;> decide
    exact ⟨_, fillTemplate_field hplain field, .increase hfield⟩
  · refine ⟨.negate, [dst], rfl, List.Subset.refl _, fun registers => ?_⟩
    exact ⟨_, fillTemplate_negate (operandText registers) dst, .negate⟩

-- ── What they do ─────────────────────────────────────────────────────────────

/-- The instructions for a constant follow one another without a jump. -/
theorem straight_of_mem_loadConst {value : Word} {dst : Temp} {i : Instr}
    (hi : i ∈ loadConst value dst) : i.Straight := by
  obtain ⟨op, uses, rfl, -⟩ := render_loadConst hi
  exact ⟨rfl, rfl⟩

/-- **Constants are loaded exactly.** Let setting, increasing and negating do what they do on the
    machine. Wherever the instructions that load a word stand in a code, a run through them leaves
    the word in their destination, goes on behind them and changes nothing else, whatever the
    temporaries and the memory hold before. The first of them reads nothing; each of them reads at
    most the destination, writes it and nothing else, and is written with a field below `2 ^ 16`. -/
theorem loadConst_exact {sem : Semantics} (hsem : Immediate sem) (value : Word) (dst : Temp) :
    (∀ (code : Code) (pc : Nat) (rest : List Instr) (s : Cpu Temp), s.control = .running pc →
      code.instrs.drop pc = loadConst value dst ++ rest →
      s.run sem code id (loadConst value dst).length =
        { s.put dst value with control := .running (pc + (loadConst value dst).length) }) ∧
    (∃ field rest, loadConst value dst = .plain (.setLow field) [] [dst] :: rest) ∧
    ∀ i ∈ loadConst value dst, ∃ op uses, i = .plain op uses [dst] ∧ uses ⊆ [dst] ∧
      ∀ registers, ∃ text, i.render registers = .ok text ∧
        ImmediateText (operandText registers dst) op text := by
  refine ⟨?_, ⟨_, _, rfl⟩, fun i hi => render_loadConst hi⟩
  intro code pc rest s hs hcode
  obtain ⟨hrun, -⟩ := Cpu.run_straight hs hcode fun i hi => straight_of_mem_loadConst hi
  rw [hrun, Cpu.performAll_loadConst hsem]

/-- Loads the least word and does nothing more. -/
def loadsLeast : Code where
  frame := ⟨.named "f", 1, 0, 0, ⟨0⟩, ⟨1⟩⟩
  entry := .named "f"
  exit := .named "exit"
  instrs := loadConst Int64.minValue ⟨0⟩

/-- Something is in every temporary already. -/
def loadsLeastStart : Cpu Temp where
  control := .running 0
  file _ := -77
  mem _ := 5

/-- Operations other than those of `machine` do nothing. -/
def still : Semantics := machine fun _ _ mem => ⟨fun _ => 0, mem, none⟩

/-- Of the magnitude of the least word only the highest field is not zero, so that three
    instructions load it. -/
theorem loadConst_exact_least :
    Immediate still ∧ loadsLeast.instrs.length = 3 ∧
      loadsLeastStart.run still loadsLeast id 3 =
        { loadsLeastStart.put ⟨0⟩ Int64.minValue with control := .running 3 } := by
  have hstill : Immediate still := (mmix_machine _).toImmediate
  have hlength : (loadConst Int64.minValue ⟨0⟩).length = 3 := by decide
  obtain ⟨hrun, -⟩ := loadConst_exact hstill Int64.minValue ⟨0⟩
  have hleast := hrun loadsLeast 0 [] loadsLeastStart rfl (List.append_nil _).symm
  rw [hlength] at hleast
  exact ⟨hstill, hlength, hleast⟩

end MmixBackend
