import MmixBackend.Spill

/-!
# What steps of code generation leave behind

A step emits items, reports events and has a value. If each kind of thing that a step can leave
behind has a property on its own, a sequence of steps leaves behind nothing else, whatever names it
is given and wherever it stops.

* **`Leaves.bind`**, **`LeavesOk.bind`** — one step after another, without and with failure.
* **`Preserved`** — a property that code keeps when it is patched; **`leaves_instrs`** that it does,
  instruction by instruction, and **`leaves_spill`** for a whole spill.
-/

namespace MmixBackend

/-- The instructions that an event shows. -/
def Event.instrs : Event → List Instr
  | .liveSets rows => rows.map (·.instr)
  | .patched i => [i]
  | _ => []

-- ── Steps ────────────────────────────────────────────────────────────────────

namespace Emit

variable {ω ω' α β ε : Type} {P : ω → Prop} {Q : Event → Prop} {V : α → Prop} {W : β → Prop}

/-- Whatever names there are, the step emits items with the first property, reports events with the
    second one and has a value with the third one. -/
structure Leaves (P : ω → Prop) (Q : Event → Prop) (V : α → Prop) (x : Emit ω α) : Prop where
  code : ∀ s, ∀ i ∈ (x.run s).code, P i
  events : ∀ s, ∀ e ∈ (x.run s).events, Q e
  value : ∀ s, V (x.run s).value

/-- A step that emits and reports nothing leaves only its value. -/
theorem leaves_value {x : Emit ω α} (hcode : ∀ s, (x.run s).code = [])
    (hevents : ∀ s, (x.run s).events = []) (h : ∀ s, V (x.run s).value) : Leaves P Q V x := by
  refine ⟨fun s i hi => ?_, fun s e he => ?_, h⟩
  · rw [hcode] at hi
    cases hi
  · rw [hevents] at he
    cases he

theorem leaves_pure {a : α} (h : V a) : Leaves P Q V (pure a) :=
  leaves_value (fun _ => rfl) (fun _ => rfl) fun _ => h

theorem leaves_freshTemp : Leaves P Q (fun _ => True) freshTemp :=
  leaves_value (fun _ => rfl) (fun _ => rfl) fun _ => trivial

theorem leaves_freshLabel {V : Label → Prop} (h : ∀ n, V (.fresh n)) :
    Leaves P Q V (freshLabel : Emit ω Label) :=
  leaves_value (fun _ => rfl) (fun _ => rfl) fun s => h s.labels

/-- Written items are left as they were given. -/
theorem leaves_write {items : List ω} (h : ∀ i ∈ items, P i) :
    Leaves P Q (fun _ => True) (write items) :=
  ⟨fun _ => h, fun _ _ he => absurd he List.not_mem_nil, fun _ => trivial⟩

/-- Reported events are left as they were given. -/
theorem leaves_reportAll {es : List Event} (h : ∀ e ∈ es, Q e) :
    Leaves P Q (fun _ => True) (reportAll es) :=
  ⟨fun _ _ hi => absurd hi List.not_mem_nil, fun _ => h, fun _ => trivial⟩

theorem leaves_report {e : Event} (h : Q e) : Leaves P Q (fun _ => True) (report e) :=
  leaves_reportAll (List.forall_mem_singleton.mpr h)

/-- What both of two steps leave, they leave together. -/
theorem Leaves.bind {x : Emit ω α} {f : α → Emit ω β} (hx : Leaves P Q V x)
    (hf : ∀ a, V a → Leaves P Q W (f a)) : Leaves P Q W (x >>= f) := by
  constructor
  · intro s
    exact List.forall_mem_append.mpr ⟨hx.code s, (hf _ (hx.value s)).code _⟩
  · intro s
    exact List.forall_mem_append.mpr ⟨hx.events s, (hf _ (hx.value s)).events _⟩
  · intro s
    exact (hf _ (hx.value s)).value _

/-- Events with a property have a weaker one. -/
theorem Leaves.mono_events {Q' : Event → Prop} {x : Emit ω α} (hx : Leaves P Q V x)
    (h : ∀ e, Q e → Q' e) : Leaves P Q' V x :=
  ⟨hx.code, fun s e he => h e (hx.events s e he), hx.value⟩

/-- Items that are handed over become part of the value. -/
theorem Leaves.collect {P' : ω' → Prop} {x : Emit ω α} (hx : Leaves P Q V x) :
    Leaves P' Q (fun r => (∀ i ∈ r.1, P i) ∧ V r.2) (collect x : Emit ω' (List ω × α)) :=
  ⟨fun _ _ hi => absurd hi List.not_mem_nil, hx.events, fun s => ⟨hx.code s, hx.value s⟩⟩

-- ── Steps that may fail ──────────────────────────────────────────────────────

/-- The step leaves such items and events behind also if it fails, and such a value if it does
    not. -/
def LeavesOk (P : ω → Prop) (Q : Event → Prop) (V : α → Prop) (x : ExceptT ε (Emit ω) α) : Prop :=
  Leaves P Q (fun r => ∀ a, r = .ok a → V a) x.run

theorem leavesOk_pure {a : α} (h : V a) : LeavesOk P Q V (pure a : ExceptT ε (Emit ω) α) :=
  leaves_pure fun _ hb => Except.ok.inj hb ▸ h

theorem leavesOk_throw (e : ε) : LeavesOk P Q V (throw e : ExceptT ε (Emit ω) α) := by
  refine leaves_pure ?_
  intro a ha
  cases ha

/-- A step that only ends or fails. -/
theorem leavesOk_mk {r : Except ε α} (h : ∀ a, r = .ok a → V a) :
    LeavesOk P Q V (ExceptT.mk (pure r) : ExceptT ε (Emit ω) α) := leaves_pure h

/-- A step that cannot fail leaves what it leaves. -/
theorem Leaves.lift {x : Emit ω α} (hx : Leaves P Q V x) :
    LeavesOk P Q V (ExceptT.lift x : ExceptT ε (Emit ω) α) := by
  rw [LeavesOk, ExceptT.run_lift, map_eq_pure_bind]
  exact hx.bind fun a ha => leaves_pure fun _ hb => Except.ok.inj hb ▸ ha

/-- If the first of two steps fails, it leaves what it has left so far. -/
theorem LeavesOk.bind {x : ExceptT ε (Emit ω) α} {f : α → ExceptT ε (Emit ω) β}
    (hx : LeavesOk P Q V x) (hf : ∀ a, V a → LeavesOk P Q W (f a)) : LeavesOk P Q W (x >>= f) := by
  rw [LeavesOk, ExceptT.run_bind]
  refine Leaves.bind hx ?_
  intro r hr
  cases r with
  | ok a => exact hf a (hr a rfl)
  | error e =>
      refine leaves_pure ?_
      intro b hb
      cases hb

/-- One step after another, of which the first one has no value of interest. -/
theorem LeavesOk.andThen {x : ExceptT ε (Emit ω) Unit} {y : ExceptT ε (Emit ω) β}
    (hx : LeavesOk P Q (fun _ => True) x) (hy : LeavesOk P Q W y) :
    LeavesOk P Q W (x >>= fun _ => y) := hx.bind fun _ _ => hy

/-- A step that is left out leaves nothing. -/
theorem leavesOk_when {p : Prop} [Decidable p] {x : ExceptT ε (Emit ω) Unit}
    (hx : LeavesOk P Q (fun _ => True) x) :
    LeavesOk P Q (fun _ => True) (if p then x else pure ()) := by
  split
  · exact hx
  · exact leavesOk_pure trivial

end Emit

-- ── Patching ─────────────────────────────────────────────────────────────────

namespace Spill

open Emit

/-- All that patching puts in has the first property, which is not lost by putting a new temporary
    in the place of another one. The report about that has the second property. -/
structure Preserved (P : Instr → Prop) (Q : Event → Prop) : Prop where
  const : ∀ value dst, ∀ i ∈ loadConst value dst, P i
  sub : ∀ x y dst, P (.plain (.alu .sub) [x, y] [dst])
  load : ∀ addr dst, P (.plain .load [addr] [dst])
  store : ∀ src addr, P (.plain .store [src, addr] [])
  patched : ∀ i t v, P i → P ((i.replaceUses t v).replaceDefs t v)
  report : ∀ i t v, P i → Q (.patched ((i.replaceUses t v).replaceDefs t v))

variable {P : Instr → Prop} {Q : Event → Prop}

/-- Computing the address of a slot puts in instructions with the property. -/
theorem leaves_slotAddress (h : Preserved P Q) (frame : Frame) (slot : Nat) :
    LeavesOk P Q (fun _ => True) (slotAddress frame slot) := by
  refine leaves_freshTemp.lift.bind fun addr _ => ?_
  refine (leavesOk_mk (V := fun _ => True) fun _ _ => trivial).bind fun d _ => ?_
  refine (leaves_write (List.forall_mem_append.mpr ⟨h.const d addr, ?_⟩)).lift.andThen
    (leavesOk_pure trivial)
  exact List.forall_mem_singleton.mpr (h.sub _ _ _)

/-- Loading a slot puts in instructions with the property. -/
theorem leaves_loadSlot (h : Preserved P Q) (frame : Frame) (slot : Nat) (dst : Temp) :
    LeavesOk P Q (fun _ => True) (loadSlot frame slot dst) := by
  refine (leaves_slotAddress h frame slot).bind fun addr _ => ?_
  exact (leaves_write (List.forall_mem_singleton.mpr (h.load addr dst))).lift

/-- Storing to a slot puts in instructions with the property. -/
theorem leaves_storeSlot (h : Preserved P Q) (frame : Frame) (slot : Nat) (src : Temp) :
    LeavesOk P Q (fun _ => True) (storeSlot frame slot src) := by
  refine (leaves_slotAddress h frame slot).bind fun addr _ => ?_
  exact (leaves_write (List.forall_mem_singleton.mpr (h.store src addr))).lift

/-- An instruction keeps the property when a value temporary takes the place of the spilled one. -/
theorem leaves_exchange (h : Preserved P Q) (frame : Frame) (t : Temp) (slot : Nat) {i : Instr}
    (hi : P i) : LeavesOk P Q (fun _ => True) (exchange frame t slot i) := by
  refine leaves_freshTemp.lift.bind fun v _ => ?_
  have hpatched := leaves_write (Q := Q) (List.forall_mem_singleton.mpr (h.patched i t v hi))
  have hrest := (leaves_report (h.report i t v hi)).lift.andThen (hpatched.lift.andThen
    (leavesOk_when (p := t ∈ i.defs) (leaves_storeSlot h frame slot v)))
  dsimp only
  split
  · exact (leaves_loadSlot h frame slot v).andThen hrest
  · exact hrest

/-- Patching an instruction keeps the property. -/
theorem leaves_instr (h : Preserved P Q) (code : Code) (t : Temp) (slot : Nat) {i : Instr}
    (hi : P i) : LeavesOk P Q (fun _ => True) (instr code t slot i) := by
  refine (leavesOk_when (leaves_loadSlot h code.frame slot t)).andThen ?_
  split
  · exact leaves_exchange h code.frame t slot hi
  · exact (leaves_write (List.forall_mem_singleton.mpr hi)).lift

/-- Patching instructions keeps the property, whether or not it goes through. -/
theorem leaves_instrs (h : Preserved P Q) (code : Code) (t : Temp) (slot : Nat) {is : List Instr}
    (his : ∀ i ∈ is, P i) : LeavesOk P Q (fun _ => True) (instrs code t slot is) := by
  induction is with
  | nil => exact leavesOk_pure trivial
  | cons i is ih =>
      obtain ⟨hi, hrest⟩ := List.forall_mem_cons.mp his
      exact (leaves_instr h code t slot hi).andThen (ih hrest)

end Spill

/-- Code keeps the property when a temporary is spilled, and what is reported has the other one. If
    there is no address for the slot, no code is left. -/
theorem Allocation.leaves_spill {ω : Type} {P : Instr → Prop} {Q : Event → Prop} {a : Allocation}
    (h : Spill.Preserved P Q) (ha : ∀ i ∈ a.code.instrs, P i) (t : Temp) (s : Supply) :
    (∀ i ∈ ((a.spill t : Emit ω _).run s).value.2.code.instrs, P i) ∧
      ∀ e ∈ ((a.spill t : Emit ω _).run s).events, Q e := by
  have hpatched := Spill.leaves_instrs h a.code t (a.spills.slotOf t) ha
  rw [Emit.run, spill]
  dsimp only
  split
  · exact ⟨List.forall_mem_nil _, hpatched.events s⟩
  · exact ⟨hpatched.code s, hpatched.events s⟩

end MmixBackend
