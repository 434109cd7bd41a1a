import MmixBackend.Spill

/-!
# What spilling puts around an instruction

Spilling replaces each instruction by a *window*: loads, the instruction itself, and stores.
This file says which windows these are and that patching emits exactly them.

* **`Spill.window`** — the window of one instruction, from the distance of the slot and the
  number of the next fresh temporary alone.
* **`run_instrs_of_ok`** — patching a list of instructions emits their windows in order and
  takes as many temporaries as the windows need.
* **`run_instrs_of_error`** — if the distance of the slot does not fit in a word, patching ends
  well only where no instruction needs the slot, and then it changes nothing.
* **`touches_windows`** — a temporary of the windows was there before, or is the frame
  pointer, or is new, or is the result of the function that is loaded again.
-/

namespace MmixBackend

namespace Spill

-- ── Windows ──────────────────────────────────────────────────────────────────

/-- The address of the word `d` bytes below the frame pointer. -/
def addressCode (frame : Frame) (d : Word) (addr : Temp) : List Instr :=
  loadConst d addr ++ [.plain (.alu .sub) [frame.pointer, addr] [addr]]

/-- Loads the word `d` bytes below the frame pointer. -/
def loadCode (frame : Frame) (d : Word) (addr dst : Temp) : List Instr :=
  addressCode frame d addr ++ [.plain .load [addr] [dst]]

/-- Stores to the word `d` bytes below the frame pointer. -/
def storeCode (frame : Frame) (d : Word) (addr src : Temp) : List Instr :=
  addressCode frame d addr ++ [.plain .store [src, addr] []]

/-- An instruction with what spilling puts around it. -/
structure Window where
  before : List Instr
  main : Instr
  after : List Instr

/-- The instructions of a window. -/
def Window.instrs (w : Window) : List Instr := w.before ++ w.main :: w.after

/-- What loads the spilled temporary itself where control leaves with it. -/
def reloadCode (code : Code) (t : Temp) (d : Word) (n : Nat) (i : Instr) : List Instr :=
  if Reloads code t i then loadCode code.frame d ⟨n⟩ t else []

/-- The number of temporaries that `reloadCode` needs. -/
def reloadNeeds (code : Code) (t : Temp) (i : Instr) : Nat := if Reloads code t i then 1 else 0

/-- The window of an instruction that reads or writes the spilled temporary: number `n` takes its
    place. -/
def exchangeWindow (frame : Frame) (t : Temp) (d : Word) (n : Nat) (i : Instr) : Window where
  before := if t ∈ i.uses then loadCode frame d ⟨n + 1⟩ ⟨n⟩ else []
  main := (i.replaceUses t ⟨n⟩).replaceDefs t ⟨n⟩
  after :=
    if t ∈ i.defs then storeCode frame d ⟨if t ∈ i.uses then n + 2 else n + 1⟩ ⟨n⟩ else []

/-- The number of temporaries that `exchangeWindow` needs. -/
def exchangeNeeds (t : Temp) (i : Instr) : Nat :=
  1 + (if t ∈ i.uses then 1 else 0) + if t ∈ i.defs then 1 else 0

/-- The number of temporaries that the window of an instruction needs. -/
def tempsNeeded (code : Code) (t : Temp) (i : Instr) : Nat :=
  reloadNeeds code t i + if Touches t i then exchangeNeeds t i else 0

/-- The window of an instruction, for a slot `d` bytes below the frame pointer. Temporaries are
    taken from number `n` on. -/
def window (code : Code) (t : Temp) (d : Word) (n : Nat) (i : Instr) : Window :=
  let inner :=
    if Touches t i then exchangeWindow code.frame t d (n + reloadNeeds code t i) i
    else { before := [], main := i, after := [] }
  { inner with before := reloadCode code t d n i ++ inner.before }

/-- The windows of a list of instructions. -/
def windows (code : Code) (t : Temp) (d : Word) : Nat → List Instr → List Window
  | _, [] => []
  | n, i :: rest => window code t d n i :: windows code t d (n + tempsNeeded code t i) rest

/-- The number of temporaries that the windows of a list of instructions need. -/
def totalNeeded (code : Code) (t : Temp) : List Instr → Nat
  | [] => 0
  | i :: rest => tempsNeeded code t i + totalNeeded code t rest

/-- What patching an instruction reports. -/
def patchEvents (t : Temp) (i : Instr) (w : Window) : List Event :=
  if Touches t i then [.patched w.main] else []

-- ── Patching emits the windows ───────────────────────────────────────────────

variable {code : Code} {frame : Frame} {t : Temp} {slot : Nat} {d : Word} {f : Fault}

/-- Where the slot has a distance, the code for its address is written. -/
theorem run_slotAddress_of_ok (h : frame.slotDistance slot = .ok d) (s : Supply) :
    (slotAddress frame slot).run.run s =
      ⟨.ok ⟨s.temps⟩, addressCode frame d ⟨s.temps⟩, [], s.skip 1 0⟩ := by
  rw [slotAddress, h]
  simp only [Emit.run_bind_except, ExceptT.run_lift, ExceptT.run_mk, ExceptT.run_pure,
    Emit.run_map, Emit.run_freshTemp, Emit.run_pure, Emit.run_write]
  simp [Supply.freshTemp, Supply.skip, addressCode]

/-- Where it has none, nothing is written, and a temporary is handed out all the same. -/
theorem run_slotAddress_of_error (h : frame.slotDistance slot = .error f) (s : Supply) :
    (slotAddress frame slot).run.run s = ⟨.error f, [], [], s.skip 1 0⟩ := by
  rw [slotAddress, h]
  simp only [Emit.run_bind_except, ExceptT.run_lift, ExceptT.run_mk, Emit.run_map,
    Emit.run_freshTemp, Emit.run_pure]
  simp [Supply.freshTemp, Supply.skip]

/-- A load from the slot takes one temporary, for its address. -/
theorem run_loadSlot_of_ok (h : frame.slotDistance slot = .ok d) (dst : Temp) (s : Supply) :
    (loadSlot frame slot dst).run.run s =
      ⟨.ok (), loadCode frame d ⟨s.temps⟩ dst, [], s.skip 1 0⟩ := by
  rw [loadSlot, Emit.run_bind_except, run_slotAddress_of_ok h]
  simp [loadCode]

theorem run_loadSlot_of_error (h : frame.slotDistance slot = .error f) (dst : Temp) (s : Supply) :
    (loadSlot frame slot dst).run.run s = ⟨.error f, [], [], s.skip 1 0⟩ := by
  rw [loadSlot, Emit.run_bind_except, run_slotAddress_of_error h]

/-- So does a store to it. -/
theorem run_storeSlot_of_ok (h : frame.slotDistance slot = .ok d) (src : Temp) (s : Supply) :
    (storeSlot frame slot src).run.run s =
      ⟨.ok (), storeCode frame d ⟨s.temps⟩ src, [], s.skip 1 0⟩ := by
  rw [storeSlot, Emit.run_bind_except, run_slotAddress_of_ok h]
  simp [storeCode]

theorem run_storeSlot_of_error (h : frame.slotDistance slot = .error f) (src : Temp) (s : Supply) :
    (storeSlot frame slot src).run.run s = ⟨.error f, [], [], s.skip 1 0⟩ := by
  rw [storeSlot, Emit.run_bind_except, run_slotAddress_of_error h]

theorem run_reload_of_ok (h : code.frame.slotDistance slot = .ok d) (i : Instr) (s : Supply) :
    (reload code t slot i).run.run s =
      ⟨.ok (), reloadCode code t d s.temps i, [], s.skip (reloadNeeds code t i) 0⟩ := by
  by_cases hr : Reloads code t i
  · simp [reload, reloadCode, reloadNeeds, hr, run_loadSlot_of_ok h]
  · simp [reload, reloadCode, reloadNeeds, hr, Supply.skip]

/-- Exchanging the spilled temporary writes its window and reports the instruction in it. -/
theorem run_exchange_of_ok (h : frame.slotDistance slot = .ok d) (i : Instr) (s : Supply) :
    (exchange frame t slot i).run.run s =
      ⟨.ok (), (exchangeWindow frame t d s.temps i).instrs,
        [.patched (exchangeWindow frame t d s.temps i).main], s.skip (exchangeNeeds t i) 0⟩ := by
  by_cases hu : t ∈ i.uses <;> by_cases hd : t ∈ i.defs
  all_goals
    simp only [exchange, hu, hd, ↓reduceIte, Emit.run_bind_except, ExceptT.run_lift,
      ExceptT.run_pure, Emit.run_map, Emit.run_freshTemp, Emit.run_pure, Emit.run_report,
      Emit.run_write, run_loadSlot_of_ok h, run_storeSlot_of_ok h]
    simp [exchangeWindow, exchangeNeeds, Window.instrs, hu, hd, Supply.freshTemp, Supply.skip]

/-- What spilling writes for an instruction is its window. -/
theorem run_instr_of_ok (h : code.frame.slotDistance slot = .ok d) (i : Instr) (s : Supply) :
    (instr code t slot i).run.run s =
      ⟨.ok (), (window code t d s.temps i).instrs, patchEvents t i (window code t d s.temps i),
        s.skip (tempsNeeded code t i) 0⟩ := by
  rw [instr, Emit.run_bind_except, run_reload_of_ok h]
  by_cases ht : Touches t i
  · simp [ht, run_exchange_of_ok h, window, tempsNeeded, patchEvents, Window.instrs, Supply.skip,
      Nat.add_assoc]
  · simp [ht, window, tempsNeeded, patchEvents, Window.instrs]

/-- Patching emits the windows of the instructions in order. -/
theorem run_instrs_of_ok (h : code.frame.slotDistance slot = .ok d) (is : List Instr)
    (s : Supply) :
    ∃ events, (instrs code t slot is).run.run s =
      ⟨.ok (), (windows code t d s.temps is).flatMap Window.instrs, events,
        s.skip (totalNeeded code t is) 0⟩ := by
  induction is generalizing s with
  | nil => exact ⟨[], rfl⟩
  | cons i rest ih =>
    obtain ⟨events, hrest⟩ := ih (s.skip (tempsNeeded code t i) 0)
    refine ⟨patchEvents t i (window code t d s.temps i) ++ events, ?_⟩
    rw [instrs, Emit.run_bind_except, run_instr_of_ok h]
    simp only [hrest]
    simp [windows, totalNeeded, Supply.skip, Nat.add_assoc]

/-- An instruction that neither reloads nor touches the temporary stays as it is. -/
theorem run_instr_of_not (slot : Nat) {i : Instr} (hr : ¬ Reloads code t i) (ht : ¬ Touches t i)
    (s : Supply) : (instr code t slot i).run.run s = ⟨.ok (), [i], [], s⟩ := by
  simp [instr, reload, hr, ht]

/-- Where the slot is needed and has no address, patching fails. -/
theorem value_instr_of_error (h : code.frame.slotDistance slot = .error f) {i : Instr}
    (hi : Reloads code t i ∨ Touches t i) (s : Supply) :
    ((instr code t slot i).run.run s).value = .error f := by
  by_cases hr : Reloads code t i
  · rw [instr, Emit.run_bind_except, reload, if_pos hr, run_loadSlot_of_error h]
  · have ht : Touches t i := hi.resolve_left hr
    by_cases hu : t ∈ i.uses
    · simp only [instr, reload, exchange, hr, ht, hu, ↓reduceIte, Emit.run_bind_except,
        ExceptT.run_lift, ExceptT.run_pure, Emit.run_map, Emit.run_freshTemp, Emit.run_pure,
        run_loadSlot_of_error h]
    · have hd : t ∈ i.defs := ht.resolve_left hu
      simp [instr, reload, exchange, hr, ht, hu, hd, run_storeSlot_of_error h]

/-- If the slot has no address, patching ends well only where nothing needs it. -/
theorem run_instrs_of_error (h : code.frame.slotDistance slot = .error f) {is : List Instr}
    {s : Supply} (hok : ((instrs code t slot is).run.run s).value = .ok ()) :
    (instrs code t slot is).run.run s = ⟨.ok (), is, [], s⟩ := by
  induction is with
  | nil => rfl
  | cons i rest ih =>
    by_cases hi : Reloads code t i ∨ Touches t i
    · rw [instrs, Emit.run_bind_except, value_instr_of_error h hi] at hok
      cases hok
    · rw [not_or] at hi
      rw [instrs, Emit.run_bind_except, run_instr_of_not slot hi.1 hi.2] at hok ⊢
      simp [ih hok]

-- ── The temporaries of the windows ───────────────────────────────────────────

theorem touches_loadConst {d : Word} {dst u : Temp} {i : Instr} (hi : i ∈ loadConst d dst)
    (hu : Touches u i) : u = dst := by
  rcases mem_loadConst hi with ⟨field, -, rfl⟩ | ⟨part, field, -, rfl⟩ | rfl
  · simpa [Touches, Instr.plain, Instr.uses, Instr.defs] using hu
  · simpa [Touches, Instr.plain, Instr.uses, Instr.defs] using hu
  · simpa [Touches, Instr.plain, Instr.uses, Instr.defs] using hu

theorem touches_addressCode {addr u : Temp} {i : Instr} (hi : i ∈ addressCode frame d addr)
    (hu : Touches u i) : u = frame.pointer ∨ u = addr := by
  rcases List.mem_append.mp hi with hi | hi
  · exact .inr (touches_loadConst hi hu)
  · grind [Touches, Instr.uses, Instr.defs, Instr.plain]

theorem touches_loadCode {addr dst u : Temp} {i : Instr} (hi : i ∈ loadCode frame d addr dst)
    (hu : Touches u i) : u = frame.pointer ∨ u = addr ∨ u = dst := by
  rcases List.mem_append.mp hi with hi | hi
  · grind [touches_addressCode]
  · grind [Touches, Instr.uses, Instr.defs, Instr.plain]

theorem touches_storeCode {addr src u : Temp} {i : Instr} (hi : i ∈ storeCode frame d addr src)
    (hu : Touches u i) : u = frame.pointer ∨ u = addr ∨ u = src := by
  rcases List.mem_append.mp hi with hi | hi
  · grind [touches_addressCode]
  · grind [Touches, Instr.uses, Instr.defs, Instr.plain]

/-- After the exchange an instruction touches the new temporary instead of the spilled one. -/
theorem touches_replace {v u : Temp} {i : Instr}
    (hu : Touches u ((i.replaceUses t v).replaceDefs t v)) : u = v ∨ Touches u i ∧ u ≠ t := by
  cases i <;> grind [Touches, Instr.uses, Instr.defs, Instr.replaceUses, Instr.replaceDefs]

/-- A window touches what its instruction touches but the spilled temporary, the frame pointer, the
    result if it was spilled, and the temporaries made for the window. -/
theorem touches_window {n : Nat} {i j : Instr} {u : Temp}
    (hj : j ∈ (window code t d n i).instrs) (hu : Touches u j) :
    Touches u i ∧ u ≠ t ∨ u = code.frame.pointer ∨ u = t ∧ t = code.frame.result ∨
      n ≤ u.index ∧ u.index < n + tempsNeeded code t i := by
  by_cases hr : Reloads code t i <;> by_cases ht : Touches t i <;>
    by_cases hut : t ∈ i.uses <;> by_cases hd : t ∈ i.defs <;>
    simp [window, Window.instrs, reloadCode, reloadNeeds, exchangeWindow, hr, ht, hut, hd] at hj <;>
    grind [touches_loadCode, touches_storeCode, touches_replace, tempsNeeded, reloadNeeds,
      exchangeNeeds, Reloads]

/-- A temporary of the windows was there before and is not the spilled one, or is the frame
    pointer, or is the spilled result, or is new. -/
theorem touches_windows {n : Nat} {is : List Instr} {j : Instr} {u : Temp}
    (hj : j ∈ (windows code t d n is).flatMap Window.instrs) (hu : Touches u j) :
    (∃ i ∈ is, Touches u i) ∧ u ≠ t ∨ u = code.frame.pointer ∨ u = t ∧ t = code.frame.result ∨
      n ≤ u.index ∧ u.index < n + totalNeeded code t is := by
  induction is generalizing n with
  | nil => cases hj
  | cons i rest ih =>
    rw [windows, List.flatMap_cons, List.mem_append] at hj
    rw [totalNeeded]
    rcases hj with hj | hj
    · rcases touches_window hj hu with h | h | h | h
      · exact .inl ⟨⟨i, List.mem_cons_self, h.1⟩, h.2⟩
      · exact .inr (.inl h)
      · exact .inr (.inr (.inl h))
      · exact .inr (.inr (.inr ⟨h.1, by omega⟩))
    · rcases ih hj with ⟨⟨k, hk, h⟩, hne⟩ | h | h | h
      · exact .inl ⟨⟨k, List.mem_cons_of_mem _ hk, h⟩, hne⟩
      · exact .inr (.inl h)
      · exact .inr (.inr (.inl h))
      · exact .inr (.inr (.inr ⟨by omega, by omega⟩))

/-- Where nothing needs the slot, the windows are the instructions themselves. -/
theorem windows_of_not {n : Nat} {is : List Instr}
    (h : ∀ i ∈ is, ¬ Reloads code t i ∧ ¬ Touches t i) :
    (windows code t d n is).flatMap Window.instrs = is := by
  induction is generalizing n with
  | nil => rfl
  | cons i rest ih =>
    have hi := h i List.mem_cons_self
    rw [windows, List.flatMap_cons, ih fun j hj => h j (List.mem_cons_of_mem _ hj)]
    simp [window, Window.instrs, reloadCode, hi.1, hi.2]

end Spill

-- ── A successful spill ───────────────────────────────────────────────────────

/-- The temporaries handed out in between are those with a number in between. -/
theorem Spill.mem_tempsBetween {lo hi : Nat} {u : Temp} :
    u ∈ Spill.tempsBetween lo hi ↔ lo ≤ u.index ∧ u.index < hi := by
  rw [Spill.tempsBetween, List.mem_map]
  constructor
  · rintro ⟨n, hn, rfl⟩
    rw [List.mem_range'_1] at hn
    show lo ≤ n ∧ n < hi
    omega
  · rintro ⟨hlo, hhi⟩
    exact ⟨u.index, List.mem_range'_1.mpr ⟨hlo, by omega⟩, rfl⟩

theorem Spill.tempsBetween_self (n : Nat) : tempsBetween n n = [] := by
  rw [tempsBetween, Nat.sub_self]
  rfl

theorem Spill.tempsBetween_succ (n : Nat) : tempsBetween n (n + 1) = [⟨n⟩] := by
  rw [tempsBetween, Nat.add_sub_cancel_left]
  rfl

theorem Spill.tempsBetween_append {lo mid hi : Nat} (hlo : lo ≤ mid) (hhi : mid ≤ hi) :
    tempsBetween lo mid ++ tempsBetween mid hi = tempsBetween lo hi := by
  obtain ⟨x, rfl⟩ := Nat.exists_eq_add_of_le hlo
  obtain ⟨y, rfl⟩ := Nat.exists_eq_add_of_le hhi
  rw [tempsBetween, tempsBetween, tempsBetween, ← List.map_append, Nat.add_sub_cancel_left,
    Nat.add_sub_cancel_left, Nat.add_assoc, Nat.add_sub_cancel_left, List.range'_append_1]

theorem Spill.nodup_tempsBetween (lo hi : Nat) : (tempsBetween lo hi).Nodup := by
  refine List.Pairwise.map Temp.mk ?_ List.nodup_range'
  intro a b hne heq
  exact hne (Temp.mk.inj heq)

namespace Allocation

variable {ω : Type} {a a' : Allocation} {t : Temp} {s : Supply}

/-- What a successful spill leaves behind: the windows of the instructions, at least one of which
    needs the slot, and the new temporaries among those that must not be spilled. -/
theorem spill_eq_ok (h : ((a.spill t : Emit ω _).run s).value = (.ok (), a')) :
    ∃ d, a.code.frame.slotDistance (a.spills.slotOf t) = .ok d ∧
      a'.code.frame = a.code.frame ∧
      a'.code.instrs =
        (Spill.windows a.code t d s.temps a.code.instrs).flatMap Spill.Window.instrs ∧
      (∀ u, u ∈ a'.spills.temps ↔ u ∈ a.spills.temps ∨ u = t ∧ t = a.code.frame.result ∨
        s.temps ≤ u.index ∧ u.index < s.temps + Spill.totalNeeded a.code t a.code.instrs) ∧
      ∃ i ∈ a.code.instrs, Spill.Reloads a.code t i ∨ Spill.Touches t i := by
  rw [Emit.run, spill] at h
  cases hd : a.code.frame.slotDistance (a.spills.slotOf t) with
  | error f =>
    split at h
    · cases h
    · rename_i hok
      rw [Spill.run_instrs_of_error hd hok] at h
      simp at h
  | ok d =>
    obtain ⟨events, hrun⟩ := Spill.run_instrs_of_ok (t := t) hd a.code.instrs s
    simp only [hrun] at h
    split at h
    · rename_i hlen
      simp only [Prod.mk.injEq, true_and] at h
      subst h
      refine ⟨d, rfl, rfl, rfl, fun u => ?_, ?_⟩
      · rw [Std.ExtTreeSet.mem_insertMany_list, List.contains_iff_mem]
        by_cases hres : t = a.code.frame.result
        · rw [if_pos hres, List.mem_cons, Spill.mem_tempsBetween, Supply.skip]
          simp [Spills.reserve, hres]
        · rw [if_neg hres, Spill.mem_tempsBetween, Supply.skip]
          simp [Spills.reserve, hres]
      · refine Decidable.byContradiction fun hnone => ?_
        rw [Spill.windows_of_not fun i hi => ?_] at hlen
        · exact Nat.lt_irrefl _ hlen
        · exact not_or.mp fun hneeds => hnone ⟨i, hi, hneeds⟩
    · simp at h

end Allocation

end MmixBackend
