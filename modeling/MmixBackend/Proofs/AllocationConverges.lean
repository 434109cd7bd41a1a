import MmixBackend.Proofs.SelectedCode
import MmixBackend.Proofs.SpillMeaning
import MmixBackend.Proofs.SpillRewrap

/-!
# Allocation of selected code succeeds

An attempt gets stuck on a temporary that may still be spilled and that some instruction needs.
Spilling it adds instructions and leaves one temporary fewer that may be spilled. So attempts go on
until one succeeds; the only other end is a slot whose distance does not fit in a word.

* **`needed_of_mem_interference`** — only temporaries that some instruction needs are in the graph.
* **`spill_of_ok`**, **`spill_of_error`** — a spill of such a temporary succeeds if its slot has a
  distance, and fails for that reason only.
* **`Progressing.spill`** — what allocation relies on from one attempt to the next.
* **`attemptFrom_converges`** — all attempts.
* **`spilling_always_succeeds`** — all of it, from the flat code of a function.
-/

namespace MmixBackend

-- ── What is in the graph ─────────────────────────────────────────────────────

open Spill

/-- Some instruction reads or writes the temporary, or leaves the function with it. -/
def Code.Needs (code : Code) (t : Temp) : Prop :=
  ∃ i ∈ code.instrs, Reloads code t i ∨ Touches t i

namespace Code

variable {code : Code} {t : Temp}

/-- Only what is needed is live. -/
theorem within_needs (code : Code) :
    Flow.Within (fun _ => code.Needs) (fun _ => code.Needs) code.liveSets := by
  refine within_liveSets ⟨?_, ?_, ?_, ?_⟩
  · intro _ _ _ _ _ _ h
    exact h
  · intro pc p hp hexits
    obtain ⟨i, hi, rfl⟩ := getElem?_instrs_of_points hp
    exact ⟨i, List.mem_of_getElem? hi, .inl ⟨rfl, of_decide_eq_true hexits⟩⟩
  · intro pc p hp t huse
    obtain ⟨i, hi, rfl⟩ := getElem?_instrs_of_points hp
    exact ⟨i, List.mem_of_getElem? hi, .inr (.inl huse)⟩
  · intro _ _ _ _ h _
    exact h

/-- Only what is needed is a node of the interference graph. -/
theorem needed_of_mem_interference (h : t ∈ code.interference.neighbours) : code.Needs t := by
  obtain ⟨row, hrow, hmem⟩ := Interference.mem_compute_iff.mp h
  obtain ⟨pc, hi, hlive⟩ := getElem?_of_mem_rows hrow
  have hinstr := List.mem_of_getElem? hi
  rcases Interference.mem_mentioned.mp hmem with huse | hdef | hin | hout
  · exact ⟨row.1, hinstr, .inr (.inl huse)⟩
  · exact ⟨row.1, hinstr, .inr (.inr hdef)⟩
  · rw [← hlive] at hin
    exact code.within_needs.liveIn pc t hin
  · rw [← hlive] at hout
    exact code.within_needs.liveOut pc t hout

end Code

/-- Colouring gets stuck only at a temporary that is needed. -/
theorem Attempt.needed_of_stuck {k : Nat} {spillTemps : TempSet} {code : Code} {t : Temp}
    (h : (make k spillTemps code).selection.stuck = some t) : code.Needs t := by
  have hmem := ColorGraph.mem_of_stuck_selectAll h
  obtain ⟨p, hp, rfl⟩ := List.mem_map.mp (List.mem_reverse.mp hmem)
  have hactive := ColorGraph.mem_active_of_mem_simplify hp
  refine Code.needed_of_mem_interference ?_
  simp only [ColorGraph.ofInterference, Std.ExtTreeSet.mem_ofList, List.contains_iff_mem,
    List.mem_filter] at hactive
  exact Std.ExtTreeMap.mem_keys.mp hactive.1

-- ── One spill ────────────────────────────────────────────────────────────────

namespace Spill

variable {code : Code} {t : Temp} {d : Word} {n slot : Nat} {f : Fault} {is : List Instr}

/-- No instruction is patched away. -/
theorem length_window_pos (code : Code) (t : Temp) (d : Word) (n : Nat) (i : Instr) :
    0 < (window code t d n i).instrs.length := by
  rw [Window.instrs, List.length_append, List.length_cons]
  omega

/-- The window of an instruction that needs the slot has more than the instruction. -/
theorem one_lt_length_window {i : Instr} (h : Reloads code t i ∨ Touches t i) :
    1 < (window code t d n i).instrs.length := by
  have hload : ∀ addr dst, 0 < (loadCode code.frame d addr dst).length := by
    intro addr dst
    rw [loadCode, List.length_append]
    exact Nat.lt_add_left _ Nat.one_pos
  have hstore : ∀ addr src, 0 < (storeCode code.frame d addr src).length := by
    intro addr src
    rw [storeCode, List.length_append]
    exact Nat.lt_add_left _ Nat.one_pos
  rw [Window.instrs, List.length_append, List.length_cons, window_before, window_after, reloadCode,
    List.length_append]
  rcases h with hreload | huse | hdef
  · rw [if_pos hreload]
    have hpos := hload ⟨n⟩ t
    omega
  · rw [if_pos huse]
    have hpos := hload ⟨n + reloadNeeds code t i + 1⟩ (valueTemp code t n i)
    omega
  · rw [if_pos hdef]
    have hpos := hstore ⟨if t ∈ i.uses then n + reloadNeeds code t i + 2
      else n + reloadNeeds code t i + 1⟩ (valueTemp code t n i)
    omega

/-- Patching does not make the code shorter. -/
theorem length_le_patched (code : Code) (t : Temp) (d : Word) (n : Nat) (is : List Instr) :
    is.length ≤ (patched code t d n is).length := by
  induction is generalizing n with
  | nil => exact Nat.le_refl 0
  | cons i is ih =>
      have hpos := length_window_pos code t d n i
      have hrest := ih (n + tempsNeeded code t i)
      show is.length + 1 ≤ ((window code t d n i).instrs ++
        patched code t d (n + tempsNeeded code t i) is).length
      rw [List.length_append]
      omega

/-- Patching makes the code longer if some instruction needs the spilled temporary. -/
theorem length_lt_patched (h : ∃ i ∈ is, Reloads code t i ∨ Touches t i) (n : Nat) :
    is.length < (patched code t d n is).length := by
  obtain ⟨i, hi, hneeds⟩ := h
  obtain ⟨before, after, rfl⟩ := List.append_of_mem hi
  have hbefore := length_le_patched code t d n before
  rw [patched_append, List.length_append, List.length_append]
  have hone := one_lt_length_window (d := d) (n := n + totalNeeded code t before) hneeds
  have hafter := length_le_patched code t d
    (n + totalNeeded code t before + tempsNeeded code t i) after
  show _ < _ + ((window code t d (n + totalNeeded code t before) i).instrs ++
    patched code t d (n + totalNeeded code t before + tempsNeeded code t i) after).length
  rw [List.length_append, List.length_cons]
  omega

/-- If some instruction needs the spilled temporary, patching asks for a fresh one. -/
theorem totalNeeded_pos (h : ∃ i ∈ is, Reloads code t i ∨ Touches t i) :
    0 < totalNeeded code t is := by
  obtain ⟨i, hi, hneeds⟩ := h
  obtain ⟨before, after, rfl⟩ := List.append_of_mem hi
  have hpos : 0 < tempsNeeded code t i := by
    rw [tempsNeeded, reloadNeeds]
    rcases hneeds with hreload | htouch
    · rw [if_pos hreload]
      omega
    · rw [if_pos htouch, exchangeNeeds]
      omega
  rw [totalNeeded_append, totalNeeded]
  omega

/-- If the slot is too far away, spilling a temporary that is needed fails. -/
theorem value_instrs_of_error (h : code.frame.slotDistance slot = .error f)
    (hneeds : ∃ i ∈ is, Reloads code t i ∨ Touches t i) (s : Supply) :
    ((instrs code t slot is).run.run s).value = .error f := by
  induction is generalizing s with
  | nil =>
      obtain ⟨i, hi, -⟩ := hneeds
      cases hi
  | cons i is ih =>
      rw [instrs, Emit.run_bind_except]
      by_cases hi : Reloads code t i ∨ Touches t i
      · rw [value_instr_of_error h hi]
      · rw [not_or] at hi
        rw [run_instr_of_not slot hi.1 hi.2]
        refine ih ?_ s
        obtain ⟨j, hj, hneeds⟩ := hneeds
        rcases List.mem_cons.mp hj with rfl | hj
        · exact absurd hneeds (not_or.mpr hi)
        · exact ⟨j, hj, hneeds⟩

end Spill

namespace Allocation

variable {ω : Type} {a a' : Allocation} {t : Temp} {s : Supply} {d : Word} {f : Fault}

/-- A spill of a temporary that is needed succeeds if its slot has a distance. -/
theorem spill_of_ok (hd : a.code.frame.slotDistance (a.spills.slotOf t) = .ok d)
    (hneeds : a.code.Needs t) :
    ((a.spill t : Emit ω _).run s).value.1 = .ok () ∧
      ((a.spill t : Emit ω _).run s).supply.temps =
        s.temps + totalNeeded a.code t a.code.instrs := by
  obtain ⟨events, hrun⟩ := run_instrs_of_ok (t := t) hd a.code.instrs s
  have hlonger := length_lt_patched (d := d) hneeds s.temps
  rw [Emit.run, spill]
  simp only [hrun]
  exact ⟨if_pos hlonger, rfl⟩

/-- If its slot has no distance, the spill fails for that reason. -/
theorem spill_of_error (hd : a.code.frame.slotDistance (a.spills.slotOf t) = .error f)
    (hneeds : a.code.Needs t) :
    ((a.spill t : Emit ω _).run s).value.1 = .error (.fault f) := by
  have hvalue := value_instrs_of_error hd hneeds s
  rw [Emit.run, spill]
  simp only [hvalue]

/-- A spill reserves the next slot, unless the temporary has one. -/
theorem slots_spill (a : Allocation) (t : Temp) (s : Supply) :
    ((a.spill t : Emit ω _).run s).value.2.spills.slots =
      a.spills.slots.insertIfNew t a.spills.slots.size := by
  rw [Emit.run, spill]
  dsimp only
  split <;> rfl

-- ── From one attempt to the next ─────────────────────────────────────────────

/-- What allocation relies on before attempt number `n`, when it may use `slots` slots in all. -/
structure Progressing (slots n : Nat) (a : Allocation) (s : Supply) : Prop where
  wrapped : ∃ ws, Wrapped a.code a.spills.temps ws
  known : ∀ i ∈ a.code.instrs, ∀ u, Touches u i → u.index < s.temps
  marked : ∀ u ∈ a.spills.temps, u.index < s.temps
  result : a.code.frame.result.index < s.temps
  pointer : a.code.frame.pointer.index < s.temps
  attempts : n ≤ s.temps
  taken : ∀ (u : Temp) slot, a.spills.slots[u]? = some slot → slot < a.spills.slots.size
  room : a.spills.slots.size + a.pending.size ≤ slots

variable {slots n : Nat}

/-- What is needed was handed out before. -/
theorem Progressing.lt_of_needs (h : Progressing slots n a s) (hneeds : a.code.Needs t) :
    t.index < s.temps := by
  obtain ⟨i, hi, hreload | htouch⟩ := hneeds
  · exact hreload.1 ▸ h.result
  · exact h.known i hi t htouch

/-- What is needed may still be spilled, if it is neither the frame pointer nor made by a spill. -/
theorem mem_pending_of_needs (hneeds : a.code.Needs t) (hptr : t ≠ a.code.frame.pointer)
    (ht : t ∉ a.spills.temps) : t ∈ a.pending := by
  refine mem_pending.mpr ⟨?_, hptr, ht⟩
  obtain ⟨i, hi, hreload | htouch⟩ := hneeds
  · exact .inl hreload.1
  · exact .inr ⟨i, hi, htouch⟩

/-- There is a slot left for a temporary that may be spilled. -/
theorem Progressing.slotOf_lt (h : Progressing slots n a s) (ht : t ∈ a.pending) :
    a.spills.slotOf t < slots := by
  have hroom := h.room
  rw [Spills.slotOf, Std.ExtTreeMap.getD_eq_getD_getElem?]
  cases hslot : a.spills.slots[t]? with
  | none =>
      have hpos : 0 < a.pending.size := Nat.zero_lt_of_lt (card_erase_lt_of_mem ht)
      show a.spills.slots.size < slots
      omega
  | some slot =>
      have hlt := h.taken t slot hslot
      show slot < slots
      omega

/-- If the slots are numbered from 0 on, they still are when the next one is reserved. -/
theorem lt_size_insertIfNew {m : TempMap Nat}
    (h : ∀ (u : Temp) slot, m[u]? = some slot → slot < m.size) {t u : Temp} {slot : Nat}
    (hslot : (m.insertIfNew t m.size)[u]? = some slot) :
    slot < (m.insertIfNew t m.size).size := by
  rw [Std.ExtTreeMap.getElem?_insertIfNew] at hslot
  rw [Std.ExtTreeMap.size_insertIfNew]
  split at hslot
  · next hnew =>
    rw [if_neg hnew.2, ← Option.some.inj hslot]
    exact Nat.lt_succ_self _
  · have hlt := h u slot hslot
    split <;> omega

/-- One spill keeps what allocation relies on. -/
theorem Progressing.spill (h : Progressing slots n a s) (hptr : t ≠ a.code.frame.pointer)
    (ht : t ∉ a.spills.temps) (hok : ((a.spill t : Emit ω _).run s).value = (.ok (), a')) :
    Progressing slots (n + 1) a' ((a.spill t : Emit ω _).run s).supply := by
  obtain ⟨d, hd, hframe, hinstrs, htemps, hneeds⟩ := spill_eq_ok hok
  obtain ⟨ws, hws⟩ := h.wrapped
  have hsupply := (spill_of_ok (ω := ω) (s := s) hd hneeds).2
  have hpos := totalNeeded_pos hneeds
  have htlt := h.lt_of_needs hneeds
  have hslots := slots_spill (ω := ω) a t s
  rw [hok] at hslots
  -- what must not be spilled any more: as before, the new temporaries, and a spilled result
  have hmarks : Marks a.code t s.temps s.temps (totalNeeded a.code t a.code.instrs) a.spills.temps
      a'.spills.temps := by
    refine ⟨?_, ?_, ?_, ?_, h.result, Nat.le_refl _⟩
    · intro u hu
      exact ⟨(htemps u).mpr (.inl hu), h.marked u hu⟩
    · intro hresult
      exact (htemps t).mpr (.inr (.inl ⟨rfl, hresult⟩))
    · intro u hge hlt
      exact (htemps u).mpr (.inr (.inr ⟨hge, hlt⟩))
    · intro u hu hlt
      rcases (htemps u).mp hu with hu | ⟨hu, -⟩ | ⟨hge, -⟩
      · exact .inl hu
      · exact .inr hu
      · exact absurd hlt (Nat.not_lt.mpr hge)
  refine
    { wrapped := ⟨_, hws.spill ht hptr h.pointer h.known hmarks hframe (exit_spill hok) hinstrs⟩
      known := ?_
      marked := ?_
      result := ?_
      pointer := ?_
      attempts := ?_
      taken := ?_
      room := ?_ }
  · intro i hi u hu
    rw [hinstrs] at hi
    rcases touches_windows hi hu with ⟨⟨j, hj, hu⟩, -⟩ | rfl | ⟨rfl, -⟩ | hnew
    · have hlt := h.known j hj u hu
      omega
    · have hlt := h.pointer
      omega
    · omega
    · omega
  · intro u hu
    rcases (htemps u).mp hu with hu | ⟨rfl, -⟩ | hnew
    · have hlt := h.marked u hu
      omega
    · omega
    · omega
  · rw [hframe]
    have hlt := h.result
    omega
  · rw [hframe]
    have hlt := h.pointer
    omega
  · have hle := h.attempts
    omega
  · intro u slot
    rw [hslots]
    exact lt_size_insertIfNew h.taken
  · -- one more slot is taken, and one temporary less may be spilled
    have hless := size_pending_spill_lt hptr ht hok
    have hgrown : a'.spills.slots.size ≤ a.spills.slots.size + 1 := by
      rw [hslots]
      exact Std.ExtTreeMap.size_insertIfNew_le
    have hroom := h.room
    omega

-- ── All attempts ─────────────────────────────────────────────────────────────

/-- Success, or a fault because the distance of a slot does not fit in a word. -/
def EndsWell (frame : Frame) (slots : Nat) (outcome : Except Error Unit) : Prop :=
  outcome = .ok () ∨
    ∃ slot < slots, ∃ f, frame.slotDistance slot = .error f ∧ outcome = .error (.fault f)

variable {k : Nat}

/-- Attempts do not stall. -/
theorem attemptFrom_converges (hk : 2 ≤ k) (hmax : k ≤ framePointer)
    (h : Progressing slots n a s) :
    EndsWell a.code.frame slots ((attemptFrom k n a : Emit ω _).run s).value.1 := by
  induction hsize : a.pending.size using Nat.strongRecOn generalizing n a s with
  | ind size ih =>
      obtain ⟨ws, hws⟩ := h.wrapped
      rw [Emit.run, attemptFrom, if_neg (Nat.not_lt.mpr h.attempts)]
      dsimp only
      split
      · exact .inl rfl
      · next t hstuck =>
        have hneeds := Attempt.needed_of_stuck hstuck
        have hptr := Attempt.stuck_ne_pointer hstuck
        have ht := Attempt.not_mem_of_stuck hk hmax hws.sparse hstuck
        rw [dif_neg ht]
        have hslot := h.slotOf_lt (mem_pending_of_needs hneeds hptr ht)
        split
        · next e a' herror =>
          have hfst := congrArg Prod.fst herror
          cases hd : a.code.frame.slotDistance (a.spills.slotOf t) with
          | ok d =>
              rw [(spill_of_ok hd hneeds).1] at hfst
              cases hfst
          | error f =>
              rw [spill_of_error hd hneeds] at hfst
              exact .inr ⟨_, hslot, f, hd, hfst.symm⟩
        · next a' hspill =>
          obtain ⟨-, -, hframe, -⟩ := spill_eq_ok hspill
          have hless := size_pending_spill_lt hptr ht hspill
          rw [← hframe]
          exact ih _ (hsize ▸ hless) (h.spill hptr ht hspill) rfl

-- ── Selected code ────────────────────────────────────────────────────────────

/-- Before the first spill each instruction is a wrap of its own. -/
theorem wrapped_of_modest {code : Code} (h : ∀ i ∈ code.instrs, i.Modest) :
    Wrapped code ∅ (code.instrs.map fun i => ⟨[], i, []⟩) := by
  refine ⟨?_, ?_, ?_, Std.ExtTreeSet.not_mem_empty⟩
  · rw [List.flatMap_map]
    exact (List.flatMap_singleton' _).symm
  · intro w hw
    obtain ⟨i, hi, rfl⟩ := List.mem_map.mp hw
    exact
      { modest := h i hi
        read := fun t ht => absurd ht Std.ExtTreeSet.not_mem_empty
        loaded := fun x hx => absurd hx List.not_mem_nil
        written := fun t ht => absurd ht Std.ExtTreeSet.not_mem_empty
        stored := fun x hx => absurd hx List.not_mem_nil
        addr := fun x hx => absurd hx List.not_mem_nil
        nodup_loads := List.nodup_nil
        nodup_stores := List.nodup_nil
        nodup_addrs := List.nodup_nil }
  · refine List.pairwise_map.mpr (List.pairwise_of_forall ?_)
    rintro i j t ⟨x, hx, -⟩
    cases hx

/-- What allocation relies on holds at its start, if the code is modest and its temporaries were
    handed out. -/
theorem progressing_start {code : Code} (hcode : ∀ i ∈ code.instrs, Select.ModestBelow s.temps i)
    (hresult : code.frame.result.index < s.temps)
    (hpointer : code.frame.pointer.index < s.temps) :
    Progressing (Allocation.mk code {}).pending.size 1 ⟨code, {}⟩ s where
  wrapped := ⟨_, wrapped_of_modest fun i hi => (hcode i hi).1⟩
  known i hi := (hcode i hi).2
  marked _ hu := absurd hu Std.ExtTreeSet.not_mem_empty
  result := hresult
  pointer := hpointer
  attempts := Nat.lt_of_le_of_lt (Nat.zero_le _) hresult
  taken _ _ h := by
    rw [Std.ExtTreeMap.getElem?_empty] at h
    cases h
  room := by
    rw [Std.ExtTreeMap.size_empty, Nat.zero_add]

/-- **Spilling always succeeds on selected code.** With 2 to 251 registers, allocation of the
    instructions selected for a function never stalls: there are not too many attempts, each spill
    adds instructions, and no temporary that spilling introduced needs a spill. If one slot for each
    temporary that may be spilled has a distance that fits in a word, allocation succeeds. -/
theorem spilling_always_succeeds {ω : Type} (keep k : Nat) (f : Flat.Function) (names : Supply)
    (hk : 2 ≤ k) (hmax : k ≤ 251)
    (hstmts : ∀ st ∈ f.stmts, ∀ t ∈ st.temps, t.index < names.temps)
    (hresult : f.frame.result.index < names.temps)
    (hpointer : f.frame.pointer.index < names.temps) :
    let selected := (f.select keep : Emit ω Code).run names
    let start : Allocation := { code := selected.value, spills := {} }
    let outcome := ((start.allocate k : Emit ω _).run selected.supply).value.1
    (∀ name reason, outcome ≠ .error (.stalled name reason)) ∧
      ((∀ slot < start.pending.size, ∃ d, f.frame.slotDistance slot = .ok d) →
        outcome = .ok ()) := by
  intro selected start outcome
  obtain ⟨hgrows, hcode⟩ := f.modest_select (ω := ω) keep hstmts
  have hstart : Progressing start.pending.size 1 start selected.supply :=
    progressing_start hcode (hresult.trans_le hgrows) (hpointer.trans_le hgrows)
  have hends : EndsWell f.frame start.pending.size outcome :=
    attemptFrom_converges hk (hmax.trans (by decide)) hstart
  refine ⟨?_, ?_⟩
  · intro name reason hstalled
    rcases hends with hok | ⟨slot, -, f', -, hfault⟩
    · rw [hok] at hstalled
      cases hstalled
    · rw [hfault] at hstalled
      cases hstalled
  · intro hslots
    refine hends.resolve_right ?_
    rintro ⟨slot, hlt, f', herror, -⟩
    obtain ⟨d, hd⟩ := hslots slot hlt
    rw [hd] at herror
    cases herror

/-- Three numbers are set before the first of them is read. -/
def crowded : Flat.Function where
  frame := ⟨.named "f", 1, 0, 0, ⟨0⟩, ⟨1⟩⟩
  entry := .named "f"
  exit := .named "exit"
  stmts := [.act (.move ⟨2⟩ (.atom (.const 1))), .act (.move ⟨3⟩ (.atom (.const 2))),
    .act (.move ⟨4⟩ (.atom (.const 3))), .act (.move ⟨5⟩ (.binop .add (.temp ⟨3⟩) (.temp ⟨4⟩))),
    .act (.move ⟨0⟩ (.binop .lt (.temp ⟨2⟩) (.temp ⟨5⟩))), .transfer (.jump (.named "exit"))]

/-- Two registers are not enough for them, so the code is spilled from. -/
theorem spilling_always_succeeds_crowded :
    let selected := (crowded.select 2 : Emit Instr Code).run { temps := 6 }
    let r := ((Allocation.mk selected.value {}).allocate 2 : Emit Instr _).run selected.supply
    r.value.1 = .ok () ∧ r.value.2.code.spillSize = 8 := by
  refine ⟨?_, by decide +kernel⟩
  refine (spilling_always_succeeds 2 2 crowded { temps := 6 } (by decide) (by decide) (by decide)
    (by decide) (by decide)).2 ?_
  have hsize : (Allocation.mk ((crowded.select 2 : Emit Instr Code).run { temps := 6 }).value
      {}).pending.size = 6 := by decide +kernel
  have hslots : ∀ slot < 6, (crowded.frame.slotDistance slot).isOk = true := by decide
  intro slot hslot
  rw [hsize] at hslot
  exact exists_ok_of_isOk (hslots slot hslot)

end Allocation

end MmixBackend
