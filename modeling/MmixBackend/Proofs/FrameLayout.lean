import MmixBackend.Proofs.AllocationBound
import MmixBackend.Proofs.Renaming

/-!
# Spill slots in the frame

The distance of a slot is fixed when a temporary is spilled, the size of the frame when allocation
has ended. Both count the same slots: the temporary that is spilled after `i` others owns slot `i`,
and every load and store that its spill inserts, in whatever attempt, goes to that slot.

* **`Stacked`** — areas that lie directly below each other have no address in common and fill what
  is between their ends.
* **`Wrap.Serves`** — an instruction with the accesses that all spills together have put around it.
* **`Housed.spill`** — one more spill takes the next slot and accesses no other.
* **`attemptFrom_spilled`** — what a spill keeps, a whole run keeps.
* **`spill_slots_fill_frame`** — the areas of a frame, with a slot for each spilled temporary.
-/

namespace MmixBackend

-- ── Areas below each other ───────────────────────────────────────────────────

/-- The addresses from `low` on and below `top`. -/
structure Area where
  low : Int
  top : Int
  deriving DecidableEq, Repr

instance : Membership Int Area := ⟨fun area x => area.low ≤ x ∧ x < area.top⟩

/-- No address is in both areas. -/
def Area.Apart (a b : Area) : Prop := ∀ x ∈ a, x ∉ b

/-- Areas that lie directly below each other, from `top` down to `bottom`. -/
inductive Stacked : Int → Int → List Area → Prop where
  | nil (top : Int) : Stacked top top []
  | cons {top low bottom : Int} {areas : List Area} (h : low ≤ top)
      (rest : Stacked low bottom areas) : Stacked top bottom (⟨low, top⟩ :: areas)

namespace Stacked

variable {top low bottom x : Int} {areas areas' : List Area}

/-- Stacked areas can be put below stacked areas. -/
theorem append (h : Stacked top low areas) (h' : Stacked low bottom areas') :
    Stacked top bottom (areas ++ areas') := by
  induction h with
  | nil => exact h'
  | cons hle _ ih => exact .cons hle (ih h')

/-- The bottom is not above the top. -/
theorem le (h : Stacked top bottom areas) : bottom ≤ top := by
  induction h with
  | nil => exact Int.le_refl _
  | cons hle _ ih => exact Int.le_trans ih hle

/-- They fill what is between the two ends. -/
theorem mem_iff (h : Stacked top bottom areas) :
    x ∈ Area.mk bottom top ↔ ∃ area ∈ areas, x ∈ area := by
  induction h with
  | nil top =>
      refine ⟨fun hx => absurd hx.2 (Int.not_lt.mpr hx.1), fun hx => ?_⟩
      obtain ⟨area, harea, -⟩ := hx
      exact absurd harea List.not_mem_nil
  | @cons top low bottom areas hle rest ih =>
      have hbottom := rest.le
      rw [List.exists_mem_cons_iff, ← ih]
      show bottom ≤ x ∧ x < top ↔ (low ≤ x ∧ x < top) ∨ (bottom ≤ x ∧ x < low)
      omega

/-- No address is in two of the areas. -/
theorem apart (h : Stacked top bottom areas) : areas.Pairwise Area.Apart := by
  induction h with
  | nil => exact .nil
  | @cons top low bottom areas hle rest ih =>
      refine List.pairwise_cons.mpr ⟨fun area harea y hy hmem => ?_, ih⟩
      -- whatever comes later ends where this area starts
      have hlow : y < low := (rest.mem_iff.mpr ⟨area, harea, hmem⟩).2
      exact absurd hy.1 (Int.not_le.mpr hlow)

end Stacked

-- ── Sizes and distances ──────────────────────────────────────────────────────

namespace Word

/-- A result that fits in a word is no fault. -/
theorem exact_of_fits {x : Int} (op : Arith) (hlow : 0 ≤ x) (hhigh : x ≤ Int64.maxValue.toInt) :
    exact op x = .ok (Int64.ofInt x) := by
  refine if_pos ⟨?_, hhigh⟩
  have hmin : Int64.minValue.toInt = -9223372036854775808 := by decide
  omega

theorem toInt_ofInt {x : Int} (hlow : 0 ≤ x) (hhigh : x ≤ Int64.maxValue.toInt) :
    (Int64.ofInt x).toInt = x := by
  have hmax : Int64.maxValue.toInt = 9223372036854775807 := by decide
  exact Int64.toInt_ofInt_of_le (by omega) (by omega)

theorem toInt_ofCount {n : Nat} (h : (n : Int) ≤ Int64.maxValue.toInt) :
    (ofCount n).toInt = n := by
  have hmax : Int64.maxValue.toInt = 9223372036854775807 := by decide
  exact Int64.toInt_ofNat_of_lt (by omega)

end Word

namespace Frame

variable {frame : Frame}

/-- The distance of a slot, as long as it fits in a word. -/
theorem slotDistance_of_fits {slot : Nat} (hlocals : 0 ≤ frame.localsSize.toInt)
    (hfits : frame.localsSize.toInt + 16 + 8 * (slot + 1) ≤ Int64.maxValue.toInt) :
    frame.slotDistance slot = .ok (Int64.ofInt (frame.localsSize.toInt + 16 + 8 * (slot + 1))) := by
  have hbook : bookkeepingSize.toInt = 16 := by decide
  have hword : Word.size.toInt = 8 := by decide
  have hone : (1 : Word).toInt = 1 := by decide
  have hslot : (Word.ofCount slot).toInt = slot := Word.toInt_ofCount (by omega)
  rw [slotDistance, Word.addExact, hbook, Word.exact_of_fits _ (by omega) (by omega)]
  show (Word.addExact (Word.ofCount slot) 1 >>= _) = _
  rw [Word.addExact, hslot, hone, Word.exact_of_fits _ (by omega) (by omega)]
  show (Word.mulExact (Int64.ofInt (slot + 1)) Word.size >>= _) = _
  rw [Word.mulExact, Word.toInt_ofInt (by omega) (by omega), hword,
    Word.exact_of_fits _ (by omega) (by omega)]
  show Word.addExact _ _ = _
  rw [Word.addExact, Word.toInt_ofInt (by omega) (by omega), Word.toInt_ofInt (by omega) (by omega),
    Word.exact_of_fits _ (by omega) (by omega), Int.mul_comm]

/-- The size of a frame, as long as it fits in a word. -/
theorem size_of_fits {spillSize : Word} (hlocals : 0 ≤ frame.localsSize.toInt)
    (hspill : 0 ≤ spillSize.toInt) (hargs : 0 ≤ frame.argsSize.toInt)
    (hfits : frame.localsSize.toInt + 16 + spillSize.toInt + frame.argsSize.toInt ≤
      Int64.maxValue.toInt) :
    frame.size spillSize = .ok (Int64.ofInt
      (frame.localsSize.toInt + 16 + spillSize.toInt + frame.argsSize.toInt)) := by
  have hbook : bookkeepingSize.toInt = 16 := by decide
  rw [size, Word.addExact, hbook, Word.exact_of_fits _ (by omega) (by omega)]
  show (Word.addExact (Int64.ofInt (frame.localsSize.toInt + 16)) spillSize >>= _) = _
  rw [Word.addExact, Word.toInt_ofInt (by omega) (by omega),
    Word.exact_of_fits _ (by omega) (by omega)]
  show Word.addExact _ _ = _
  rw [Word.addExact, Word.toInt_ofInt (by omega) (by omega),
    Word.exact_of_fits _ (by omega) (by omega)]

/-- The areas of a frame of `total` bytes whose slots lie at these distances, from the top down:
    the locals, the caller's frame pointer, the return address, the slots, and the arguments of
    calls, which start at the stack pointer. -/
def areas (frame : Frame) (total : Word) (distances : List Word) (fp : Int) : List Area :=
  let locals := fp - frame.localsSize.toInt
  let sp := fp - total.toInt
  [⟨locals, fp⟩, ⟨locals - 8, locals⟩, ⟨locals - 16, locals - 8⟩] ++
    (distances.map (fun d => ⟨fp - d.toInt, fp - d.toInt + 8⟩) ++
      [⟨sp, sp + frame.argsSize.toInt⟩])

/-- Slots whose distances grow by 8 lie directly below each other. -/
theorem stacked_slots {distance : Nat → Word} {base : Int} {n : Nat} (fp : Int)
    (h : ∀ i < n, (distance i).toInt = base + 8 * (i + 1)) :
    Stacked (fp - base) (fp - base - 8 * n)
      (((List.range n).map distance).map fun d => ⟨fp - d.toInt, fp - d.toInt + 8⟩) := by
  induction n with
  | zero =>
      rw [Int.ofNat_zero, Int.mul_zero, Int.sub_zero]
      exact .nil _
  | succ n ih =>
      rw [List.range_succ, List.map_append, List.map_append]
      refine (ih fun i hi => h i (Nat.lt_succ_of_lt hi)).append ?_
      -- the last slot reaches from its distance up to the one before
      have htop : fp - (distance n).toInt + 8 = fp - base - 8 * n := by
        rw [h n (Nat.lt_succ_self n)]
        omega
      have hbottom : fp - (distance n).toInt = fp - base - 8 * (n + 1 : Nat) := by
        rw [h n (Nat.lt_succ_self n)]
        omega
      rw [List.map_singleton, List.map_singleton, htop, hbottom]
      exact .cons (by omega) (.nil _)

/-- The areas of a frame lie directly below each other. -/
theorem stacked_areas {total : Word} {distance : Nat → Word} {n : Nat} (fp : Int)
    (hlocals : 0 ≤ frame.localsSize.toInt) (hargs : 0 ≤ frame.argsSize.toInt)
    (hdistance : ∀ i < n, (distance i).toInt = frame.localsSize.toInt + 16 + 8 * (i + 1))
    (htotal : total.toInt = frame.localsSize.toInt + 16 + 8 * n + frame.argsSize.toInt) :
    Stacked fp (fp - total.toInt) (frame.areas total ((List.range n).map distance) fp) := by
  have hslots := stacked_slots fp hdistance
  have hsp : fp - total.toInt + frame.argsSize.toInt =
      fp - (frame.localsSize.toInt + 16) - 8 * n := by
    omega
  have hbase : fp - frame.localsSize.toInt - 16 = fp - (frame.localsSize.toInt + 16) := by
    omega
  refine .cons (by omega) (.cons (by omega) (.cons (by omega) ?_))
  rw [hbase, hsp]
  exact hslots.append (.cons (by omega) (.nil _))

/-- A frame that fits in a word with its `n` slots has a size and a distance for each slot, and its
    areas lie directly below each other. -/
theorem exists_layout {spillSize : Word} {n : Nat} (hlocals : 0 ≤ frame.localsSize.toInt)
    (hargs : 0 ≤ frame.argsSize.toInt) (hspill : spillSize.toInt = 8 * n)
    (hfits : frame.localsSize.toInt + 16 + 8 * n + frame.argsSize.toInt ≤ Int64.maxValue.toInt) :
    ∃ total distance, frame.size spillSize = .ok total ∧
      (∀ i < n, frame.slotDistance i = .ok (distance i)) ∧
      ∀ fp : Int,
        Stacked fp (fp - total.toInt) (frame.areas total ((List.range n).map distance) fp) := by
  have hdistance : ∀ i < n,
      frame.localsSize.toInt + 16 + 8 * (i + 1) ≤ Int64.maxValue.toInt := by
    intro i hi
    omega
  have htotal := Word.toInt_ofInt (by omega) hfits
  rw [← hspill] at hfits
  refine ⟨_, _, size_of_fits hlocals (by omega) hargs hfits,
    fun i hi => slotDistance_of_fits hlocals (hdistance i hi), fun fp => ?_⟩
  rw [hspill]
  exact stacked_areas fp hlocals hargs
    (fun i hi => Word.toInt_ofInt (by omega) (hdistance i hi)) htotal

end Frame

-- ── Numbers of slots ─────────────────────────────────────────────────────────

/-- The temporaries own the slots, each the one of its place in the list. -/
structure Spills.Numbered (ts : List Temp) (s : Spills) : Prop where
  size : s.slots.size = ts.length
  get : ∀ (t : Temp) (i : Nat), s.slots[t]? = some i ↔ ts[i]? = some t

namespace Spills.Numbered

variable {ts : List Temp} {s : Spills} {t : Temp}

theorem nodup (h : s.Numbered ts) : ts.Nodup := by
  refine List.nodup_iff_getElem?_ne_getElem?.mpr fun i j hij hj heq => ?_
  have hi : ts[i]? = some ts[i] := List.getElem?_eq_getElem (hij.trans hj)
  have hslot := ((h.get _ i).mpr hi).symm.trans ((h.get _ j).mpr (heq.symm.trans hi))
  exact absurd (Option.some.inj hslot) (Nat.ne_of_lt hij)

theorem not_mem (h : s.Numbered ts) (ht : t ∉ ts) : t ∉ s.slots := by
  intro hmem
  obtain ⟨i, hi⟩ := Option.isSome_iff_exists.mp (Std.ExtTreeMap.mem_iff_isSome_getElem?.mp hmem)
  exact ht (List.mem_of_getElem? ((h.get t i).mp hi))

/-- A temporary without a slot is given the next one. -/
theorem slotOf_eq (h : s.Numbered ts) (ht : t ∉ ts) : s.slotOf t = ts.length :=
  (Std.ExtTreeMap.getD_eq_fallback (h.not_mem ht)).trans h.size

/-- A temporary without a slot gets the next one. -/
theorem reserve (h : s.Numbered ts) (ht : t ∉ ts) {s' : Spills}
    (hslots : s'.slots = s.slots.insertIfNew t s.slots.size) : s'.Numbered (ts ++ [t]) := by
  have hnot := h.not_mem ht
  refine ⟨?_, ?_⟩
  · rw [hslots, Std.ExtTreeMap.size_insertIfNew, if_neg hnot, h.size, List.length_append]
    rfl
  · intro u i
    rw [hslots, Std.ExtTreeMap.getElem?_insertIfNew, h.size]
    simp only [Std.LawfulEqCmp.compare_eq_iff_eq]
    by_cases hu : t = u
    · subst hu
      rw [if_pos ⟨rfl, hnot⟩, List.getElem?_append]
      split
      · next hlt =>
        constructor
        · rintro ⟨⟩
          exact absurd hlt (Nat.lt_irrefl _)
        · intro hi
          exact absurd (List.mem_of_getElem? hi) ht
      · next hge =>
        rw [List.getElem?_singleton]
        constructor
        · rintro ⟨⟩
          rw [Nat.sub_self, if_pos rfl]
        · intro hi
          split at hi
          · exact congrArg some (by omega)
          · cases hi
    · rw [if_neg fun h => hu h.1, h.get u i, List.getElem?_append]
      split
      · rfl
      · next hge =>
        rw [List.getElem?_eq_none (Nat.not_lt.mp hge), List.getElem?_singleton]
        split
        · refine ⟨fun h => ?_, fun h => absurd (Option.some.inj h) hu⟩
          cases h
        · rfl

end Spills.Numbered

-- ── Accesses to slots ────────────────────────────────────────────────────────

namespace Spill

/-- The slot of a spilled temporary lies `d` bytes below the frame pointer; the list has the spilled
    temporaries in order. -/
def SlotAt (frame : Frame) (ts : List Temp) (t : Temp) (d : Word) : Prop :=
  ∃ i, ts[i]? = some t ∧ frame.slotDistance i = .ok d

/-- Later spills do not move a slot. -/
theorem SlotAt.append {frame : Frame} {ts : List Temp} {t : Temp} {d : Word}
    (h : SlotAt frame ts t d) (us : List Temp) : SlotAt frame (ts ++ us) t d := by
  obtain ⟨i, hi, hd⟩ := h
  have hlt := (List.getElem?_eq_some_iff.mp hi).1
  exact ⟨i, (List.getElem?_append_left hlt).trans hi, hd⟩

/-- The slot of the last spilled temporary lies where the frame puts it. -/
theorem slotAt_last {frame : Frame} {ts : List Temp} {t : Temp} {d : Word}
    (hd : frame.slotDistance ts.length = .ok d) : SlotAt frame (ts ++ [t]) t d :=
  ⟨ts.length, List.getElem?_concat_length, hd⟩

/-- The wrap stands for an instruction whose temporaries in the list were spilled. In its middle the
    instruction has another name for each of them, given by `ρ`. A spilled temporary is loaded under
    that name if the instruction reads it and stored from there if it writes it, and the result is
    loaded as itself where control leaves with it. There are no other accesses, and each is to the
    slot of the temporary it is for. -/
structure Wrap.Serves (code : Code) (ts : List Temp) (i : Instr) (ρ : Temp → Temp) (w : Wrap) :
    Prop where
  main : w.main = i.rename { temp := ρ, label := id }
  names : ∀ t ∉ ts, ρ t = t
  loads : ∀ x ∈ w.loads, ∃ t, SlotAt code.frame ts t x.distance ∧
    (t ∈ i.uses ∧ x.value = ρ t ∨ Reloads code t i ∧ x.value = t)
  stores : ∀ x ∈ w.stores, ∃ t, SlotAt code.frame ts t x.distance ∧ t ∈ i.defs ∧ x.value = ρ t
  read : ∀ t ∈ ts, t ∈ i.uses → ∃ x ∈ w.loads, SlotAt code.frame ts t x.distance ∧ x.value = ρ t
  reloaded : ∀ t ∈ ts, Reloads code t i →
    ∃ x ∈ w.loads, SlotAt code.frame ts t x.distance ∧ x.value = t
  written : ∀ t ∈ ts, t ∈ i.defs →
    ∃ x ∈ w.stores, SlotAt code.frame ts t x.distance ∧ x.value = ρ t

/-- The accesses of the wrap have the temporaries that spilling has created: their addresses have
    numbers from `lo` up to `hi`, and none is the value that is stored. -/
structure Wrap.Created (lo hi : Nat) (temps : TempSet) (w : Wrap) : Prop where
  marked : w.Marked temps
  addr : ∀ x ∈ w.loads ++ w.stores, lo ≤ x.addr.index ∧ x.addr.index < hi
  stored : ∀ x ∈ w.stores, x.value ≠ x.addr

/-- Each load of the wrap reads the word at its distance below the frame pointer, and each store
    writes there. Nothing else of the memory is touched. -/
structure Wrap.Reaches (sem : Semantics) (frame : Frame) (w : Wrap) : Prop where
  loads : ∀ x ∈ w.loads, ∀ s : Cpu Temp, s.performAll sem id (x.load frame) =
    (s.put x.addr (s.file frame.pointer - x.distance)).put x.value
      (s.mem (octabyte (s.file frame.pointer - x.distance)))
  stores : ∀ x ∈ w.stores, ∀ s : Cpu Temp, s.performAll sem id (x.store frame) =
    (s.put x.addr (s.file frame.pointer - x.distance)).putMem
      (octabyte (s.file frame.pointer - x.distance)) (s.file x.value)

section Wraps

variable {code code' : Code} {ts : List Temp} {i : Instr} {ρ : Temp → Temp} {w : Wrap} {t : Temp}
  {d : Word} {lo hi n : Nat} {temps temps' : TempSet}

/-- Renaming nothing changes nothing. -/
theorem rename_names_id (i : Instr) : i.rename { temp := id, label := id } = i := by
  cases i with
  | label l => rfl
  | move op dst src => cases op <;> rfl
  | oper op uses defs jumps falls => cases op <;> simp [Instr.rename, Operation.rename]

/-- Replacing a temporary in a renamed instruction is one renaming. -/
theorem replace_rename_names (t v : Temp) (i : Instr) :
    ((i.rename { temp := ρ, label := id }).replaceUses t v).replaceDefs t v =
      i.rename { temp := rename t v ∘ ρ, label := id } := by
  cases i with
  | label l => rfl
  | move op dst src => rfl
  | oper op uses defs jumps falls =>
      simp only [Instr.rename, Instr.replaceUses, Instr.replaceDefs, List.map_map]
      rfl

/-- A temporary that may be spilled occurs under the new names exactly if it did so before: only
    spilled ones have new names, and those may not be spilled. -/
theorem mem_map_names {us : List Temp} (hnames : ∀ u ∉ ts, ρ u = u) (ht : t ∉ temps) (hts : t ∉ ts)
    (hnew : ∀ u ∈ ts, u ∈ us → ρ u ∈ temps) : t ∈ us.map ρ ↔ t ∈ us := by
  rw [List.mem_map]
  constructor
  · rintro ⟨u, hu, rfl⟩
    by_cases hmem : u ∈ ts
    · exact absurd (hnew u hmem hu) ht
    · rw [hnames u hmem]
      exact hu
  · intro hu
    exact ⟨t, hu, hnames t hts⟩

/-- Before the first spill an instruction is a wrap of its own. -/
theorem serves_bare (code : Code) (i : Instr) : Wrap.Serves code [] i id ⟨[], i, []⟩ where
  main := (rename_names_id i).symm
  names _ _ := rfl
  loads := List.forall_mem_nil _
  stores := List.forall_mem_nil _
  read := List.forall_mem_nil _
  reloaded := List.forall_mem_nil _
  written := List.forall_mem_nil _

theorem created_bare (i : Instr) : Wrap.Created lo hi temps ⟨[], i, []⟩ :=
  ⟨List.forall_mem_nil _, List.forall_mem_nil _, List.forall_mem_nil _⟩

/-- The accesses of a wrap reach their slots, if spilling has not created the frame pointer. -/
theorem Wrap.Created.reaches {sem : Semantics} {frame : Frame} (h : w.Created lo hi temps)
    (hsem : Mmix sem) (hpointer : ¬ (lo ≤ frame.pointer.index ∧ frame.pointer.index < hi)) :
    w.Reaches sem frame := by
  have haddr : ∀ x ∈ w.loads ++ w.stores, x.addr ≠ frame.pointer := by
    intro x hx heq
    exact hpointer (heq ▸ h.addr x hx)
  refine ⟨fun x hx s => ?_, fun x hx s => ?_⟩
  · exact performAll_loadCode hsem s (haddr x (List.mem_append_left _ hx)) x.value
  · exact performAll_storeCode hsem s (haddr x (List.mem_append_right _ hx)) (h.stored x hx)

/-- One more spill adds accesses with the temporaries that it has created. -/
theorem Wrap.Created.rewrap {hi' : Nat} (h : w.Created lo hi temps)
    (hold : ∀ u ∈ temps, u ∈ temps') (hresult : t = code.frame.result → t ∈ temps')
    (hnew : ∀ u : Temp, n ≤ u.index → u.index < n + tempsNeeded code t w.main → u ∈ temps')
    (hlo : lo ≤ n) (hhi : hi ≤ hi') (hn : n + tempsNeeded code t w.main ≤ hi') :
    (Spill.rewrap code t d n w).Created lo hi' temps' := by
  refine ⟨?_, ?_, ?_⟩
  · intro x hx
    rcases mem_accesses_rewrap.mp hx with hx | hx
    · exact ⟨hold _ (h.marked x hx).1, hold _ (h.marked x hx).2⟩
    · obtain ⟨⟨hge, hlt⟩, -, ⟨heq, ht⟩ | ⟨hge', hlt'⟩⟩ := range_of_new hx
      · exact ⟨hnew _ hge hlt, heq ▸ hresult ht⟩
      · exact ⟨hnew _ hge hlt, hnew _ hge' hlt'⟩
  · intro x hx
    rcases mem_accesses_rewrap.mp hx with hx | hx
    · have hrange := h.addr x hx
      omega
    · have hrange := (range_of_new hx).1
      omega
  · intro x hx
    rcases List.mem_append.mp hx with hx | hx
    · have hne := (range_of_new (List.mem_append_right _ hx)).2.1
      obtain ⟨-, rfl⟩ := mem_newStores.mp hx
      exact hne.symm
    · exact h.stored x hx

namespace Wrap.Serves

/-- Only the frame and the exit of the function count. -/
theorem of_code (h : w.Serves code ts i ρ) (hframe : code'.frame = code.frame)
    (hexit : code'.exit = code.exit) : w.Serves code' ts i ρ := by
  have hreloads : ∀ t, Reloads code' t i ↔ Reloads code t i := by
    intro t
    rw [Reloads, Reloads, hframe, hexit]
  refine ⟨h.main, h.names, ?_, ?_, ?_, ?_, ?_⟩
  · simp only [hframe, hreloads]
    exact h.loads
  · rw [hframe]
    exact h.stores
  · rw [hframe]
    exact h.read
  · simp only [hframe, hreloads]
    exact h.reloaded
  · rw [hframe]
    exact h.written

section Step

variable (h : w.Serves code ts i ρ) (hmarked : w.Marked temps) (ht : t ∉ temps) (hts : t ∉ ts)

include h hmarked ht hts

theorem mem_uses : t ∈ w.main.uses ↔ t ∈ i.uses := by
  rw [h.main, Instr.uses_rename]
  refine mem_map_names (ρ := ρ) h.names ht hts fun u hu huse => ?_
  obtain ⟨x, hx, -, hvalue⟩ := h.read u hu huse
  exact hvalue ▸ (hmarked x (List.mem_append_left _ hx)).2

theorem mem_defs : t ∈ w.main.defs ↔ t ∈ i.defs := by
  rw [h.main, Instr.defs_rename]
  refine mem_map_names (ρ := ρ) h.names ht hts fun u hu hdef => ?_
  obtain ⟨x, hx, -, hvalue⟩ := h.written u hu hdef
  exact hvalue ▸ (hmarked x (List.mem_append_right _ hx)).2

omit hmarked ht hts in
theorem reloads_iff : Reloads code t w.main ↔ Reloads code t i := by
  rw [Reloads, Reloads, h.main, Instr.jumps_rename, List.map_id]

/-- One more spill: the accesses of before stay, and those that come are to the next slot. -/
theorem rewrap (hd : code.frame.slotDistance ts.length = .ok d) :
    (Spill.rewrap code t d n w).Serves code (ts ++ [t]) i
      (rename t (valueTemp code t n w.main) ∘ ρ) := by
  have hlast : SlotAt code.frame (ts ++ [t]) t d := slotAt_last hd
  have hself : (rename t (valueTemp code t n w.main) ∘ ρ) t = valueTemp code t n w.main :=
    if_pos (h.names t hts)
  -- a name that an access has is not spilled any more
  have hkeep : ∀ {x : Access} {u : Temp}, x ∈ w.loads ++ w.stores → x.value = ρ u →
      x.value = (rename t (valueTemp code t n w.main) ∘ ρ) u := by
    intro x u hx hvalue
    refine hvalue.trans (if_neg fun heq => ht ?_).symm
    rw [← heq, ← hvalue]
    exact (hmarked x hx).2
  refine ⟨?_, ?_, ?_, ?_, ?_, ?_, ?_⟩
  · rw [← replace_rename_names, ← h.main]
    rfl
  · intro u hu
    rw [List.mem_append, List.mem_singleton, not_or] at hu
    have hname := h.names u hu.1
    exact (if_neg fun heq => hu.2 (hname.symm.trans heq)).trans hname
  · intro x hx
    rcases List.mem_append.mp hx with hx | hx
    · obtain ⟨u, hslot, ⟨huse, hvalue⟩ | hreload⟩ := h.loads x hx
      · exact ⟨u, hslot.append _, .inl ⟨huse, hkeep (List.mem_append_left _ hx) hvalue⟩⟩
      · exact ⟨u, hslot.append _, .inr hreload⟩
    · rcases mem_newLoads.mp hx with ⟨hreload, rfl⟩ | ⟨huse, rfl⟩
      · exact ⟨t, hlast, .inr ⟨h.reloads_iff.mp hreload, rfl⟩⟩
      · exact ⟨t, hlast, .inl ⟨(h.mem_uses hmarked ht hts).mp huse, hself.symm⟩⟩
  · intro x hx
    rcases List.mem_append.mp hx with hx | hx
    · obtain ⟨hdef, rfl⟩ := mem_newStores.mp hx
      exact ⟨t, hlast, (h.mem_defs hmarked ht hts).mp hdef, hself.symm⟩
    · obtain ⟨u, hslot, hdef, hvalue⟩ := h.stores x hx
      exact ⟨u, hslot.append _, hdef, hkeep (List.mem_append_right _ hx) hvalue⟩
  · intro u hu huse
    rcases List.mem_append.mp hu with hu | hu
    · obtain ⟨x, hx, hslot, hvalue⟩ := h.read u hu huse
      exact ⟨x, List.mem_append_left _ hx, hslot.append _,
        hkeep (List.mem_append_left _ hx) hvalue⟩
    · obtain rfl := List.mem_singleton.mp hu
      refine ⟨_, List.mem_append_right _ (mem_newLoads.mpr (.inr ⟨?_, rfl⟩)), hlast, hself.symm⟩
      exact (h.mem_uses hmarked ht hts).mpr huse
  · intro u hu hreload
    rcases List.mem_append.mp hu with hu | hu
    · obtain ⟨x, hx, hslot, hvalue⟩ := h.reloaded u hu hreload
      exact ⟨x, List.mem_append_left _ hx, hslot.append _, hvalue⟩
    · obtain rfl := List.mem_singleton.mp hu
      refine ⟨_, List.mem_append_right _ (mem_newLoads.mpr (.inl ⟨?_, rfl⟩)), hlast, rfl⟩
      exact h.reloads_iff.mpr hreload
  · intro u hu hdef
    rcases List.mem_append.mp hu with hu | hu
    · obtain ⟨x, hx, hslot, hvalue⟩ := h.written u hu hdef
      exact ⟨x, List.mem_append_right _ hx, hslot.append _,
        hkeep (List.mem_append_right _ hx) hvalue⟩
    · obtain rfl := List.mem_singleton.mp hu
      refine ⟨_, List.mem_append_left _ (mem_newStores.mpr ⟨?_, rfl⟩), hlast, hself.symm⟩
      exact (h.mem_defs hmarked ht hts).mpr hdef

end Step

end Wrap.Serves

/-- What one more spill makes of each wrap, it makes of all of them. -/
theorem forall₂_rewraps {R R' : Instr → Wrap → Prop} {is : List Instr} {ws : List Wrap}
    (h : List.Forall₂ R is ws)
    (hstep : ∀ i, ∀ w ∈ ws, ∀ m, R i w → R' i (rewrap code t d m w)) :
    List.Forall₂ R' is (rewraps code t d n ws) := by
  induction h generalizing n with
  | nil => exact .nil
  | @cons i w is ws hw _ ih =>
      refine .cons (hstep i w List.mem_cons_self n hw) (ih ?_)
      intro i v hv
      exact hstep i v (List.mem_cons_of_mem _ hv)

end Wraps

end Spill

-- ── One spill ────────────────────────────────────────────────────────────────

namespace Allocation

open Spill

variable {ω : Type} {k n lo : Nat} {code : Code} {ts : List Temp} {a a' : Allocation} {s : Supply}
  {t : Temp}

/-- What holds of code whose temporaries in the list were spilled, one after the other, with
    temporaries from number `lo` on. -/
structure Housed (code : Code) (lo : Nat) (ts : List Temp) (a : Allocation) (s : Supply) :
    Prop where
  frame : a.code.frame = code.frame
  exit : a.code.exit = code.exit
  numbered : a.spills.Numbered ts
  settled : ∀ t ∈ ts, t ∉ a.pending
  supply : lo ≤ s.temps
  wraps : ∃ ws, a.code.instrs = ws.flatMap (Wrap.instrs a.code.frame) ∧
    (∀ w ∈ ws, w.Created lo s.temps a.spills.temps) ∧
    List.Forall₂ (fun i w => ∃ ρ, w.Serves a.code ts i ρ) code.instrs ws

/-- At first nothing is spilled. -/
theorem housed_start (code : Code) (s : Supply) : Housed code s.temps [] ⟨code, {}⟩ s where
  frame := rfl
  exit := rfl
  numbered := ⟨Std.ExtTreeMap.size_empty, fun t i => by simp⟩
  settled := List.forall_mem_nil _
  supply := Nat.le_refl _
  wraps := by
    refine ⟨code.instrs.map fun i => ⟨[], i, []⟩, ?_, ?_, ?_⟩
    · rw [List.flatMap_map]
      exact (List.flatMap_singleton' _).symm
    · exact List.forall_mem_map.mpr fun i _ => created_bare i
    · exact List.forall₂_map_right_iff.mpr
        (List.forall₂_same.mpr fun i _ => ⟨id, serves_bare code i⟩)

/-- A spill of the temporary at which colouring is stuck gives it the next slot, and the wraps serve
    for it as well. -/
theorem Housed.spill (h : Housed code lo ts a s)
    (hstuck : (Attempt.make k a.spills.temps a.code).selection.stuck = some t)
    (ht : t ∉ a.spills.temps) (hspill : ((a.spill t : Emit ω _).run s).value = (.ok (), a')) :
    Housed code lo (ts ++ [t]) a' ((a.spill t : Emit ω _).run s).supply := by
  have hneeds := Attempt.needed_of_stuck hstuck
  have hptr := Attempt.stuck_ne_pointer hstuck
  -- colouring is stuck at a temporary that is needed, so it was not spilled before
  have hts : t ∉ ts := fun hmem => h.settled t hmem (mem_pending_of_needs hneeds hptr ht)
  obtain ⟨d, hd, hframe, hinstrs, htemps, -⟩ := spill_eq_ok hspill
  have hexit := exit_spill hspill
  have hslots := slots_spill (ω := ω) a t s
  rw [hspill] at hslots
  have hsupply := (spill_of_ok (ω := ω) (s := s) hd hneeds).2
  rw [h.numbered.slotOf_eq hts] at hd
  obtain ⟨ws, hcode, hcreated, hserves⟩ := h.wraps
  have hmarked : ∀ w ∈ ws, w.Marked a.spills.temps := fun w hw => (hcreated w hw).marked
  have htotal : totalNeeded a.code t a.code.instrs = totalNeeded a.code t (ws.map (·.main)) := by
    rw [hcode, totalNeeded_wraps hmarked ht hptr]
  refine
    { frame := hframe.trans h.frame
      exit := hexit.trans h.exit
      numbered := h.numbered.reserve hts hslots
      settled := ?_
      supply := by have := h.supply; omega
      wraps := ⟨rewraps a.code t d s.temps ws, ?_, ?_, ?_⟩ }
  · intro u hu hpending
    rcases List.mem_append.mp hu with hu | hu
    · exact h.settled u hu (mem_pending_of_spill hspill hpending)
    · obtain rfl := List.mem_singleton.mp hu
      exact not_mem_pending_spill hptr hspill hpending
  · rw [hinstrs, hframe, hcode]
    exact patched_wraps hmarked ht hptr s.temps
  · intro v hv
    obtain ⟨w, hw, m, hle, hlt, rfl⟩ := mem_rewraps hv
    have hlo := h.supply
    refine (hcreated w hw).rewrap ?_ ?_ ?_ (hlo.trans hle) (by omega) (by omega)
    · exact fun u hu => (htemps u).mpr (.inl hu)
    · exact fun hresult => (htemps t).mpr (.inr (.inl ⟨rfl, hresult⟩))
    · exact fun u hge hlt => (htemps u).mpr (.inr (.inr ⟨by omega, by omega⟩))
  · refine forall₂_rewraps hserves fun i w hw m hρ => ?_
    obtain ⟨ρ, hρ⟩ := hρ
    exact ⟨_, (hρ.rewrap (hmarked w hw) ht hts hd).of_code hframe hexit⟩

-- ── A whole run ──────────────────────────────────────────────────────────────

/-- What every spill keeps holds when allocation has succeeded. -/
theorem attemptFrom_spilled {P : List Temp → Allocation → Supply → Prop}
    (hstep : ∀ {ts a a' s t}, P ts a s →
      (Attempt.make k a.spills.temps a.code).selection.stuck = some t → t ∉ a.spills.temps →
      ((a.spill t : Emit ω _).run s).value = (.ok (), a') →
      P (ts ++ [t]) a' ((a.spill t : Emit ω _).run s).supply)
    (h : P ts a s) (hok : ((attemptFrom k n a : Emit ω _).run s).value = (.ok (), a')) :
    ∃ last registers,
      P (ts ++ spilledTemps ((attemptFrom k n a : Emit ω _).run s).events) last
        ((attemptFrom k n a : Emit ω _).run s).supply ∧
      a' = last.finish registers := by
  induction hsize : a.pending.size using Nat.strongRecOn generalizing n a s ts with
  | ind size ih =>
      have hround := attemptFrom_round (ω := ω) k n a s
      generalize (attemptFrom k n a : Emit ω _).run s = r at hok hround
      cases hround with
      | exhausted _ => cases hok
      | colored _ es hes hstuck =>
          rw [spilledTemps_last hes, List.append_nil]
          exact ⟨a, _, h, (congrArg Prod.snd hok).symm⟩
      | refused _ es _ t _ _ => cases hok
      | failed _ es es' _ _ t e a' _ _ _ => cases hok
      -- only this round leads on, with one temporary less that may be spilled
      | again _ es es' hes hes' t a₁ hstuck ht hspill =>
          have hless := size_pending_spill_lt (Attempt.stuck_ne_pointer hstuck) ht hspill
          rw [spilledTemps_append, spilledTemps_round hes hes', ← List.append_assoc]
          exact ih _ (hsize ▸ hless) (hstep h hstuck ht hspill) hok rfl

/-- **Spill slots fill their part of the frame.** Registers are allocated for code whose locals and
    arguments have no negative size, allocation succeeds, and with one word for each spilled
    temporary the frame fits in a word. The temporary for the frame pointer is none of those that
    allocation creates. Then:

    * the spill slots take eight bytes for each spilled temporary; these are different from each
      other, and the one that was spilled after `i` others owns slot `i`;
    * the code consists of the instructions of before, each with loads of the spilled temporaries
      that it reads and stores of those that it writes, and each of these accesses goes to the slot
      of its own temporary, at the distance of that slot below the frame pointer;
    * the size of the frame and the distances of all slots can be computed, and below any frame
      pointer the locals, the two bookkeeping words, the slots and the arguments of calls are
      disjoint and fill the frame down to the stack pointer. -/
theorem spill_slots_fill_frame {sem : Semantics} (hsem : Mmix sem) (k : Nat) (code : Code)
    (names : Supply) (hlocals : 0 ≤ code.frame.localsSize) (hargs : 0 ≤ code.frame.argsSize) :
    let r := ((Allocation.mk code {}).allocate k : Emit ω _).run names
    let spilled := spilledTemps r.events
    let done := r.value.2
    r.value.1 = .ok () →
    code.frame.localsSize.toInt + 16 + 8 * spilled.length + code.frame.argsSize.toInt ≤
      Int64.maxValue.toInt →
    ¬ (names.temps ≤ code.frame.pointer.index ∧ code.frame.pointer.index < r.supply.temps) →
    done.code.frame = code.frame ∧
      done.code.spillSize.toInt = 8 * spilled.length ∧
      spilled.Nodup ∧
      (∀ (t : Temp) (i : Nat), done.spills.slots[t]? = some i ↔ spilled[i]? = some t) ∧
      (∃ ws, done.code.instrs = ws.flatMap (Wrap.instrs code.frame) ∧
        List.Forall₂ (fun i w => ∃ ρ, w.Serves code spilled i ρ) code.instrs ws ∧
        ∀ w ∈ ws, w.Reaches sem code.frame) ∧
      ∃ total distance, done.code.frameSize = .ok total ∧
        (∀ i < spilled.length, code.frame.slotDistance i = .ok (distance i)) ∧
        ∀ fp : Int,
          let areas := code.frame.areas total ((List.range spilled.length).map distance) fp
          areas.Pairwise Area.Apart ∧
            ∀ x, x ∈ Area.mk (fp - total.toInt) fp ↔ ∃ area ∈ areas, x ∈ area := by
  intro r spilled done hok hfits hpointer
  have hlocals : 0 ≤ code.frame.localsSize.toInt := Int64.le_iff_toInt_le.mp hlocals
  have hargs : 0 ≤ code.frame.argsSize.toInt := Int64.le_iff_toInt_le.mp hargs
  obtain ⟨last, registers, hlast, hdone⟩ :=
    attemptFrom_spilled (P := Housed code names.temps) Housed.spill (housed_start code names)
      (Prod.ext hok rfl : r.value = (.ok (), done))
  have hlast : Housed code names.temps spilled last r.supply := hlast
  have hframe : done.code.frame = code.frame := hdone ▸ hlast.frame
  have hsize : done.code.spillSize.toInt = 8 * spilled.length := by
    rw [hdone]
    show (Word.ofCount (last.spills.slots.size * 8)).toInt = _
    rw [hlast.numbered.size, Word.toInt_ofCount (by omega)]
    omega
  refine ⟨hframe, hsize, hlast.numbered.nodup, hdone ▸ hlast.numbered.get, ?_, ?_⟩
  · obtain ⟨ws, hcode, hcreated, hserves⟩ := hlast.wraps
    rw [hlast.frame] at hcode
    refine ⟨ws, hdone ▸ hcode, hserves.imp ?_, fun w hw => (hcreated w hw).reaches hsem hpointer⟩
    rintro i w ⟨ρ, hρ⟩
    exact ⟨ρ, hρ.of_code hlast.frame.symm hlast.exit.symm⟩
  · obtain ⟨total, distance, htotal, hdistance, hstacked⟩ :=
      Frame.exists_layout hlocals hargs hsize hfits
    rw [← hframe] at htotal
    exact ⟨total, distance, htotal, hdistance,
      fun fp => ⟨(hstacked fp).apart, fun x => (hstacked fp).mem_iff⟩⟩

/-- Sets `n` numbers before it adds them up from the last to the first. -/
def sumOf (n : Nat) (pointer : Temp) : Code where
  frame := ⟨.named "f", 1, 8, 16, ⟨0⟩, pointer⟩
  entry := .named "f"
  exit := .named "exit"
  instrs := (List.range n).map (fun j => .plain (.setLow j) [] [⟨j + 2⟩]) ++
    (List.range (n - 1)).reverse.map fun j => .plain (.alu .add) [⟨j + 2⟩, ⟨j + 3⟩] [⟨j + 2⟩]

/-- For four numbers and two registers, first the second number and then the first one is
    spilled. -/
theorem spill_slots_fill_frame_sum :
    let r := ((Allocation.mk (sumOf 4 ⟨1⟩) {}).allocate 2 : Emit Instr _).run { temps := 6 }
    r.value.1 = .ok () ∧ r.value.2.code.spillSize.toInt = 8 * 2 ∧
      (∀ (t : Temp) (i : Nat), r.value.2.spills.slots[t]? = some i ↔ [⟨3⟩, ⟨2⟩][i]? = some t) ∧
      (∃ ws, r.value.2.code.instrs = ws.flatMap (Wrap.instrs (sumOf 4 ⟨1⟩).frame) ∧
        List.Forall₂ (fun i w => ∃ ρ, w.Serves (sumOf 4 ⟨1⟩) [⟨3⟩, ⟨2⟩] i ρ)
          (sumOf 4 ⟨1⟩).instrs ws) ∧
      ∃ total, r.value.2.code.frameSize = .ok total := by
  intro r
  obtain ⟨hisOk, hspilled⟩ :
      r.value.1.isOk = true ∧ spilledTemps r.events = [⟨3⟩, ⟨2⟩] := by decide +kernel
  have hok : r.value.1 = .ok () := congrArg Prod.fst (eq_ok_of_isOk hisOk)
  have hfits : (sumOf 4 ⟨1⟩).frame.localsSize.toInt + 16 + 8 * (spilledTemps r.events).length +
      (sumOf 4 ⟨1⟩).frame.argsSize.toInt ≤ Int64.maxValue.toInt := by
    rw [hspilled]
    decide
  have h := spill_slots_fill_frame (ω := Instr)
    (mmix_machine fun _ _ mem => ⟨fun _ => 0, mem, none⟩) 2 (sumOf 4 ⟨1⟩) { temps := 6 }
    (by decide) (by decide) hok hfits (fun h => absurd h.1 (by decide))
  obtain ⟨-, hsize, -, hslots, ⟨ws, hcode, hserves, -⟩, total, -, htotal, -⟩ := hspilled ▸ h
  exact ⟨hok, hsize, hslots, ⟨ws, hcode, hserves⟩, total, htotal⟩

/-- For three numbers the first one is spilled: it is set under another name and stored from there,
    with the address in the temporary for the frame pointer. -/
theorem run_sumOf_three :
    let r := ((Allocation.mk (sumOf 3 ⟨6⟩) {}).allocate 2 : Emit Instr _).run { temps := 5 }
    r.value.1.isOk = true ∧ spilledTemps r.events = [⟨2⟩] ∧
      (∀ i ∈ r.value.2.code.instrs, i = .plain (.setLow 0) [] i.defs → i.defs = [⟨5⟩]) ∧
      ∀ i ∈ r.value.2.code.instrs, i = .plain .store i.uses [] → i.uses.head? = some ⟨5⟩ →
        i.uses = [⟨5⟩, ⟨6⟩] := by
  decide +kernel

/-- If allocation creates the temporary for the frame pointer once more, it computes an address
    there, and the access misses the slot. -/
theorem slot_is_missed_below_created_pointer :
    ¬ ∀ (sem : Semantics) (k : Nat) (code : Code) (names : Supply), Mmix sem →
      0 ≤ code.frame.localsSize → 0 ≤ code.frame.argsSize →
      let r := ((Allocation.mk code {}).allocate k : Emit Instr _).run names
      let spilled := spilledTemps r.events
      r.value.1 = .ok () →
      code.frame.localsSize.toInt + 16 + 8 * spilled.length + code.frame.argsSize.toInt ≤
        Int64.maxValue.toInt →
      ∃ ws, r.value.2.code.instrs = ws.flatMap (Wrap.instrs code.frame) ∧
        List.Forall₂ (fun i w => ∃ ρ, w.Serves code spilled i ρ) code.instrs ws ∧
        ∀ w ∈ ws, w.Reaches sem code.frame := by
  intro h
  obtain ⟨hisOk, hspilled, hset, hstore⟩ := run_sumOf_three
  have hall := h (machine fun _ _ mem => ⟨fun _ => 0, mem, none⟩) 2 (sumOf 3 ⟨6⟩) { temps := 5 }
    (mmix_machine _) (by decide) (by decide)
  dsimp only at hall
  rw [hspilled] at hall
  obtain ⟨ws, hcode, hserves, hreaches⟩ :=
    hall (congrArg Prod.fst (eq_ok_of_isOk hisOk)) (by decide)
  rw [hcode] at hset hstore
  obtain ⟨w, vs, ⟨ρ, hρ⟩, -, rfl⟩ := List.forall₂_cons_left_iff.mp hserves
  have hw : ∀ i ∈ w.instrs (sumOf 3 ⟨6⟩).frame,
      i ∈ (w :: vs).flatMap (Wrap.instrs (sumOf 3 ⟨6⟩).frame) :=
    fun i hi => List.mem_flatMap.mpr ⟨w, List.mem_cons_self, hi⟩
  have hname : ρ ⟨2⟩ = ⟨5⟩ := by
    have hmain := hset w.main (hw _ (List.mem_append_right _ List.mem_cons_self))
    rw [hρ.main] at hmain
    exact List.singleton_inj.mp (hmain rfl)
  obtain ⟨x, hx, ⟨slot, hslot, hd⟩, hvalue⟩ :=
    hρ.written ⟨2⟩ List.mem_cons_self List.mem_cons_self
  have haddr : x.addr = ⟨6⟩ := by
    have hlast : Instr.plain .store [x.value, x.addr] [] ∈ w.instrs (sumOf 3 ⟨6⟩).frame := by
      refine List.mem_append_right _ (List.mem_cons_of_mem _ (List.mem_flatMap.mpr ⟨x, hx, ?_⟩))
      exact List.mem_append_right _ (List.mem_singleton.mpr rfl)
    have huses := hstore _ (hw _ hlast) rfl (congrArg some (hvalue.trans hname))
    exact (List.cons.inj (List.cons.inj huses).2).1
  have hdistance : x.distance = 32 := by
    rcases slot with _ | slot
    · exact (Except.ok.inj hd).symm
    · cases hslot
  -- from a frame at 1000 the store should go to 968, and it goes to 0
  have hwrong := (hreaches w List.mem_cons_self).stores x hx
    ⟨.running 0, fun _ => 1000, fun _ => 0⟩
  rw [Access.store, haddr, hdistance, hvalue, hname] at hwrong
  have hword := congrArg (fun s : Cpu Temp => s.mem 968) hwrong
  exact absurd hword (by decide +kernel)

end Allocation

end MmixBackend
