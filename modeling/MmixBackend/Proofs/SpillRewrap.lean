import MmixBackend.Proofs.SpillBlocks

/-!
# Spilling once more

Spilling a temporary from code that is made of wraps leaves code that is made of wraps: the accesses
that were there before touch nothing that may be spilled, so only the instruction in the middle of
each wrap gets new accesses, behind the old loads and before the old stores.

* **`patched_wraps`** — the new code is that of the new wraps.
* **`Wrap.Fits.rewrap`** — a new wrap fits the temporaries that must not be spilled any more.
* **`Wrapped.spill`** — and so does the whole code.
-/

namespace MmixBackend

namespace Spill

section Rewrap

variable (code : Code) (t : Temp) (d : Word)

-- ── New accesses ─────────────────────────────────────────────────────────────

/-- The loads that spilling puts before an instruction. -/
def newLoads (n : Nat) (i : Instr) : List Access :=
  (if Reloads code t i then [⟨d, ⟨n⟩, t⟩] else []) ++
    if t ∈ i.uses then [⟨d, ⟨n + reloadNeeds code t i + 1⟩, valueTemp code t n i⟩] else []

/-- The store that spilling puts behind an instruction. -/
def newStores (n : Nat) (i : Instr) : List Access :=
  if t ∈ i.defs then
    [⟨d, ⟨if t ∈ i.uses then n + reloadNeeds code t i + 2 else n + reloadNeeds code t i + 1⟩,
      valueTemp code t n i⟩]
  else []

/-- The wrap of an instruction after one more spill, with temporaries from number `n` on. -/
def rewrap (n : Nat) (w : Wrap) : Wrap where
  loads := w.loads ++ newLoads code t d n w.main
  main := (w.main.replaceUses t (valueTemp code t n w.main)).replaceDefs t
    (valueTemp code t n w.main)
  stores := newStores code t d n w.main ++ w.stores

/-- The wraps of code after one more spill. -/
def rewraps : Nat → List Wrap → List Wrap
  | _, [] => []
  | n, w :: ws => rewrap code t d n w :: rewraps (n + tempsNeeded code t w.main) ws

/-- One more spill puts the window of an instruction between the accesses that it has. -/
theorem instrs_rewrap (n : Nat) (w : Wrap) :
    (rewrap code t d n w).instrs code.frame = w.loads.flatMap (Access.load code.frame) ++
      ((window code t d n w.main).instrs ++ w.stores.flatMap (Access.store code.frame)) := by
  have hbefore : (newLoads code t d n w.main).flatMap (Access.load code.frame) =
      (window code t d n w.main).before := by
    rw [window_before, newLoads, reloadCode, List.flatMap_append]
    congr 1
    · split <;> simp [Access.load]
    · split <;> simp [Access.load]
  have hafter : (newStores code t d n w.main).flatMap (Access.store code.frame) =
      (window code t d n w.main).after := by
    rw [window_after, newStores]
    split <;> simp [Access.store]
  rw [Wrap.instrs, Window.instrs, window_main]
  simp only [rewrap, List.flatMap_append, hbefore, hafter, List.append_assoc, List.cons_append]

-- ── The new code ─────────────────────────────────────────────────────────────

variable {code t d}

theorem totalNeeded_append (is js : List Instr) :
    totalNeeded code t (is ++ js) = totalNeeded code t is + totalNeeded code t js := by
  induction is with
  | nil => simp [totalNeeded]
  | cons i is ih =>
      rw [List.cons_append, totalNeeded, totalNeeded, ih]
      omega

/-- Instructions that do not need the spilled temporary ask for no fresh one. -/
theorem totalNeeded_of_not {is : List Instr}
    (h : ∀ i ∈ is, ¬ Reloads code t i ∧ ¬ Touches t i) : totalNeeded code t is = 0 := by
  induction is with
  | nil => rfl
  | cons i is ih =>
      obtain ⟨hreload, htouch⟩ := h i List.mem_cons_self
      rw [totalNeeded, ih fun j hj => h j (List.mem_cons_of_mem _ hj)]
      simp [tempsNeeded, reloadNeeds, hreload, htouch]

variable {temps : TempSet} {w : Wrap} {ws : List Wrap}

/-- The temporaries of the accesses are in the set. -/
def Wrap.Marked (temps : TempSet) (w : Wrap) : Prop :=
  ∀ x ∈ w.loads ++ w.stores, x.addr ∈ temps ∧ x.value ∈ temps

/-- In a wrap that fits, all temporaries of the accesses are in the set. -/
theorem Wrap.Fits.marked (h : w.Fits code temps) : w.Marked temps := by
  intro x hx
  refine ⟨(h.addr x hx).1, ?_⟩
  rcases List.mem_append.mp hx with hx | hx
  · exact (h.loaded x hx).1
  · exact (h.stored x hx).1

/-- The accesses of a wrap have nothing to do with what may still be spilled. -/
theorem not_of_mem_loads (hmarked : w.Marked temps) (ht : t ∉ temps)
    (hpointer : t ≠ code.frame.pointer) {i : Instr}
    (hi : i ∈ w.loads.flatMap (Access.load code.frame)) :
    ¬ Reloads code t i ∧ ¬ Touches t i := by
  obtain ⟨x, hx, hi⟩ := List.mem_flatMap.mp hi
  refine ⟨Code.not_reloads_of_isPlain (isPlain_loadCode hi), ?_⟩
  intro htouch
  rcases touches_loadCode hi htouch with heq | rfl | rfl
  · exact hpointer heq
  · exact ht (hmarked x (List.mem_append_left _ hx)).1
  · exact ht (hmarked x (List.mem_append_left _ hx)).2

/-- The stores of a wrap do not need the temporary that is spilled next. -/
theorem not_of_mem_stores (hmarked : w.Marked temps) (ht : t ∉ temps)
    (hpointer : t ≠ code.frame.pointer) {i : Instr}
    (hi : i ∈ w.stores.flatMap (Access.store code.frame)) :
    ¬ Reloads code t i ∧ ¬ Touches t i := by
  obtain ⟨x, hx, hi⟩ := List.mem_flatMap.mp hi
  refine ⟨Code.not_reloads_of_isPlain (isPlain_storeCode hi), ?_⟩
  intro htouch
  rcases touches_storeCode hi htouch with heq | rfl | rfl
  · exact hpointer heq
  · exact ht (hmarked x (List.mem_append_right _ hx)).1
  · exact ht (hmarked x (List.mem_append_right _ hx)).2

/-- One more spill patches the instruction of a wrap and leaves its accesses. -/
theorem patched_wrap (hmarked : w.Marked temps) (ht : t ∉ temps)
    (hpointer : t ≠ code.frame.pointer) (n : Nat) :
    patched code t d n (w.instrs code.frame) = (rewrap code t d n w).instrs code.frame ∧
      totalNeeded code t (w.instrs code.frame) = tempsNeeded code t w.main := by
  have hloads := fun i hi => not_of_mem_loads hmarked ht hpointer (i := i) hi
  have hstores := fun i hi => not_of_mem_stores hmarked ht hpointer (i := i) hi
  have hsplit : w.instrs code.frame = w.loads.flatMap (Access.load code.frame) ++
      ([w.main] ++ w.stores.flatMap (Access.store code.frame)) := rfl
  have hmain : ∀ m, patched code t d m [w.main] = (window code t d m w.main).instrs :=
    fun m => List.append_nil _
  refine ⟨?_, ?_⟩
  · rw [hsplit, patched_append, patched_append, totalNeeded_of_not hloads, hmain, instrs_rewrap,
      patched, patched, windows_of_not hloads, windows_of_not hstores]
    rfl
  · rw [hsplit, totalNeeded_append, totalNeeded_append, totalNeeded_of_not hloads,
      totalNeeded_of_not hstores]
    simp [totalNeeded]

/-- Spilling replaces each wrap by a new one. -/
theorem patched_wraps (hmarked : ∀ w ∈ ws, w.Marked temps) (ht : t ∉ temps)
    (hpointer : t ≠ code.frame.pointer) (n : Nat) :
    patched code t d n (ws.flatMap (Wrap.instrs code.frame)) =
      (rewraps code t d n ws).flatMap (Wrap.instrs code.frame) := by
  induction ws generalizing n with
  | nil => rfl
  | cons w ws ih =>
      obtain ⟨hcode, htotal⟩ := patched_wrap (d := d) (hmarked w List.mem_cons_self) ht hpointer n
      rw [List.flatMap_cons, patched_append, hcode, htotal,
        ih fun v hv => hmarked v (List.mem_cons_of_mem _ hv)]
      rfl

/-- Only the instructions of the wraps ask for fresh temporaries, not their accesses. -/
theorem totalNeeded_wraps (hmarked : ∀ w ∈ ws, w.Marked temps) (ht : t ∉ temps)
    (hpointer : t ≠ code.frame.pointer) :
    totalNeeded code t (ws.flatMap (Wrap.instrs code.frame)) =
      totalNeeded code t (ws.map (·.main)) := by
  induction ws with
  | nil => rfl
  | cons w ws ih =>
      obtain ⟨-, htotal⟩ := patched_wrap (d := 0) (hmarked w List.mem_cons_self) ht hpointer 0
      rw [List.flatMap_cons, totalNeeded_append, htotal,
        ih fun v hv => hmarked v (List.mem_cons_of_mem _ hv)]
      rfl

/-- Each new wrap takes its temporaries from a range of its own. -/
theorem mem_rewraps {n : Nat} {v : Wrap} (hv : v ∈ rewraps code t d n ws) :
    ∃ w ∈ ws, ∃ m, n ≤ m ∧
      m + tempsNeeded code t w.main ≤ n + totalNeeded code t (ws.map (·.main)) ∧
      v = rewrap code t d m w := by
  induction ws generalizing n with
  | nil => cases hv
  | cons w ws ih =>
      rw [List.map_cons, totalNeeded]
      rcases List.mem_cons.mp hv with rfl | hv
      · exact ⟨w, List.mem_cons_self, n, Nat.le_refl n, by omega, rfl⟩
      · obtain ⟨w', hw', m, hle, hlt, rfl⟩ := ih hv
        exact ⟨w', List.mem_cons_of_mem _ hw', m, by omega, by omega, rfl⟩

-- ── A new wrap fits ──────────────────────────────────────────────────────────

theorem mem_newLoads {n : Nat} {i : Instr} {x : Access} :
    x ∈ newLoads code t d n i ↔ (Reloads code t i ∧ x = ⟨d, ⟨n⟩, t⟩) ∨
      (t ∈ i.uses ∧ x = ⟨d, ⟨n + reloadNeeds code t i + 1⟩, valueTemp code t n i⟩) := by
  rw [newLoads, List.mem_append]
  refine or_congr ?_ ?_
  · split <;> simp [*]
  · split <;> simp [*]

theorem mem_newStores {n : Nat} {i : Instr} {x : Access} :
    x ∈ newStores code t d n i ↔ t ∈ i.defs ∧
      x = ⟨d, ⟨if t ∈ i.uses then n + reloadNeeds code t i + 2 else n + reloadNeeds code t i + 1⟩,
        valueTemp code t n i⟩ := by
  rw [newStores]
  split <;> simp [*]

theorem mem_map_rename {us : List Temp} {u v : Temp} :
    u ∈ us.map (rename t v) ↔ (u ∈ us ∧ u ≠ t) ∨ (u = v ∧ t ∈ us) := by
  rw [List.mem_map]
  constructor
  · rintro ⟨a, ha, rfl⟩
    by_cases hat : a = t
    · rw [hat] at ha
      exact .inr ⟨if_pos hat, ha⟩
    · rw [rename, if_neg hat]
      exact .inl ⟨ha, hat⟩
  · rintro (⟨hu, hut⟩ | ⟨rfl, ht⟩)
    · exact ⟨u, hu, if_neg hut⟩
    · exact ⟨t, ht, if_pos rfl⟩

/-- After one more spill an instruction reads the new temporary instead of the spilled one. -/
theorem reads_rewrap {n : Nat} {u : Temp} :
    Reads code u (rewrap code t d n w).main ↔ (u ∈ w.main.uses ∧ u ≠ t) ∨
      (u = valueTemp code t n w.main ∧ t ∈ w.main.uses) ∨ Reloads code u w.main := by
  rw [Reads, rewrap, uses_replace, mem_map_rename, Reloads, jumps_replace, or_assoc]
  rfl

/-- One more spill keeps instructions modest. -/
theorem modest_rewrap (h : w.main.Modest) (n : Nat) : (rewrap code t d n w).main.Modest := by
  refine ⟨?_, ?_, ?_⟩
  · rw [rewrap, uses_replace, List.length_map]
    exact h.uses
  · rw [rewrap, defs_replace, List.length_map]
    exact h.defs
  · rw [rewrap, uses_replace, defs_replace, jumps_replace, List.length_map, List.map_eq_nil_iff]
    exact h.jumps

/-- New accesses have addresses from the range of the wrap, none of which takes the place of the
    spilled temporary; their values are from there as well or are the spilled result. -/
theorem range_of_new {n : Nat} {i : Instr} {x : Access}
    (hx : x ∈ newLoads code t d n i ++ newStores code t d n i) :
    (n ≤ x.addr.index ∧ x.addr.index < n + tempsNeeded code t i) ∧
      x.addr ≠ valueTemp code t n i ∧
      (x.value = t ∧ t = code.frame.result ∨
        n ≤ x.value.index ∧ x.value.index < n + tempsNeeded code t i) := by
  have hne : ∀ k, k ≠ n + reloadNeeds code t i → (⟨k⟩ : Temp) ≠ valueTemp code t n i :=
    fun k hk heq => hk (congrArg Temp.index heq)
  rcases List.mem_append.mp hx with hx | hx
  · rcases mem_newLoads.mp hx with ⟨hreload, rfl⟩ | ⟨huse, rfl⟩
    · -- the reload comes first and brings the result itself
      have hneed : reloadNeeds code t i = 1 := if_pos hreload
      refine ⟨⟨Nat.le_refl n, ?_⟩, hne n (by omega), .inl ⟨rfl, hreload.1⟩⟩
      show n < n + tempsNeeded code t i
      rw [tempsNeeded]
      omega
    · have htouch : Touches t i := .inl huse
      have hneed : tempsNeeded code t i = reloadNeeds code t i + exchangeNeeds t i := by
        rw [tempsNeeded, if_pos htouch]
      have hexchange : 2 ≤ exchangeNeeds t i := by
        rw [exchangeNeeds, if_pos huse]
        omega
      refine ⟨?_, hne _ (by omega), .inr ?_⟩
      · show n ≤ n + reloadNeeds code t i + 1 ∧ n + reloadNeeds code t i + 1 < _
        omega
      · show n ≤ n + reloadNeeds code t i ∧ n + reloadNeeds code t i < _
        omega
  · obtain ⟨hdef, rfl⟩ := mem_newStores.mp hx
    have htouch : Touches t i := .inr hdef
    have hneed : tempsNeeded code t i = reloadNeeds code t i + exchangeNeeds t i := by
      rw [tempsNeeded, if_pos htouch]
    have hexchange : exchangeNeeds t i = if t ∈ i.uses then 3 else 2 := by
      rw [exchangeNeeds, if_pos hdef]
      split <;> rfl
    -- the address of the store is the last temporary of the window
    have haddr : (if t ∈ i.uses then n + reloadNeeds code t i + 2
        else n + reloadNeeds code t i + 1) =
          n + reloadNeeds code t i + (exchangeNeeds t i - 1) := by
      rw [hexchange]
      split <;> rfl
    have hpos : 2 ≤ exchangeNeeds t i := by
      rw [hexchange]
      split <;> omega
    rw [haddr]
    refine ⟨?_, hne _ (by omega), .inr ?_⟩
    · show n ≤ n + reloadNeeds code t i + (exchangeNeeds t i - 1) ∧
        n + reloadNeeds code t i + (exchangeNeeds t i - 1) < _
      omega
    · show n ≤ n + reloadNeeds code t i ∧ n + reloadNeeds code t i < _
      omega

/-- Each new access has an address of its own. -/
theorem nodup_new_addrs (n : Nat) (i : Instr) :
    ((newLoads code t d n i ++ newStores code t d n i).map (·.addr)).Nodup := by
  by_cases hreload : Reloads code t i <;> by_cases huse : t ∈ i.uses <;>
    by_cases hdef : t ∈ i.defs <;>
    simp [newLoads, newStores, reloadNeeds, hreload, huse, hdef, Nat.add_assoc]

/-- After one more spill a wrap has its old accesses and the new ones. -/
theorem mem_accesses_rewrap {n : Nat} {x : Access} :
    x ∈ (rewrap code t d n w).loads ++ (rewrap code t d n w).stores ↔
      x ∈ w.loads ++ w.stores ∨
        x ∈ newLoads code t d n w.main ++ newStores code t d n w.main := by
  simp only [rewrap, List.mem_append]
  constructor
  · rintro ((h | h) | (h | h))
    · exact .inl (.inl h)
    · exact .inr (.inl h)
    · exact .inr (.inr h)
    · exact .inl (.inr h)
  · rintro ((h | h) | (h | h))
    · exact .inl (.inl h)
    · exact .inr (.inr h)
    · exact .inl (.inr h)
    · exact .inr (.inl h)

/-- The temporaries that must not be spilled after one more spill, seen from a wrap whose range
    starts at `n`: those of before, the new ones, and the result if it was spilled. -/
structure Marks (code : Code) (t : Temp) (limit n needed : Nat) (temps temps' : TempSet) :
    Prop where
  old : ∀ u ∈ temps, u ∈ temps' ∧ u.index < limit
  result : t = code.frame.result → t ∈ temps'
  new : ∀ u : Temp, n ≤ u.index → u.index < n + needed → u ∈ temps'
  only : ∀ u ∈ temps', u.index < limit → u ∈ temps ∨ u = t
  result_lt : code.frame.result.index < limit
  le : limit ≤ n

section Fits

variable {limit n : Nat} {temps' : TempSet}
  (hmarks : Marks code t limit n (tempsNeeded code t w.main) temps temps')

include hmarks

/-- The temporaries of a new access must not be spilled any more, and its address is new. -/
theorem marked_of_new {x : Access}
    (hx : x ∈ newLoads code t d n w.main ++ newStores code t d n w.main) :
    x.addr ∈ temps' ∧ x.value ∈ temps' ∧ limit ≤ x.addr.index := by
  obtain ⟨⟨hge, hlt⟩, -, hvalue⟩ := range_of_new hx
  refine ⟨hmarks.new _ hge hlt, ?_, hmarks.le.trans hge⟩
  rcases hvalue with ⟨heq, hresult⟩ | ⟨hge, hlt⟩
  · exact heq ▸ hmarks.result hresult
  · exact hmarks.new _ hge hlt

theorem ne_valueTemp {u : Temp} (hu : u.index < limit) : u ≠ valueTemp code t n w.main := by
  have hge : limit ≤ (valueTemp code t n w.main).index := Nat.le_add_right_of_le hmarks.le
  rintro rfl
  exact absurd hu (Nat.not_lt.mpr hge)

namespace Wrap.Fits

variable (hfits : w.Fits code temps) (ht : t ∉ temps)

include hfits ht

/-- After one more spill only that is loaded which is read. -/
theorem loaded_rewrap {x : Access} (hx : x ∈ (rewrap code t d n w).loads) :
    x.value ∈ temps' ∧ Reads code x.value (rewrap code t d n w).main := by
  rcases List.mem_append.mp hx with hx | hx
  · obtain ⟨hmem, hreads⟩ := hfits.loaded x hx
    refine ⟨(hmarks.old _ hmem).1, reads_rewrap.mpr ?_⟩
    rcases hreads with huse | hreload
    · exact .inl ⟨huse, fun heq => ht (heq ▸ hmem)⟩
    · exact .inr (.inr hreload)
  · refine ⟨(marked_of_new hmarks (List.mem_append_left _ hx)).2.1, reads_rewrap.mpr ?_⟩
    rcases mem_newLoads.mp hx with ⟨hreload, rfl⟩ | ⟨huse, rfl⟩
    · exact .inr (.inr hreload)
    · exact .inr (.inl ⟨rfl, huse⟩)

/-- After one more spill only that is stored which is written. -/
theorem stored_rewrap {x : Access} (hx : x ∈ (rewrap code t d n w).stores) :
    x.value ∈ temps' ∧ x.value ∈ (rewrap code t d n w).main.defs := by
  rw [rewrap, defs_replace, mem_map_rename]
  rcases List.mem_append.mp hx with hx | hx
  · refine ⟨(marked_of_new hmarks (List.mem_append_right _ hx)).2.1, .inr ?_⟩
    obtain ⟨hdef, rfl⟩ := mem_newStores.mp hx
    exact ⟨rfl, hdef⟩
  · obtain ⟨hmem, hdef⟩ := hfits.stored x hx
    exact ⟨(hmarks.old _ hmem).1, .inl ⟨hdef, fun heq => ht (heq ▸ hmem)⟩⟩

/-- Nothing is loaded twice. -/
theorem nodup_loads_rewrap : ((rewrap code t d n w).loads.map (·.value)).Nodup := by
  rw [rewrap, List.map_append, List.nodup_append]
  refine ⟨hfits.nodup_loads, ?_, ?_⟩
  · by_cases hreload : Reloads code t w.main
    · have hne : t ≠ valueTemp code t n w.main :=
        ne_valueTemp hmarks (hreload.1 ▸ hmarks.result_lt)
      by_cases huse : t ∈ w.main.uses
      · simp [newLoads, hreload, huse, hne]
      · simp [newLoads, hreload, huse]
    · by_cases huse : t ∈ w.main.uses
      · simp [newLoads, hreload, huse]
      · simp [newLoads, hreload, huse]
  · intro a ha b hb
    obtain ⟨x, hx, rfl⟩ := List.mem_map.mp ha
    obtain ⟨y, hy, rfl⟩ := List.mem_map.mp hb
    have hmem := (hfits.loaded x hx).1
    rcases mem_newLoads.mp hy with ⟨-, rfl⟩ | ⟨-, rfl⟩
    · show x.value ≠ t
      exact fun heq => ht (heq ▸ hmem)
    · exact ne_valueTemp hmarks (hmarks.old _ hmem).2

omit ht in
/-- Nothing is stored twice. -/
theorem nodup_stores_rewrap : ((rewrap code t d n w).stores.map (·.value)).Nodup := by
  rw [rewrap, List.map_append, List.nodup_append]
  refine ⟨?_, hfits.nodup_stores, ?_⟩
  · rw [newStores]
    split <;> simp
  · intro a ha b hb
    obtain ⟨x, hx, rfl⟩ := List.mem_map.mp ha
    obtain ⟨y, hy, rfl⟩ := List.mem_map.mp hb
    obtain ⟨-, rfl⟩ := mem_newStores.mp hx
    exact Ne.symm (ne_valueTemp hmarks (hmarks.old _ (hfits.stored y hy).1).2)

omit ht in
/-- Each access has an address of its own. -/
theorem nodup_addrs_rewrap :
    (((rewrap code t d n w).loads ++ (rewrap code t d n w).stores).map (·.addr)).Nodup := by
  have hperm : ((rewrap code t d n w).loads ++ (rewrap code t d n w).stores).Perm
      ((w.loads ++ w.stores) ++ (newLoads code t d n w.main ++ newStores code t d n w.main)) := by
    simp only [rewrap, List.append_assoc]
    refine List.Perm.append_left _ ?_
    rw [← List.append_assoc]
    exact List.perm_append_comm
  rw [(hperm.map _).nodup_iff, List.map_append, List.nodup_append]
  refine ⟨hfits.nodup_addrs, nodup_new_addrs n w.main, ?_⟩
  intro a ha b hb heq
  obtain ⟨x, hx, rfl⟩ := List.mem_map.mp ha
  obtain ⟨y, hy, rfl⟩ := List.mem_map.mp hb
  have hlt := (hmarks.old _ (hfits.addr x hx).1).2
  exact absurd (heq ▸ hlt) (Nat.not_lt.mpr (marked_of_new hmarks hy).2.2)

variable (hmain : ∀ u, Touches u w.main → u.index < limit)

include hmain

omit ht in
/-- What is read and must not be spilled is loaded. -/
theorem read_rewrap {u : Temp} (hu : u ∈ temps')
    (hreads : Reads code u (rewrap code t d n w).main) :
    ∃ x ∈ (rewrap code t d n w).loads, x.value = u := by
  rcases reads_rewrap.mp hreads with ⟨huse, hut⟩ | ⟨rfl, huse⟩ | hreload
  · have hmem := (hmarks.only u hu (hmain u (.inl huse))).resolve_right hut
    obtain ⟨x, hx, hvalue⟩ := hfits.read u hmem (.inl huse)
    exact ⟨x, List.mem_append_left _ hx, hvalue⟩
  · exact ⟨_, List.mem_append_right _ (mem_newLoads.mpr (.inr ⟨huse, rfl⟩)), rfl⟩
  · rcases hmarks.only u hu (hreload.1 ▸ hmarks.result_lt) with hmem | rfl
    · obtain ⟨x, hx, hvalue⟩ := hfits.read u hmem (.inr hreload)
      exact ⟨x, List.mem_append_left _ hx, hvalue⟩
    · exact ⟨_, List.mem_append_right _ (mem_newLoads.mpr (.inl ⟨hreload, rfl⟩)), rfl⟩

omit ht in
/-- What is written and must not be spilled is stored. -/
theorem written_rewrap {u : Temp} (hu : u ∈ temps') (hdef : u ∈ (rewrap code t d n w).main.defs) :
    ∃ x ∈ (rewrap code t d n w).stores, x.value = u := by
  rw [rewrap, defs_replace, mem_map_rename] at hdef
  rcases hdef with ⟨hdef, hut⟩ | ⟨rfl, hdef⟩
  · have hmem := (hmarks.only u hu (hmain u (.inr hdef))).resolve_right hut
    obtain ⟨x, hx, hvalue⟩ := hfits.written u hmem hdef
    exact ⟨x, List.mem_append_right _ hx, hvalue⟩
  · exact ⟨_, List.mem_append_left _ (mem_newStores.mpr ⟨hdef, rfl⟩), rfl⟩

omit ht in
/-- The instruction itself does not use the address of an access. -/
theorem addr_rewrap {x : Access}
    (hx : x ∈ (rewrap code t d n w).loads ++ (rewrap code t d n w).stores) :
    x.addr ∈ temps' ∧ x.addr ≠ code.frame.result ∧
      ¬ Touches x.addr (rewrap code t d n w).main := by
  rcases mem_accesses_rewrap.mp hx with hx | hx
  · obtain ⟨hmem, hresult, htouch⟩ := hfits.addr x hx
    refine ⟨(hmarks.old _ hmem).1, hresult, ?_⟩
    intro htouch'
    rcases touches_replace htouch' with heq | ⟨htouch', -⟩
    · exact ne_valueTemp hmarks (hmarks.old _ hmem).2 heq
    · exact htouch htouch'
  · obtain ⟨hmem, -, hge⟩ := marked_of_new hmarks hx
    refine ⟨hmem, ?_, ?_⟩
    · intro heq
      exact absurd (heq ▸ hmarks.result_lt) (Nat.not_lt.mpr hge)
    · intro htouch
      rcases touches_replace htouch with heq | ⟨htouch, -⟩
      · exact (range_of_new hx).2.1 heq
      · exact absurd (hmain _ htouch) (Nat.not_lt.mpr hge)

/-- A new wrap fits the new marks. -/
theorem rewrap : (Spill.rewrap code t d n w).Fits code temps' where
  modest := modest_rewrap hfits.modest n
  read _ hu hreads := read_rewrap hmarks hfits hmain hu hreads
  loaded _ hx := loaded_rewrap hmarks hfits ht hx
  written _ hu hdef := written_rewrap hmarks hfits hmain hu hdef
  stored _ hx := stored_rewrap hmarks hfits ht hx
  addr _ hx := addr_rewrap hmarks hfits hmain hx
  nodup_loads := nodup_loads_rewrap hmarks hfits ht
  nodup_stores := nodup_stores_rewrap hmarks hfits
  nodup_addrs := nodup_addrs_rewrap hmarks hfits

end Wrap.Fits

end Fits

-- ── The whole code ───────────────────────────────────────────────────────────

/-- After one more spill a wrap owns what it owned, the new temporaries, and the result if it was
    spilled. -/
theorem owns_rewrap {n : Nat} {u : Temp} (h : (rewrap code t d n w).Owns u) :
    w.Owns u ∨ u = t ∧ t = code.frame.result ∨
      n ≤ u.index ∧ u.index < n + tempsNeeded code t w.main := by
  obtain ⟨x, hx, hu⟩ := h
  rcases mem_accesses_rewrap.mp hx with hx | hx
  · exact .inl ⟨x, hx, hu⟩
  · obtain ⟨haddr, -, hvalue⟩ := range_of_new hx
    rcases hu with rfl | rfl
    · exact .inr hvalue
    · exact .inr (.inr haddr)

theorem Wrap.Fits.lt_of_owns {limit : Nat} (hfits : w.Fits code temps)
    (hlimit : ∀ u ∈ temps, u.index < limit) {u : Temp} (h : w.Owns u) : u.index < limit := by
  obtain ⟨x, hx, rfl | rfl⟩ := h
  · rcases List.mem_append.mp hx with hx | hx
    · exact hlimit _ (hfits.loaded x hx).1
    · exact hlimit _ (hfits.stored x hx).1
  · exact hlimit _ (hfits.addr x hx).1

/-- New wraps own nothing together but the result: their ranges do not overlap, and what they had
    before lies below all of them. -/
theorem apart_rewraps {limit n : Nat} (hfits : ∀ w ∈ ws, w.Fits code temps)
    (hlimit : ∀ u ∈ temps, u.index < limit) (hn : limit ≤ n)
    (h : ws.Pairwise fun v w => ∀ u, v.Owns u → w.Owns u → u = code.frame.result) :
    (rewraps code t d n ws).Pairwise
      fun v w => ∀ u, v.Owns u → w.Owns u → u = code.frame.result := by
  induction ws generalizing n with
  | nil => exact List.Pairwise.nil
  | cons w ws ih =>
      obtain ⟨hhead, htail⟩ := List.pairwise_cons.mp h
      refine List.pairwise_cons.mpr ⟨?_, ih (fun v hv => hfits v (List.mem_cons_of_mem _ hv))
        (hn.trans (Nat.le_add_right _ _)) htail⟩
      intro v hv u hw hv'
      obtain ⟨v₀, hv₀, m, hle, -, rfl⟩ := mem_rewraps hv
      have hlow := fun h => (hfits w List.mem_cons_self).lt_of_owns hlimit (u := u) h
      have hlow' := fun h => (hfits v₀ (List.mem_cons_of_mem _ hv₀)).lt_of_owns hlimit (u := u) h
      rcases owns_rewrap hw with hw | ⟨rfl, hresult⟩ | hw
      · rcases owns_rewrap hv' with hv' | ⟨rfl, hresult⟩ | hv'
        · exact hhead v₀ hv₀ u hw hv'
        · exact hresult
        · have hlt := hlow hw
          omega
      · exact hresult
      · rcases owns_rewrap hv' with hv' | ⟨rfl, hresult⟩ | hv'
        · have hlt := hlow' hv'
          omega
        · exact hresult
        · omega

end Rewrap

-- ── Wrapped code ─────────────────────────────────────────────────────────────

/-- Only the frame and the exit of the function count. -/
theorem Wrap.Fits.of_code {code code' : Code} {temps : TempSet} {w : Wrap}
    (hframe : code'.frame = code.frame) (hexit : code'.exit = code.exit)
    (h : w.Fits code temps) : w.Fits code' temps := by
  have hreads : ∀ u, Reads code' u w.main ↔ Reads code u w.main := by
    intro u
    rw [Reads, Reads, Reloads, Reloads, hframe, hexit]
  exact
    { modest := h.modest
      read := fun u hu hr => h.read u hu ((hreads u).mp hr)
      loaded := fun x hx => ⟨(h.loaded x hx).1, (hreads _).mpr (h.loaded x hx).2⟩
      written := h.written
      stored := h.stored
      addr := fun x hx => hframe ▸ h.addr x hx
      nodup_loads := h.nodup_loads
      nodup_stores := h.nodup_stores
      nodup_addrs := h.nodup_addrs }

/-- Spilling once more leaves wrapped code. -/
theorem Wrapped.spill {code code' : Code} {temps temps' : TempSet} {ws : List Wrap} {t : Temp}
    {d : Word} {limit : Nat} (h : Wrapped code temps ws) (ht : t ∉ temps)
    (hpointer : t ≠ code.frame.pointer) (hpointer_lt : code.frame.pointer.index < limit)
    (hcode : ∀ i ∈ code.instrs, ∀ u, Touches u i → u.index < limit)
    (hmarks : Marks code t limit limit (totalNeeded code t code.instrs) temps temps')
    (hframe : code'.frame = code.frame) (hexit : code'.exit = code.exit)
    (hinstrs : code'.instrs = patched code t d limit code.instrs) :
    Wrapped code' temps' (rewraps code t d limit ws) := by
  have hlimit : ∀ u ∈ temps, u.index < limit := fun u hu => (hmarks.old u hu).2
  have hmarked : ∀ w ∈ ws, w.Marked temps := fun w hw => (h.fits w hw).marked
  have htotal : totalNeeded code t code.instrs = totalNeeded code t (ws.map (·.main)) := by
    rw [h.instrs, totalNeeded_wraps hmarked ht hpointer]
  refine ⟨?_, ?_, ?_, ?_⟩
  · rw [hinstrs, hframe, h.instrs, patched_wraps hmarked ht hpointer]
  · intro v hv
    obtain ⟨w, hw, n, hle, hlt, rfl⟩ := mem_rewraps hv
    have hmarks' : Marks code t limit n (tempsNeeded code t w.main) temps temps' := by
      refine ⟨hmarks.old, hmarks.result, ?_, hmarks.only, hmarks.result_lt, hle⟩
      intro u hge hlt'
      exact hmarks.new u (by omega) (by omega)
    refine (Wrap.Fits.rewrap hmarks' (h.fits w hw) ht (hcode w.main ?_)).of_code hframe hexit
    rw [h.instrs]
    exact List.mem_flatMap.mpr ⟨w, hw, List.mem_append_right _ List.mem_cons_self⟩
  · rw [hframe]
    exact apart_rewraps h.fits hlimit (Nat.le_refl limit) h.apart
  · rw [hframe]
    intro hmem
    rcases hmarks.only _ hmem hpointer_lt with hmem | heq
    · exact h.pointer hmem
    · exact hpointer heq.symm

end Spill

end MmixBackend
