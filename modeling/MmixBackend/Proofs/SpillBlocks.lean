import Mathlib.Data.List.Perm.Subperm
import Mathlib.Data.List.Nodup
import Mathlib.Data.List.Pairwise
import MmixBackend.Proofs.ColoringOrder
import MmixBackend.Proofs.LiveAhead

/-!
# Code that was spilled from

After any number of spills, code is a list of *wraps*: an instruction of the code before the first
spill, with loads of what it reads from slots before it and stores of what it writes to slots behind
it. All temporaries that spilling introduced have their place in one wrap, but for the result of the
function, which may be loaded in many.

* **`not_ahead_wraps`** — none of them is ahead where a wrap starts.
* **`tame_wraps`** — within a wrap, the value of a load meets the values and the addresses of the
  other loads, and the value of a store meets its address.
* **`sparse_of_wrapped`** — an instruction reads at most two temporaries, so wherever some of them
  are looked at, one has at most one neighbour.
-/

namespace MmixBackend

/-- The instruction reads at most two temporaries and writes at most one. If it jumps, it reads at
    most one and writes none. -/
structure Instr.Modest (i : Instr) : Prop where
  uses : i.uses.length ≤ 2
  defs : i.defs.length ≤ 1
  jumps : i.jumps ≠ [] → i.uses.length ≤ 1 ∧ i.defs = []

theorem Instr.Modest.eq_of_mem_defs {i : Instr} (h : i.Modest) {a b : Temp} (ha : a ∈ i.defs)
    (hb : b ∈ i.defs) : a = b := by
  have hle := h.defs
  cases hdefs : i.defs with
  | nil =>
      rw [hdefs] at ha
      cases ha
  | cons d ds =>
      rw [hdefs] at ha hb hle
      obtain rfl : ds = [] := List.eq_nil_of_length_eq_zero (by simpa using hle)
      rw [List.mem_singleton.mp ha, List.mem_singleton.mp hb]

namespace Spill

open Code

-- ── Wraps ────────────────────────────────────────────────────────────────────

/-- An access to the slot `distance` bytes below the frame pointer. -/
structure Access where
  distance : Word
  addr : Temp
  value : Temp

/-- The instructions that load the value of an access. -/
def Access.load (frame : Frame) (x : Access) : List Instr :=
  loadCode frame x.distance x.addr x.value

/-- The instructions that store it. -/
def Access.store (frame : Frame) (x : Access) : List Instr :=
  storeCode frame x.distance x.addr x.value

/-- An instruction with its accesses to slots. -/
structure Wrap where
  loads : List Access
  main : Instr
  stores : List Access

/-- The instructions of a wrap: the loads, the instruction itself and the stores. -/
def Wrap.instrs (frame : Frame) (w : Wrap) : List Instr :=
  w.loads.flatMap (Access.load frame) ++ w.main :: w.stores.flatMap (Access.store frame)

/-- The temporary belongs to an access of the wrap. -/
def Wrap.Owns (w : Wrap) (t : Temp) : Prop :=
  ∃ x ∈ w.loads ++ w.stores, t = x.value ∨ t = x.addr

/-- The instruction reads the temporary, or control leaves with it. -/
def Reads (code : Code) (t : Temp) (i : Instr) : Prop := t ∈ i.uses ∨ Reloads code t i

/-- The loads of a wrap bring exactly those temporaries of the set that the instruction reads, the
    stores take those that it writes, and each access has an address of its own. -/
structure Wrap.Fits (code : Code) (temps : TempSet) (w : Wrap) : Prop where
  modest : w.main.Modest
  read : ∀ t ∈ temps, Reads code t w.main → ∃ x ∈ w.loads, x.value = t
  loaded : ∀ x ∈ w.loads, x.value ∈ temps ∧ Reads code x.value w.main
  written : ∀ t ∈ temps, t ∈ w.main.defs → ∃ x ∈ w.stores, x.value = t
  stored : ∀ x ∈ w.stores, x.value ∈ temps ∧ x.value ∈ w.main.defs
  addr : ∀ x ∈ w.loads ++ w.stores, x.addr ∈ temps ∧ x.addr ≠ code.frame.result ∧
    ¬ Touches x.addr w.main
  nodup_loads : (w.loads.map (·.value)).Nodup
  nodup_stores : (w.stores.map (·.value)).Nodup
  nodup_addrs : ((w.loads ++ w.stores).map (·.addr)).Nodup

/-- The code is made of wraps, which own no temporary together but the result. -/
structure Wrapped (code : Code) (temps : TempSet) (ws : List Wrap) : Prop where
  instrs : code.instrs = ws.flatMap (Wrap.instrs code.frame)
  fits : ∀ w ∈ ws, w.Fits code temps
  apart : ws.Pairwise fun v w => ∀ t, v.Owns t → w.Owns t → t = code.frame.result
  pointer : code.frame.pointer ∉ temps

-- ── What an access needs ─────────────────────────────────────────────────────

section Accesses

variable {code : Code} {P : Temp → Prop} {R : Temp → Temp → Prop} {rest : List Instr}
  {d : Word} {addr u : Temp} {x : Access}

/-- The instructions for the address of a slot read nothing but the frame pointer. -/
theorem ahead_addressCode (hu : u ≠ code.frame.pointer)
    (h : code.Ahead (addressCode code.frame d addr ++ rest) u) : u ≠ addr ∧ code.Ahead rest u := by
  -- the first instruction writes the address, the others touch only it and the frame pointer
  have hsplit : addressCode code.frame d addr =
      .plain (.setLow (constField d.toInt.natAbs 0)) [] [addr] ::
        (addressCode code.frame d addr).tail := rfl
  rw [hsplit, List.cons_append] at h
  have htail : ∀ i ∈ (addressCode code.frame d addr).tail, i ∈ addressCode code.frame d addr :=
    fun i hi => List.mem_of_mem_tail hi
  rcases ahead_cons_of_isPlain (isPlain_plain _ _ _) h with huse | ⟨hahead, hdef⟩
  · cases huse
  · have hne : u ≠ addr := fun heq => hdef (heq ▸ List.mem_cons_self)
    refine ⟨hne, ?_⟩
    refine (ahead_append (fun i hi => isPlain_addressCode (htail i hi)) hahead).resolve_left ?_
    rintro ⟨i, hi, huse⟩
    rcases touches_addressCode (htail i hi) (.inl huse) with heq | heq
    · exact hu heq
    · exact hne heq

/-- In front of a load neither its value nor its address is ahead. -/
theorem ahead_load (hu : u ≠ code.frame.pointer)
    (h : code.Ahead (x.load code.frame ++ rest) u) :
    u ≠ x.addr ∧ u ≠ x.value ∧ code.Ahead rest u := by
  rw [Access.load, loadCode, List.append_assoc] at h
  obtain ⟨hne, h⟩ := ahead_addressCode hu h
  rcases ahead_cons_of_isPlain (isPlain_plain _ _ _) h with huse | ⟨hahead, hdef⟩
  · exact absurd (List.mem_singleton.mp huse) hne
  · exact ⟨hne, fun heq => hdef (heq ▸ List.mem_cons_self), hahead⟩

/-- In front of a store its value is ahead, and its address is not. -/
theorem ahead_store (hu : u ≠ code.frame.pointer)
    (h : code.Ahead (x.store code.frame ++ rest) u) :
    u ≠ x.addr ∧ (u = x.value ∨ code.Ahead rest u) := by
  rw [Access.store, storeCode, List.append_assoc] at h
  obtain ⟨hne, h⟩ := ahead_addressCode hu h
  refine ⟨hne, ?_⟩
  rcases ahead_cons_of_isPlain (isPlain_plain _ _ _) h with huse | ⟨hahead, -⟩
  · rcases List.mem_cons.mp huse with rfl | huse
    · exact .inl rfl
    · exact absurd (List.mem_singleton.mp huse) hne
  · exact .inr hahead

/-- The address code is tame if the address may meet what is ahead behind it. -/
theorem tame_addressCode (hpointer : ¬ P code.frame.pointer)
    (hT : Related P R fun u => u = addr ∨ code.Ahead rest u) (hrest : code.Tame P R rest) :
    code.Tame P R (addressCode code.frame d addr ++ rest) := by
  refine hrest.append (fun i hi => isPlain_addressCode hi) ?_ ?_ hT
  · intro i hi u hu htouch
    rcases touches_addressCode hi htouch with rfl | rfl
    · exact absurd hu hpointer
    · exact .inl rfl
  · intro u _ hahead
    exact .inr hahead

/-- A load is tame if its value may meet what is ahead behind it, and its address all of that but
    the value. -/
theorem tame_load {T : Temp → Prop} (hpointer : ¬ P code.frame.pointer)
    (hahead : ∀ u, P u → code.Ahead rest u → T u) (hvalue : T x.value) (hT : Related P R T)
    (haddr : ∀ u, P u → T u → u ≠ x.value → u ≠ x.addr → R u x.addr ∧ R x.addr u)
    (hrest : code.Tame P R rest) : code.Tame P R (x.load code.frame ++ rest) := by
  have hload : ∀ u, P u → code.Ahead (.plain .load [x.addr] [x.value] :: rest) u →
      u = x.addr ∨ T u ∧ u ≠ x.value := by
    intro u hu h
    rcases ahead_cons_of_isPlain (isPlain_plain _ _ _) h with huse | ⟨h, hdef⟩
    · exact .inl (List.mem_singleton.mp huse)
    · exact .inr ⟨hahead u hu h, fun heq => hdef (heq ▸ List.mem_cons_self)⟩
  -- before the load the value is not alive yet, behind it the address is not any more
  have hbefore : Related P R fun u =>
      u = x.addr ∨ code.Ahead (.plain .load [x.addr] [x.value] :: rest) u := by
    intro a b ha hb haT hbT hne
    have ha' : a = x.addr ∨ T a ∧ a ≠ x.value := haT.elim .inl (hload a ha)
    have hb' : b = x.addr ∨ T b ∧ b ≠ x.value := hbT.elim .inl (hload b hb)
    rcases ha' with rfl | ⟨haT, hav⟩
    · rcases hb' with rfl | ⟨hbT, hbv⟩
      · exact absurd rfl hne
      · exact (haddr b hb hbT hbv (Ne.symm hne)).2
    · rcases hb' with rfl | ⟨hbT, hbv⟩
      · exact (haddr a ha haT hav hne).1
      · exact hT a b ha hb haT hbT hne
  rw [Access.load, loadCode, List.append_assoc]
  refine tame_addressCode hpointer hbefore ?_
  refine hrest.cons_isPlain (isPlain_plain _ _ _) ?_ ?_
  · intro a b ha hb haT hbT hne
    exact hbefore a b ha hb (.inr haT) (.inr hbT) hne
  · have hafter : ∀ u, P u → code.Ahead rest u ∨ u ∈ [x.value] → T u := by
      rintro u hu (h | h)
      · exact hahead u hu h
      · exact List.mem_singleton.mp h ▸ hvalue
    intro a b ha hb haT hbT hne
    exact hT a b ha hb (hafter a ha haT) (hafter b hb hbT) hne

/-- A store with nothing of the set ahead behind it is tame if its value may meet its address. -/
theorem tame_store (hpointer : ¬ P code.frame.pointer) (hquiet : ∀ u, P u → ¬ code.Ahead rest u)
    (hR : R x.value x.addr ∧ R x.addr x.value) (hrest : code.Tame P R rest) :
    code.Tame P R (x.store code.frame ++ rest) := by
  refine hrest.append (fun i hi => isPlain_storeCode hi) (T := fun u => u = x.addr ∨ u = x.value)
    ?_ ?_ ?_
  · intro i hi u hu htouch
    rcases touches_storeCode hi htouch with rfl | h | h
    · exact absurd hu hpointer
    · exact .inl h
    · exact .inr h
  · intro u hu hahead
    exact absurd hahead (hquiet u hu)
  · rintro a b - - (rfl | rfl) (rfl | rfl) hne
    · exact absurd rfl hne
    · exact hR.2
    · exact hR.1
    · exact absurd rfl hne

end Accesses

-- ── What a wrap needs ────────────────────────────────────────────────────────

section Wraps

variable {code : Code} {temps : TempSet} {rest : List Instr} {w : Wrap} {u : Temp}

/-- Which temporaries of a wrap may meet: the value of a load with the value or the address of
    another one, and the value of a store with its address. -/
def Wrap.Pair (w : Wrap) (a b : Temp) : Prop :=
  (∃ x ∈ w.loads, ∃ y ∈ w.loads, x ≠ y ∧ a = x.value ∧ (b = y.value ∨ b = y.addr)) ∨
    ∃ x ∈ w.stores, a = x.value ∧ b = x.addr

/-- They may meet, one way round or the other. -/
def Wrap.Meet (w : Wrap) (a b : Temp) : Prop := w.Pair a b ∨ w.Pair b a

/-- Accesses with different values from a list are not more than the list has. -/
theorem length_le_of_subset (ts : List Temp) {xs : List Access}
    (hnodup : (xs.map (·.value)).Nodup) (hsub : ∀ x ∈ xs, x.value ∈ ts) :
    xs.length ≤ ts.length := by
  have hsub' : xs.map (·.value) ⊆ ts := by
    intro t ht
    obtain ⟨x, hx, rfl⟩ := List.mem_map.mp ht
    exact hsub x hx
  have hle := (List.subperm_of_subset hnodup hsub').length_le
  rwa [List.length_map] at hle

/-- A wrap has at most two loads. -/
theorem Wrap.Fits.loads_le (h : w.Fits code temps) : w.loads.length ≤ 2 := by
  by_cases hjumps : w.main.jumps = []
  · refine (length_le_of_subset w.main.uses h.nodup_loads ?_).trans h.modest.uses
    intro x hx
    refine (h.loaded x hx).2.resolve_right ?_
    rintro ⟨-, hexit⟩
    rw [hjumps] at hexit
    cases hexit
  · have hle := length_le_of_subset (code.frame.result :: w.main.uses) h.nodup_loads ?_
    · have huses := (h.modest.jumps hjumps).1
      rw [List.length_cons] at hle
      omega
    · intro x hx
      rcases (h.loaded x hx).2 with huse | hreload
      · exact List.mem_cons_of_mem _ huse
      · exact List.mem_cons.mpr (.inl hreload.1)

/-- In front of stores only their values are ahead, beside what is ahead behind them. -/
theorem ahead_stores {xs : List Access} (hu : u ≠ code.frame.pointer)
    (h : code.Ahead (xs.flatMap (Access.store code.frame) ++ rest) u) :
    (∃ x ∈ xs, x.value = u) ∨ code.Ahead rest u := by
  induction xs with
  | nil => exact .inr h
  | cons x xs ih =>
      rw [List.flatMap_cons, List.append_assoc] at h
      rcases (ahead_store hu h).2 with rfl | h
      · exact .inl ⟨x, List.mem_cons_self, rfl⟩
      · refine (ih h).imp_left ?_
        rintro ⟨y, hy, hvalue⟩
        exact ⟨y, List.mem_cons_of_mem _ hy, hvalue⟩

/-- In front of loads their values are not ahead. -/
theorem ahead_loads {xs : List Access} (hu : u ≠ code.frame.pointer)
    (h : code.Ahead (xs.flatMap (Access.load code.frame) ++ rest) u) :
    (∀ x ∈ xs, x.value ≠ u) ∧ code.Ahead rest u := by
  induction xs with
  | nil => exact ⟨fun x hx => absurd hx List.not_mem_nil, h⟩
  | cons x xs ih =>
      rw [List.flatMap_cons, List.append_assoc] at h
      obtain ⟨-, hne, h⟩ := ahead_load hu h
      obtain ⟨hxs, h⟩ := ih h
      refine ⟨?_, h⟩
      intro y hy
      rcases List.mem_cons.mp hy with rfl | hy
      · exact Ne.symm hne
      · exact hxs y hy

section Quiet

variable (hfits : w.Fits code temps) (hpointer : code.frame.pointer ∉ temps)
  (hquiet : ∀ u ∈ temps, ¬ code.Ahead rest u)

include hfits hpointer hquiet

/-- Behind the instruction of a wrap is ahead only what it writes, and the result where control
    leaves. -/
theorem behind_main (hu : u ∈ temps)
    (h : code.Behind w.main (w.stores.flatMap (Access.store code.frame) ++ rest) u) :
    u ∈ w.main.defs ∨ Reloads code u w.main := by
  refine h.imp_left ?_
  intro hahead
  rcases ahead_stores (fun heq => hpointer (heq ▸ hu)) hahead with ⟨x, hx, rfl⟩ | hahead
  · exact (hfits.stored x hx).2
  · exact absurd hahead (hquiet u hu)

/-- In front of the instruction of a wrap is ahead only what it reads. -/
theorem ahead_main (hu : u ∈ temps)
    (h : code.Ahead (w.main :: (w.stores.flatMap (Access.store code.frame) ++ rest)) u) :
    Reads code u w.main := by
  rcases h with huse | ⟨hbehind, hdef⟩
  · exact .inl huse
  · exact .inr ((behind_main hfits hpointer hquiet hu hbehind).resolve_left hdef)

/-- Nothing that spilling introduced is ahead where a wrap starts. -/
theorem not_ahead_wrap (hu : u ∈ temps) : ¬ code.Ahead (w.instrs code.frame ++ rest) u := by
  intro h
  rw [Wrap.instrs, List.append_assoc] at h
  obtain ⟨hnot, h⟩ := ahead_loads (fun heq => hpointer (heq ▸ hu)) h
  obtain ⟨x, hx, hvalue⟩ := hfits.read u hu (ahead_main hfits hpointer hquiet hu h)
  exact hnot x hx hvalue

variable {R : Temp → Temp → Prop} (hR : ∀ a b, w.Meet a b → R a b)
  (hrest : code.Tame (· ∈ temps) R rest)

include hR hrest

/-- Temporaries that are ahead together during the stores of a wrap are ones that may meet. -/
theorem tame_stores :
    code.Tame (· ∈ temps) R (w.stores.flatMap (Access.store code.frame) ++ rest) := by
  have hle := length_le_of_subset w.main.defs hfits.nodup_stores fun x hx => (hfits.stored x hx).2
  have hpair : ∀ x ∈ w.stores, R x.value x.addr ∧ R x.addr x.value := by
    intro x hx
    exact ⟨hR _ _ (.inl (.inr ⟨x, hx, rfl, rfl⟩)), hR _ _ (.inr (.inr ⟨x, hx, rfl, rfl⟩))⟩
  cases hstores : w.stores with
  | nil => exact hrest
  | cons x xs =>
      rw [hstores] at hle hpair
      have hone : (x :: xs).length ≤ 1 := hle.trans hfits.modest.defs
      obtain rfl : xs = [] := List.eq_nil_of_length_eq_zero (by simpa using hone)
      simpa using tame_store hpointer hquiet (hpair x List.mem_cons_self) hrest

/-- So are those during its instruction. -/
theorem tame_main :
    code.Tame (· ∈ temps) R
      (w.main :: (w.stores.flatMap (Access.store code.frame) ++ rest)) := by
  have hreads := fun u (hu : u ∈ temps) h =>
    hfits.read u hu (ahead_main (u := u) hfits hpointer hquiet hu h)
  refine ⟨?_, ?_, ?_, tame_stores hfits hpointer hquiet hR hrest⟩
  · intro a b ha hb haT hbT hne
    obtain ⟨x, hx, rfl⟩ := hreads a ha haT
    obtain ⟨y, hy, rfl⟩ := hreads b hb hbT
    refine hR _ _ (.inl (.inl ⟨x, hx, y, hy, ?_, rfl, .inl rfl⟩))
    rintro rfl
    exact hne rfl
  · -- an instruction that jumps writes nothing, so what is left behind it is one temporary at most
    have hkind : ∀ u ∈ temps, code.Behind w.main
        (w.stores.flatMap (Access.store code.frame) ++ rest) u ∨ u ∈ w.main.defs →
        u ∈ w.main.defs ∨ Reloads code u w.main := by
      intro u hu h
      exact h.elim (behind_main hfits hpointer hquiet hu) .inl
    have hnone : ∀ u, Reloads code u w.main → w.main.defs = [] := by
      intro u hreload
      refine (hfits.modest.jumps ?_).2
      intro hjumps
      rw [Reloads, hjumps] at hreload
      cases hreload.2
    intro a b ha hb haT hbT hne
    refine absurd ?_ hne
    rcases hkind a ha haT with hda | hra
    · rcases hkind b hb hbT with hdb | hrb
      · exact hfits.modest.eq_of_mem_defs hda hdb
      · rw [hnone b hrb] at hda
        cases hda
    · rcases hkind b hb hbT with hdb | hrb
      · rw [hnone a hra] at hdb
        cases hdb
      · exact hra.1.trans hrb.1.symm
  · intro l hl u hu hahead
    have hreads := ahead_main hfits hpointer hquiet hu hahead
    rw [hl] at hreads
    rcases hreads with huse | hreload
    · cases huse
    · cases hreload.2

/-- So are those during the loads that are left to do. By induction on these. -/
theorem tame_loads (done todo : List Access) (hloads : w.loads = done ++ todo) :
    code.Tame (· ∈ temps) R (todo.flatMap (Access.load code.frame) ++
      w.main :: (w.stores.flatMap (Access.store code.frame) ++ rest)) := by
  induction todo generalizing done with
  | nil => exact tame_main hfits hpointer hquiet hR hrest
  | cons x todo ih =>
      have hloads' : w.loads = (done ++ [x]) ++ todo := by rw [hloads, List.append_assoc]; rfl
      have hmem : ∀ y ∈ done ++ [x], y ∈ w.loads := by
        intro y hy
        rw [hloads']
        exact List.mem_append_left _ hy
      rw [List.flatMap_cons, List.append_assoc]
      refine tame_load (T := fun u => ∃ y ∈ done ++ [x], y.value = u) hpointer ?_ ?_ ?_ ?_
        (ih _ hloads')
      · -- what is ahead behind this load was loaded by it or before it
        intro u hu hahead
        obtain ⟨hnot, hahead⟩ := ahead_loads (fun heq => hpointer (heq ▸ hu)) hahead
        obtain ⟨y, hy, hvalue⟩ := hfits.read u hu (ahead_main hfits hpointer hquiet hu hahead)
        rw [hloads', List.mem_append] at hy
        exact ⟨y, hy.resolve_right fun hy => hnot y hy hvalue, hvalue⟩
      · exact ⟨x, by simp, rfl⟩
      · rintro a b - - ⟨y, hy, rfl⟩ ⟨z, hz, rfl⟩ hne
        refine hR _ _ (.inl (.inl ⟨y, hmem y hy, z, hmem z hz, ?_, rfl, .inl rfl⟩))
        rintro rfl
        exact hne rfl
      · rintro u - ⟨y, hy, rfl⟩ hne -
        have hpair : w.Pair y.value x.addr := by
          refine .inl ⟨y, hmem y hy, x, hmem x (by simp), ?_, rfl, .inr rfl⟩
          rintro rfl
          exact hne rfl
        exact ⟨hR _ _ (.inl hpair), hR _ _ (.inr hpair)⟩

/-- Within a wrap only its own pairs meet. -/
theorem tame_wrap : code.Tame (· ∈ temps) R (w.instrs code.frame ++ rest) := by
  rw [Wrap.instrs, List.append_assoc]
  exact tame_loads hfits hpointer hquiet hR hrest [] w.loads rfl

end Quiet

variable {ws : List Wrap}

/-- In front of wraps none of their temporaries is ahead. -/
theorem not_ahead_wraps (hfits : ∀ w ∈ ws, w.Fits code temps)
    (hpointer : code.frame.pointer ∉ temps) :
    ∀ u ∈ temps, ¬ code.Ahead (ws.flatMap (Wrap.instrs code.frame)) u := by
  induction ws with
  | nil => exact fun _ _ h => h
  | cons w ws ih =>
      intro u hu
      rw [List.flatMap_cons]
      exact not_ahead_wrap (hfits w List.mem_cons_self) hpointer
        (ih fun v hv => hfits v (List.mem_cons_of_mem _ hv)) hu

/-- Only pairs of the same wrap meet. -/
theorem tame_wraps (hfits : ∀ w ∈ ws, w.Fits code temps) (hpointer : code.frame.pointer ∉ temps) :
    code.Tame (· ∈ temps) (fun a b => ∃ w ∈ ws, w.Meet a b)
      (ws.flatMap (Wrap.instrs code.frame)) := by
  induction ws with
  | nil => trivial
  | cons w ws ih =>
      have hfits' : ∀ v ∈ ws, v.Fits code temps := fun v hv => hfits v (List.mem_cons_of_mem _ hv)
      rw [List.flatMap_cons]
      refine tame_wrap (hfits w List.mem_cons_self) hpointer (not_ahead_wraps hfits' hpointer) ?_ ?_
      · intro a b h
        exact ⟨w, List.mem_cons_self, h⟩
      · refine (ih hfits').mono ?_
        rintro a b ⟨v, hv, h⟩
        exact ⟨v, List.mem_cons_of_mem _ hv, h⟩

-- ── Few neighbours ───────────────────────────────────────────────────────────

/-- Only temporaries of the wrap meet. -/
theorem Wrap.Pair.owns {a b : Temp} (h : w.Pair a b) : w.Owns a ∧ w.Owns b := by
  rcases h with ⟨x, hx, y, hy, -, rfl, hb⟩ | ⟨x, hx, rfl, rfl⟩
  · exact ⟨⟨x, List.mem_append_left _ hx, .inl rfl⟩, ⟨y, List.mem_append_left _ hy, hb⟩⟩
  · exact ⟨⟨x, List.mem_append_right _ hx, .inl rfl⟩, ⟨x, List.mem_append_right _ hx, .inr rfl⟩⟩

theorem Wrap.Meet.owns_left {a b : Temp} (h : w.Meet a b) : w.Owns a :=
  h.elim (fun h => h.owns.1) fun h => h.owns.2

theorem eq_of_length_le_two {α : Type} {l : List α} (h : l.length ≤ 2) {x y z : α} (hx : x ∈ l)
    (hy : y ∈ l) (hz : z ∈ l) (hxy : x ≠ y) (hxz : x ≠ z) : y = z := by
  by_contra hyz
  have hnodup : [x, y, z].Nodup := by simp [hxy, hxz, hyz]
  have hsub : [x, y, z] ⊆ l := by simp [hx, hy, hz]
  have hle := (List.subperm_of_subset hnodup hsub).length_le
  simp at hle
  omega

namespace Wrap.Fits

variable (h : w.Fits code temps)

include h

/-- An address of a wrap is not a value of it. -/
theorem addr_ne_value {x y : Access} (hx : x ∈ w.loads ++ w.stores) (hy : y ∈ w.loads ++ w.stores) :
    x.addr ≠ y.value := by
  obtain ⟨-, hresult, htouch⟩ := h.addr x hx
  intro heq
  rcases List.mem_append.mp hy with hy | hy
  · rcases (h.loaded y hy).2 with huse | hreload
    · exact htouch (.inl (heq ▸ huse))
    · exact hresult (heq.trans hreload.1)
  · exact htouch (.inr (heq ▸ (h.stored y hy).2))

/-- Each access has an address of its own. -/
theorem eq_of_addr_eq {x y : Access} (hx : x ∈ w.loads ++ w.stores) (hy : y ∈ w.loads ++ w.stores)
    (heq : x.addr = y.addr) : x = y :=
  List.inj_on_of_nodup_map h.nodup_addrs hx hy heq

theorem not_mem_stores {x : Access} (hx : x ∈ w.loads) : x ∉ w.stores := by
  intro hx'
  have hnodup := h.nodup_addrs
  rw [List.map_append, List.nodup_append] at hnodup
  exact hnodup.2.2 _ (List.mem_map.mpr ⟨x, hx, rfl⟩) _ (List.mem_map.mpr ⟨x, hx', rfl⟩) rfl

/-- The address of a load meets the value of another load only, and that of a store its own value
    only. -/
theorem cases_of_meet_addr {x : Access} (hx : x ∈ w.loads ++ w.stores) (hmeet : w.Meet x.addr u) :
    (x ∈ w.loads ∧ ∃ y ∈ w.loads, x ≠ y ∧ u = y.value) ∨ x ∈ w.stores ∧ u = x.value := by
  rcases hmeet with hpair | hpair
  · rcases hpair with ⟨y, hy, -, -, -, heq, -⟩ | ⟨y, hy, heq, -⟩
    · exact absurd heq (h.addr_ne_value hx (List.mem_append_left _ hy))
    · exact absurd heq (h.addr_ne_value hx (List.mem_append_right _ hy))
  · rcases hpair with ⟨y, hy, z, hz, hne, rfl, heq | heq⟩ | ⟨y, hy, rfl, heq⟩
    · exact absurd heq (h.addr_ne_value hx (List.mem_append_left _ hz))
    · obtain rfl := h.eq_of_addr_eq hx (List.mem_append_left _ hz) heq
      exact .inl ⟨hz, y, hy, Ne.symm hne, rfl⟩
    · obtain rfl := h.eq_of_addr_eq hx (List.mem_append_right _ hy) heq
      exact .inr ⟨hy, rfl⟩

/-- An address meets one temporary at most. -/
theorem eq_of_meet_addr {x : Access} (hx : x ∈ w.loads ++ w.stores) {v : Temp}
    (hu : w.Meet x.addr u) (hv : w.Meet x.addr v) : u = v := by
  rcases h.cases_of_meet_addr hx hu with ⟨hload, y, hy, hxy, rfl⟩ | ⟨hstore, rfl⟩
  · rcases h.cases_of_meet_addr hx hv with ⟨-, z, hz, hxz, rfl⟩ | ⟨hstore, -⟩
    · rw [eq_of_length_le_two h.loads_le hload hy hz hxy hxz]
    · exact absurd hstore (h.not_mem_stores hload)
  · rcases h.cases_of_meet_addr hx hv with ⟨hload, -⟩ | ⟨-, rfl⟩
    · exact absurd hstore (h.not_mem_stores hload)
    · rfl

omit h in
/-- Two temporaries that meet and are no addresses are the values of two loads. -/
theorem loads_of_meet {t : Temp} (ht : ∀ x ∈ w.loads ++ w.stores, x.addr ≠ t)
    (hu : ∀ x ∈ w.loads ++ w.stores, x.addr ≠ u) (hmeet : w.Meet t u) :
    ∃ x ∈ w.loads, ∃ y ∈ w.loads, x ≠ y ∧ t = x.value ∧ u = y.value := by
  rcases hmeet with hpair | hpair
  · rcases hpair with ⟨x, hx, y, hy, hne, rfl, rfl | rfl⟩ | ⟨x, hx, -, rfl⟩
    · exact ⟨x, hx, y, hy, hne, rfl, rfl⟩
    · exact absurd rfl (hu y (List.mem_append_left _ hy))
    · exact absurd rfl (hu x (List.mem_append_right _ hx))
  · rcases hpair with ⟨x, hx, y, hy, hne, rfl, rfl | rfl⟩ | ⟨x, hx, -, rfl⟩
    · exact ⟨y, hy, x, hx, Ne.symm hne, rfl, rfl⟩
    · exact absurd rfl (ht y (List.mem_append_left _ hy))
    · exact absurd rfl (ht x (List.mem_append_right _ hx))

/-- Apart from addresses, a value meets one temporary at most. -/
theorem eq_of_meet_value {t v : Temp} (haddr : ∀ x ∈ w.loads ++ w.stores,
    x.addr ≠ t ∧ x.addr ≠ u ∧ x.addr ≠ v) (hu : w.Meet t u) (hv : w.Meet t v) : u = v := by
  obtain ⟨x, hx, y, hy, hxy, rfl, rfl⟩ :=
    loads_of_meet (fun x hx => (haddr x hx).1) (fun x hx => (haddr x hx).2.1) hu
  obtain ⟨x', hx', z, hz, hxz, heq, rfl⟩ :=
    loads_of_meet (fun x hx => (haddr x hx).1) (fun x hx => (haddr x hx).2.2) hv
  obtain rfl := List.inj_on_of_nodup_map h.nodup_loads hx hx' heq
  rw [eq_of_length_le_two h.loads_le hx hy hz hxy hxz]

end Wrap.Fits

/-- A temporary other than the result belongs to one wrap only. -/
theorem Wrapped.eq_of_owns (h : Wrapped code temps ws) {v w : Wrap} (hv : v ∈ ws) (hw : w ∈ ws)
    {t : Temp} (hvt : v.Owns t) (hwt : w.Owns t) (ht : t ≠ code.frame.result) : v = w := by
  by_contra hne
  have hsymm : Std.Symm fun v w : Wrap => ∀ t, v.Owns t → w.Owns t → t = code.frame.result :=
    ⟨fun v w hvw t hw hv => hvw t hv hw⟩
  exact ht (h.apart.forall hv hw hne t hvt hwt)

/-- Wherever some of the temporaries that spilling introduced are looked at, one of them has at most
    one neighbour among them. -/
theorem Wrapped.sparse (h : Wrapped code temps ws) :
    ColorGraph.Sparse code.interference.Adj temps := by
  have htame : code.Tame (· ∈ temps) (fun a b => ∃ w ∈ ws, w.Meet a b) code.instrs :=
    h.instrs ▸ tame_wraps h.fits h.pointer
  intro A hA hsub
  have hmeet : ∀ a b, A a → A b → code.interference.Adj a b → ∃ w ∈ ws, w.Meet a b :=
    fun a b ha hb hadj => htame.adj hadj (hsub a ha) (hsub b hb)
  -- an address if there is one, else a value, and the result only if there is nothing else
  by_cases haddr : ∃ w ∈ ws, ∃ x ∈ w.loads ++ w.stores, A x.addr
  · obtain ⟨w, hw, x, hx, hA⟩ := haddr
    refine ⟨x.addr, hA, ?_⟩
    intro u v hu hv hadju hadjv
    have hresult := ((h.fits w hw).addr x hx).2.1
    obtain ⟨w₁, hw₁, hmeet₁⟩ := hmeet _ u hA hu hadju
    obtain ⟨w₂, hw₂, hmeet₂⟩ := hmeet _ v hA hv hadjv
    obtain rfl := h.eq_of_owns hw hw₁ ⟨x, hx, .inr rfl⟩ hmeet₁.owns_left hresult
    obtain rfl := h.eq_of_owns hw hw₂ ⟨x, hx, .inr rfl⟩ hmeet₂.owns_left hresult
    exact (h.fits w hw).eq_of_meet_addr hx hmeet₁ hmeet₂
  · by_cases hother : ∃ t, A t ∧ t ≠ code.frame.result
    · obtain ⟨t, ht, hresult⟩ := hother
      refine ⟨t, ht, ?_⟩
      intro u v hu hv hadju hadjv
      obtain ⟨w, hw, hmeet₁⟩ := hmeet t u ht hu hadju
      obtain ⟨w₂, hw₂, hmeet₂⟩ := hmeet t v ht hv hadjv
      obtain rfl := h.eq_of_owns hw hw₂ hmeet₁.owns_left hmeet₂.owns_left hresult
      refine (h.fits w hw).eq_of_meet_value ?_ hmeet₁ hmeet₂
      intro x hx
      have hnot : ¬ A x.addr := fun hA => haddr ⟨w, hw, x, hx, hA⟩
      refine ⟨?_, ?_, ?_⟩
      · exact fun heq => hnot (heq ▸ ht)
      · exact fun heq => hnot (heq ▸ hu)
      · exact fun heq => hnot (heq ▸ hv)
    · obtain ⟨t, ht⟩ := hA
      refine ⟨t, ht, ?_⟩
      intro u v hu hv _ _
      have hall : ∀ t, A t → t = code.frame.result :=
        fun t ht => by_contra fun hne => hother ⟨t, ht, hne⟩
      rw [hall u hu, hall v hv]

end Wraps

end Spill

end MmixBackend
