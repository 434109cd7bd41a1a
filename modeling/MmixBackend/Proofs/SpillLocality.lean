import MmixBackend.Proofs.AllocationConverges
import MmixBackend.Proofs.UninitializedReads

/-!
# Spilling puts in only what stays local

A spill leaves the old instructions where they are and puts loads and stores around those that need
the slot. The temporaries that it makes for that live inside one window each: nothing of them is
live where the window is entered or left, for any code, since jumps lead only to labels and the
window of a label is the label alone.

* **`Insertion`** — an old instruction with what was put around it and made for it.
* **`restored_insertions`** — taking that back gives the old code.
* **`not_ahead_patched`**, **`quietAtLabels_patched`** — nothing new is ahead of a window or a
  label.
* **`livesWithin_window`** — what is made for a window lives within it.
* **`spill_inserts_locally`** — all of it, for a slot with a distance; without one, a spill of what
  is needed fails (`spill_of_far_slot_fails`).
-/

namespace MmixBackend

/-- The temporary lives only between `lo` and `hi`: it is live neither in front of the first
    instruction there, nor behind the last one, nor anywhere else, where nothing mentions it. -/
structure Code.LivesWithin (code : Code) (lo hi : Nat) (u : Temp) : Prop where
  liveIn : ∀ q, q ≤ lo ∨ hi ≤ q → u ∉ code.liveSets.liveIn q
  liveOut : ∀ q, q + 1 ≤ lo ∨ hi ≤ q + 1 → u ∉ code.liveSets.liveOut q
  untouched : ∀ q j, q + 1 ≤ lo ∨ hi ≤ q → code.instrs[q]? = some j → ¬ Spill.Touches u j

namespace Spill

variable {code code' : Code} {t u v : Temp} {d : Word} {n limit : Nat} {i j : Instr}
  {is is' rest : List Instr}

-- ── Taking the insertions back ───────────────────────────────────────────────

/-- Renaming to a temporary that is not there can be undone. -/
theorem map_rename_rename {us : List Temp} (h : v ∉ us) :
    (us.map (rename t v)).map (rename v t) = us := by
  rw [List.map_map]
  refine (List.map_congr_left fun u hu => ?_).trans (List.map_id us)
  have huv : u ≠ v := fun heq => h (heq ▸ hu)
  by_cases hut : u = t
  · subst hut
    simp [rename]
  · simp [rename, hut, huv]

/-- A new name can be taken back. -/
theorem replace_replace (h : ¬ Touches v i) :
    (((i.replaceUses t v).replaceDefs t v).replaceUses v t).replaceDefs v t = i := by
  rw [Touches, not_or] at h
  obtain ⟨huses, hdefs⟩ := h
  cases i with
  | label l => rfl
  | move op dst src =>
      have hsrc : ([src].map (rename t v)).map (rename v t) = [src] := map_rename_rename huses
      have hdst : ([dst].map (rename t v)).map (rename v t) = [dst] := map_rename_rename hdefs
      exact congr (congrArg (Instr.move op) (List.cons.inj hdst).1) (List.cons.inj hsrc).1
  | oper op uses defs jumps falls =>
      have huses : (uses.map (rename t v)).map (rename v t) = uses := map_rename_rename huses
      have hdefs : (defs.map (rename t v)).map (rename v t) = defs := map_rename_rename hdefs
      show Instr.oper op ((uses.map (rename t v)).map (rename v t))
        ((defs.map (rename t v)).map (rename v t)) jumps falls = _
      rw [huses, hdefs]

/-- An old instruction in its window, with what was made for it. -/
structure Insertion where
  window : Window
  /-- The temporary that took the place of the spilled one, if the instruction mentioned that. -/
  value? : Option Temp
  /-- The temporaries that were made for the window. -/
  created : List Temp

/-- The instruction without the window, with the spilled temporary in its place again. -/
def Insertion.restored (t : Temp) (x : Insertion) : Instr :=
  match x.value? with
  | none => x.window.main
  | some v => (x.window.main.replaceUses v t).replaceDefs v t

/-- What spilling makes of an instruction. -/
def insertion (code : Code) (t : Temp) (d : Word) (n : Nat) (i : Instr) : Insertion where
  window := window code t d n i
  value? := if Touches t i then some (valueTemp code t n i) else none
  created := tempsBetween n (n + tempsNeeded code t i)

/-- What spilling makes of instructions, with temporaries from number `n` on. -/
def insertions (code : Code) (t : Temp) (d : Word) : Nat → List Instr → List Insertion
  | _, [] => []
  | n, i :: rest => insertion code t d n i :: insertions code t d (n + tempsNeeded code t i) rest

/-- The windows together are the new code. -/
theorem instrs_insertions (code : Code) (t : Temp) (d : Word) (n : Nat) (is : List Instr) :
    (insertions code t d n is).flatMap (·.window.instrs) = patched code t d n is := by
  induction is generalizing n with
  | nil => rfl
  | cons i is ih => exact congrArg ((window code t d n i).instrs ++ ·) (ih _)

/-- The temporaries made for the windows are those handed out, in order. -/
theorem created_insertions (code : Code) (t : Temp) (d : Word) (n : Nat) (is : List Instr) :
    (insertions code t d n is).flatMap (·.created) =
      tempsBetween n (n + totalNeeded code t is) := by
  induction is generalizing n with
  | nil => exact (tempsBetween_self n).symm
  | cons i is ih =>
      rw [insertions, List.flatMap_cons, ih, totalNeeded, ← Nat.add_assoc]
      exact tempsBetween_append (Nat.le_add_right _ _) (Nat.le_add_right _ _)

theorem index_valueTemp_lt (h : Touches t i) :
    (valueTemp code t n i).index < n + tempsNeeded code t i := by
  show n + reloadNeeds code t i < _
  rw [tempsNeeded, if_pos h, exchangeNeeds]
  omega

/-- The temporary that takes the place of the spilled one was made for the window. -/
theorem value_mem_created (hv : (insertion code t d n i).value? = some v) :
    v ∈ (insertion code t d n i).created := by
  rw [insertion] at hv
  split at hv
  · next htouch =>
    obtain rfl := Option.some.inj hv
    exact mem_tempsBetween.mpr ⟨Nat.le_add_right _ _, index_valueTemp_lt htouch⟩
  · cases hv

/-- Without its window an instruction is as before. -/
theorem restored_insertion (hi : ∀ u, Touches u i → u.index < n) :
    (insertion code t d n i).restored t = i := by
  rw [Insertion.restored, insertion]
  by_cases htouch : Touches t i
  · rw [if_pos htouch]
    show ((window code t d n i).main.replaceUses _ t).replaceDefs _ t = i
    rw [window_main]
    refine replace_replace fun hv => ?_
    exact absurd (hi _ hv) (Nat.not_lt.mpr (Nat.le_add_right _ _))
  · rw [if_neg htouch]
    show (window code t d n i).main = i
    rw [window_main, replace_of_not_touches _ htouch]

/-- Without the windows the code is as before. -/
theorem restored_insertions (his : ∀ i ∈ is, ∀ u, Touches u i → u.index < n) :
    (insertions code t d n is).map (·.restored t) = is := by
  induction is generalizing n with
  | nil => rfl
  | cons i is ih =>
      obtain ⟨hi, his⟩ := List.forall_mem_cons.mp his
      rw [insertions, List.map_cons, restored_insertion hi,
        ih fun j hj u hu => Nat.lt_add_right _ (his j hj u hu)]

/-- One insertion among all of them, with the old instructions in front of it and behind it. -/
theorem insertions_eq_append {before after : List Insertion} {x : Insertion}
    (h : insertions code t d n is = before ++ x :: after) :
    ∃ is₁ i is₂, is = is₁ ++ i :: is₂ ∧ before = insertions code t d n is₁ ∧
      x = insertion code t d (n + totalNeeded code t is₁) i := by
  induction is generalizing n before with
  | nil => cases before <;> cases h
  | cons i is ih =>
      cases before with
      | nil =>
          obtain ⟨rfl, -⟩ := List.cons.inj h
          exact ⟨[], i, is, rfl, rfl, rfl⟩
      | cons y before =>
          obtain ⟨rfl, hrest⟩ := List.cons.inj h
          obtain ⟨is₁, i', is₂, rfl, rfl, rfl⟩ := ih hrest
          refine ⟨i :: is₁, i', is₂, rfl, rfl, ?_⟩
          rw [totalNeeded, Nat.add_assoc]

theorem mem_insertions {x : Insertion} (hx : x ∈ insertions code t d n is) :
    ∃ m i, n ≤ m ∧ x = insertion code t d m i := by
  obtain ⟨before, after, hsplit⟩ := List.append_of_mem hx
  obtain ⟨is₁, i, -, -, -, rfl⟩ := insertions_eq_append hsplit
  exact ⟨_, i, Nat.le_add_right _ _, rfl⟩

-- ── The spilled temporary ────────────────────────────────────────────────────

/-- A load reads the frame pointer and its own address only. -/
theorem mem_uses_loadCode {frame : Frame} {addr dst : Temp} (hj : j ∈ loadCode frame d addr dst)
    (hu : u ∈ j.uses) : u = frame.pointer ∨ u = addr := by
  rcases List.mem_append.mp hj with hj | hj
  · exact touches_addressCode hj (.inl hu)
  · obtain rfl := List.mem_singleton.mp hj
    exact .inr (List.mem_singleton.mp hu)

/-- In a window, the spilled temporary is only written, and only where it is loaded for control to
    leave with it. -/
theorem spilled_in_window (htp : t ≠ code.frame.pointer) (htn : t.index < n)
    (hj : j ∈ (window code t d n i).instrs) :
    t ∉ j.uses ∧ (t ∈ j.defs → Reloads code t i ∧ j ∈ (window code t d n i).before) := by
  have hnew : ∀ k, n ≤ k → t ≠ ⟨k⟩ := by
    rintro k hk rfl
    exact Nat.not_lt.mpr hk htn
  have hvalue : t ≠ valueTemp code t n i := hnew _ (Nat.le_add_right _ _)
  have hclean : ¬ Touches t j → t ∉ j.uses ∧
      (t ∈ j.defs → Reloads code t i ∧ j ∈ (window code t d n i).before) := fun h =>
    ⟨fun hu => h (.inl hu), fun hd => absurd (.inr hd) h⟩
  rw [Window.instrs] at hj
  rcases List.mem_append.mp hj with hbefore | hj
  · have hj := hbefore
    rw [window_before] at hj
    rcases List.mem_append.mp hj with hj | hj
    · rw [reloadCode] at hj
      split at hj
      · next hreload =>
        -- the one place where the spilled temporary is written
        refine ⟨fun hu => ?_, fun _ => ⟨hreload, hbefore⟩⟩
        rcases mem_uses_loadCode hj hu with heq | heq
        · exact htp heq
        · exact hnew n (Nat.le_refl n) heq
      · cases hj
    · split at hj
      · refine hclean fun htouch => ?_
        rcases touches_loadCode hj htouch with heq | heq | heq
        · exact htp heq
        · exact hnew _ (by omega) heq
        · exact hvalue heq
      · cases hj
  · rcases List.mem_cons.mp hj with rfl | hj
    · refine hclean fun htouch => ?_
      rw [window_main] at htouch
      rcases touches_replace htouch with heq | ⟨-, hne⟩
      · exact hvalue heq
      · exact hne rfl
    · rw [window_after] at hj
      split at hj
      · refine hclean fun htouch => ?_
        rcases touches_storeCode hj htouch with heq | heq | heq
        · exact htp heq
        · refine hnew _ ?_ heq
          split <;> omega
        · exact hvalue heq
      · cases hj

-- ── Where new temporaries are live ───────────────────────────────────────────

/-- The temporaries of the instructions, the result and the frame pointer are numbered below
    `limit`. -/
structure Below (limit : Nat) (code : Code) (is : List Instr) : Prop where
  instrs : ∀ i ∈ is, ∀ u, Touches u i → u.index < limit
  result : code.frame.result.index < limit
  pointer : code.frame.pointer.index < limit

namespace Below

/-- It is enough to look at what the instructions read and write. -/
theorem of_mem (hinstrs : ∀ i ∈ is, ∀ u ∈ i.uses ++ i.defs, u.index < limit)
    (hresult : code.frame.result.index < limit) (hpointer : code.frame.pointer.index < limit) :
    Below limit code is :=
  ⟨fun i hi u hu => hinstrs i hi u (List.mem_append.mpr hu), hresult, hpointer⟩

theorem of_subset (h : Below limit code is) (hsub : ∀ i ∈ is', i ∈ is) : Below limit code is' :=
  { h with instrs := fun i hi => h.instrs i (hsub i hi) }

/-- What is ahead of the instructions is numbered below the limit. -/
theorem of_ahead (h : Below limit code is) (hu : code.Ahead is u) : u.index < limit := by
  induction is with
  | nil => exact hu.elim
  | cons i is ih =>
      rcases hu with huse | ⟨hahead | hreload, -⟩
      · exact h.instrs i List.mem_cons_self u (.inl huse)
      · exact ih (h.of_subset fun j hj => List.mem_cons_of_mem _ hj) hahead
      · exact hreload.1 ▸ h.result

theorem ne_pointer (h : Below limit code is) (hu : limit ≤ u.index) :
    u ≠ code.frame.pointer := by
  rintro rfl
  exact Nat.not_lt.mpr hu h.pointer

theorem ne_result (h : Below limit code is) (hu : limit ≤ u.index) : u ≠ code.frame.result := by
  rintro rfl
  exact Nat.not_lt.mpr hu h.result

end Below

/-- Nothing new is ahead of the patched code of old instructions. -/
theorem not_ahead_patched (h : Below limit code is) (hu : limit ≤ u.index) :
    ¬ code.Ahead (patched code t d n is) u := by
  intro hahead
  exact Nat.not_lt.mpr hu (h.of_ahead (ahead_patched (h.ne_pointer hu) hahead).1)

/-- Nothing that was made for a window is ahead at a label of the new code. -/
theorem quietAtLabels_patched (h : Below limit code is) (hframe : code'.frame = code.frame)
    (hexit : code'.exit = code.exit) (hinstrs : code'.instrs = patched code t d n is) :
    code'.QuietAtLabels (limit ≤ ·.index) := by
  intro pc l hl u hu hahead
  rw [Code.ahead_congr hframe hexit] at hahead
  have hdrop := Code.drop_of_getElem? hl
  have hsuffix : .label l :: code'.instrs.drop (pc + 1) <:+ patched code t d n is := by
    rw [← hdrop, ← hinstrs]
    exact List.drop_suffix pc _
  obtain ⟨m, behind, hbehind, heq⟩ := suffix_patched hsuffix
  rw [hdrop, heq] at hahead
  exact not_ahead_patched (h.of_subset hbehind.subset) hu hahead

/-- Code that does not mention a temporary does not put it ahead. -/
theorem ahead_of_untouched (hu : u ≠ code.frame.result) (his : ∀ i ∈ is, ¬ Touches u i)
    (h : code.Ahead (is ++ rest) u) : code.Ahead rest u := by
  induction is with
  | nil => exact h
  | cons i is ih =>
      obtain ⟨hi, his⟩ := List.forall_mem_cons.mp his
      rcases h with huse | ⟨hahead | hreload, -⟩
      · exact absurd (.inl huse) hi
      · exact ih his hahead
      · exact absurd hreload.1 hu

/-- New temporaries are in the patched code of those instructions only for which they were made. -/
theorem not_touches_patched (h : Below limit code is) (hu : limit ≤ u.index)
    (hrange : u.index < n ∨ n + totalNeeded code t is ≤ u.index)
    (hj : j ∈ patched code t d n is) : ¬ Touches u j := by
  intro htouch
  rcases touches_windows hj htouch with ⟨⟨i, hi, hold⟩, -⟩ | heq | ⟨rfl, heq⟩ | hnew
  · exact Nat.not_lt.mpr hu (h.instrs i hi u hold)
  · exact h.ne_pointer hu heq
  · exact h.ne_result hu heq
  · omega

theorem exists_of_liveOut {pc : Nat} (h : u ∈ code.liveSets.liveOut pc) :
    ∃ i, code.instrs[pc]? = some i := by
  have hwithin : Flow.Within (fun _ _ => True) (fun pc _ => ∃ i, code.instrs[pc]? = some i)
      code.liveSets := by
    refine Code.within_liveSets ⟨?_, ?_, ?_, ?_⟩
    · intro pc p hp _ _ _ _
      obtain ⟨i, hi, -⟩ := Code.getElem?_instrs_of_points hp
      exact ⟨i, hi⟩
    · intro pc p hp _
      obtain ⟨i, hi, -⟩ := Code.getElem?_instrs_of_points hp
      exact ⟨i, hi⟩
    · intros
      trivial
    · intros
      trivial
  exact hwithin.liveOut pc u h

/-- A temporary that is not ahead of a stretch of code and that nothing outside mentions lives
    within the stretch. -/
theorem livesWithin_of_not_ahead {P : Temp → Prop} {front mid back : List Instr}
    (hinstrs : code.instrs = front ++ (mid ++ back)) (hquiet : code.QuietAtLabels P) (hP : P u)
    (hu : u ≠ code.frame.result) (hfront : ∀ j ∈ front, ¬ Touches u j)
    (hback : ∀ j ∈ back, ¬ Touches u j) (hmid : ¬ code.Ahead (mid ++ back) u) :
    code.LivesWithin front.length (front.length + mid.length) u := by
  have hlong : code.instrs = (front ++ mid) ++ back := by
    rw [hinstrs, List.append_assoc]
  have hahead : ∀ q, q ≤ front.length ∨ front.length + mid.length ≤ q →
      ¬ code.Ahead (code.instrs.drop q) u := by
    rintro q (hq | hq) h
    · rw [hinstrs, List.drop_append_of_le_length hq] at h
      exact hmid (ahead_of_untouched hu (fun j hj => hfront j (List.mem_of_mem_drop hj)) h)
    · obtain ⟨k, rfl⟩ := Nat.exists_eq_add_of_le hq
      rw [hlong, ← List.length_append, List.drop_length_add_append,
        ← List.append_nil (back.drop k)] at h
      exact ahead_of_untouched hu (fun j hj => hback j (List.mem_of_mem_drop hj)) h
  refine ⟨?_, ?_, ?_⟩
  · intro q hq hlive
    exact hahead q hq (Code.ahead_of_liveIn hquiet hlive hP)
  · intro q hq hlive
    obtain ⟨i, hi⟩ := exists_of_liveOut hlive
    rcases Code.behind_of_liveOut hquiet hi hlive hP with h | hreload
    · exact hahead (q + 1) hq h
    · exact hu hreload.1
  · rintro q j (hq | hq) hj
    · rw [hinstrs, List.getElem?_append_left hq] at hj
      exact hfront j (List.mem_of_getElem? hj)
    · rw [hlong, List.getElem?_append_right (by rw [List.length_append]; exact hq)] at hj
      exact hback j (List.mem_of_getElem? hj)

/-- What is made for a window lives within it. -/
theorem livesWithin_window (h : Below limit code (is ++ i :: is')) (hn : limit ≤ n)
    (hframe : code'.frame = code.frame) (hexit : code'.exit = code.exit)
    (hinstrs : code'.instrs = patched code t d n (is ++ i :: is'))
    (hlow : n + totalNeeded code t is ≤ u.index)
    (hhigh : u.index < n + totalNeeded code t is + tempsNeeded code t i) :
    code'.LivesWithin (patched code t d n is).length ((patched code t d n is).length +
      (window code t d (n + totalNeeded code t is) i).instrs.length) u := by
  have hu : limit ≤ u.index := by omega
  have hfront : Below limit code is := h.of_subset fun j hj => List.mem_append_left _ hj
  have hrest : Below limit code (i :: is') := h.of_subset fun j hj => List.mem_append_right _ hj
  have hback : Below limit code is' := hrest.of_subset fun j hj => List.mem_cons_of_mem _ hj
  refine livesWithin_of_not_ahead (hinstrs.trans (patched_append code t d n is (i :: is')))
    (quietAtLabels_patched h hframe hexit hinstrs) hu (hframe ▸ h.ne_result hu) ?_ ?_ ?_
  · intro j hj
    exact not_touches_patched hfront hu (.inr hlow) hj
  · intro j hj
    exact not_touches_patched hback hu (.inl hhigh) hj
  · rw [Code.ahead_congr hframe hexit]
    exact not_ahead_patched hrest hu

-- ── A spill ──────────────────────────────────────────────────────────────────

/-- The second allocation comes from the first one by spilling `t`, with the temporaries numbered
    from `lo` on and below `hi`: by what was put around each instruction and made for it. -/
structure InsertsLocally (t : Temp) (a a' : Allocation) (lo hi : Nat) (xs : List Insertion) :
    Prop where
  longer : a.code.instrs.length < a'.code.instrs.length
  instrs : a'.code.instrs = xs.flatMap (·.window.instrs)
  /-- Without the insertions and the new names, the code is the old code. -/
  restored : xs.map (·.restored t) = a.code.instrs
  /-- Only loads, stores and what they need is put in: no labels and no jumps. -/
  plain : ∀ x ∈ xs, ∀ j ∈ x.window.before ++ x.window.after, IsPlain j
  /-- Each temporary is made for one window. -/
  created : xs.flatMap (·.created) = tempsBetween lo hi
  value : ∀ x ∈ xs, ∀ v, x.value? = some v → v ∈ x.created
  /-- The spilled temporary is not read any more. -/
  uses : ∀ j ∈ a'.code.instrs, t ∉ j.uses
  /-- It is written only if it is the result, and only in front of a jump to the exit. -/
  defs : ∀ x ∈ xs, ∀ j ∈ x.window.instrs, t ∈ j.defs →
    t = a.code.frame.result ∧ a.code.exit ∈ x.window.main.jumps ∧ j ∈ x.window.before
  temps : ∀ u, u ∈ a'.spills.temps ↔
    u ∈ a.spills.temps ∨ u = t ∧ t = a.code.frame.result ∨ u ∈ tempsBetween lo hi
  /-- A temporary lives within the window that it was made for. -/
  confined : ∀ before x after, xs = before ++ x :: after → ∀ u ∈ x.created,
    a'.code.LivesWithin (before.flatMap (·.window.instrs)).length
      ((before.flatMap (·.window.instrs)).length + x.window.instrs.length) u

/-- Where nothing needs the slot, nothing is patched, whether or not the slot has a distance. -/
theorem run_instrs_of_not (slot : Nat) (h : ∀ i ∈ is, ¬ Reloads code t i ∧ ¬ Touches t i)
    (s : Supply) : (instrs code t slot is).run.run s = ⟨.ok (), is, [], s⟩ := by
  induction is with
  | nil => rfl
  | cons i is ih =>
      obtain ⟨hi, his⟩ := List.forall_mem_cons.mp h
      rw [instrs, Emit.run_bind_except, run_instr_of_not slot hi.1 hi.2]
      simp [ih his]

variable {ω : Type} {a a' : Allocation} {s : Supply}

/-- A temporary that is not needed cannot be spilled, and the instructions stay. -/
theorem spill_of_not_needs (h : ¬ a.code.Needs t) :
    ((a.spill t : Emit ω _).run s).value.1 =
        .error (.stalled a.code.frame.label (.nothingAdded t)) ∧
      ((a.spill t : Emit ω _).run s).value.2.code.instrs = a.code.instrs := by
  have hnone : ∀ i ∈ a.code.instrs, ¬ Reloads a.code t i ∧ ¬ Touches t i :=
    fun i hi => not_or.mp fun hneeds => h ⟨i, hi, hneeds⟩
  rw [Emit.run, Allocation.spill, run_instrs_of_not _ hnone]
  exact ⟨if_neg (Nat.lt_irrefl _), rfl⟩

/-- A spill that succeeds only puts windows around instructions, and what it makes for a window
    lives in this window only. -/
theorem insertsLocally_spill (hbelow : Below s.temps a.code a.code.instrs)
    (htp : t ≠ a.code.frame.pointer) (hok : ((a.spill t : Emit ω _).run s).value = (.ok (), a')) :
    ∃ xs, InsertsLocally t a a' s.temps ((a.spill t : Emit ω _).run s).supply.temps xs := by
  obtain ⟨d, hd, hframe, hinstrs, htemps, hneeds⟩ := Allocation.spill_eq_ok hok
  have hexit := exit_spill hok
  rw [(Allocation.spill_of_ok (ω := ω) (s := s) hd hneeds).2]
  -- the spilled temporary is an old one, so no window makes it
  have htn : t.index < s.temps := by
    obtain ⟨i, hi, hreload | htouch⟩ := hneeds
    · exact hreload.1 ▸ hbelow.result
    · exact hbelow.instrs i hi t htouch
  have hxs : a'.code.instrs =
      (insertions a.code t d s.temps a.code.instrs).flatMap (·.window.instrs) :=
    hinstrs.trans (instrs_insertions a.code t d s.temps a.code.instrs).symm
  refine ⟨insertions a.code t d s.temps a.code.instrs, ?_⟩
  constructor
  · rw [hinstrs]
    exact length_lt_patched hneeds s.temps
  · exact hxs
  · exact restored_insertions hbelow.instrs
  · intro x hx j hj
    obtain ⟨m, i, -, rfl⟩ := mem_insertions hx
    exact (List.mem_append.mp hj).elim isPlain_before isPlain_after
  · exact created_insertions a.code t d s.temps a.code.instrs
  · intro x hx v hv
    obtain ⟨m, i, -, rfl⟩ := mem_insertions hx
    exact value_mem_created hv
  · intro j hj
    rw [hxs] at hj
    obtain ⟨x, hx, hj⟩ := List.mem_flatMap.mp hj
    obtain ⟨m, i, hm, rfl⟩ := mem_insertions hx
    exact (spilled_in_window htp (Nat.lt_of_lt_of_le htn hm) hj).1
  · intro x hx j hj hdef
    obtain ⟨m, i, hm, rfl⟩ := mem_insertions hx
    obtain ⟨hreload, hbefore⟩ := (spilled_in_window htp (Nat.lt_of_lt_of_le htn hm) hj).2 hdef
    refine ⟨hreload.1, ?_, hbefore⟩
    show a.code.exit ∈ (window a.code t d m i).main.jumps
    rw [window_main, jumps_replace]
    exact hreload.2
  · intro u
    rw [htemps, mem_tempsBetween]
  · intro before x after hsplit u hu
    obtain ⟨is₁, i, is₂, his, rfl, rfl⟩ := insertions_eq_append hsplit
    obtain ⟨hlow, hhigh⟩ := mem_tempsBetween.mp hu
    rw [instrs_insertions]
    rw [his] at hbelow hinstrs
    exact livesWithin_window hbelow (Nat.le_refl _) hframe hexit hinstrs hlow hhigh

/-- **A spill is a local insertion.** With names above those of the code, spilling a temporary other
    than the frame pointer stalls exactly if no instruction reads or writes it and none leaves the
    function with it, and then leaves the instructions as they are. Otherwise, if the slot has a
    distance, it succeeds: the code gets longer, and without what was put in and with the old name
    back in its place it is the old code. The spilled temporary is gone, but for being loaded in
    front of jumps to the exit if it is the result. What may not be spilled later is what was made,
    and the result if it was spilled. Each temporary that was made lives within its window. If the
    slot has no distance, the spill fails for that reason. -/
theorem spill_inserts_locally (a : Allocation) (t : Temp) (names : Supply)
    (hnames : Below names.temps a.code a.code.instrs) (htp : t ≠ a.code.frame.pointer) :
    let r := (a.spill t : Emit ω _).run names
    (r.value.1 = .error (.stalled a.code.frame.label (.nothingAdded t)) ↔ ¬ a.code.Needs t) ∧
    (¬ a.code.Needs t → r.value.2.code.instrs = a.code.instrs) ∧
    (∀ d, a.code.frame.slotDistance (a.spills.slotOf t) = .ok d → a.code.Needs t →
      r.value.1 = .ok () ∧ ∃ xs, InsertsLocally t a r.value.2 names.temps r.supply.temps xs) ∧
    ∀ f, a.code.frame.slotDistance (a.spills.slotOf t) = .error f → a.code.Needs t →
      r.value.1 = .error (.fault f) := by
  intro r
  have hok : ∀ d, a.code.frame.slotDistance (a.spills.slotOf t) = .ok d → a.code.Needs t →
      r.value.1 = .ok () := fun d hd hneeds => (Allocation.spill_of_ok hd hneeds).1
  have herror : ∀ f, a.code.frame.slotDistance (a.spills.slotOf t) = .error f →
      a.code.Needs t → r.value.1 = .error (.fault f) := fun f hf hneeds =>
    Allocation.spill_of_error hf hneeds
  refine ⟨⟨?_, fun h => (spill_of_not_needs h).1⟩, fun h => (spill_of_not_needs h).2, ?_, herror⟩
  · intro hstalled hneeds
    cases hd : a.code.frame.slotDistance (a.spills.slotOf t) with
    | ok d => cases (hok d hd hneeds).symm.trans hstalled
    | error f => cases (herror f hd hneeds).symm.trans hstalled
  · intro d hd hneeds
    have hvalue : r.value.1 = .ok () := hok d hd hneeds
    exact ⟨hvalue, insertsLocally_spill hnames htp (Prod.ext hvalue rfl)⟩

/-- The result is set, added to in a loop, and returned. -/
def accumulator : Code where
  frame := ⟨.named "f", 1, 8, 0, ⟨0⟩, ⟨1⟩⟩
  entry := .named "f"
  exit := .named "exit"
  instrs := [.plain (.setLow 1) [] [⟨0⟩], .label (.named "again"),
    .plain (.alu .add) [⟨0⟩, ⟨2⟩] [⟨0⟩],
    .branch (.branchNonZero (.named "again")) [⟨2⟩] (.named "again"),
    .jump (.named "exit")]

/-- Six temporaries are made when the result is spilled. A temporary that is not there cannot be
    spilled. -/
theorem spill_inserts_locally_accumulator :
    (((Allocation.mk accumulator {}).spill ⟨0⟩ : Emit Instr _).run { temps := 3 }).value.1 =
        .ok () ∧
      (∃ xs, InsertsLocally ⟨0⟩ ⟨accumulator, {}⟩
        (((Allocation.mk accumulator {}).spill ⟨0⟩ : Emit Instr _).run { temps := 3 }).value.2
        3 9 xs) ∧
      (((Allocation.mk accumulator {}).spill ⟨7⟩ : Emit Instr _).run { temps := 3 }).value.1 =
        .error (.stalled (.named "f") (.nothingAdded ⟨7⟩)) := by
  have hbelow : Below 3 accumulator accumulator.instrs :=
    .of_mem (by decide) (by decide) (by decide)
  have hneeds : accumulator.Needs ⟨0⟩ := ⟨_, List.mem_cons_self, .inr (.inr List.mem_cons_self)⟩
  have hnot : ¬ accumulator.Needs ⟨7⟩ := by
    rintro ⟨i, hi, hreload | htouch⟩
    · exact absurd hreload.1 (by decide)
    · have hall : ∀ i ∈ accumulator.instrs, ⟨7⟩ ∉ i.uses ++ i.defs := by decide
      exact hall i hi (List.mem_append.mpr htouch)
  obtain ⟨-, -, hinserts, -⟩ := spill_inserts_locally (ω := Instr) ⟨accumulator, {}⟩ ⟨0⟩
    { temps := 3 } hbelow (by decide)
  obtain ⟨hstalls, -⟩ := spill_inserts_locally (ω := Instr) ⟨accumulator, {}⟩ ⟨7⟩
    { temps := 3 } hbelow (by decide)
  obtain ⟨hok, hxs⟩ := hinserts 32 (by decide) hneeds
  exact ⟨hok, hxs, hstalls.mpr hnot⟩

/-- One temporary is written, in a frame whose locals take almost all addresses. -/
def farSlot : Code where
  frame := ⟨.named "f", 1, 9223372036854775784, 0, ⟨0⟩, ⟨1⟩⟩
  entry := .named "f"
  exit := .named "exit"
  instrs := [.plain (.setLow 1) [] [⟨2⟩]]

/-- If the distance of the slot does not fit in a word, a spill of what is needed leaves no code. -/
theorem spill_of_far_slot_fails :
    ¬ ∀ (a : Allocation) (t : Temp) (names : Supply), Below names.temps a.code a.code.instrs →
      t ≠ a.code.frame.pointer → a.code.Needs t →
      a.code.instrs.length <
        ((a.spill t : Emit Instr _).run names).value.2.code.instrs.length := by
  intro h
  have hbelow : Below 3 farSlot farSlot.instrs := .of_mem (by decide) (by decide) (by decide)
  have hlonger := h ⟨farSlot, {}⟩ ⟨2⟩ { temps := 3 } hbelow (by decide)
    ⟨_, List.mem_cons_self, .inr (.inr List.mem_cons_self)⟩
  exact absurd hlonger (by decide +kernel)

end Spill

end MmixBackend
