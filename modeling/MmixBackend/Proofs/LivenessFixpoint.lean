import Mathlib.Algebra.Order.BigOperators.Group.List
import Mathlib.Algebra.Order.Ring.Nat
import MmixBackend.Finite
import MmixBackend.Liveness

/-!
# Live sets satisfy their equations

Sweeping only ever adds to the live sets, and it adds nothing that is not read somewhere. So the
room that is left in the sets says whether a sweep has added something, and when it has not, no
single update has.

* **`LiveSets.eq_of_weight_le`** — sets that have grown and are not heavier are the same.
* **`eq_of_updates_eq`** — a sweep that changes nothing consists of updates that change nothing.
* **`Within.settle`** — sweeping never leaves what a solution of the equations allows.
* **`closed_settle`** — the sets that sweeping ends with satisfy the equations of liveness.
* **`closed_liveSets`**, **`within_liveSets`** — so the live sets of a function are the least
  solution.
-/

namespace MmixBackend

-- ── Growing sets ─────────────────────────────────────────────────────────────

namespace LiveSets

/-- Each set of the first family is part of the set in its place. -/
structure Le (sets sets' : LiveSets) : Prop where
  size : sets.size = sets'.size
  liveIn : ∀ i, ∀ t ∈ sets.liveIn i, t ∈ sets'.liveIn i
  liveOut : ∀ i, ∀ t ∈ sets.liveOut i, t ∈ sets'.liveOut i

variable {sets sets' sets'' : LiveSets}

theorem Le.refl (sets : LiveSets) : Le sets sets :=
  ⟨rfl, fun _ _ h => h, fun _ _ h => h⟩

/-- Being a part of another family in each place is transitive. -/
theorem Le.trans (h : Le sets sets') (h' : Le sets' sets'') : Le sets sets'' := by
  refine ⟨h.size.trans h'.size, ?_, ?_⟩
  · intro i t ht
    exact h'.liveIn i t (h.liveIn i t ht)
  · intro i t ht
    exact h'.liveOut i t (h.liveOut i t ht)

/-- A family of live sets is determined by its sets. -/
theorem ext_of_sets (hsize : sets.size = sets'.size) (hin : ∀ i, sets.liveIn i = sets'.liveIn i)
    (hout : ∀ i, sets.liveOut i = sets'.liveOut i) : sets = sets' := by
  refine Array.ext hsize ?_
  intro i hi hi'
  have h : sets.getD i {} = sets'.getD i {} := by
    cases hx : sets.getD i {} with
    | mk x y =>
      cases hx' : sets'.getD i {} with
      | mk x' y' =>
        have hin := hin i
        have hout := hout i
        rw [liveIn, liveIn, hx, hx'] at hin
        rw [liveOut, liveOut, hx, hx'] at hout
        exact congr (congrArg Live.mk hin) hout
  simpa [hi, hi'] using h

/-- Families that are part of each other are equal. -/
theorem Le.antisymm (h : Le sets sets') (h' : Le sets' sets) : sets = sets' := by
  refine ext_of_sets h.size ?_ ?_
  · intro i
    exact Std.ExtTreeSet.ext_mem fun t => ⟨h.liveIn i t, h'.liveIn i t⟩
  · intro i
    exact Std.ExtTreeSet.ext_mem fun t => ⟨h.liveOut i t, h'.liveOut i t⟩

/-- The number of entries in the two sets of an instruction. -/
def weightAt (sets : LiveSets) (i : Nat) : Nat := (sets.liveIn i).size + (sets.liveOut i).size

/-- The weight of a family is the sum of the weights of its places. -/
theorem weight_eq_sum (sets : LiveSets) :
    sets.weight = ((List.range sets.size).map sets.weightAt).sum := by
  have hlist : sets.toList.map (fun l => l.liveIn.size + l.liveOut.size) =
      (List.range sets.size).map sets.weightAt := by
    refine List.ext_getElem (by simp) ?_
    intro i hi hi'
    have hi : i < sets.size := by simpa using hi'
    simp [weightAt, liveIn, liveOut, hi]
  rw [weight, ← Array.foldr_toList, ← hlist, List.sum, List.foldr_map]

theorem Le.weightAt_le (h : Le sets sets') (i : Nat) : sets.weightAt i ≤ sets'.weightAt i :=
  Nat.add_le_add (card_le_of_subset (h.liveIn i)) (card_le_of_subset (h.liveOut i))

/-- A family that is part of another one and not lighter is equal to it. -/
theorem eq_of_weight_le (h : Le sets sets') (hle : sets'.weight ≤ sets.weight) :
    sets = sets' := by
  have hsame : ∀ i < sets.size, sets'.weightAt i ≤ sets.weightAt i := by
    intro i hi
    refine Nat.not_lt.mp fun hlt => ?_
    rw [weight_eq_sum, weight_eq_sum, ← h.size] at hle
    have hsum : ((List.range sets.size).map sets.weightAt).sum <
        ((List.range sets.size).map sets'.weightAt).sum :=
      List.sum_lt_sum _ _ (fun j _ => h.weightAt_le j) ⟨i, List.mem_range.mpr hi, hlt⟩
    omega
  have hsizes : ∀ i, (sets'.liveIn i).size ≤ (sets.liveIn i).size ∧
      (sets'.liveOut i).size ≤ (sets.liveOut i).size := by
    intro i
    rcases Nat.lt_or_ge i sets.size with hi | hi
    · have hweight := hsame i hi
      have hin := card_le_of_subset (h.liveIn i)
      have hout := card_le_of_subset (h.liveOut i)
      rw [weightAt, weightAt] at hweight
      omega
    · have hi' : sets'.size ≤ i := h.size ▸ hi
      simp [liveIn, liveOut, hi']
  refine ext_of_sets h.size ?_ ?_
  · intro i
    exact eq_of_subset_of_card_le (h.liveIn i) (hsizes i).1
  · intro i
    exact eq_of_subset_of_card_le (h.liveOut i) (hsizes i).2

end LiveSets

namespace Flow

open LiveSets

variable {flow : Flow} {sets : LiveSets} {p : Point} {t : Temp}

-- ── Updates ──────────────────────────────────────────────────────────────────

theorem mem_foldl_union {α : Type} {f : α → TempSet} {xs : List α} {s : TempSet} :
    t ∈ xs.foldl (fun s x => s ∪ f x) s ↔ t ∈ s ∨ ∃ x ∈ xs, t ∈ f x := by
  induction xs generalizing s with
  | nil => simp
  | cons x xs ih =>
      rw [List.foldl_cons, ih, Std.ExtTreeSet.mem_union_iff]
      simp [or_assoc]

/-- Behind a point is live what is live before a successor, and the result if control may leave. -/
theorem mem_liveOutAt :
    t ∈ flow.liveOutAt sets p ↔
      (∃ j ∈ p.succs, t ∈ sets.liveIn j) ∨ p.exits = true ∧ t = flow.result := by
  have hjoined : t ∈ p.succs.foldl (fun live j => live ∪ sets.liveIn j) ∅ ↔
      ∃ j ∈ p.succs, t ∈ sets.liveIn j := by
    rw [mem_foldl_union]
    simp
  rw [liveOutAt]
  split
  · next hexits =>
    rw [Std.ExtTreeSet.mem_insert, hjoined, Std.LawfulEqCmp.compare_eq_iff_eq]
    simp [hexits, or_comm, eq_comm]
  · next hexits => simp [hjoined, hexits]

/-- Before a point is live what it reads, and what is live behind it unless written. -/
theorem mem_liveInAt {liveOut : TempSet} :
    t ∈ liveInAt p liveOut ↔ t ∈ p.uses ∨ t ∈ liveOut ∧ t ∉ p.defs := by
  rw [liveInAt, Std.ExtTreeSet.mem_union_iff, Std.ExtTreeSet.mem_ofList,
    Std.ExtTreeSet.mem_filter]
  simp

theorem getD_setIfInBounds (i j : Nat) (l : Live) :
    (sets.setIfInBounds i l).getD j {} = if i = j ∧ j < sets.size then l else sets.getD j {} := by
  rw [Array.getD_eq_getD_getElem?, Array.getD_eq_getD_getElem?, Array.getElem?_setIfInBounds]
  by_cases hij : i = j
  · by_cases hj : j < sets.size
    · simp [hij, hj]
    · simp [hij, hj]
  · simp [hij]

/-- An update adds what the point asks for behind it. -/
theorem mem_liveOut_update {i j : Nat} :
    t ∈ (flow.update i sets).liveOut j ↔
      t ∈ sets.liveOut j ∨ (i = j ∧ j < sets.size) ∧
        ∃ p, flow.points[i]? = some p ∧ t ∈ flow.liveOutAt sets p := by
  rw [update]
  split
  · next hp => simp [hp]
  · next p hp =>
    rw [LiveSets.liveOut, getD_setIfInBounds]
    split
    · next hj =>
      obtain ⟨rfl, hi⟩ := hj
      simp [Std.ExtTreeSet.mem_union_iff, hp, hi]
    · next hj =>
      rw [LiveSets.liveOut]
      simp [hj]

/-- An update adds what the point asks for before it. -/
theorem mem_liveIn_update {i j : Nat} :
    t ∈ (flow.update i sets).liveIn j ↔
      t ∈ sets.liveIn j ∨ (i = j ∧ j < sets.size) ∧
        ∃ p, flow.points[i]? = some p ∧
          t ∈ liveInAt p (sets.liveOut i ∪ flow.liveOutAt sets p) := by
  rw [update]
  split
  · next hp => simp [hp]
  · next p hp =>
    rw [LiveSets.liveIn, getD_setIfInBounds]
    split
    · next hj =>
      obtain ⟨rfl, hi⟩ := hj
      simp [Std.ExtTreeSet.mem_union_iff, hp, hi]
    · next hj =>
      rw [LiveSets.liveIn]
      simp [hj]

@[simp] theorem size_update (i : Nat) : (flow.update i sets).size = sets.size := by
  rw [update]
  split
  · rfl
  · exact Array.size_setIfInBounds

/-- An update only adds. -/
theorem le_update (i : Nat) : Le sets (flow.update i sets) := by
  refine ⟨(size_update i).symm, ?_, ?_⟩
  · intro j t ht
    exact mem_liveIn_update.mpr (.inl ht)
  · intro j t ht
    exact mem_liveOut_update.mpr (.inl ht)

-- ── Sweeps ───────────────────────────────────────────────────────────────────

theorem le_updates (is : List Nat) : Le sets (is.foldr flow.update sets) := by
  induction is with
  | nil => exact Le.refl sets
  | cons i is ih => exact ih.trans (le_update i)

/-- If all updates together change nothing, each one of them changes nothing: what comes between
    is not smaller than what was there and not larger than what is left. -/
theorem eq_of_updates_eq {is : List Nat} (h : is.foldr flow.update sets = sets) :
    ∀ i ∈ is, flow.update i sets = sets := by
  induction is with
  | nil => exact nofun
  | cons i is ih =>
      have hstep : Le (is.foldr flow.update sets) (flow.update i (is.foldr flow.update sets)) :=
        le_update i
      rw [List.foldr_cons] at h
      rw [h] at hstep
      have hrest : is.foldr flow.update sets = sets := hstep.antisymm (le_updates is)
      intro j hj
      rcases List.mem_cons.mp hj with rfl | hj
      · rwa [hrest] at h
      · exact ih hrest j hj

/-- Only what is read somewhere can be live, and the result. -/
theorem mem_temps : t ∈ flow.temps ↔ t = flow.result ∨ ∃ p ∈ flow.points, t ∈ p.uses := by
  rw [temps, ← Array.foldl_toList, mem_foldl_union]
  simp only [Std.ExtTreeSet.mem_ofList, List.contains_iff_mem, Array.mem_toList_iff]
  refine or_congr_left ?_
  show t ∈ (∅ : TempSet).insert flow.result ↔ _
  rw [Std.ExtTreeSet.mem_insert, Std.LawfulEqCmp.compare_eq_iff_eq]
  simp [eq_comm]

-- ── What the sets can hold ───────────────────────────────────────────────────

/-- What `ins` and `outs` allow to be live before and after the points satisfies the equations of
    liveness: it is allowed before a point if it is read there or is allowed after it and not
    written. -/
structure Admits (flow : Flow) (ins outs : Nat → Temp → Prop) : Prop where
  succ : ∀ i p, flow.points[i]? = some p → ∀ j ∈ p.succs, ∀ t, ins j t → outs i t
  exit : ∀ i p, flow.points[i]? = some p → p.exits = true → outs i flow.result
  use : ∀ i p, flow.points[i]? = some p → ∀ t ∈ p.uses, ins i t
  pass : ∀ i p, flow.points[i]? = some p → ∀ t, outs i t → t ∉ p.defs → ins i t

/-- The sets hold only what is allowed. -/
structure Within (ins outs : Nat → Temp → Prop) (sets : LiveSets) : Prop where
  liveIn : ∀ i, ∀ t ∈ sets.liveIn i, ins i t
  liveOut : ∀ i, ∀ t ∈ sets.liveOut i, outs i t

section Allowed

variable {ins outs : Nat → Temp → Prop}

/-- If the sets hold only what is allowed, no point asks for more behind it. -/
theorem Within.liveOutAt (hallow : flow.Admits ins outs) (h : Within ins outs sets) {i : Nat}
    (hp : flow.points[i]? = some p) (ht : t ∈ flow.liveOutAt sets p) : outs i t := by
  rcases mem_liveOutAt.mp ht with ⟨j, hj, ht⟩ | ⟨hexits, rfl⟩
  · exact hallow.succ i p hp j hj t (h.liveIn j t ht)
  · exact hallow.exit i p hp hexits

/-- An update adds only what is allowed. -/
theorem Within.update (hallow : flow.Admits ins outs) (h : Within ins outs sets) (i : Nat) :
    Within ins outs (flow.update i sets) := by
  refine ⟨?_, ?_⟩
  · intro j t ht
    rcases mem_liveIn_update.mp ht with ht | ⟨⟨rfl, -⟩, p, hp, ht⟩
    · exact h.liveIn j t ht
    · rcases mem_liveInAt.mp ht with huse | ⟨hout, hdef⟩
      · exact hallow.use i p hp t huse
      · refine hallow.pass i p hp t ?_ hdef
        rcases Std.ExtTreeSet.mem_union_iff.mp hout with hout | hout
        · exact h.liveOut i t hout
        · exact h.liveOutAt hallow hp hout
  · intro j t ht
    rcases mem_liveOut_update.mp ht with ht | ⟨⟨rfl, -⟩, p, hp, ht⟩
    · exact h.liveOut j t ht
    · exact h.liveOutAt hallow hp ht

/-- So do updates one after the other. -/
theorem Within.updates (hallow : flow.Admits ins outs) (h : Within ins outs sets)
    (is : List Nat) : Within ins outs (is.foldr flow.update sets) := by
  induction is with
  | nil => exact h
  | cons i is ih => exact ih.update hallow i

/-- Sweeping never leaves what is allowed. -/
theorem Within.settle (hallow : flow.Admits ins outs) (h : Within ins outs sets) :
    Within ins outs (flow.settle sets).1 := by
  fun_induction Flow.settle flow sets with
  | case1 sets swept hroom settled sweeps heq ih =>
      rw [heq] at ih
      exact ih (h.updates hallow _)
  | case2 sets swept hroom => exact h.updates hallow _

end Allowed

/-- The sets hold only what can be live, one pair of them for each point. -/
structure Bounded (flow : Flow) (sets : LiveSets) : Prop where
  size : sets.size = flow.points.size
  within : Within (fun _ t => t ∈ flow.temps) (fun _ t => t ∈ flow.temps) sets

/-- What can be live at all satisfies the equations. -/
theorem admits_temps (flow : Flow) :
    flow.Admits (fun _ t => t ∈ flow.temps) fun _ t => t ∈ flow.temps where
  succ _ _ _ _ _ _ h := h
  exit _ _ _ _ := mem_temps.mpr (.inl rfl)
  use _ p hp _ ht := mem_temps.mpr (.inr ⟨p, Array.mem_of_getElem? hp, ht⟩)
  pass _ _ _ _ h _ := h

/-- An update stays within what can be live. -/
theorem Bounded.update (h : Bounded flow sets) (i : Nat) : Bounded flow (flow.update i sets) :=
  ⟨(size_update i).trans h.size, h.within.update flow.admits_temps i⟩

theorem Bounded.updates (h : Bounded flow sets) (is : List Nat) :
    Bounded flow (is.foldr flow.update sets) := by
  induction is with
  | nil => exact h
  | cons i is ih => exact ih.update i

/-- There is an end to how heavy the sets can get. -/
theorem Bounded.weight_le (h : Bounded flow sets) :
    sets.weight ≤ 2 * flow.points.size * flow.temps.size := by
  have hat : ∀ x ∈ (List.range sets.size).map sets.weightAt, x ≤ 2 * flow.temps.size := by
    intro x hx
    obtain ⟨i, -, rfl⟩ := List.mem_map.mp hx
    have hin := card_le_of_subset (h.within.liveIn i)
    have hout := card_le_of_subset (h.within.liveOut i)
    rw [weightAt]
    omega
  have hsum := List.sum_le_card_nsmul _ _ hat
  rw [← weight_eq_sum, List.length_map, List.length_range, h.size] at hsum
  calc sets.weight ≤ flow.points.size * (2 * flow.temps.size) := hsum
    _ = 2 * flow.points.size * flow.temps.size := by
      rw [← Nat.mul_assoc, Nat.mul_comm flow.points.size 2]

-- ── The equations ────────────────────────────────────────────────────────────

/-- The sets satisfy the equations of liveness: they hold all that these ask for. -/
structure Closed (flow : Flow) (sets : LiveSets) : Prop where
  size : sets.size = flow.points.size
  liveOut : ∀ i p, flow.points[i]? = some p → ∀ t ∈ flow.liveOutAt sets p, t ∈ sets.liveOut i
  liveIn : ∀ i p, flow.points[i]? = some p → ∀ t ∈ liveInAt p (sets.liveOut i), t ∈ sets.liveIn i

/-- If no update changes anything, the equations are satisfied. -/
theorem closed_of_update_eq (hsize : sets.size = flow.points.size)
    (h : ∀ i ∈ List.range flow.points.size, flow.update i sets = sets) : Closed flow sets := by
  have hpos : ∀ {i p}, flow.points[i]? = some p → i < flow.points.size := by
    intro i p hp
    exact (Array.getElem?_eq_some_iff.mp hp).1
  have hout : ∀ i p, flow.points[i]? = some p → ∀ t ∈ flow.liveOutAt sets p,
      t ∈ sets.liveOut i := by
    intro i p hp t ht
    rw [← h i (List.mem_range.mpr (hpos hp))]
    exact mem_liveOut_update.mpr (.inr ⟨⟨rfl, hsize ▸ hpos hp⟩, p, hp, ht⟩)
  refine ⟨hsize, hout, ?_⟩
  intro i p hp t ht
  rw [← h i (List.mem_range.mpr (hpos hp))]
  refine mem_liveIn_update.mpr (.inr ⟨⟨rfl, hsize ▸ hpos hp⟩, p, hp, ?_⟩)
  refine mem_liveInAt.mpr ((mem_liveInAt.mp ht).imp id ?_)
  rintro ⟨ht, hdef⟩
  exact ⟨Std.ExtTreeSet.mem_union_iff.mpr (.inl ht), hdef⟩

/-- Where the room does not get smaller, a sweep has changed nothing. -/
theorem sweep_eq_of_room_le (h : Bounded flow sets)
    (hroom : flow.room sets ≤ flow.room (flow.sweep sets)) : flow.sweep sets = sets := by
  have hswept : Bounded flow (flow.sweep sets) := h.updates _
  have hle : (flow.sweep sets).weight ≤ sets.weight := by
    have hbound := hswept.weight_le
    rw [room, room] at hroom
    omega
  exact (eq_of_weight_le (le_updates _) hle).symm

/-- Sweeping ends with sets that satisfy the equations. -/
theorem closed_settle (h : Bounded flow sets) : Closed flow (flow.settle sets).1 := by
  fun_induction settle flow sets with
  | case1 sets swept hroom settled sweeps heq ih =>
      rw [heq] at ih
      exact ih (h.updates _)
  | case2 sets swept hroom =>
      have hsame : swept = sets := sweep_eq_of_room_le h (Nat.not_lt.mp hroom)
      rw [hsame]
      exact closed_of_update_eq h.size (eq_of_updates_eq hsame)

end Flow

namespace Code

theorem liveIn_empty (n i : Nat) : LiveSets.liveIn (Array.replicate n {}) i = ∅ := by
  simp [LiveSets.liveIn, Array.getElem?_replicate]
  split <;> rfl

theorem liveOut_empty (n i : Nat) : LiveSets.liveOut (Array.replicate n {}) i = ∅ := by
  simp [LiveSets.liveOut, Array.getElem?_replicate]
  split <;> rfl

/-- Empty sets hold nothing that is not allowed. -/
theorem within_empty (ins outs : Nat → Temp → Prop) (n : Nat) :
    Flow.Within ins outs (Array.replicate n {}) := by
  refine ⟨?_, ?_⟩
  · intro i t ht
    rw [liveIn_empty] at ht
    exact absurd ht Std.ExtTreeSet.not_mem_empty
  · intro i t ht
    rw [liveOut_empty] at ht
    exact absurd ht Std.ExtTreeSet.not_mem_empty

/-- The live sets of a function satisfy the equations of liveness. -/
theorem closed_liveSets (code : Code) : code.flow.Closed code.liveSets :=
  Flow.closed_settle ⟨Array.size_replicate, within_empty _ _ _⟩

/-- The live sets of a function hold nothing but what every solution of the equations holds. -/
theorem within_liveSets {code : Code} {ins outs : Nat → Temp → Prop}
    (hallow : code.flow.Admits ins outs) : Flow.Within ins outs code.liveSets :=
  (within_empty ins outs _).settle hallow

end Code

end MmixBackend
