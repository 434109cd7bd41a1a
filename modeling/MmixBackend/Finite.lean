import Std.Data.ExtTreeMap
import Std.Data.ExtTreeSet

/-!
# Finite maps and sets that shrink, and ends of lists

Removing something that is there makes a finite map or set smaller. Several loops of this
library end for that reason. Code that runs is what is left of a list from a position on.
-/

namespace MmixBackend

variable {α β : Type} {cmp : α → α → Ordering} [Std.TransCmp cmp]

/-- Removing a key of a map makes the map smaller. -/
theorem size_erase_lt_of_mem {m : Std.ExtTreeMap α β cmp} {k : α} (h : k ∈ m) :
    (m.erase k).size < m.size := by
  have hpos : 0 < m.size := by
    rcases Nat.eq_zero_or_pos m.size with h0 | h0
    · rw [Std.ExtTreeMap.eq_empty_iff_size_eq_zero.mpr h0] at h
      exact absurd h Std.ExtTreeMap.not_mem_empty
    · exact h0
  rw [Std.ExtTreeMap.size_erase, if_pos (Std.ExtTreeMap.mem_iff_contains.mp h)]
  omega

/-- Removing an element of a set makes the set smaller. -/
theorem card_erase_lt_of_mem {m : Std.ExtTreeSet α cmp} {k : α} (h : k ∈ m) :
    (m.erase k).size < m.size := by
  have hpos : 0 < m.size := by
    rcases Nat.eq_zero_or_pos m.size with h0 | h0
    · rw [Std.ExtTreeSet.eq_empty_iff_size_eq_zero.mpr h0] at h
      exact absurd h Std.ExtTreeSet.not_mem_empty
    · exact h0
  rw [Std.ExtTreeSet.size_erase, if_pos (Std.ExtTreeSet.mem_iff_contains.mp h)]
  omega

/-- A part of a set that lacks one of its elements is smaller. -/
theorem card_lt_of_subset [Std.LawfulEqCmp cmp] {m m' : Std.ExtTreeSet α cmp} {k : α}
    (hsub : ∀ x ∈ m', x ∈ m) (h : k ∈ m) (h' : k ∉ m') : m'.size < m.size := by
  have hinter : m.erase k ∩ m' = m' := by
    refine Std.ExtTreeSet.ext_mem fun x => ?_
    rw [Std.ExtTreeSet.mem_inter_iff, Std.ExtTreeSet.mem_erase]
    refine ⟨fun hx => hx.2, fun hx => ⟨⟨fun hcmp => ?_, hsub x hx⟩, hx⟩⟩
    exact h' (Std.LawfulEqCmp.eq_of_compare hcmp ▸ hx)
  have hle : (m.erase k ∩ m').size ≤ (m.erase k).size := Std.ExtTreeSet.size_inter_le_size_left
  rw [hinter] at hle
  exact Nat.lt_of_le_of_lt hle (card_erase_lt_of_mem h)

/-- A part of a set is not larger. -/
theorem card_le_of_subset [Std.LawfulEqCmp cmp] {m m' : Std.ExtTreeSet α cmp}
    (hsub : ∀ x ∈ m', x ∈ m) : m'.size ≤ m.size := by
  have hinter : m ∩ m' = m' := by
    refine Std.ExtTreeSet.ext_mem fun x => ?_
    rw [Std.ExtTreeSet.mem_inter_iff]
    exact ⟨fun hx => hx.2, fun hx => ⟨hsub x hx, hx⟩⟩
  have hle : (m ∩ m').size ≤ m.size := Std.ExtTreeSet.size_inter_le_size_left
  rwa [hinter] at hle

/-- A part of a set that is as large is the set. -/
theorem eq_of_subset_of_card_le [Std.LawfulEqCmp cmp] {m m' : Std.ExtTreeSet α cmp}
    (hsub : ∀ x ∈ m', x ∈ m) (hle : m.size ≤ m'.size) : m' = m := by
  refine Std.ExtTreeSet.ext_mem fun x => ⟨hsub x, fun hx => ?_⟩
  refine Decidable.byContradiction fun hx' => ?_
  exact absurd (card_lt_of_subset hsub hx hx') (Nat.not_lt.mpr hle)

/-- A key with a value is a key. -/
theorem mem_of_getElem?_eq_some {m : Std.ExtTreeMap α β cmp} {k : α} {v : β}
    (h : m[k]? = some v) : k ∈ m := by
  rw [Std.ExtTreeMap.mem_iff_isSome_getElem?, h]
  rfl

/-- A test that some element passes, and that a stronger test refuses, is passed by more
    elements. -/
theorem countP_lt_countP {p q : α → Bool} {l : List α} (hpq : ∀ x ∈ l, q x = true → p x = true)
    {a : α} (ha : a ∈ l) (hp : p a = true) (hq : q a = false) : l.countP q < l.countP p := by
  induction l with
  | nil => cases ha
  | cons b l ih =>
    have htail : ∀ x ∈ l, q x = true → p x = true := fun x hx => hpq x (List.mem_cons_of_mem _ hx)
    simp only [List.countP_cons]
    rcases List.mem_cons.mp ha with rfl | ha
    · have := List.countP_mono_left htail
      simp only [hp, hq]
      simp only [if_true, Bool.false_eq_true, if_false]
      omega
    · have hb := hpq b List.mem_cons_self
      have := ih htail ha
      by_cases hqb : q b = true
      · simp only [hqb, hb hqb, if_true]
        omega
      · simp only [hqb]
        simp only [Bool.false_eq_true, if_false]
        omega

/-- A list from a position on starts with the element there. -/
theorem drop_eq_cons_iff {l rest : List α} {a : α} {i : Nat} :
    l.drop i = a :: rest ↔ l[i]? = some a ∧ l.drop (i + 1) = rest := by
  constructor
  · intro h
    have ha : (l.drop i)[0]? = some a := by rw [h]; rfl
    have ht : (l.drop i).tail = rest := by rw [h]; rfl
    rw [List.getElem?_drop] at ha
    rw [List.tail_drop] at ht
    exact ⟨ha, ht⟩
  · rintro ⟨ha, rfl⟩
    obtain ⟨hlt, rfl⟩ := List.getElem?_eq_some_iff.mp ha
    exact List.drop_eq_getElem_cons hlt

end MmixBackend
