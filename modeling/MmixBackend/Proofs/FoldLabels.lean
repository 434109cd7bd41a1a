import MmixBackend.Block
import MmixBackend.Proofs.FlatRun

/-!
# Folding labels keeps every run

`foldLabels` drops a label directly behind another one and sends its jumps to the first label of
the run. Behind the dropped label comes the same code as behind the kept one, once the labels
between the two are dropped as well. The route:

* **`codeFrom_dropAliases`** — where a jump to a label of the code arrives after folding: at the
  label itself or, if it was dropped, at the one it was folded into.
* **`halts_foldLabels_iff`** — code in which no label is defined twice halts exactly as the folded
  code does.
-/

namespace MmixBackend

namespace Flat

/-- The labels that code defines, in order. -/
def definedLabels (code : List Stmt) : List Label := code.filterMap Stmt.label?

@[simp] theorem definedLabels_nil : definedLabels [] = [] := rfl

@[simp] theorem definedLabels_label (l : Label) (code : List Stmt) :
    definedLabels (.label l :: code) = l :: definedLabels code := rfl

@[simp] theorem definedLabels_act (a : Action) (code : List Stmt) :
    definedLabels (.act a :: code) = definedLabels code := rfl

@[simp] theorem definedLabels_transfer (t : Transfer) (code : List Stmt) :
    definedLabels (.transfer t :: code) = definedLabels code := rfl

/-- A label is defined exactly where it stands in the code. -/
theorem mem_definedLabels {l : Label} {code : List Stmt} :
    l ∈ definedLabels code ↔ Stmt.label l ∈ code := by
  rw [definedLabels, List.mem_filterMap]
  constructor
  · rintro ⟨s, hs, hl⟩
    cases s with
    | label l' =>
        obtain rfl : l' = l := Option.some.inj hl
        exact hs
    | _ => cases hl
  · intro h
    exact ⟨_, h, rfl⟩

/-- Where no label is defined twice, a jump to a label arrives at its only definition. -/
theorem codeFrom_of_suffix {l : Label} {code rest : List Stmt} (h : (definedLabels code).Nodup)
    (hs : .label l :: rest <:+ code) : codeFrom l code = some (.label l :: rest) := by
  induction code with
  | nil => exact absurd (List.suffix_nil.mp hs) nofun
  | cons s code ih =>
      rcases List.suffix_cons_iff.mp hs with heq | hs
      · obtain ⟨rfl, rfl⟩ := List.cons.inj heq
        have hnone : codeFrom l rest = none := by
          rw [codeFrom_eq_none_iff, ← mem_definedLabels]
          exact (List.nodup_cons.mp h).1
        rw [codeFrom, hnone]
        exact if_pos rfl
      · have htail : (definedLabels code).Nodup := by
          cases s with
          | label l' => exact (List.nodup_cons.mp h).2
          | _ => exact h
        rw [codeFrom, ih htail hs]

/-- Changing where transfers lead leaves the labels where they are. -/
theorem codeFrom_map_retarget (f : Label → Label) (l : Label) (code : List Stmt) :
    codeFrom l (code.map (·.retarget f)) = (codeFrom l code).map (·.map (·.retarget f)) := by
  induction code with
  | nil => rfl
  | cons s code ih =>
      rw [List.map_cons, codeFrom, codeFrom, ih]
      cases codeFrom l code with
      | some found => rfl
      | none => cases s <;> simp [Stmt.retarget]

end Flat

open Flat

-- ── What folding drops ───────────────────────────────────────────────────────

/-- Only labels that the code defines are dropped, each of them once. -/
theorem labelAliases_sublist (kept : Option Label) (code : List Stmt) :
    ((labelAliases kept code).map Prod.fst).Sublist (definedLabels code) := by
  induction code generalizing kept with
  | nil => exact List.Sublist.slnil
  | cons s code ih =>
      cases s with
      | label l =>
          cases kept with
          | none => exact (ih (some l)).cons l
          | some k => exact (ih (some k)).cons_cons l
      | act a => exact ih none
      | transfer t => exact ih none

/-- Dropping aliases only leaves statements out. -/
theorem dropAliases_sublist (kept : Option Label) (code : List Stmt) :
    (dropAliases kept code).Sublist code := by
  induction code generalizing kept with
  | nil => exact List.Sublist.slnil
  | cons s code ih =>
      cases s with
      | label l =>
          cases kept with
          | none => exact (ih (some l)).cons_cons _
          | some k => exact (ih (some k)).cons _
      | act a => exact (ih none).cons_cons _
      | transfer t => exact (ih none).cons_cons _

/-- Folding keeps only labels that the code defines. -/
theorem definedLabels_dropAliases_sublist (kept : Option Label) (code : List Stmt) :
    (definedLabels (dropAliases kept code)).Sublist (definedLabels code) :=
  (dropAliases_sublist kept code).filterMap Stmt.label?

/-- Leading transfers elsewhere leaves the defined labels alone. -/
theorem definedLabels_map_retarget (f : Label → Label) (code : List Stmt) :
    definedLabels (code.map (·.retarget f)) = definedLabels code := by
  induction code with
  | nil => rfl
  | cons s code ih =>
      cases s with
      | label l => exact congrArg (l :: ·) ih
      | act a => exact ih
      | transfer t => exact ih

/-- The code behind a label comes, after folding, behind the label itself or behind the one that
    it was folded into. That one may stand before the code in question: then all that is between
    the two is dropped. -/
theorem codeFrom_dropAliases {l : Label} {rest : List Stmt} (kept : Option Label)
    (code : List Stmt) (hnodup : (definedLabels code).Nodup)
    (h : codeFrom l code = some (.label l :: rest)) :
    (∃ k, codeFrom k (dropAliases kept code) = some (.label k :: dropAliases (some k) rest) ∧
      ((l, k) ∈ labelAliases kept code ∨ k = l ∧ l ∉ (labelAliases kept code).map Prod.fst)) ∨
    ∃ k, kept = some k ∧ (l, k) ∈ labelAliases kept code ∧
      dropAliases kept code = dropAliases kept rest := by
  induction code generalizing kept with
  | nil => cases h
  | cons s code ih =>
      cases s with
      | label x =>
          obtain ⟨hx, hnodup⟩ := List.nodup_cons.mp hnodup
          have hxdrop : codeFrom x (dropAliases (some x) code) = none := by
            rw [codeFrom_eq_none_iff, ← mem_definedLabels]
            exact fun hmem => hx ((definedLabels_dropAliases_sublist _ _).subset hmem)
          by_cases hxl : x = l
          · subst hxl
            have hnone : codeFrom x code = none := by
              rw [codeFrom_eq_none_iff, ← mem_definedLabels]
              exact hx
            rw [codeFrom_label_of_none hnone] at h
            obtain rfl : code = rest := (List.cons.inj (Option.some.inj h)).2
            cases kept with
            | none =>
                refine .inl ⟨x, codeFrom_label_of_none hxdrop, .inr ⟨rfl, ?_⟩⟩
                exact fun hmem => hx ((labelAliases_sublist (some x) code).subset hmem)
            | some k₀ => exact .inr ⟨k₀, rfl, List.mem_cons_self, rfl⟩
          · rw [codeFrom_cons_of_ne fun heq => hxl (Stmt.label.inj heq)] at h
            cases kept with
            | none =>
                -- the label `x` is kept, and the code behind it follows it directly
                show (∃ k, codeFrom k (.label x :: dropAliases (some x) code) = _ ∧
                  ((l, k) ∈ labelAliases (some x) code ∨ _)) ∨ _
                rcases ih (some x) hnodup h with ⟨k, hk, hal⟩ | ⟨k, hkx, hal, hdrop⟩
                · refine .inl ⟨k, ?_, hal⟩
                  rw [codeFrom, hk]
                · obtain rfl : x = k := Option.some.inj hkx
                  refine .inl ⟨x, ?_, .inl hal⟩
                  rw [codeFrom_label_of_none hxdrop, ← hdrop]
            | some k₀ =>
                rcases ih (some k₀) hnodup h with ⟨k, hk, hal⟩ | ⟨k, hk, hal, hdrop⟩
                · refine .inl ⟨k, hk, ?_⟩
                  rcases hal with hal | ⟨rfl, hal⟩
                  · exact .inl (List.mem_cons_of_mem _ hal)
                  · refine .inr ⟨rfl, fun hmem => ?_⟩
                    rcases List.mem_cons.mp hmem with heq | hmem
                    · exact hxl heq.symm
                    · exact hal hmem
                · exact .inr ⟨k, hk, List.mem_cons_of_mem _ hal, hdrop⟩
      | act a =>
          rw [codeFrom_act] at h
          rcases ih none hnodup h with ⟨k, hk, hal⟩ | ⟨k, hk, -⟩
          · exact .inl ⟨k, (codeFrom_act _ _ _).trans hk, hal⟩
          · cases hk
      | transfer t =>
          rw [codeFrom_transfer] at h
          rcases ih none hnodup h with ⟨k, hk, hal⟩ | ⟨k, hk, -⟩
          · exact .inl ⟨k, (codeFrom_transfer _ _ _).trans hk, hal⟩
          · cases hk

-- ── Where jumps go ───────────────────────────────────────────────────────────

/-- The label that stands for `l` after folding. -/
def foldTarget (code : List Stmt) (l : Label) : Label :=
  (Std.ExtTreeMap.ofList (labelAliases none code) : LabelMap Label).getD l l

/-- Folding drops the aliases and leads every transfer to the label that is kept. -/
theorem foldLabels_eq (code : List Stmt) :
    foldLabels code = (dropAliases none code).map (·.retarget (foldTarget code)) := rfl

/-- A label that is no alias stands for itself. -/
theorem foldTarget_of_not_mem {code : List Stmt} {l : Label}
    (h : l ∉ (labelAliases none code).map Prod.fst) : foldTarget code l = l := by
  refine Std.ExtTreeMap.getD_ofList_of_contains_eq_false ?_
  rw [← Bool.not_eq_true, List.contains_iff_mem]
  exact h

/-- An alias stands for the label that it follows, if no label is defined twice. -/
theorem foldTarget_of_mem {code : List Stmt} {l k : Label} (hnodup : (definedLabels code).Nodup)
    (h : (l, k) ∈ labelAliases none code) : foldTarget code l = k := by
  refine Std.ExtTreeMap.getD_ofList_of_mem Std.ReflCmp.compare_self ?_ h
  have hkeys : ((labelAliases none code).map Prod.fst).Nodup :=
    (labelAliases_sublist none code).nodup hnodup
  rw [List.Nodup, List.pairwise_map] at hkeys
  refine hkeys.imp fun hne heq => hne ?_
  exact Std.LawfulEqCmp.eq_of_compare heq

/-- A jump to a label of the code arrives, after folding, at what stands for the label, with the
    same code behind it. -/
theorem codeFrom_foldLabels {code rest : List Stmt} {l : Label}
    (hnodup : (definedLabels code).Nodup) (h : codeFrom l code = some (.label l :: rest)) :
    ∃ k, codeFrom (foldTarget code l) (foldLabels code) =
      some (.label k :: (dropAliases (some k) rest).map (·.retarget (foldTarget code))) := by
  rcases codeFrom_dropAliases none code hnodup h with ⟨k, hk, hal⟩ | ⟨k, hk, -⟩
  · have htarget : foldTarget code l = k := by
      rcases hal with hal | ⟨rfl, hal⟩
      · exact foldTarget_of_mem hnodup hal
      · exact foldTarget_of_not_mem hal
    refine ⟨k, ?_⟩
    rw [htarget, foldLabels_eq, codeFrom_map_retarget, hk]
    rfl
  · cases hk

/-- A jump to a label that the code does not define leads to the same label after folding, and
    there is no definition of it then either. -/
theorem codeFrom_foldLabels_of_none {code : List Stmt} {l : Label} (h : codeFrom l code = none) :
    foldTarget code l = l ∧ codeFrom l (foldLabels code) = none := by
  rw [codeFrom_eq_none_iff, ← mem_definedLabels] at h
  constructor
  · exact foldTarget_of_not_mem fun hmem => h ((labelAliases_sublist none code).subset hmem)
  · rw [codeFrom_eq_none_iff, ← mem_definedLabels, foldLabels_eq, definedLabels_map_retarget]
    exact fun hmem => h ((definedLabels_dropAliases_sublist none code).subset hmem)

/-- Folding defines no label that was not defined, and none more often. -/
theorem definedLabels_foldLabels_sublist (code : List Stmt) :
    (definedLabels (foldLabels code)).Sublist (definedLabels code) := by
  rw [foldLabels_eq, definedLabels_map_retarget]
  exact definedLabels_dropAliases_sublist none code

/-- A dropped label is folded into one that the code defines. -/
theorem defined_of_mem_labelAliases {kept : Option Label} {code : List Stmt} {l k : Label}
    (h : (l, k) ∈ labelAliases kept code) : kept = some k ∨ k ∈ definedLabels code := by
  induction code generalizing kept with
  | nil => cases h
  | cons s code ih =>
      cases s with
      | label x =>
          cases kept with
          | none =>
              rcases ih h with heq | hk
              · obtain rfl := Option.some.inj heq
                exact .inr List.mem_cons_self
              · exact .inr (List.mem_cons_of_mem _ hk)
          | some k₀ =>
              rcases List.mem_cons.mp h with heq | h
              · obtain ⟨-, rfl⟩ := Prod.mk.inj heq
                exact .inl rfl
              · rcases ih h with heq | hk
                · exact .inl heq
                · exact .inr (List.mem_cons_of_mem _ hk)
      | act a => exact .inr ((ih h).resolve_left nofun)
      | transfer t => exact .inr ((ih h).resolve_left nofun)

/-- A label stands for itself or for a label that the code defines. -/
theorem foldTarget_cases {code : List Stmt} (hnodup : (definedLabels code).Nodup) (l : Label) :
    foldTarget code l = l ∨ foldTarget code l ∈ definedLabels code := by
  by_cases hl : l ∈ (labelAliases none code).map Prod.fst
  · obtain ⟨⟨_, k⟩, hk, rfl⟩ := List.mem_map.mp hl
    rw [foldTarget_of_mem hnodup hk]
    exact .inr ((defined_of_mem_labelAliases hk).resolve_left nofun)
  · exact .inl (foldTarget_of_not_mem hl)

/-- Every target after folding stands for a target of before. -/
theorem target_of_mem_foldLabels {code : List Stmt} {t : Transfer} {l : Label}
    (ht : .transfer t ∈ foldLabels code) (hl : l ∈ t.targets) :
    ∃ t₀, .transfer t₀ ∈ code ∧ ∃ x ∈ t₀.targets, foldTarget code x = l := by
  rw [foldLabels_eq] at ht
  obtain ⟨s, hs, heq⟩ := List.mem_map.mp ht
  have hmem := (dropAliases_sublist none code).subset hs
  cases s with
  | label x => cases heq
  | act a => cases heq
  | transfer t₀ =>
      obtain rfl := Stmt.transfer.inj heq
      refine ⟨t₀, hmem, ?_⟩
      cases t₀ with
      | jump x =>
          obtain rfl := List.mem_singleton.mp hl
          exact ⟨x, List.mem_cons_self, rfl⟩
      | branch cond x y =>
          rcases List.mem_cons.mp hl with rfl | hl
          · exact ⟨x, List.mem_cons_self, rfl⟩
          · obtain rfl := List.mem_singleton.mp hl
            exact ⟨y, List.mem_cons_of_mem _ List.mem_cons_self, rfl⟩

-- ── Runs ─────────────────────────────────────────────────────────────────────

namespace Machine

/-- What folding leaves of the statements ahead, where `kept` is the label that they follow. -/
def foldAhead (code : List Stmt) (kept : Option Label) (ahead : List Stmt) : List Stmt :=
  (dropAliases kept ahead).map (·.retarget (foldTarget code))

/-- A transfer that is led elsewhere goes where its target is led. -/
theorem target_retarget (m : Machine) (f : Label → Label) (t : Transfer) :
    m.target (t.retarget f) = f (m.target t) := by
  cases t with
  | jump l => rfl
  | branch cond ifTrue ifFalse =>
      show (if m.temp cond ≠ 0 then f ifTrue else f ifFalse)
        = f (if m.temp cond ≠ 0 then ifTrue else ifFalse)
      split <;> rfl

/-- What code comes to, the folded code comes to from the corresponding place. By induction on the
    run. -/
theorem halts_foldAhead {code ahead : List Stmt} {m m' : Machine} {r : Outcome}
    (hnodup : (definedLabels code).Nodup) (h : Halts code ahead m r m') :
    ∀ kept, Halts (foldLabels code) (foldAhead code kept ahead) m r m' := by
  induction h with
  | nil m =>
      intro kept
      exact Halts.nil m
  | @label l ahead m m' r _ ih =>
      intro kept
      cases kept with
      | none => exact Halts.label (ih (some l))
      | some k => exact ih (some k)
  | act ha _ ih =>
      intro kept
      exact Halts.act ha (ih none)
  | fail ha =>
      intro kept
      exact Halts.fail ha
  | @jump t ahead found m m' r hfound _ ih =>
      intro kept
      obtain ⟨rest, rfl⟩ := head_of_codeFrom hfound
      obtain ⟨k, hk⟩ := codeFrom_foldLabels hnodup hfound
      rw [← target_retarget m (foldTarget code)] at hk
      -- the label that the jump went to is dropped behind the one it was folded into
      exact Halts.jump hk (Halts.label (ih (some k)))
  | @leave t ahead m hnone =>
      intro kept
      obtain ⟨htarget, hnone'⟩ := codeFrom_foldLabels_of_none hnone
      rw [← htarget, ← target_retarget m (foldTarget code)] at hnone'
      have hleave : Halts (foldLabels code) (foldAhead code kept (.transfer t :: ahead)) m
          (.ok (some (m.target (t.retarget (foldTarget code))))) m := Halts.leave hnone'
      rwa [target_retarget, htarget] at hleave

/-- Labels in front of the code make no difference to what it comes to. -/
theorem halts_labels_iff {code ahead : List Stmt} (ls : List Label) {m m' : Machine}
    {r : Outcome} :
    Halts code (ls.map Stmt.label ++ ahead) m r m' ↔ Halts code ahead m r m' := by
  induction ls with
  | nil => exact Iff.rfl
  | cons l ls ih => exact halts_label_iff.trans ih

/-- Folding leaves nothing only of labels. -/
theorem foldAhead_eq_nil {code ahead : List Stmt} {kept : Option Label}
    (h : foldAhead code kept ahead = []) : ∃ ls : List Label, ahead = ls.map Stmt.label := by
  induction ahead with
  | nil => exact ⟨[], rfl⟩
  | cons s ahead ih =>
      cases s with
      | label l =>
          cases kept with
          | none => cases h
          | some k =>
              obtain ⟨ls, rfl⟩ := ih h
              exact ⟨l :: ls, rfl⟩
      | act a => cases h
      | transfer t => cases h

/-- A statement that folding leaves at the front stands behind labels that it drops. -/
theorem foldAhead_eq_cons {code ahead folded : List Stmt} {kept : Option Label} {s : Stmt}
    (h : foldAhead code kept ahead = s :: folded) :
    ∃ (ls : List Label) (s' : Stmt) (rest : List Stmt) (kept' : Option Label),
      ahead = ls.map Stmt.label ++ s' :: rest ∧ s'.retarget (foldTarget code) = s ∧
        foldAhead code kept' rest = folded := by
  induction ahead with
  | nil => cases h
  | cons s' ahead ih =>
      cases s' with
      | label l =>
          cases kept with
          | none =>
              obtain ⟨hs, hfolded⟩ := List.cons.inj h
              exact ⟨[], .label l, ahead, some l, rfl, hs, hfolded⟩
          | some k =>
              obtain ⟨ls, s', rest, kept', rfl, hs, hfolded⟩ := ih h
              exact ⟨l :: ls, s', rest, kept', rfl, hs, hfolded⟩
      | act a =>
          obtain ⟨hs, hfolded⟩ := List.cons.inj h
          exact ⟨[], .act a, ahead, none, rfl, hs, hfolded⟩
      | transfer t =>
          obtain ⟨hs, hfolded⟩ := List.cons.inj h
          exact ⟨[], .transfer t, ahead, none, rfl, hs, hfolded⟩

/-- What folded code comes to, the code comes to from every place that is folded to it. -/
theorem halts_of_foldAhead {code folded : List Stmt} {m m' : Machine} {r : Outcome}
    (hnodup : (definedLabels code).Nodup) (h : Halts (foldLabels code) folded m r m') :
    ∀ kept ahead, foldAhead code kept ahead = folded → Halts code ahead m r m' := by
  induction h with
  | nil m =>
      intro kept ahead heq
      obtain ⟨ls, rfl⟩ := foldAhead_eq_nil heq
      rw [← List.append_nil (ls.map Stmt.label), halts_labels_iff]
      exact Halts.nil m
  | label _ ih =>
      intro kept ahead heq
      obtain ⟨ls, s, rest, kept', rfl, hs, hrest⟩ := foldAhead_eq_cons heq
      rw [halts_labels_iff]
      cases s with
      | label l => exact Halts.label (ih kept' rest hrest)
      | act a => cases hs
      | transfer t => cases hs
  | act ha _ ih =>
      intro kept ahead heq
      obtain ⟨ls, s, rest, kept', rfl, hs, hrest⟩ := foldAhead_eq_cons heq
      rw [halts_labels_iff]
      cases s with
      | label l => cases hs
      | act a =>
          obtain rfl := Stmt.act.inj hs
          exact Halts.act ha (ih kept' rest hrest)
      | transfer t => cases hs
  | fail ha =>
      intro kept ahead heq
      obtain ⟨ls, s, rest, kept', rfl, hs, hrest⟩ := foldAhead_eq_cons heq
      rw [halts_labels_iff]
      cases s with
      | label l => cases hs
      | act a =>
          obtain rfl := Stmt.act.inj hs
          exact Halts.fail ha
      | transfer t => cases hs
  | @jump t folded found m m' r hfound _ ih =>
      intro kept ahead heq
      obtain ⟨ls, s, rest, kept', rfl, hs, hrest⟩ := foldAhead_eq_cons heq
      rw [halts_labels_iff]
      cases s with
      | label l => cases hs
      | act a => cases hs
      | transfer t' =>
          obtain rfl := Stmt.transfer.inj hs
          rw [target_retarget] at hfound
          cases hlook : codeFrom (m.target t') code with
          | none =>
              -- a label that the code does not define is not defined after folding either
              obtain ⟨htarget, hnone⟩ := codeFrom_foldLabels_of_none hlook
              rw [htarget, hnone] at hfound
              cases hfound
          | some landing =>
              obtain ⟨behind, rfl⟩ := head_of_codeFrom hlook
              obtain ⟨k, hk⟩ := codeFrom_foldLabels hnodup hlook
              obtain rfl := Option.some.inj (hfound.symm.trans hk)
              -- the jump lands behind the label that stands for the target
              have hbehind := halts_label_iff.mp (ih none (.label k :: behind) rfl)
              exact Halts.jump hlook (Halts.label hbehind)
  | @leave t folded m hnone =>
      intro kept ahead heq
      obtain ⟨ls, s, rest, kept', rfl, hs, hrest⟩ := foldAhead_eq_cons heq
      rw [halts_labels_iff]
      cases s with
      | label l => cases hs
      | act a => cases hs
      | transfer t' =>
          obtain rfl := Stmt.transfer.inj hs
          rw [target_retarget] at hnone ⊢
          cases hlook : codeFrom (m.target t') code with
          | none =>
              rw [(codeFrom_foldLabels_of_none hlook).1]
              exact Halts.leave hlook
          | some landing =>
              obtain ⟨behind, rfl⟩ := head_of_codeFrom hlook
              obtain ⟨k, hk⟩ := codeFrom_foldLabels hnodup hlook
              rw [hk] at hnone
              cases hnone

/-- Code in which no label is defined twice halts exactly as the folded code does. -/
theorem halts_foldLabels_iff {code : List Stmt} (hnodup : (definedLabels code).Nodup)
    {m m' : Machine} {r : Outcome} :
    Halts (foldLabels code) (foldLabels code) m r m' ↔ Halts code code m r m' := by
  constructor
  · intro h
    exact halts_of_foldAhead hnodup h none code rfl
  · intro h
    exact halts_foldAhead hnodup h none

end Machine

end MmixBackend
