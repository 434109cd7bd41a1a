import MmixBackend.Proofs.RegisterCollision
import MmixBackend.Proofs.SpillWindow

/-!
# Liveness along a stretch of code

What the rest of a list of instructions reads before writing it is *ahead* there. If nothing of a
set of temporaries is ahead at any label, no jump brings one of them back to life, so that for them
live sets are what is ahead. Which of them interfere can then be told by walking along the code.

* **`ahead_of_liveIn`**, **`behind_of_liveOut`** — live sets hold what is ahead and no more.
* **`Tame`** — walking along the code meets no two temporaries of the set but those that a relation
  allows to meet, and no label that one of them is ahead of.
* **`Tame.adj`** — so the relation has all the interference there is between them.
* **`Tame.append`** — a stretch of instructions that touch few of them.
-/

namespace MmixBackend

namespace Code

variable {code : Code} {P : Temp → Prop} {i : Instr} {is rest : List Instr} {t u : Temp}

-- ── What is ahead ────────────────────────────────────────────────────────────

/-- The instructions read the temporary before they write it, in a straight run; leaving the
    function reads its result. -/
def Ahead (code : Code) : List Instr → Temp → Prop
  | [], _ => False
  | i :: rest, t => t ∈ i.uses ∨ (code.Ahead rest t ∨ Spill.Reloads code t i) ∧ t ∉ i.defs

/-- The temporary is ahead behind the instruction. -/
def Behind (code : Code) (i : Instr) (rest : List Instr) (t : Temp) : Prop :=
  code.Ahead rest t ∨ Spill.Reloads code t i

/-- Control goes on to the next instruction or to a label. -/
theorem mem_successors {pc j : Nat} (h : j ∈ code.successors pc i) :
    j = pc + 1 ∨ ∃ l, code.instrs[j]? = some (.label l) := by
  rcases mem_addAll.mp h with h | h
  · left
    split at h
    · exact List.mem_singleton.mp h
    · cases h
  · right
    obtain ⟨l, -, hl⟩ := List.mem_filterMap.mp h
    obtain ⟨hlt, hlabel, -⟩ := List.findIdx?_eq_some_iff_getElem.mp hl
    refine ⟨l, ?_⟩
    rw [List.getElem?_eq_getElem hlt]
    cases hi : code.instrs[j] with
    | label l' =>
        rw [hi] at hlabel
        exact congrArg (fun l => some (Instr.label l)) (Option.some.inj (of_decide_eq_true hlabel))
    | move op dst src =>
        rw [hi] at hlabel
        cases of_decide_eq_true hlabel
    | oper op uses defs jumps falls =>
        rw [hi] at hlabel
        cases of_decide_eq_true hlabel

/-- Every point of the flow is that of an instruction. -/
theorem getElem?_instrs_of_points {pc : Nat} {p : Point} (h : code.flow.points[pc]? = some p) :
    ∃ i, code.instrs[pc]? = some i ∧ p = code.point pc i := by
  cases hi : code.instrs[pc]? with
  | some i =>
      rw [getElem?_points hi] at h
      exact ⟨i, rfl, (Option.some.inj h).symm⟩
  | none =>
      rw [List.getElem?_eq_none_iff] at hi
      have hsize : code.flow.points.size ≤ pc := by simpa [flow] using hi
      rw [Array.getElem?_eq_none hsize] at h
      cases h

theorem drop_of_getElem? {pc : Nat} (hi : code.instrs[pc]? = some i) :
    code.instrs.drop pc = i :: code.instrs.drop (pc + 1) :=
  drop_eq_cons_iff.mpr ⟨hi, rfl⟩

/-- Nothing of the set is ahead at a label. -/
def QuietAtLabels (code : Code) (P : Temp → Prop) : Prop :=
  ∀ pc l, code.instrs[pc]? = some (.label l) → ∀ t, P t → ¬ code.Ahead (code.instrs.drop pc) t

/-- If nothing of a set is ahead at a label, then what is live of it is ahead: being ahead satisfies
    the equations of liveness. -/
theorem within_ahead (hquiet : code.QuietAtLabels P) :
    Flow.Within (fun pc t => P t → code.Ahead (code.instrs.drop pc) t)
      (fun pc t => P t → ∀ i, code.instrs[pc]? = some i →
        code.Behind i (code.instrs.drop (pc + 1)) t) code.liveSets := by
  refine within_liveSets ⟨?_, ?_, ?_, ?_⟩
  · intro pc p hp j hj t hin ht i hi
    obtain ⟨i', -, rfl⟩ := getElem?_instrs_of_points hp
    rcases mem_successors hj with rfl | ⟨l, hl⟩
    · exact .inl (hin ht)
    · exact absurd (hin ht) (hquiet j l hl t ht)
  · intro pc p hp hexits ht i hi
    obtain ⟨i', hi', rfl⟩ := getElem?_instrs_of_points hp
    obtain rfl := Option.some.inj (hi.symm.trans hi')
    exact .inr ⟨rfl, of_decide_eq_true hexits⟩
  · intro pc p hp t huse ht
    obtain ⟨i, hi, rfl⟩ := getElem?_instrs_of_points hp
    rw [drop_of_getElem? hi]
    exact .inl huse
  · intro pc p hp t hout hdef ht
    obtain ⟨i, hi, rfl⟩ := getElem?_instrs_of_points hp
    rw [drop_of_getElem? hi]
    exact .inr ⟨hout ht i hi, hdef⟩

/-- What is live before an instruction is ahead there. -/
theorem ahead_of_liveIn (hquiet : code.QuietAtLabels P) {pc : Nat}
    (h : t ∈ code.liveSets.liveIn pc) (ht : P t) : code.Ahead (code.instrs.drop pc) t :=
  (within_ahead hquiet).liveIn pc t h ht

/-- What is live behind an instruction is ahead there. -/
theorem behind_of_liveOut (hquiet : code.QuietAtLabels P) {pc : Nat}
    (hi : code.instrs[pc]? = some i) (h : t ∈ code.liveSets.liveOut pc) (ht : P t) :
    code.Behind i (code.instrs.drop (pc + 1)) t :=
  (within_ahead hquiet).liveOut pc t h ht i hi

-- ── Walking along the code ───────────────────────────────────────────────────

/-- Any two temporaries of the set that are of kind `T` are related. -/
def Related (P : Temp → Prop) (R : Temp → Temp → Prop) (T : Temp → Prop) : Prop :=
  ∀ a b, P a → P b → T a → T b → a ≠ b → R a b

/-- Walking along the code meets only pairs of the set that are related, and comes to no label that
    one of the set is ahead of. -/
def Tame (code : Code) (P : Temp → Prop) (R : Temp → Temp → Prop) : List Instr → Prop
  | [] => True
  | i :: rest =>
    Related P R (code.Ahead (i :: rest)) ∧
    Related P R (fun t => code.Behind i rest t ∨ t ∈ i.defs) ∧
    (∀ l, i = .label l → ∀ t, P t → ¬ code.Ahead (i :: rest) t) ∧ code.Tame P R rest

variable {R R' : Temp → Temp → Prop}

/-- Tame code stays tame if more pairs are related. -/
theorem Tame.mono (hR : ∀ a b, R a b → R' a b) (h : code.Tame P R is) : code.Tame P R' is := by
  induction is with
  | nil => trivial
  | cons i is ih =>
      obtain ⟨hin, hout, hlabel, hrest⟩ := h
      refine ⟨?_, ?_, hlabel, ih hrest⟩
      · intro a b ha hb haT hbT hne
        exact hR a b (hin a b ha hb haT hbT hne)
      · intro a b ha hb haT hbT hne
        exact hR a b (hout a b ha hb haT hbT hne)

/-- The rest of tame code is tame. -/
theorem Tame.drop (h : code.Tame P R is) (n : Nat) : code.Tame P R (is.drop n) := by
  induction n generalizing is with
  | zero => exact h
  | succ n ih =>
      cases is with
      | nil => trivial
      | cons i is => exact ih h.2.2.2

/-- In tame code, nothing of the set is ahead at a label. -/
theorem Tame.quietAtLabels (h : code.Tame P R code.instrs) : code.QuietAtLabels P := by
  intro pc l hl t ht
  have hdrop := h.drop pc
  rw [drop_of_getElem? hl] at hdrop ⊢
  exact hdrop.2.2.1 l rfl t ht

/-- All interference within the set is between related temporaries. -/
theorem Tame.adj (h : code.Tame P R code.instrs) {a b : Temp} (hadj : code.interference.Adj a b)
    (ha : P a) (hb : P b) : R a b := by
  obtain ⟨hne, pc, i, hi, hmeet⟩ := adj_interference_iff.mp hadj
  have hquiet := h.quietAtLabels
  have hdrop := h.drop pc
  rw [drop_of_getElem? hi] at hdrop
  obtain ⟨hin, hout, -, -⟩ := hdrop
  rcases hmeet with ⟨hla, hlb⟩ | ⟨hla, hlb⟩ | ⟨hda, hb'⟩ | ⟨hdb, ha'⟩
  · have hahead := ahead_of_liveIn hquiet hla ha
    have hahead' := ahead_of_liveIn hquiet hlb hb
    rw [drop_of_getElem? hi] at hahead hahead'
    exact hin a b ha hb hahead hahead' hne
  · exact hout a b ha hb (.inl (behind_of_liveOut hquiet hi hla ha))
      (.inl (behind_of_liveOut hquiet hi hlb hb)) hne
  · exact hout a b ha hb (.inr hda)
      (hb'.imp_left fun hlb => behind_of_liveOut hquiet hi hlb hb) hne
  · exact hout a b ha hb (ha'.imp_left fun hla => behind_of_liveOut hquiet hi hla ha)
      (.inr hdb) hne

-- ── Stretches of plain instructions ──────────────────────────────────────────

open Spill

theorem not_reloads_of_isPlain (h : IsPlain i) : ¬ Reloads code t i := by
  obtain ⟨op, uses, defs, rfl⟩ := h
  rintro ⟨-, hexit⟩
  cases hexit

/-- In front of a plain instruction is ahead what it reads, and what is ahead behind it unless
    written. -/
theorem ahead_cons_of_isPlain (h : IsPlain i) (hahead : code.Ahead (i :: rest) t) :
    t ∈ i.uses ∨ code.Ahead rest t ∧ t ∉ i.defs := by
  refine hahead.imp_right ?_
  rintro ⟨hahead | hreload, hdef⟩
  · exact ⟨hahead, hdef⟩
  · exact absurd hreload (not_reloads_of_isPlain h)

/-- What is ahead of plain instructions is read by one of them or ahead behind them. -/
theorem ahead_append (hplain : ∀ i ∈ is, IsPlain i) (h : code.Ahead (is ++ rest) t) :
    (∃ i ∈ is, t ∈ i.uses) ∨ code.Ahead rest t := by
  induction is with
  | nil => exact .inr h
  | cons i is ih =>
      rcases ahead_cons_of_isPlain (hplain i List.mem_cons_self) h with huse | ⟨hahead, -⟩
      · exact .inl ⟨i, List.mem_cons_self, huse⟩
      · refine (ih (fun j hj => hplain j (List.mem_cons_of_mem _ hj)) hahead).imp_left ?_
        rintro ⟨j, hj, huse⟩
        exact ⟨j, List.mem_cons_of_mem _ hj, huse⟩

/-- A plain instruction in front of tame code. -/
theorem Tame.cons_isPlain (h : IsPlain i) (hin : Related P R (code.Ahead (i :: rest)))
    (hout : Related P R fun t => code.Ahead rest t ∨ t ∈ i.defs) (hrest : code.Tame P R rest) :
    code.Tame P R (i :: rest) := by
  refine ⟨hin, ?_, ?_, hrest⟩
  · intro a b ha hb haT hbT hne
    refine hout a b ha hb ?_ ?_ hne
    · exact haT.imp_left fun h' => h'.resolve_right (not_reloads_of_isPlain h)
    · exact hbT.imp_left fun h' => h'.resolve_right (not_reloads_of_isPlain h)
  · rintro l rfl
    have hlabel := h.label?
    cases hlabel

/-- If whatever plain instructions touch, and what is ahead behind them, is related, they are tame
    where what follows them is. -/
theorem Tame.append {T : Temp → Prop} (hplain : ∀ i ∈ is, IsPlain i)
    (htouch : ∀ i ∈ is, ∀ t, P t → Touches t i → T t) (hahead : ∀ t, P t → code.Ahead rest t → T t)
    (hT : Related P R T) (hrest : code.Tame P R rest) : code.Tame P R (is ++ rest) := by
  have hkind : ∀ js : List Instr, (∀ i ∈ js, i ∈ is) → ∀ t, P t → code.Ahead (js ++ rest) t →
      T t := by
    intro js hjs t ht h
    rcases ahead_append (fun i hi => hplain i (hjs i hi)) h with ⟨i, hi, huse⟩ | h
    · exact htouch i (hjs i hi) t ht (.inl huse)
    · exact hahead t ht h
  induction is with
  | nil => exact hrest
  | cons i is ih =>
      have htail := ih (fun j hj => hplain j (List.mem_cons_of_mem _ hj))
        (fun j hj => htouch j (List.mem_cons_of_mem _ hj))
        fun js hjs => hkind js fun j hj => List.mem_cons_of_mem _ (hjs j hj)
      have hall := hkind (i :: is) fun j hj => hj
      have hrest' := hkind is fun j hj => List.mem_cons_of_mem _ hj
      refine htail.cons_isPlain (hplain i List.mem_cons_self) ?_ ?_
      · intro a b ha hb haT hbT hne
        exact hT a b ha hb (hall a ha haT) (hall b hb hbT) hne
      · have hdef : ∀ t, P t → t ∈ i.defs → T t :=
          fun t ht hdef => htouch i List.mem_cons_self t ht (.inr hdef)
        intro a b ha hb haT hbT hne
        exact hT a b ha hb (haT.elim (hrest' a ha) (hdef a ha)) (hbT.elim (hrest' b hb) (hdef b hb))
          hne

end Code

end MmixBackend
