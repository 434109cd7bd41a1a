import MmixBackend.Block.Merge
import MmixBackend.Proofs.BlockRun

/-!
# Joining blocks keeps every run

Each step of merging keeps the graph well formed and every run from the entry as it was:

* **`keeps_dropUnreachable`** — no run comes to a block that no path from the entry reaches.
* **`keeps_absorb`** — a block with one way in runs the same at the end of the block before it.
* **`keeps_merge`** — both together, for as many moves as merging makes.
-/

namespace MmixBackend

open Flat Machine

namespace BlockGraph

/-- Going from the first graph to the second one, well-formedness and all runs are kept. -/
def Keeps (g g' : BlockGraph) : Prop :=
  g.WellFormed → g'.WellFormed ∧ ∀ m r m', g'.Runs m r m' ↔ g.Runs m r m'

theorem Keeps.refl (g : BlockGraph) : Keeps g g :=
  fun hg => ⟨hg, fun _ _ _ => Iff.rfl⟩

/-- What each of two steps keeps, both together keep. -/
theorem Keeps.trans {g g' g'' : BlockGraph} (h : Keeps g g') (h' : Keeps g' g'') :
    Keeps g g'' := by
  intro hg
  obtain ⟨hg', hruns⟩ := h hg
  obtain ⟨hg'', hruns'⟩ := h' hg'
  exact ⟨hg'', fun m r m' => (hruns' m r m').trans (hruns m r m')⟩

-- ── Dropping what no path reaches ────────────────────────────────────────────

/-- Taking out a block changes the entry of its own label only. -/
theorem getElem?_erase (blocks : LabelMap Block) (l x : Label) :
    (blocks.erase l)[x]? = if l = x then none else blocks[x]? := by
  rw [Std.ExtTreeMap.getElem?_erase]
  simp only [Std.LawfulEqCmp.compare_eq_iff_eq]

theorem not_mem_of_getElem?_eq_none {blocks : LabelMap Block} {l : Label}
    (h : blocks[l]? = none) : l ∉ blocks := by
  rw [Std.ExtTreeMap.mem_iff_isSome_getElem?, h]
  exact nofun

/-- What is not reached from some labels was unseen before. -/
theorem mem_of_mem_unreached (unseen : LabelMap Block) (todo : List Label) {l : Label}
    (h : l ∈ unreached unseen todo) : l ∈ unseen := by
  fun_induction unreached unseen todo with
  | case1 unseen => exact h
  | case2 unseen x todo _ ih => exact ih h
  | case3 unseen x todo b _ _ ih =>
      have hmem := ih h
      rw [Std.ExtTreeMap.mem_erase] at hmem
      exact hmem.2

/-- The labels that a search starts from are reached. -/
theorem not_mem_unreached_of_mem (unseen : LabelMap Block) (todo : List Label) {l : Label}
    (hl : l ∈ todo) : l ∉ unreached unseen todo := by
  fun_induction unreached unseen todo with
  | case1 unseen => cases hl
  | case2 unseen x todo hnone ih =>
      rcases List.mem_cons.mp hl with rfl | hl
      · intro h
        exact not_mem_of_getElem?_eq_none hnone (mem_of_mem_unreached unseen todo h)
      · exact ih hl
  | case3 unseen x todo b hsome _ ih =>
      rcases List.mem_cons.mp hl with rfl | hl
      · intro h
        have hmem := mem_of_mem_unreached _ _ h
        rw [Std.ExtTreeMap.mem_erase] at hmem
        exact hmem.1 Std.ReflCmp.compare_self
      · exact ih (List.mem_append_right _ hl)

/-- From a block that the walk has seen, no way leads to a block that it has not. -/
theorem successors_not_mem_unreached (unseen : LabelMap Block) (todo : List Label) {l : Label}
    {b : Block} (hb : unseen[l]? = some b) (hl : l ∉ unreached unseen todo) {s : Label}
    (hs : s ∈ b.successors) : s ∉ unreached unseen todo := by
  fun_induction unreached unseen todo with
  | case1 unseen => exact absurd (mem_of_getElem?_eq_some hb) hl
  | case2 unseen x todo _ ih => exact ih hb hl
  | case3 unseen x todo c hsome _ ih =>
      by_cases hx : x = l
      · subst hx
        obtain rfl := Option.some.inj (hb.symm.trans hsome)
        exact not_mem_unreached_of_mem _ _ (List.mem_append_left _ hs)
      · refine ih ?_ hl
        rw [getElem?_erase, if_neg hx]
        exact hb

/-- Two tables of blocks that agree on labels which no run leaves have the same runs from there. -/
theorem halts_of_agree {blocks blocks' : LabelMap Block} {inside : Label → Prop}
    (hagree : ∀ l, inside l → blocks'[l]? = blocks[l]?)
    (hclosed : ∀ {l b}, inside l → blocks[l]? = some b → ∀ s ∈ b.successors, inside s)
    {acts : List Action} {last : Transfer} {m m' : Machine} {r : Outcome}
    (h : Halts blocks acts last m r m') (hlast : ∀ s ∈ last.targets, inside s) :
    Halts blocks' acts last m r m' := by
  induction h with
  | act ha _ ih => exact Halts.act ha (ih hlast)
  | fail ha => exact Halts.fail ha
  | @goto last b m m' r hb _ ih =>
      have hinside := hlast _ (m.target_mem_targets last)
      refine Halts.goto ?_ (ih (hclosed hinside hb))
      rw [hagree _ hinside]
      exact hb
  | @leave last m hnone =>
      refine Halts.leave ?_
      rw [hagree _ (hlast _ (m.target_mem_targets last))]
      exact hnone

/-- Dropping the unreachable blocks leaves the other ones as they are. -/
theorem getElem?_dropUnreachable (g : BlockGraph) {l : Label} (hl : l ∉ g.unreachable) :
    g.dropUnreachable.blocks[l]? = g.blocks[l]? := by
  show (g.blocks.filter fun l _ => l ∉ g.unreachable)[l]? = _
  rw [Std.ExtTreeMap.getElem?_filter']
  cases g.blocks[l]? with
  | none => rfl
  | some b => simp [hl]

/-- The blocks left are those that can be reached. -/
theorem mem_dropUnreachable (g : BlockGraph) (l : Label) :
    l ∈ g.dropUnreachable.blocks ↔ l ∈ g.blocks ∧ l ∉ g.unreachable := by
  show l ∈ (g.blocks.filter fun l _ => l ∉ g.unreachable) ↔ _
  rw [Std.ExtTreeMap.mem_iff_isSome_getElem?, Std.ExtTreeMap.getElem?_filter',
    Option.isSome_filter, Std.ExtTreeMap.mem_iff_isSome_getElem? (t := g.blocks)]
  cases g.blocks[l]? with
  | none => simp
  | some b => simp

/-- Dropping the unreachable blocks keeps all runs: no run comes to one of them. -/
theorem keeps_dropUnreachable (g : BlockGraph) : Keeps g g.dropUnreachable := by
  intro hg
  have hentry : g.entry ∉ g.unreachable := not_mem_unreached_of_mem _ _ List.mem_cons_self
  have hclosed : ∀ {l b}, l ∉ g.unreachable → g.blocks[l]? = some b →
      ∀ s ∈ b.successors, s ∉ g.unreachable :=
    fun hl hb s hs => successors_not_mem_unreached _ _ hb hl hs
  have hagree : ∀ l, l ∉ g.unreachable → g.dropUnreachable.blocks[l]? = g.blocks[l]? :=
    fun l hl => getElem?_dropUnreachable g hl
  have hstart : ∀ s ∈ (Transfer.jump g.entry).targets, s ∉ g.unreachable := by
    intro s hs
    obtain rfl := List.mem_singleton.mp hs
    exact hentry
  refine ⟨⟨?_, ?_, ?_⟩, ?_⟩
  · intro l b hb
    have hl := ((mem_dropUnreachable g l).mp (mem_of_getElem?_eq_some hb)).2
    rw [hagree l hl] at hb
    exact hg.label_eq hb
  · intro l
    rw [mem_dropUnreachable, ← hg.mem_order_iff]
    show l ∈ g.order.filter (· ∉ g.unreachable) ↔ _
    rw [List.mem_filter, decide_eq_true_iff]
  · exact (mem_dropUnreachable g g.entry).mpr ⟨hg.entry_mem, hentry⟩
  · intro m r m'
    constructor
    · intro h
      refine halts_of_agree (fun l hl => (hagree l hl).symm) ?_ h hstart
      intro l b hl hb
      rw [hagree l hl] at hb
      exact hclosed hl hb
    · intro h
      exact halts_of_agree hagree hclosed h hstart

-- ── Absorbing a block ────────────────────────────────────────────────────────

/-- The one jump to a label comes from the block that is known to have it. -/
theorem eq_of_incoming_eq_one {g : BlockGraph} {l x y : Label} {b c : Block}
    (h : g.incoming l = 1) (hb : g.blocks[x]? = some b) (hbl : l ∈ b.successors)
    (hc : g.blocks[y]? = some c) (hcl : l ∈ c.successors) : x = y := by
  refine Decidable.byContradiction fun hne => ?_
  rw [← Std.ExtTreeMap.mem_toList_iff_getElem?_eq_some] at hb hc
  obtain ⟨before, behind, hsplit⟩ := List.append_of_mem hb
  have hc' : (y, c) ∈ before ++ behind := by
    rw [hsplit] at hc
    rcases List.mem_append.mp hc with hc | hc
    · exact List.mem_append_left _ hc
    · rcases List.mem_cons.mp hc with heq | hc
      · exact absurd (Prod.mk.inj heq).1.symm hne
      · exact List.mem_append_right _ hc
  have hcount := List.count_pos_iff.mpr hbl
  have hcount' : 0 < ((before ++ behind).flatMap fun p => p.2.successors).count l :=
    List.count_pos_iff.mpr (List.mem_flatMap.mpr ⟨(y, c), hc', hcl⟩)
  have hsum : g.incoming l =
      ((before ++ behind).flatMap fun p => p.2.successors).count l + b.successors.count l := by
    show (g.blocks.toList.flatMap fun p => p.2.successors).count l = _
    simp only [hsplit, List.flatMap_append, List.flatMap_cons, List.count_append]
    omega
  omega

/-- What makes it safe to move `b` to the end of `a`. -/
structure Absorbable (g : BlockGraph) (a b : Label) (first second : Block) : Prop where
  first_eq : g.blocks[a]? = some first
  second_eq : g.blocks[b]? = some second
  jumps : first.last = .jump b
  not_entry : b ≠ g.entry
  ne : b ≠ a
  only : ∀ {x : Label} {c : Block}, g.blocks[x]? = some c → b ∈ c.successors → x = a

/-- The candidate that is found for absorbing is one. -/
theorem absorbable_of_absorbable? {g : BlockGraph} {a b : Label}
    (h : g.absorbable? = some (a, b)) : ∃ first second, Absorbable g a b first second := by
  obtain ⟨x, -, hjoin⟩ := List.exists_of_findSome?_eq_some h
  obtain ⟨rfl, hmerge⟩ := canMerge_of_joinable? hjoin
  simp only [joinable?, Option.bind_eq_bind, Option.bind_eq_some_iff] at hjoin
  obtain ⟨first, hfirst, y, hy, hif⟩ := hjoin
  have hjump : first.last = .jump b := by
    cases hlast : first.last with
    | jump l =>
        rw [hlast] at hy
        obtain rfl : l = y := Option.some.inj hy
        split at hif
        · rw [(Prod.mk.inj (Option.some.inj hif)).2]
        · cases hif
    | branch cond ifTrue ifFalse =>
        rw [hlast] at hy
        cases hy
  have hmem := mem_blocks_of_canMerge hmerge
  rw [Std.ExtTreeMap.mem_iff_isSome_getElem?] at hmem
  obtain ⟨second, hsecond⟩ := Option.isSome_iff_exists.mp hmem
  simp only [canMerge, Bool.and_eq_true, decide_eq_true_eq] at hmerge
  obtain ⟨⟨⟨⟨⟨⟨-, hentry⟩, hne⟩, hincoming⟩, -⟩, -⟩, -⟩ := hmerge
  refine ⟨first, second, hfirst, hsecond, hjump, hentry, hne, ?_⟩
  intro z c hc hbc
  refine eq_of_incoming_eq_one hincoming hc hbc hfirst ?_
  rw [Block.successors, hjump]
  exact List.mem_cons_self

section Absorb

variable {g : BlockGraph} {a b : Label} {first second : Block}

/-- The first block with the contents of the second one at its end. -/
def joined (first second : Block) : Block :=
  { first with body := first.body ++ second.body, last := second.last }

/-- Absorbing a block takes it out, joins it to the block before it, and leaves the other ones
    alone. -/
theorem absorb_blocks (h : Absorbable g a b first second) (l : Label) :
    (g.absorb a b).blocks[l]? =
      if l = b then none
      else if l = a then some (joined first second)
      else g.blocks[l]? := by
  have habsorb : (g.absorb a b).blocks = (g.blocks.erase b).modify a (joined · second) := by
    rw [absorb, h.second_eq]
    rfl
  rw [habsorb, Std.ExtTreeMap.getElem?_modify, getElem?_erase, getElem?_erase, if_neg h.ne,
    h.first_eq]
  simp only [Std.LawfulEqCmp.compare_eq_iff_eq]
  by_cases hla : a = l
  · subst hla
    rw [if_pos rfl, if_neg (Ne.symm h.ne), if_pos rfl]
    rfl
  · rw [if_neg hla, if_neg (Ne.symm hla)]
    simp only [eq_comm]

/-- Nothing but `first` leads to the block that is absorbed. -/
theorem not_mem_successors (h : Absorbable g a b first second) {l : Label} {c : Block}
    (hc : g.blocks[l]? = some c) (hl : l ≠ a) : b ∉ c.last.targets := by
  intro hmem
  exact hl (h.only hc hmem)

/-- A block that can be absorbed does not lead back to itself. -/
theorem not_mem_second (h : Absorbable g a b first second) : b ∉ second.last.targets :=
  not_mem_successors h h.second_eq h.ne

/-- What is left of a run in front of the jump to `b` goes on with the contents of `b`. -/
theorem halts_absorb {acts : List Action} {last : Transfer} {m m' : Machine} {r : Outcome}
    (h : Absorbable g a b first second) (hrun : Halts g.blocks acts last m r m') :
    (last = .jump b → Halts (g.absorb a b).blocks (acts ++ second.body) second.last m r m') ∧
    (b ∉ last.targets → Halts (g.absorb a b).blocks acts last m r m') := by
  induction hrun with
  | act ha _ ih =>
      refine ⟨?_, ?_⟩
      · intro hlast
        exact Halts.act ha (ih.1 hlast)
      · intro hlast
        exact Halts.act ha (ih.2 hlast)
  | fail ha => exact ⟨fun _ => Halts.fail ha, fun _ => Halts.fail ha⟩
  | @goto last c m m' r hc _ ih =>
      refine ⟨?_, ?_⟩
      · rintro rfl
        obtain rfl := Option.some.inj (h.second_eq.symm.trans hc)
        exact ih.2 (not_mem_second h)
      · intro hlast
        have hlb : m.target last ≠ b := by
          rintro rfl
          exact hlast (m.target_mem_targets last)
        by_cases hla : m.target last = a
        · -- control comes to the first block, which now holds both
          rw [hla] at hc
          obtain rfl := Option.some.inj (h.first_eq.symm.trans hc)
          refine Halts.goto (b := joined first second) ?_ (ih.1 h.jumps)
          rw [absorb_blocks h, if_neg hlb, if_pos hla]
        · refine Halts.goto ?_ (ih.2 (not_mem_successors h hc hla))
          rw [absorb_blocks h, if_neg hlb, if_neg hla]
          exact hc
  | @leave last m hnone =>
      refine ⟨?_, ?_⟩
      · rintro rfl
        exact absurd (h.second_eq.symm.trans hnone) nofun
      · intro hlast
        have hlb : m.target last ≠ b := by
          rintro rfl
          exact hlast (m.target_mem_targets last)
        have hla : m.target last ≠ a := by
          intro hla
          rw [hla, h.first_eq] at hnone
          cases hnone
        refine Halts.leave ?_
        rw [absorb_blocks h, if_neg hlb, if_neg hla]
        exact hnone

/-- Running into the actions of a block is as good as jumping to it. -/
theorem halts_jump_of_append {blocks : LabelMap Block} (hsecond : blocks[b]? = some second)
    {acts : List Action} {m m' : Machine} {r : Outcome}
    (h : Halts blocks (acts ++ second.body) second.last m r m') :
    Halts blocks acts (.jump b) m r m' := by
  induction acts generalizing m with
  | nil => exact Halts.goto hsecond h
  | cons a acts ih =>
      cases h with
      | act ha h => exact Halts.act ha (ih h)
      | fail ha => exact Halts.fail ha

/-- What the graph comes to after absorbing a block, it came to before, from where nothing leads to
    that block. -/
theorem halts_of_absorb {acts : List Action} {last : Transfer} {m m' : Machine} {r : Outcome}
    (h : Absorbable g a b first second) (hrun : Halts (g.absorb a b).blocks acts last m r m')
    (hlast : b ∉ last.targets) : Halts g.blocks acts last m r m' := by
  induction hrun with
  | act ha _ ih => exact Halts.act ha (ih hlast)
  | fail ha => exact Halts.fail ha
  | @goto last c m m' r hc _ ih =>
      have hlb : m.target last ≠ b := by
        rintro rfl
        exact hlast (m.target_mem_targets last)
      rw [absorb_blocks h, if_neg hlb] at hc
      by_cases hla : m.target last = a
      · rw [if_pos hla] at hc
        obtain rfl := Option.some.inj hc
        have hsecond : b ∉ second.last.targets := not_mem_second h
        have hfirst : Halts g.blocks first.body first.last m r m' := by
          rw [h.jumps]
          exact halts_jump_of_append h.second_eq (ih hsecond)
        refine Halts.goto ?_ hfirst
        rw [hla]
        exact h.first_eq
      · rw [if_neg hla] at hc
        exact Halts.goto hc (ih (not_mem_successors h hc hla))
  | @leave last m hnone =>
      have hlb : m.target last ≠ b := by
        rintro rfl
        exact hlast (m.target_mem_targets last)
      rw [absorb_blocks h, if_neg hlb] at hnone
      split at hnone
      · cases hnone
      · exact Halts.leave hnone

/-- Absorbing takes out one label. -/
theorem mem_absorb (h : Absorbable g a b first second) (l : Label) :
    l ∈ (g.absorb a b).blocks ↔ l ∈ g.blocks ∧ l ≠ b := by
  rw [Std.ExtTreeMap.mem_iff_isSome_getElem?, absorb_blocks h,
    Std.ExtTreeMap.mem_iff_isSome_getElem?]
  by_cases hlb : l = b
  · simp [hlb]
  · by_cases hla : l = a
    · simp [hla, h.first_eq, Ne.symm h.ne]
    · simp [hlb, hla]

theorem entry_absorb (g : BlockGraph) (a b : Label) : (g.absorb a b).entry = g.entry := by
  rw [absorb]
  split <;> rfl

/-- Absorbing takes one label out of the order and leaves the other ones in theirs. -/
theorem order_absorb (h : Absorbable g a b first second) :
    (g.absorb a b).order = g.order.filter (· ≠ b) := by
  rw [absorb, h.second_eq]

/-- Absorbing a block keeps all runs. -/
theorem keeps_absorb (h : Absorbable g a b first second) : Keeps g (g.absorb a b) := by
  intro hg
  refine ⟨⟨?_, ?_, ?_⟩, ?_⟩
  · intro l c hc
    rw [absorb_blocks h] at hc
    split at hc
    · cases hc
    · split at hc
      · next hla =>
        obtain rfl := Option.some.inj hc
        have hlabel : first.label = a := hg.label_eq h.first_eq
        exact hlabel.trans hla.symm
      · exact hg.label_eq hc
  · intro l
    rw [mem_absorb h, order_absorb h, List.mem_filter, hg.mem_order_iff, decide_eq_true_iff]
  · rw [entry_absorb, mem_absorb h]
    exact ⟨hg.entry_mem, Ne.symm h.not_entry⟩
  · intro m r m'
    have hstart : b ∉ (Transfer.jump g.entry).targets := by
      rw [Transfer.targets, List.mem_singleton]
      exact h.not_entry
    rw [Runs, Runs, entry_absorb]
    constructor
    · intro hrun
      exact halts_of_absorb h hrun hstart
    · intro hrun
      exact (halts_absorb h hrun).2 hstart

end Absorb

-- ── All moves ────────────────────────────────────────────────────────────────

/-- Placing a block only says where it is laid out. -/
theorem keeps_place (g : BlockGraph) (a b : Label) : Keeps g (g.place a b) := by
  intro hg
  exact ⟨⟨hg.label_eq, hg.mem_order_iff, hg.entry_mem⟩, fun _ _ _ => Iff.rfl⟩

/-- What placing one block behind another keeps, placing all of them keeps. -/
theorem placeAll_induction {P : BlockGraph → Prop} {g : BlockGraph}
    (hplace : ∀ {g : BlockGraph} (a b : Label), P g → P (g.place a b)) (h : P g) :
    P g.placeAll.2 := by
  fun_induction placeAll g with
  | case1 g _ => exact h
  | case2 g a b _ _ moves g' heq ih =>
      rw [heq] at ih
      exact ih (hplace a b h)

/-- What absorbing one block keeps, absorbing all of them keeps. -/
theorem absorbAll_induction {P : BlockGraph → Prop} {g : BlockGraph}
    (habsorb : ∀ {g : BlockGraph} {a b : Label} {first second : Block},
      Absorbable g a b first second → P g → P (g.absorb a b)) (h : P g) :
    P g.absorbAll.2 := by
  fun_induction absorbAll g with
  | case1 g _ => exact h
  | case2 g a b hfound _ moves g' heq ih =>
      rw [heq] at ih
      obtain ⟨first, second, hab⟩ := absorbable_of_absorbable? hfound
      exact ih (habsorb hab h)

/-- What every move keeps holds when all moves are made. -/
theorem mergeAll_induction {P : BlockGraph → Prop} {g : BlockGraph}
    (hplace : ∀ {g : BlockGraph} (a b : Label), P g → P (g.place a b))
    (habsorb : ∀ {g : BlockGraph} {a b : Label} {first second : Block},
      Absorbable g a b first second → P g → P (g.absorb a b)) (h : P g) :
    P g.mergeAll.2 := by
  fun_induction mergeAll g with
  | case1 g placed absorbed _ =>
      exact absorbAll_induction habsorb (placeAll_induction hplace h)
  | case2 g placed absorbed _ _ rest ih =>
      exact ih (absorbAll_induction habsorb (placeAll_induction hplace h))

/-- Merging keeps all runs: placing blocks changes only where they are written. -/
theorem keeps_mergeAll (g : BlockGraph) : Keeps g g.mergeAll.2 :=
  mergeAll_induction (P := Keeps g) (fun a b h => h.trans (keeps_place _ a b))
    (fun hab h => h.trans (keeps_absorb hab)) (Keeps.refl g)

/-- Merging blocks keeps every run from the entry. -/
theorem keeps_merge (g : BlockGraph) : Keeps g g.merge.2 :=
  (keeps_dropUnreachable g).trans (keeps_mergeAll _)

end BlockGraph

end MmixBackend
