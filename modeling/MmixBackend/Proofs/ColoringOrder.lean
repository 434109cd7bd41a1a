import MmixBackend.Proofs.RegisterCollision

/-!
# Which temporaries colouring gets stuck on

A node is put back when exactly the nodes that were taken after it are back. An easy node had fewer
neighbours than colours among those, so there is a colour left for it: only a risky node can be left
without one. A risky node that spilling introduced is taken when nothing else is left. So if
among such nodes there are always some with at most one neighbour, these are easy, and colouring
never gets stuck on a node that spilling introduced.

* **`Tracks.take`** — taking a node keeps the degrees right.
* **`Picks.split`** — each pick is made on a graph whose nodes are those picked from then on.
* **`freeRegister?_of_easy`** — there is a colour left for an easy node when it is put back.
* **`risky_of_stuck`** — the node for which there is no colour was a risky pick.
* **`Attempt.not_mem_of_stuck`** — an attempt gets stuck on a temporary that may be spilled.
-/

namespace MmixBackend

namespace ColorGraph

variable {g : ColorGraph} {t u v : Temp} {spans : TempMap Nat} {spillTemps : TempSet}

-- ── Neighbours still to be taken ─────────────────────────────────────────────

/-- The neighbours of a node that are still to be taken, as the nodes tell them. -/
def leftAt (nodes : TempMap Node) (t : Temp) : TempSet := (nodes[t]?.map (·.degreeNbrs)).getD ∅

theorem degree_eq (g : ColorGraph) (t : Temp) : g.degree t = (leftAt g.nodes t).size := by
  rw [degree, leftAt]
  cases g.nodes[t]? with
  | none => rfl
  | some node => rfl

/-- Neighbourhood is symmetric, and the nodes still to be taken know which of their neighbours are
    still to be taken. -/
structure Tracks (g : ColorGraph) : Prop where
  symm : ∀ a b, b ∈ g.nbrs a → a ∈ g.nbrs b
  left : ∀ t ∈ g.active, ∀ u, u ∈ leftAt g.nodes t ↔ u ∈ g.nbrs t ∧ u ∈ g.active

theorem mem_leftAt_modify {nodes : TempMap Node} {w : Temp} :
    v ∈ leftAt (nodes.modify w (Node.forget t)) u ↔ v ∈ leftAt nodes u ∧ ¬ (v = t ∧ u = w) := by
  rw [leftAt, leftAt, Std.ExtTreeMap.getElem?_modify]
  split
  · next hcmp =>
    obtain rfl : w = u := Std.LawfulEqCmp.eq_of_compare hcmp
    cases nodes[w]? with
    | none => simp
    | some node =>
        show v ∈ node.degreeNbrs.erase t ↔ v ∈ node.degreeNbrs ∧ ¬ (v = t ∧ w = w)
        rw [Std.ExtTreeSet.mem_erase, ne_eq, Std.LawfulEqCmp.compare_eq_iff_eq, eq_comm]
        simp [and_comm]
  · next hcmp =>
    have hne : u ≠ w := fun heq => hcmp (heq ▸ Std.ReflCmp.compare_self)
    simp [hne]

/-- The nodes that forget a node do not count it any longer, and nothing else changes. -/
theorem mem_leftAt_forgetAll (ts : List Temp) (nodes : TempMap Node) :
    v ∈ leftAt (ts.foldl (fun nodes nbr => nodes.modify nbr (Node.forget t)) nodes) u ↔
      v ∈ leftAt nodes u ∧ ¬ (v = t ∧ u ∈ ts) := by
  induction ts generalizing nodes with
  | nil => simp
  | cons w ts ih =>
      rw [List.foldl_cons, ih, mem_leftAt_modify, List.mem_cons]
      constructor
      · rintro ⟨⟨hv, hw⟩, hts⟩
        refine ⟨hv, ?_⟩
        rintro ⟨rfl, rfl | hu⟩
        · exact hw ⟨rfl, rfl⟩
        · exact hts ⟨rfl, hu⟩
      · rintro ⟨hv, hnot⟩
        exact ⟨⟨hv, fun h => hnot ⟨h.1, .inl h.2⟩⟩, fun h => hnot ⟨h.1, .inr h.2⟩⟩

/-- When a node is taken, those that it still counts do not count it any longer. -/
theorem mem_leftAt_take (hut : u ≠ t) :
    v ∈ leftAt (g.take t).nodes u ↔ v ∈ leftAt g.nodes u ∧ ¬ (v = t ∧ u ∈ leftAt g.nodes t) := by
  rw [take]
  split
  · next hnone =>
    have hleft : leftAt g.nodes t = ∅ := by
      rw [leftAt, hnone]
      rfl
    rw [hleft]
    simp
  · next node hnode =>
    have hleft : leftAt g.nodes t = node.degreeNbrs := by
      rw [leftAt, hnode]
      rfl
    have hother : leftAt (g.nodes.insert t { node with degreeNbrs := ∅ }) u = leftAt g.nodes u := by
      rw [leftAt, Std.ExtTreeMap.getElem?_insert,
        if_neg fun hcmp => hut (Std.LawfulEqCmp.eq_of_compare hcmp).symm]
      rfl
    show v ∈ leftAt (node.degreeNbrs.foldl _ _) u ↔ _
    rw [Std.ExtTreeSet.foldl_eq_foldl_toList, mem_leftAt_forgetAll, hother, hleft,
      Std.ExtTreeSet.mem_toList]

/-- Taking a node keeps all neighbours. -/
theorem nbrs_take (g : ColorGraph) (t u : Temp) : (g.take t).nbrs u = g.nbrs u := by
  rw [nbrs, look_take]
  rfl

/-- Taking a node keeps the degrees right. -/
theorem Tracks.take (h : g.Tracks) (ht : t ∈ g.active) : (g.take t).Tracks := by
  refine ⟨?_, ?_⟩
  · intro a b
    rw [nbrs_take, nbrs_take]
    exact h.symm a b
  · intro u hu v
    rw [active_take, Std.ExtTreeSet.mem_erase] at hu
    obtain ⟨hcmp, hu⟩ := hu
    have hut : u ≠ t := fun heq => hcmp (heq ▸ Std.ReflCmp.compare_self)
    rw [mem_leftAt_take hut, h.left u hu, h.left t ht, nbrs_take, active_take,
      Std.ExtTreeSet.mem_erase]
    constructor
    · rintro ⟨⟨hnbr, hv⟩, hnot⟩
      refine ⟨hnbr, ?_, hv⟩
      intro hcmp
      obtain rfl : t = v := Std.LawfulEqCmp.eq_of_compare hcmp
      exact hnot ⟨rfl, h.symm u t hnbr, hu⟩
    · rintro ⟨hnbr, hne, hv⟩
      refine ⟨⟨hnbr, hv⟩, ?_⟩
      rintro ⟨rfl, -⟩
      exact hne Std.ReflCmp.compare_self

/-- Different neighbours still to be taken count for the degree. -/
theorem length_le_degree {l : List Temp} (hl : l.Nodup) (h : ∀ u ∈ l, u ∈ leftAt g.nodes t) :
    l.length ≤ g.degree t := by
  have hdistinct : l.Pairwise fun a b => ¬ compare a b = .eq := by
    refine hl.imp ?_
    intro a b hne hcmp
    exact hne (Std.LawfulEqCmp.eq_of_compare hcmp)
  rw [degree_eq, ← Std.ExtTreeSet.size_ofList hdistinct]
  refine card_le_of_subset ?_
  intro u hu
  exact h u (List.contains_iff_mem.mp (Std.ExtTreeSet.mem_ofList.mp hu))

/-- A node with at most one neighbour still to be taken has a degree of at most one. -/
theorem degree_le_one (h : ∀ u v, u ∈ leftAt g.nodes t → v ∈ leftAt g.nodes t → u = v) :
    g.degree t ≤ 1 := by
  rw [degree_eq, ← Std.ExtTreeSet.length_toList]
  have hdistinct := (leftAt g.nodes t).distinct_toList
  have hmem : ∀ u, u ∈ (leftAt g.nodes t).toList → u ∈ leftAt g.nodes t := by
    intro u hu
    exact Std.ExtTreeSet.mem_toList.mp hu
  cases hl : (leftAt g.nodes t).toList with
  | nil => simp
  | cons a l =>
      cases l with
      | nil => simp
      | cons b rest =>
          rw [hl] at hdistinct hmem
          have hab : a = b := h a b (hmem a (by simp)) (hmem b (by simp))
          have hne := (List.pairwise_cons.mp hdistinct).1 b List.mem_cons_self
          exact absurd (hab ▸ Std.ReflCmp.compare_self) hne

-- ── Picks ────────────────────────────────────────────────────────────────────

/-- The pick is the one to make on the graph. -/
def Pick.MadeOn (spans : TempMap Nat) (spillTemps : TempSet) (g : ColorGraph) : Pick → Prop
  | .easy t => g.easy? = some t
  | .risky t degree span => g.easy? = none ∧ g.riskiest? spans spillTemps = some t ∧
      degree = g.degree t ∧ span = spans[t]?

/-- A pick is a node that is still to be taken. -/
theorem Pick.MadeOn.mem_active {p : Pick} (h : p.MadeOn spans spillTemps g) :
    p.temp ∈ g.active := by
  cases p with
  | easy t => exact mem_active_of_easy? h
  | risky t degree span => exact mem_active_of_riskiest? h.2.1

/-- Making these picks, each on the graph that those before it leave behind, takes all nodes. -/
inductive Picks (spans : TempMap Nat) (spillTemps : TempSet) :
    ColorGraph → List Pick → ColorGraph → Prop where
  | done {g : ColorGraph} (h : g.active = ∅) : Picks spans spillTemps g [] g
  | pick {g g' : ColorGraph} {p : Pick} {picks : List Pick} (h : p.MadeOn spans spillTemps g)
      (hrest : Picks spans spillTemps (g.take p.temp) picks g') :
      Picks spans spillTemps g (p :: picks) g'

/-- Simplification makes its picks one after the other until no node is left. -/
theorem picks_simplify (g : ColorGraph) (spans : TempMap Nat) (spillTemps : TempSet) :
    Picks spans spillTemps g (g.simplify spans spillTemps).1 (g.simplify spans spillTemps).2 := by
  fun_induction simplify g spans spillTemps with
  | case1 g t ht _ picks rest heq ih =>
      rw [heq] at ih
      exact .pick (p := .easy t) ht ih
  | case2 g hnone t ht _ picks rest heq ih =>
      rw [heq] at ih
      exact .pick (p := .risky t _ _) ⟨hnone, ht, rfl, rfl⟩ ih
  | case3 g _ hnone =>
      exact .done (Std.ExtTreeSet.toList_eq_nil_iff.mp (riskiestOf_eq_none hnone))

/-- Taking a node leaves the others to be taken. -/
theorem mem_active_iff_take (ht : t ∈ g.active) :
    u ∈ g.active ↔ u = t ∨ u ∈ (g.take t).active := by
  rw [active_take, Std.ExtTreeSet.mem_erase]
  constructor
  · intro hu
    by_cases hut : u = t
    · exact .inl hut
    · exact .inr ⟨fun hcmp => hut (Std.LawfulEqCmp.eq_of_compare hcmp).symm, hu⟩
  · rintro (rfl | ⟨-, hu⟩)
    · exact ht
    · exact hu

/-- What is to be taken is what is picked. -/
theorem Picks.mem_active_iff {picks : List Pick} {g' : ColorGraph}
    (h : Picks spans spillTemps g picks g') : u ∈ g.active ↔ u ∈ picks.map (·.temp) := by
  induction h with
  | done hempty =>
      rw [hempty]
      exact iff_of_false Std.ExtTreeSet.not_mem_empty List.not_mem_nil
  | pick hp _ ih =>
      rw [List.map_cons, List.mem_cons, ← ih]
      exact mem_active_iff_take hp.mem_active

/-- The graph on which `t` is chosen: colouring sees `g'` as it sees `g`, and what is still to be
    taken is `t` and what is chosen later. -/
structure ChosenOn (spans : TempMap Nat) (spillTemps : TempSet) (g g' : ColorGraph) (t : Temp)
    (later : List Temp) : Prop where
  tracks : g'.Tracks
  colors : g'.colors = g.colors
  nbrs : ∀ u, g'.nbrs u = g.nbrs u
  active : ∀ u, u ∈ g'.active ↔ u = t ∨ u ∈ later
  choice : g'.easy? = some t ∨ g'.easy? = none ∧ g'.riskiest? spans spillTemps = some t

/-- The first pick is chosen on the graph itself. -/
theorem chosenOn_first {p : Pick} {later : List Pick} {g' : ColorGraph} (h : g.Tracks)
    (hp : p.MadeOn spans spillTemps g)
    (hrest : Picks spans spillTemps (g.take p.temp) later g') :
    ChosenOn spans spillTemps g g p.temp (later.map (·.temp)) where
  tracks := h
  colors := rfl
  nbrs _ := rfl
  active _ := (mem_active_iff_take hp.mem_active).trans (or_congr_right hrest.mem_active_iff)
  choice := by
    cases p with
    | easy t => exact .inl hp
    | risky t degree span => exact .inr ⟨hp.1, hp.2.1⟩

/-- What is chosen on the graph without a node is chosen later on the graph with it. -/
theorem ChosenOn.of_take {g' : ColorGraph} {later : List Temp} (t : Temp)
    (h : ChosenOn spans spillTemps (g.take t) g' u later) :
    ChosenOn spans spillTemps g g' u later where
  tracks := h.tracks
  colors := h.colors.trans (colors_take g t)
  nbrs v := (h.nbrs v).trans (nbrs_take g t v)
  active := h.active
  choice := h.choice

/-- Each pick is made on a graph whose nodes still to be taken are those picked from then on. -/
theorem Picks.split {before later : List Pick} {p : Pick} {picks : List Pick} {g₁ : ColorGraph}
    (h : Picks spans spillTemps g picks g₁) (htracks : g.Tracks)
    (heq : picks = before ++ p :: later) :
    ∃ g', ChosenOn spans spillTemps g g' p.temp (later.map (·.temp)) ∧
      p.MadeOn spans spillTemps g' := by
  induction h generalizing before with
  | done _ => cases before <;> cases heq
  | @pick g _ q picks hq hrest ih =>
      cases before with
      | nil =>
          obtain ⟨rfl, rfl⟩ := List.cons.inj heq
          exact ⟨g, chosenOn_first htracks hq hrest, hq⟩
      | cons _ before =>
          obtain ⟨g', hg', hp⟩ := ih (htracks.take hq.mem_active) (List.cons.inj heq).2
          exact ⟨g', hg'.of_take q.temp, hp⟩

/-- An easy node has fewer neighbours to be taken than there are colours. -/
theorem isEasy_of_easy? (h : g.easy? = some t) : g.degree t < g.colors := by
  have heasy : g.isEasy t = true := List.find?_some h
  exact of_decide_eq_true heasy

/-- If no node is easy, each one that is left has at least as many neighbours to be taken as there
    are colours. -/
theorem colors_le_degree (h : g.easy? = none) (ht : t ∈ g.active) : g.colors ≤ g.degree t := by
  have hhard : ¬ g.isEasy t = true :=
    List.find?_eq_none.mp h t (Std.ExtTreeSet.mem_toList.mpr ht)
  exact Nat.not_lt.mp fun hlt => hhard (decide_eq_true hlt)

/-- If the best node to spill was introduced by spilling, so were all others. -/
theorem genuine_of_riskiestOf {risk : Temp → Risk} {ts : List Temp}
    (h : riskiestOf risk ts = some t) (ht : (risk t).genuine = false) (hu : u ∈ ts) :
    (risk u).genuine = false := by
  induction ts generalizing t u with
  | nil => cases hu
  | cons a ts ih =>
      rw [riskiestOf] at h
      split at h
      · next hnone =>
        obtain rfl := Option.some.inj h
        rw [riskiestOf_eq_none hnone] at hu
        rw [List.mem_singleton.mp hu]
        exact ht
      · next b hb =>
        have hlt : (risk b).genuine = true → (risk a).genuine = false →
            (risk a).lt (risk b) = true := by
          intro hb' ha'
          simp [Risk.lt, ha', hb']
        have hab : (risk a).genuine = false ∧ (risk b).genuine = false := by
          split at h
          · next hless =>
            obtain rfl := Option.some.inj h
            refine ⟨?_, ht⟩
            -- a genuine node is never worse than one that is not
            by_contra hgenuine
            simp [Risk.lt, ht, hgenuine] at hless
          · next hless =>
            obtain rfl := Option.some.inj h
            refine ⟨ht, ?_⟩
            by_contra hgenuine
            exact hless (hlt (Bool.eq_true_of_not_eq_false hgenuine) ht)
        rcases List.mem_cons.mp hu with rfl | hu
        · exact hab.1
        · exact ih hb hab.2 hu

/-- A temporary that was made by a spill is picked as the riskiest only if no other one is left. -/
theorem mem_spillTemps_of_riskiest? (h : g.riskiest? spans spillTemps = some t)
    (ht : t ∈ spillTemps) (hu : u ∈ g.active) : u ∈ spillTemps := by
  have hgenuine : (g.risk spans spillTemps t).genuine = false := by simp [risk, ht]
  have hall := genuine_of_riskiestOf h hgenuine (Std.ExtTreeSet.mem_toList.mpr hu)
  simpa [risk] using hall

-- ── No colour left ───────────────────────────────────────────────────────────

/-- Where colouring is stuck, no register is free after the nodes before were put back. -/
theorem selectAll_eq_append {ts : List Temp} (h : (g.selectAll ts).stuck = some t) :
    ∃ us vs, ts = us ++ t :: vs ∧ (g.selectAll us).graph.freeRegister? t = none := by
  induction ts generalizing g with
  | nil => cases h
  | cons a ts ih =>
      rw [selectAll] at h
      split at h
      · next hfree =>
        obtain rfl := Option.some.inj h
        exact ⟨[], ts, rfl, hfree⟩
      · next r hr =>
        obtain ⟨us, vs, rfl, hfree⟩ := ih h
        refine ⟨a :: us, vs, rfl, ?_⟩
        rw [selectAll, hr]
        exact hfree

theorem colors_selectAll (g : ColorGraph) (ts : List Temp) :
    (g.selectAll ts).graph.colors = g.colors := by
  induction ts generalizing g with
  | nil => rfl
  | cons t ts ih =>
      rw [selectAll]
      split
      · rfl
      · next r hr => exact ih (g.assign t r)

/-- Everything from `r` up to the first gap is in the list. -/
theorem mem_of_lt_firstGap {r q : Nat} {l : List Nat} (hle : r ≤ q) (h : q < firstGap r l) :
    q ∈ l := by
  induction l generalizing r with
  | nil => exact absurd (Nat.lt_of_le_of_lt hle h) (Nat.lt_irrefl r)
  | cons x l ih =>
      rw [firstGap] at h
      split at h
      · next hx =>
        by_cases hq : q = x
        · exact hq ▸ List.mem_cons_self
        · exact List.mem_cons_of_mem _ (ih (by omega) h)
      · split at h
        · exact List.mem_cons_of_mem _ (ih hle h)
        · omega

/-- A node without a free register has neighbours of all colours. -/
theorem crowded_of_freeRegister? (h : g.freeRegister? t = none) {r : Nat} (hr : r < g.colors) :
    ∃ u ∈ g.nbrs t, g.register? u = some r := by
  rw [freeRegister?] at h
  split at h
  · cases h
  · next hge =>
    have hmem := mem_of_lt_firstGap (Nat.zero_le r) (Nat.lt_of_lt_of_le hr (Nat.not_lt.mp hge))
    exact mem_registersAround.mp (Std.ExtTreeSet.mem_toList.mp hmem)

/-- As many temporaries as there are colours, if there is one of each. -/
theorem exists_of_each_color {P : Temp → Prop} {color : Temp → Option Nat} (k : Nat)
    (h : ∀ r < k, ∃ u, P u ∧ color u = some r) :
    ∃ l : List Temp, l.Nodup ∧ l.length = k ∧ ∀ u ∈ l, P u ∧ ∃ r < k, color u = some r := by
  induction k with
  | zero => exact ⟨[], List.nodup_nil, rfl, fun u hu => absurd hu List.not_mem_nil⟩
  | succ k ih =>
      obtain ⟨l, hnodup, hlength, hl⟩ := ih fun r hr => h r (Nat.lt_succ_of_lt hr)
      obtain ⟨u, hu, hcolor⟩ := h k (Nat.lt_succ_self k)
      refine ⟨u :: l, List.nodup_cons.mpr ⟨?_, hnodup⟩, by rw [List.length_cons, hlength], ?_⟩
      · intro hmem
        obtain ⟨-, r, hr, hcolor'⟩ := hl u hmem
        rw [hcolor] at hcolor'
        exact Nat.lt_irrefl r (Option.some.inj hcolor' ▸ hr)
      · intro v hv
        rcases List.mem_cons.mp hv with rfl | hv
        · exact ⟨hu, k, Nat.lt_succ_self k, hcolor⟩
        · obtain ⟨hP, r, hr, hcolor'⟩ := hl v hv
          exact ⟨hP, r, Nat.lt_succ_of_lt hr, hcolor'⟩

/-- When the nodes that were taken after an easy node are back, there is a register left for it. -/
theorem freeRegister?_of_easy {g' : ColorGraph} {later : List Temp}
    (hpre : ∀ u r, g.register? u = some r → g.colors ≤ r)
    (hchosen : ChosenOn spans spillTemps g g' t later) (heasy : g'.easy? = some t) :
    ∃ r, ((g.simplify spans spillTemps).2.selectAll later.reverse).graph.freeRegister? t =
      some r := by
  refine Option.ne_none_iff_exists'.mp ?_
  intro hfree
  -- each colour would be that of a neighbour which was put back before
  have hcolors := (colors_selectAll (g.simplify spans spillTemps).2 later.reverse).trans
    (colors_simplify g spans spillTemps)
  have hcrowd : ∀ r < g.colors, ∃ u, (u ∈ g.nbrs t ∧ u ∈ later) ∧
      ((g.simplify spans spillTemps).2.selectAll later.reverse).graph.register? u = some r := by
    intro r hr
    obtain ⟨u, hu, hreg⟩ := crowded_of_freeRegister? hfree (hcolors ▸ hr)
    rw [nbrs_selectAll, nbrs, look_simplify] at hu
    refine ⟨u, ⟨hu, ?_⟩, hreg⟩
    rcases register?_selectAll_lt hreg with hold | ⟨hmem, -⟩
    · rw [register?, look_simplify] at hold
      exact absurd hr (Nat.not_lt.mpr (hpre u r hold))
    · exact List.mem_reverse.mp hmem
  obtain ⟨l, hnodup, hlength, hl⟩ := exists_of_each_color g.colors hcrowd
  have hle : l.length ≤ g'.degree t := by
    refine length_le_degree hnodup ?_
    intro u hu
    obtain ⟨⟨hnbr, hmem⟩, -⟩ := hl u hu
    rw [hchosen.tracks.left t ((hchosen.active t).mpr (.inl rfl)), hchosen.nbrs]
    exact ⟨hnbr, (hchosen.active u).mpr (.inr hmem)⟩
  have hlt := isEasy_of_easy? heasy
  rw [hchosen.colors] at hlt
  omega

/-- A node for which there is no register was a risky pick. -/
theorem risky_of_stuck (h : g.Tracks) (hpre : ∀ u r, g.register? u = some r → g.colors ≤ r)
    (hstuck : ((g.simplify spans spillTemps).2.selectAll
      ((g.simplify spans spillTemps).1.map (·.temp)).reverse).stuck = some t) :
    ∃ before degree span later g',
      (g.simplify spans spillTemps).1 = before ++ .risky t degree span :: later ∧
      ChosenOn spans spillTemps g g' t (later.map (·.temp)) ∧ g'.easy? = none ∧
      g'.riskiest? spans spillTemps = some t := by
  obtain ⟨us, vs, happend, hfree⟩ := selectAll_eq_append hstuck
  rw [List.reverse_eq_iff, List.reverse_append, List.reverse_cons, List.append_assoc,
    List.singleton_append] at happend
  obtain ⟨before, rest, hpicks, -, hrest⟩ := List.map_eq_append_iff.mp happend
  obtain ⟨p, later, rfl, rfl, hlater⟩ := List.map_eq_cons_iff.mp hrest
  obtain rfl : us = (later.map (·.temp)).reverse := by rw [hlater, List.reverse_reverse]
  obtain ⟨g', hchosen, hp⟩ := (picks_simplify g spans spillTemps).split h hpicks
  cases p with
  | easy t =>
      obtain ⟨r, hr⟩ := freeRegister?_of_easy hpre hchosen hp
      cases hfree.symm.trans hr
  | risky t degree span => exact ⟨before, degree, span, later, g', hpicks, hchosen, hp.1, hp.2.1⟩

/-- Wherever some of the temporaries are looked at, one of them has at most one neighbour among
    them. -/
def Sparse (adj : Temp → Temp → Prop) (temps : TempSet) : Prop :=
  ∀ A : Temp → Prop, (∃ t, A t) → (∀ t, A t → t ∈ temps) →
    ∃ t, A t ∧ ∀ u v, A u → A v → adj t u → adj t v → u = v

/-- Colouring does not get stuck on a node that spilling introduced. -/
theorem not_mem_of_stuck (h : g.Tracks) (hpre : ∀ u r, g.register? u = some r → g.colors ≤ r)
    (hcolors : 2 ≤ g.colors) (hsparse : Sparse (fun a b => b ∈ g.nbrs a) spillTemps)
    (hstuck : ((g.simplify spans spillTemps).2.selectAll
      ((g.simplify spans spillTemps).1.map (·.temp)).reverse).stuck = some t) :
    t ∉ spillTemps := by
  intro ht
  obtain ⟨-, -, -, later, g', -, hchosen, hnone, hrisky⟩ := risky_of_stuck h hpre hstuck
  have hall : ∀ u, u ∈ g'.active → u ∈ spillTemps := by
    intro u hu
    exact mem_spillTemps_of_riskiest? hrisky ht hu
  obtain ⟨u, hu, hone⟩ := hsparse (· ∈ g'.active) ⟨t, (hchosen.active t).mpr (.inl rfl)⟩ hall
  have hdegree : g'.degree u ≤ 1 := by
    refine degree_le_one ?_
    intro v w hv hw
    rw [hchosen.tracks.left u hu, hchosen.nbrs] at hv hw
    exact hone v w hv.2 hw.2 hv.1 hw.1
  have hge := colors_le_degree hnone hu
  rw [hchosen.colors] at hge
  omega

/-- At the start the degrees are right. -/
theorem tracks_ofInterference {i : Interference} {k : Nat} {pre : TempMap Nat}
    (hsymm : ∀ a b, i.Adj a b → i.Adj b a) : (ofInterference i k pre).Tracks := by
  refine ⟨?_, ?_⟩
  · intro a b h
    exact mem_nbrs_ofInterference.mpr (hsymm a b (mem_nbrs_ofInterference.mp h))
  · intro t _ u
    have hnode : u ∈ (ofInterference i k pre).nbrs t → u ∈ i.neighbours := by
      intro hu
      have hadj : i.Adj u t := hsymm t u (mem_nbrs_ofInterference.mp hu)
      refine Decidable.byContradiction fun hnot => ?_
      rw [Interference.Adj, Std.ExtTreeMap.getD_eq_fallback hnot] at hadj
      exact Std.ExtTreeSet.not_mem_empty hadj
    have hleft : u ∈ leftAt (ofInterference i k pre).nodes t ↔
        u ∈ (ofInterference i k pre).nbrs t ∧ u ∉ pre := by
      rw [leftAt, nbrs, look, ofInterference, Std.ExtTreeMap.getElem?_map]
      cases i.neighbours[t]? with
      | none => simp
      | some row => simp [Node.fixed, Std.ExtTreeSet.mem_filter]
    rw [hleft, mem_active_ofInterference]
    constructor
    · rintro ⟨hu, hpre⟩
      exact ⟨hu, hnode hu, hpre⟩
    · rintro ⟨hu, -, hpre⟩
      exact ⟨hu, hpre⟩

end ColorGraph

namespace Attempt

open ColorGraph

variable {k : Nat} {spillTemps : TempSet} {code : Code} {t : Temp}

/-- The graph from which an attempt starts keeps track of its neighbours. -/
theorem tracks_start (k : Nat) (code : Code) : (start k code).Tracks :=
  tracks_ofInterference fun _ _ => Interference.adj_compute_symm

/-- The register given from the start is not among the colours, if these are below the frame
    pointer. -/
theorem le_of_getElem?_precolored (hpointer : k ≤ framePointer) {u : Temp} {r : Nat}
    (h : (precolored code)[u]? = some r) : k ≤ r := by
  rw [getElem?_precolored] at h
  split at h
  · exact Option.some.inj h ▸ hpointer
  · cases h

/-- An attempt with at least two registers below the frame pointer's own does not get stuck on a
    temporary that spilling introduced. -/
theorem not_mem_of_stuck (hk : 2 ≤ k) (hpointer : k ≤ framePointer)
    (hsparse : Sparse code.interference.Adj spillTemps)
    (h : (make k spillTemps code).selection.stuck = some t) : t ∉ spillTemps := by
  refine ColorGraph.not_mem_of_stuck (tracks_start k code)
    (fun _ _ hr => le_of_getElem?_precolored hpointer (register?_ofInterference hr)) hk ?_ h
  intro A hA hsub
  obtain ⟨t, ht, hone⟩ := hsparse A hA hsub
  refine ⟨t, ht, ?_⟩
  intro u v hu hv hut hvt
  exact hone u v hu hv (mem_nbrs_ofInterference.mp hut) (mem_nbrs_ofInterference.mp hvt)

end Attempt

end MmixBackend
