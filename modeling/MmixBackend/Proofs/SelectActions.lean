import MmixBackend.Proofs.SelectMeaning

/-!
# Selected actions do what the reference machine does

The reference machine and the target machine *agree* on some temporaries, on memory outside the
words for arguments and on the effects so far. Addresses of labels are not compared: the reference
machine hands them out as it goes, and here they are those that the setting gives.

* **`value_rhs`** — on the reference machine, a right-hand side has the value that it has where
  addresses are fixed.
* **`Agrees.act`** — the instructions of an action keep the two machines in agreement.
-/

namespace MmixBackend

open Flat Target

variable {set : Setting} {m m₁ : Machine} {s s' : Target} {ts : List Temp} {sup : Supply}

-- ── The reference machine where addresses are fixed ──────────────────────────

namespace Machine

/-- Every address handed out so far is the one that the setting gives. -/
def Known (set : Setting) (m : Machine) : Prop :=
  ∀ l addr, m.labelAddrs[l]? = some addr → set.address l = addr

/-- If all addresses are known after an atom was read, they were known before. -/
theorem Known.of_atom {a : Atom} (h : Known set (m.atom a).2) : Known set m := by
  cases a with
  | name l =>
      intro l' addr hl'
      refine h l' addr ?_
      show (m.labelAddr l).2.labelAddrs[l']? = some addr
      rw [labelAddr]
      split
      · exact hl'
      · next hnone =>
        have hne : l ≠ l' := by
          rintro rfl
          rw [hnone] at hl'
          cases hl'
        show (m.labelAddrs.insert l _)[l']? = some addr
        rw [Std.ExtTreeMap.getElem?_insert, if_neg (by simpa using hne), hl']
  | _ => exact h

/-- An atom has the value that the setting gives it. -/
theorem atom_fst {a : Atom} (h : Known set (m.atom a).2) : (m.atom a).1 = a.value set m.temp := by
  cases a with
  | name l =>
      refine (h l _ ?_).symm
      show (m.labelAddr l).2.labelAddrs[l]? = some (m.labelAddr l).1
      rw [labelAddr]
      split
      · next addr haddr => exact haddr
      · exact Std.ExtTreeMap.getElem?_insert_self
  | _ => rfl

theorem temp_atom (m : Machine) (a : Atom) : (m.atom a).2.temp = m.temp := by
  obtain ⟨labels, h⟩ := m.snd_atom a
  rw [h]
  rfl

theorem load_atom (m : Machine) (a : Atom) : (m.atom a).2.load = m.load := by
  obtain ⟨labels, h⟩ := m.snd_atom a
  rw [h]
  rfl

/-- A right-hand side that comes to a value has this value in the setting. -/
theorem value_rhs {r : Rhs} {v : Word} (hr : ∀ f args, r ≠ .call f args)
    (h : m.rhs r = (.ok v, m₁)) (hknown : Known set m₁) :
    r.value? set m.temp m.load = some v := by
  cases r with
  | atom a =>
      obtain ⟨rfl, rfl⟩ := eq_of_ok_eq h
      exact congrArg some (atom_fst hknown).symm
  | unop op x =>
      obtain ⟨rfl, rfl⟩ := eq_of_ok_eq h
      exact congrArg (some ∘ op.value) (atom_fst hknown).symm
  | load addr =>
      obtain ⟨rfl, rfl⟩ := eq_of_ok_eq h
      show some (m.load (addr.value set m.temp)) = some ((m.atom addr).2.load (m.atom addr).1)
      rw [load_atom, atom_fst hknown]
  | binop op x y =>
      rw [rhs] at h
      simp only at h
      split at h
      · next w hw =>
        obtain ⟨rfl, rfl⟩ := eq_of_ok_eq h
        rw [atom_fst hknown, atom_fst hknown.of_atom, temp_atom] at hw
        exact hw
      · cases h
  | call f args => exact absurd rfl (hr f args)

/-- The address that an action loads from or stores to. -/
def access? (m : Machine) : Action → Option Word
  | .move _ (.load addr) => some (m.atom addr).1
  | .store addr src => some ((m.atom src).2.atom addr).1
  | _ => none

end Machine

open Machine

-- ── Agreement ────────────────────────────────────────────────────────────────

/-- What is seen of an effect. Words behind the arguments of a call do not matter. -/
inductive Effect.Shown : Effect → Seen → Prop where
  | store (addr value : Word) : Shown (.store addr value) (.store addr value)
  | call (f : Label) {args : List Word} {view : Nat → Word}
      (h : ∀ i x, args[i]? = some x → view i = x) : Shown (.call f args) (.call f view)

/-- The states agree on these temporaries, on memory outside the words for arguments and on the
    effects so far. -/
structure Agrees (set : Setting) (ts : List Temp) (m : Machine) (s : Target) : Prop where
  file : ∀ t ∈ ts, s.file t = m.temp t
  mem : ∀ addr, ¬ set.Outgoing addr → s.mem addr = m.load addr
  effects : List.Forall₂ Effect.Shown m.effects.toList (s.effects set)

/-- How many words for arguments an action needs; the answer to a call needs one, too. -/
def Flat.Action.outgoing : Action → Nat
  | .move _ (.call _ args) => max 1 args.length
  | .call _ args => max 1 args.length
  | _ => 0

namespace Agrees

/-- Addresses of labels are not compared. -/
theorem with_labels (h : Agrees set ts m s) (labels : LabelMap Word) :
    Agrees set ts { m with labelAddrs := labels } s := ⟨h.file, h.mem, h.effects⟩

/-- In states that agree, an atom has the same value. -/
theorem atom_eq (h : Agrees set ts m s) {a : Atom} (ha : ∀ t ∈ a.temps, t ∈ ts) :
    a.value set s.file = a.value set m.temp :=
  Atom.value_congr fun t ht => h.file t (ha t ht)

/-- States still agree when both have got the same value in a temporary. -/
theorem of_sets (h : Agrees set ts m s) (hsup : ∀ t ∈ ts, t.index < sup.temps) {dst : Temp}
    {v : Word} (hsets : Select.Sets sup.temps dst v s s') :
    Agrees set ts (m.setTemp dst v) s' := by
  refine ⟨?_, ?_, ?_⟩
  · intro t ht
    by_cases hdst : t = dst
    · rw [hdst, hsets.value, temp_setTemp_self]
    · rw [hsets.below t (hsup t ht) hdst, temp_setTemp_of_ne m v hdst, h.file t ht]
  · intro addr haddr
    rw [hsets.mem]
    exact h.mem addr haddr
  · rw [Target.effects, hsets.history]
    exact h.effects

/-- Fresh temporaries do not matter to agreement. -/
theorem of_keeps (h : Agrees set ts m s) (hsup : ∀ t ∈ ts, t.index < sup.temps)
    (hkeeps : Select.Keeps sup.temps s s') : Agrees set ts m s' := by
  refine ⟨?_, ?_, ?_⟩
  · intro t ht
    rw [hkeeps.below t (hsup t ht), h.file t ht]
  · intro addr haddr
    rw [hkeeps.mem]
    exact h.mem addr haddr
  · rw [Target.effects, hkeeps.history]
    exact h.effects

/-- States still agree when the same word is stored in both, outside the words for arguments. -/
theorem write (h : Agrees set ts m s) {addr : Word} (haddr : ¬ set.Outgoing addr) (v : Word) :
    Agrees set ts (m.store addr v) (s.write addr v) := by
  refine ⟨h.file, ?_, ?_⟩
  · intro addr' haddr'
    show Function.update s.mem addr v addr' = (m.mem.insert addr v).getD addr' 0
    by_cases heq : addr' = addr
    · rw [heq, Function.update_self, Std.ExtTreeMap.getD_insert_self]
    · rw [Function.update_of_ne heq, Std.ExtTreeMap.getD_insert,
        if_neg (by simpa using Ne.symm heq)]
      exact h.mem addr' haddr'
  · show List.Forall₂ Effect.Shown (m.effects.push (.store addr v)).toList
      ((s.history ++ [Seen.store addr v]).filter _)
    rw [Array.toList_push, List.filter_append]
    refine List.rel_append h.effects ?_
    rw [List.filter_singleton, Seen.isEffect, decide_eq_true haddr]
    exact .cons (.store addr v) .nil

/-- A move that is not a call. -/
theorem move (h : Agrees set ts m s) (keep : Nat) (hsup : ∀ t ∈ ts, t.index < sup.temps)
    {dst : Temp} {r : Rhs} (hr : ∀ f args, r ≠ .call f args)
    (hts : ∀ t ∈ (Action.move dst r).temps, t ∈ ts)
    (hact : m.act (.move dst r) = (.ok (), m₁)) (hknown : Known set m₁)
    (havoid : ∀ addr ∈ m.access? (.move dst r), ¬ set.Outgoing addr) :
    Agrees set ts m₁ (s.performAll set ((Select.rhs keep r (some dst)).run sup).code) ∧
      (s.performAll set ((Select.rhs keep r (some dst)).run sup).code).labels = s.labels := by
  obtain ⟨hdst, hrs⟩ := List.forall_mem_cons.mp hts
  rw [act] at hact
  rcases hm : m.rhs r with ⟨e | v, m₂⟩
  · rw [hm] at hact
    cases hact
  · rw [hm] at hact
    obtain rfl : m₂.setTemp dst v = m₁ := congrArg Prod.snd hact
    obtain ⟨labels, hlabels⟩ := m.snd_rhs hr
    have hvalue : r.value? set m.temp m.load = some v := value_rhs hr hm hknown
    have hsame : r.value? set s.file s.mem = some v := by
      rw [← hvalue]
      cases r with
      | atom a => exact congrArg some (h.atom_eq hrs)
      | unop op x => exact congrArg (some ∘ op.value) (h.atom_eq hrs)
      | binop op x y =>
          obtain ⟨hxs, hys⟩ := List.forall_mem_append.mp hrs
          rw [Rhs.value?, Rhs.value?, h.atom_eq hxs, h.atom_eq hys]
      | load addr =>
          -- the word that is read is outside those for arguments
          have hread : (m.atom addr).2 = m₂ := (eq_of_ok_eq hm).2
          have haddr : (m.atom addr).1 = addr.value set m.temp := atom_fst (hread ▸ hknown)
          rw [Rhs.value?, Rhs.value?, h.atom_eq hrs, ← haddr, h.mem _ (havoid _ rfl)]
      | call f args => exact absurd rfl (hr f args)
    have hsets := Select.rhs_spec keep (fun t ht => hsup t (hrs t ht)) (hsup dst hdst) s hsame
    rw [hm] at hlabels
    rw [show m₂ = _ from hlabels]
    refine ⟨(h.with_labels labels).of_sets hsup hsets, ?_⟩
    rw [Target.labels, hsets.history]
    rfl

/-- The instructions for a store do what the store does. -/
theorem store (h : Agrees set ts m s) (keep : Nat) (next : Option Stmt)
    (hsup : ∀ t ∈ ts, t.index < sup.temps) {addr src : Atom}
    (hts : ∀ t ∈ (Action.store addr src).temps, t ∈ ts)
    (hact : m.act (.store addr src) = (.ok (), m₁)) (hknown : Known set m₁)
    (havoid : ∀ addr' ∈ m.access? (.store addr src), ¬ set.Outgoing addr') :
    let s' := s.performAll set ((Select.stmt keep next (.act (.store addr src))).run sup).code
    Agrees set ts m₁ s' ∧ s'.labels = s.labels := by
  intro s'
  obtain ⟨haddrs, hsrcs⟩ := List.forall_mem_append.mp hts
  obtain rfl := congrArg Prod.snd hact
  have hsrc : (m.atom src).1 = src.value set m.temp :=
    atom_fst (Known.of_atom (a := addr) hknown)
  have haddr : ((m.atom src).2.atom addr).1 = addr.value set m.temp := by
    rw [← temp_atom m src]
    exact atom_fst hknown
  obtain ⟨labels₁, h₁⟩ := m.snd_atom src
  obtain ⟨labels₂, h₂⟩ := (m.atom src).2.snd_atom addr
  obtain ⟨hx, hy, hkeeps⟩ := Select.operands_spec set src addr
    (fun t ht => hsup t (hsrcs t ht)) (fun t ht => hsup t (haddrs t ht)) s
  rw [h.atom_eq hsrcs, ← hsrc] at hx
  rw [h.atom_eq haddrs, ← haddr] at hy
  let first := (Select.atom src none).run sup
  let s₂ := s.performAll set (first.code ++ ((Select.atom addr none).run first.supply).code)
  have hcode : s' = s₂.write ((m.atom src).2.atom addr).1 (m.atom src).1 := by
    rw [← hx, ← hy]
    show s.performAll set (_ ++ (_ ++ [_])) = _
    rw [← List.append_assoc, performAll_append]
    rfl
  have hagrees := ((h.of_keeps hsup hkeeps).with_labels labels₂).write (havoid _ rfl) (m.atom src).1
  have hm₁ : ((m.atom src).2.atom addr).2 = { m with labelAddrs := labels₂ } := by rw [h₂, h₁]
  rw [← hm₁, ← hcode] at hagrees
  refine ⟨hagrees, ?_⟩
  rw [hcode]
  show (s₂.history ++ [Seen.store _ _]).filterMap _ = _
  rw [hkeeps.history, List.filterMap_append]
  exact List.append_nil _

/-- A call, with or without a use for its answer. -/
theorem call (h : Agrees set ts m s) {f : Label} {args : List Temp} (hargs : ∀ t ∈ args, t ∈ ts)
    (hcalled : Select.Called set f args s s') :
    Agrees set ts (m.call f (args.map m.temp)).2 s' ∧
      s'.mem (set.slot 0) = (m.call f (args.map m.temp)).1 := by
  obtain ⟨view, heffects, hview⟩ := hcalled.effects
  refine ⟨⟨?_, ?_, ?_⟩, ?_⟩
  · intro t ht
    rw [hcalled.file]
    exact h.file t ht
  · intro addr haddr
    rw [hcalled.mem addr haddr]
    exact h.mem addr haddr
  · show List.Forall₂ Effect.Shown (m.effects.push (.call f (args.map m.temp))).toList _
    rw [heffects, Array.toList_push]
    refine List.rel_append h.effects (.cons (.call f ?_) .nil)
    intro i x hx
    rw [List.getElem?_map] at hx
    obtain ⟨t, ht, rfl⟩ := Option.map_eq_some_iff.mp hx
    rw [hview i t ht, h.file t (hargs t (List.mem_of_getElem? ht))]
  · have hlength : (s.effects set).length = m.effects.size := by
      rw [← h.effects.length_eq, Array.length_toList]
    rw [hcalled.answer, hlength]
    show _ = 1000 + Word.ofCount (m.effects.push _).size
    rw [Array.size_push]

/-- The instructions of an action do what the action does. -/
theorem act (h : Agrees set ts m s) (keep : Nat) (next : Option Stmt)
    (hsup : ∀ t ∈ ts, t.index < sup.temps) (hspace : set.outgoing * 8 ≤ UInt64.size)
    {a : Action} (hts : ∀ t ∈ a.temps, t ∈ ts) (hfit : a.outgoing ≤ set.outgoing)
    (hact : m.act a = (.ok (), m₁)) (hknown : Known set m₁)
    (havoid : ∀ addr ∈ m.access? a, ¬ set.Outgoing addr) :
    let s' := s.performAll set ((Select.stmt keep next (.act a)).run sup).code
    Agrees set ts m₁ s' ∧ s'.labels = s.labels := by
  intro s'
  cases a with
  | store addr src => exact h.store keep next hsup hts hact hknown havoid
  | call f args =>
      obtain rfl := congrArg Prod.snd hact
      have hcalled := Select.call_spec hspace keep f (Nat.lt_of_lt_of_le Nat.one_pos
        ((Nat.le_max_left 1 _).trans hfit)) ((Nat.le_max_right 1 _).trans hfit) s
      exact ⟨(h.call hts hcalled).1, hcalled.labels⟩
  | move dst r =>
      by_cases hr : ∃ f args, r = .call f args
      · obtain ⟨f, args, rfl⟩ := hr
        obtain ⟨hdst, hargs⟩ := List.forall_mem_cons.mp hts
        obtain rfl := congrArg Prod.snd hact
        have hcalled := Select.call_spec hspace keep f (Nat.lt_of_lt_of_le Nat.one_pos
          ((Nat.le_max_left 1 _).trans hfit)) ((Nat.le_max_right 1 _).trans hfit) s
        obtain ⟨hagrees, hanswer⟩ := h.call hargs hcalled
        let s₁ := s.performAll set (Select.call keep f args none)
        have hload : Select.call keep f args (some dst) =
            Select.call keep f args none ++ [.plain .loadResult [] [dst]] := by
          unfold Select.call
          rw [List.append_nil]
        have hcode : s' = s₁.put dst (s₁.mem (set.slot 0)) := by
          show s.performAll set ((Select.call keep f args (some dst) ++ []) ++ []) = _
          rw [List.append_nil, List.append_nil, hload, performAll_append]
          rfl
        rw [hcode, hanswer]
        exact ⟨hagrees.of_sets hsup (Select.sets_put s₁ _ dst _), hcalled.labels⟩
      · have hmove := h.move keep hsup (fun f args heq => hr ⟨f, args, heq⟩) hts hact hknown havoid
        have hcode : ((Select.stmt keep next (.act (.move dst r))).run sup).code =
            ((Select.rhs keep r (some dst)).run sup).code := List.append_nil _
        rw [← hcode] at hmove
        exact hmove

end Agrees

end MmixBackend
