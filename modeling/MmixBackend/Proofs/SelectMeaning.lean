import MmixBackend.Proofs.FlattenMeaning
import MmixBackend.Proofs.SelectedCode
import MmixBackend.Proofs.TargetMachine

/-!
# What selected instructions compute

Over temporaries, the instructions of an operand leave its value in the temporary that stands for
it, those of an operation leave the result in the destination, also where the destination is an
operand, and those of a call pass the arguments and find the answer. Other temporaries change only
if they are fresh.

* **`performAll_atom`** — operands.
* **`compute_spec`** — operators; a relation is decided by two opposite tests of a comparison.
* **`rhs_spec`** — right-hand sides other than calls.
* **`call_spec`** — calls.
-/

namespace MmixBackend

open Flat Target

variable {set : Setting}

-- ── Values where addresses are fixed ─────────────────────────────────────────

namespace Flat

/-- The value of an atom. -/
def Atom.value (set : Setting) (file : Temp → Word) : Atom → Word
  | .const value => value
  | .temp t => file t
  | .name l => set.address l

/-- The value of a right-hand side, unless it is a call or divides by zero. -/
def Rhs.value? (set : Setting) (file : Temp → Word) (mem : Memory) : Rhs → Option Word
  | .atom a => some (a.value set file)
  | .binop op x y => op.value? (x.value set file) (y.value set file)
  | .unop op x => some (op.value (x.value set file))
  | .load addr => some (mem (addr.value set file))
  | .call .. => none

/-- The value of an atom depends only on the temporary that it may be. -/
theorem Atom.value_congr {a : Atom} {file file' : Temp → Word}
    (h : ∀ t ∈ a.temps, file' t = file t) : a.value set file' = a.value set file := by
  cases a with
  | temp t => exact h t List.mem_cons_self
  | _ => rfl

end Flat

namespace Select

variable {s s₁ s₂ : Target} {sup : Supply} {dst x y : Temp} {v : Word} {n k : Nat}

-- ── Frames ───────────────────────────────────────────────────────────────────

/-- Only temporaries numbered `n` and higher have changed. -/
structure Keeps (n : Nat) (s s' : Target) : Prop where
  below : ∀ t : Temp, t.index < n → s'.file t = s.file t
  mem : s'.mem = s.mem
  history : s'.history = s.history

/-- The destination has this value, and otherwise only temporaries numbered `n` and higher have
    changed. -/
structure Sets (n : Nat) (dst : Temp) (v : Word) (s s' : Target) : Prop where
  value : s'.file dst = v
  below : ∀ t : Temp, t.index < n → t ≠ dst → s'.file t = s.file t
  mem : s'.mem = s.mem
  history : s'.history = s.history

/-- What is kept twice is kept, below the lower of the two numbers. -/
theorem Keeps.trans (h : Keeps n s s₁) (h' : Keeps k s₁ s₂) (hle : n ≤ k) : Keeps n s s₂ :=
  ⟨fun t ht => (h'.below t (ht.trans_le hle)).trans (h.below t ht), h'.mem.trans h.mem,
    h'.history.trans h.history⟩

/-- Instructions that only use fresh temporaries may come before the one that sets the
    destination. -/
theorem Keeps.sets (h : Keeps n s s₁) (h' : Sets k dst v s₁ s₂) (hle : n ≤ k) :
    Sets n dst v s s₂ :=
  ⟨h'.value, fun t ht hne => (h'.below t (ht.trans_le hle) hne).trans (h.below t ht),
    h'.mem.trans h.mem, h'.history.trans h.history⟩

theorem sets_put (s : Target) (n : Nat) (dst : Temp) (v : Word) : Sets n dst v s (s.put dst v) :=
  ⟨s.file_put_self dst v, fun _ _ hne => s.file_put_of_ne hne v, rfl, rfl⟩

/-- A temporary that is not handed out yet may be set first. -/
theorem keeps_put (s : Target) {t : Temp} (ht : n ≤ t.index) (v : Word) :
    Keeps n s (s.put t v) := by
  refine ⟨?_, rfl, rfl⟩
  intro u hu
  have hne : u ≠ t := by
    rintro rfl
    omega
  exact s.file_put_of_ne hne v

-- ── Operands ─────────────────────────────────────────────────────────────────

/-- The instructions of an atom leave its value in the temporary that stands for it, and change
    nothing else. -/
theorem performAll_atom (a : Atom) (dst : Option Temp) (sup : Supply) (s : Target) :
    s.performAll set ((atom a dst).run sup).code =
      s.put ((atom a dst).run sup).value (a.value set s.file) := by
  cases a with
  | const value =>
      cases dst <;> simp [atom, orFresh, performAll_loadConst, Atom.value]
  | name l =>
      cases dst <;> simp [atom, orFresh, Atom.value] <;> rfl
  | temp t =>
      cases dst with
      | none => exact (s.put_self t).symm
      | some dst =>
          rw [atom]
          split
          · exact (s.put_self t).symm
          · rfl

/-- An operand is in place, and the temporaries handed out before are as they were. -/
theorem operand_spec (set : Setting) (a : Atom) (ha : ∀ t ∈ a.temps, t.index < sup.temps)
    (s : Target) :
    (s.performAll set ((atom a none).run sup).code).file ((atom a none).run sup).value =
        a.value set s.file ∧
      Keeps sup.temps s (s.performAll set ((atom a none).run sup).code) := by
  rw [performAll_atom]
  refine ⟨s.file_put_self _ _, ?_⟩
  cases a with
  | temp t =>
      show Keeps sup.temps s (s.put t (s.file t))
      rw [put_self]
      exact ⟨fun _ _ => rfl, rfl, rfl⟩
  | const value => exact keeps_put s (Nat.le_refl sup.temps) value
  | name l => exact keeps_put s (Nat.le_refl sup.temps) (set.address l)

/-- Two operands get into temporaries, and the second one does not disturb the first. -/
theorem operands_spec (set : Setting) (a b : Atom) (ha : ∀ t ∈ a.temps, t.index < sup.temps)
    (hb : ∀ t ∈ b.temps, t.index < sup.temps) (s : Target) :
    let first := (atom a none).run sup
    let second := (atom b none).run first.supply
    let s' := s.performAll set (first.code ++ second.code)
    s'.file first.value = a.value set s.file ∧ s'.file second.value = b.value set s.file ∧
      Keeps sup.temps s s' := by
  intro first second s'
  have hfirst := tidy_operand ha
  obtain ⟨hvalue, hkeeps⟩ := operand_spec set a ha s
  obtain ⟨hvalue', hkeeps'⟩ :=
    operand_spec set b (below_of_grows hb hfirst.grows) (s.performAll set first.code)
  rw [← performAll_append] at hvalue' hkeeps'
  refine ⟨?_, ?_, hkeeps.trans hkeeps' hfirst.grows⟩
  · rw [hkeeps'.below _ hfirst.value, hvalue]
  · rw [hvalue', Atom.value_congr fun t ht => hkeeps.below t (hb t ht)]

-- ── Operations ───────────────────────────────────────────────────────────────

/-- Of two tests that exclude each other, exactly one sets the destination. -/
theorem relation_spec {yes no : SignTest} (hno : ∀ c, no.holds c = !yes.holds c)
    (hdst : dst.index < sup.temps) (s : Target) :
    Sets sup.temps dst (.ofBool (yes.holds (compared (s.file x) (s.file y)))) s
      (s.performAll set ((compute dst x y (.relation yes no)).run sup).code) := by
  let cmp : Temp := ⟨sup.temps⟩
  let c := compared (s.file x) (s.file y)
  let s₁ := s.put cmp c
  have hne : cmp ≠ dst := by
    rintro rfl
    exact Nat.lt_irrefl _ hdst
  have hcmp : s₁.file cmp = c := s.file_put_self cmp c
  have hkeeps : Keeps sup.temps s s₁ := keeps_put s (Nat.le_refl sup.temps) c
  show Sets sup.temps dst (.ofBool (yes.holds c)) s
    ((s₁.perform set (.plain (.setIf yes true) [cmp] [dst])).perform set
      (.plain (.setIf no false) [cmp, dst] [dst]))
  have hyes : s₁.perform set (.plain (.setIf yes true) [cmp] [dst]) =
      if yes.holds c then s₁.put dst 1 else s₁ := by
    show (if yes.holds (s₁.file cmp) then s₁.put dst 1 else s₁) = _
    rw [hcmp]
  rw [hyes]
  cases hc : yes.holds c with
  | true =>
      have hsecond : (s₁.put dst 1).perform set (.plain (.setIf no false) [cmp, dst] [dst]) =
          s₁.put dst 1 := by
        show (if no.holds ((s₁.put dst 1).file cmp) then _ else s₁.put dst 1) = _
        rw [s₁.file_put_of_ne hne, hcmp, hno, hc]
        rfl
      rw [if_pos rfl, hsecond]
      exact hkeeps.sets (sets_put s₁ _ dst 1) (Nat.le_refl _)
  | false =>
      have hsecond : s₁.perform set (.plain (.setIf no false) [cmp, dst] [dst]) = s₁.put dst 0 := by
        show (if no.holds (s₁.file cmp) then s₁.put dst 0 else s₁) = _
        rw [hcmp, hno, hc]
        rfl
      rw [if_neg Bool.false_ne_true, hsecond]
      exact hkeeps.sets (sets_put s₁ _ dst 0) (Nat.le_refl _)

/-- A comparison tells less, equal and greater apart. -/
theorem compared_cases (x y : Word) :
    (x < y ∧ compared x y = -1) ∨ (x = y ∧ compared x y = 0) ∨ (y < x ∧ compared x y = 1) := by
  rw [compared]
  simp only [Int64.lt_iff_toInt_lt]
  rcases lt_trichotomy x.toInt y.toInt with h | h | h
  · exact .inl ⟨h, if_pos h⟩
  · refine .inr (.inl ⟨Int64.toInt_inj.mp h, ?_⟩)
    rw [if_neg (by omega), if_neg (by omega)]
  · refine .inr (.inr ⟨h, ?_⟩)
    rw [if_neg (by omega), if_pos h]

/-- The sign of a comparison tells the order of what is compared. -/
theorem holds_compared (x y : Word) :
    SignTest.zero.holds (compared x y) = (x == y) ∧
      SignTest.negative.holds (compared x y) = decide (x < y) ∧
      SignTest.positive.holds (compared x y) = decide (y < x) := by
  rcases compared_cases x y with ⟨h, hc⟩ | ⟨rfl, hc⟩ | ⟨h, hc⟩
  · rw [hc]
    have hne : x ≠ y := by
      rintro rfl
      exact Int64.lt_irrefl h
    have hgt : ¬ y < x := Int64.lt_asymm h
    simp [SignTest.holds, h, hne, hgt]
  · rw [hc]
    simp [SignTest.holds]
  · rw [hc]
    have hne : x ≠ y := by
      rintro rfl
      exact Int64.lt_irrefl h
    have hgt : ¬ x < y := Int64.lt_asymm h
    simp [SignTest.holds, h, hne, hgt]

/-- Less or equal is not greater. -/
theorem decide_le (x y : Word) : decide (x ≤ y) = !decide (y < x) := by
  simp [← Int64.not_lt]

/-- The six tests are three and their opposites. -/
theorem holds_opposite (c : Word) :
    SignTest.nonZero.holds c = !SignTest.zero.holds c ∧
      SignTest.nonNegative.holds c = !SignTest.negative.holds c ∧
      SignTest.nonPositive.holds c = !SignTest.positive.holds c := by
  exact ⟨rfl, decide_le 0 c, decide_le c 0⟩

/-- The quotient comes first, and then what it left behind. -/
theorem division_spec (s : Target) (hy : s.file y ≠ 0) :
    Sets sup.temps dst (s.file x / s.file y) s
        (s.performAll set ((compute dst x y (.direct .div)).run sup).code) ∧
      Sets sup.temps dst (s.file x % s.file y) s
        (s.performAll set ((compute dst x y .remainder).run sup).code) := by
  have hdivide := set.divide_eq (s.file x) (s.file y) hy
  constructor
  · refine ⟨?_, fun t _ hne => s.file_put_of_ne hne _, rfl, rfl⟩
    show (s.put dst (set.divide (s.file x) (s.file y)).1).file dst = _
    rw [hdivide, file_put_self]
  · let s₁ := s.put ⟨sup.temps⟩ (set.divide (s.file x) (s.file y)).1
    have hkeeps : Keeps sup.temps s s₁ := keeps_put s (Nat.le_refl sup.temps) _
    refine ⟨?_, ?_, rfl, rfl⟩
    · show (s₁.put dst (set.divide (s.file x) (s.file y)).2).file dst = _
      rw [hdivide, file_put_self]
    · intro t ht hne
      show (s₁.put dst (set.divide (s.file x) (s.file y)).2).file t = _
      rw [s₁.file_put_of_ne hne]
      exact hkeeps.below t ht

/-- Every operator has its value, also where the destination is an operand. -/
theorem compute_spec (set : Setting) (op : BinOp) (hdst : dst.index < sup.temps) (s : Target)
    (hv : op.value? (s.file x) (s.file y) = some v) :
    Sets sup.temps dst v s (s.performAll set ((compute dst x y (scheme op)).run sup).code) := by
  obtain ⟨hzero, hnegative, hpositive⟩ := holds_compared (s.file x) (s.file y)
  have hrelation : ∀ {yes no : SignTest} {b : Bool}, Word.ofBool b = v →
      (∀ c, no.holds c = !yes.holds c) → yes.holds (compared (s.file x) (s.file y)) = b →
      Sets sup.temps dst v s
        (s.performAll set ((compute dst x y (.relation yes no)).run sup).code) := by
    rintro yes no b rfl hno rfl
    exact relation_spec hno hdst s
  have hdivide : ∀ {q : Word}, (if s.file y = 0 then none else some q) = some v →
      s.file y ≠ 0 ∧ q = v := by
    intro q hq
    split at hq
    · cases hq
    · next hy => exact ⟨hy, Option.some.inj hq⟩
  cases op with
  | or | and | xor | add | sub | mul =>
      obtain rfl := Option.some.inj hv
      exact sets_put s _ dst _
  | div =>
      obtain ⟨hy, rfl⟩ := hdivide hv
      exact (division_spec s hy).1
  | mod =>
      obtain ⟨hy, rfl⟩ := hdivide hv
      exact (division_spec s hy).2
  | eq => exact hrelation (Option.some.inj hv) (fun c => (holds_opposite c).1) hzero
  | lt => exact hrelation (Option.some.inj hv) (fun c => (holds_opposite c).2.1) hnegative
  | gt => exact hrelation (Option.some.inj hv) (fun c => (holds_opposite c).2.2) hpositive
  -- the other three relations are the opposites of these
  | ne =>
      refine hrelation (Option.some.inj hv) (fun c => ?_) ?_
      · rw [(holds_opposite c).1, Bool.not_not]
      · rw [(holds_opposite _).1, hzero]
        rfl
  | ge =>
      refine hrelation (Option.some.inj hv) (fun c => ?_) ?_
      · rw [(holds_opposite c).2.1, Bool.not_not]
      · rw [(holds_opposite _).2.1, hnegative, decide_le]
  | le =>
      refine hrelation (Option.some.inj hv) (fun c => ?_) ?_
      · rw [(holds_opposite c).2.2, Bool.not_not]
      · rw [(holds_opposite _).2.2, hpositive, decide_le]

/-- An atom that has a destination ends up there. -/
theorem value_atom_some (a : Atom) (dst : Temp) (sup : Supply) :
    ((atom a (some dst)).run sup).value = dst := by
  cases a with
  | temp t =>
      rw [atom]
      split
      · next h => exact h.symm
      · rfl
  | _ => rfl

/-- A right-hand side other than a call ends up in the destination. -/
theorem rhs_spec (keep : Nat) {r : Rhs} (hr : ∀ t ∈ r.temps, t.index < sup.temps)
    (hdst : dst.index < sup.temps) (s : Target) (hv : r.value? set s.file s.mem = some v) :
    Sets sup.temps dst v s (s.performAll set ((rhs keep r (some dst)).run sup).code) := by
  cases r with
  | atom a =>
      obtain rfl := Option.some.inj hv
      show Sets sup.temps dst _ s (s.performAll set ((atom a (some dst)).run sup).code)
      rw [performAll_atom, value_atom_some]
      exact sets_put s sup.temps dst _
  | binop op x y =>
      obtain ⟨hxs, hys⟩ := List.forall_mem_append.mp hr
      have hgrows := (tidy_operand hxs).grows.trans
        (tidy_operand (below_of_grows hys (tidy_operand hxs).grows)).grows
      obtain ⟨hx, hy, hkeeps⟩ := operands_spec set x y hxs hys s
      rw [Rhs.value?, ← hx, ← hy] at hv
      have hsets := hkeeps.sets (compute_spec set op (hdst.trans_le hgrows) _ hv) hgrows
      rw [← performAll_append] at hsets
      simpa [rhs, orFresh] using hsets
  | unop op x =>
      obtain rfl := Option.some.inj hv
      obtain ⟨hx, hkeeps⟩ := operand_spec set x hr s
      have hcode : s.performAll set ((rhs keep (.unop op x) (some dst)).run sup).code =
          (s.performAll set ((atom x none).run sup).code).put dst
            (op.value (x.value set s.file)) := by
        cases op with
        | neg =>
            show s.performAll set (_ ++ [_]) = _
            rw [performAll_append, UnOp.value, ← Int64.zero_sub, ← hx]
            rfl
        | not =>
            show s.performAll set (_ ++ [_]) = _
            rw [performAll_append, ← hx]
            rfl
      rw [hcode]
      exact hkeeps.sets (sets_put _ _ dst _) (Nat.le_refl _)
  | load addr =>
      obtain rfl := Option.some.inj hv
      obtain ⟨hx, hkeeps⟩ := operand_spec set addr hr s
      have hcode : s.performAll set ((rhs keep (.load addr) (some dst)).run sup).code =
          (s.performAll set ((atom addr none).run sup).code).put dst
            (s.mem (addr.value set s.file)) := by
        show s.performAll set (_ ++ [_]) = _
        rw [performAll_append, ← hx, ← hkeeps.mem]
        rfl
      rw [hcode]
      exact hkeeps.sets (sets_put _ _ dst _) (Nat.le_refl _)
  | call f args => cases hv

-- ── Calls ────────────────────────────────────────────────────────────────────

/-- Nothing has changed but the words for arguments. -/
structure Unseen (set : Setting) (s s' : Target) : Prop where
  file : s'.file = s.file
  mem : ∀ addr, ¬ set.Outgoing addr → s'.mem addr = s.mem addr
  effects : s'.effects set = s.effects set
  labels : s'.labels = s.labels

/-- What is not seen twice is not seen. -/
theorem Unseen.trans (h : Unseen set s s₁) (h' : Unseen set s₁ s₂) : Unseen set s s₂ :=
  ⟨h'.file.trans h.file, fun addr ha => (h'.mem addr ha).trans (h.mem addr ha),
    h'.effects.trans h.effects, h'.labels.trans h.labels⟩

/-- Passing an argument is not seen. -/
theorem unseen_write {i : Nat} (hi : i < set.outgoing) (s : Target) (x : Word) :
    Unseen set s (s.write (set.slot i) x) := by
  have hout : set.Outgoing (set.slot i) := ⟨i, hi, rfl⟩
  refine ⟨rfl, ?_, ?_, ?_⟩
  · intro addr haddr
    refine Function.update_of_ne ?_ _ _
    rintro rfl
    exact haddr hout
  · show (s.history ++ [Seen.store (set.slot i) x]).filter _ = _
    simp [effects, Seen.isEffect, hout]
  · show (s.history ++ [Seen.store (set.slot i) x]).filterMap _ = _
    simp [labels, Seen.label?]

/-- Each argument is in its word, and those passed before stay in theirs. -/
theorem storeArgs_spec (hspace : set.outgoing * 8 ≤ UInt64.size) {args : List Temp} {i : Nat}
    (hfit : i + args.length ≤ set.outgoing) (s : Target) :
    Unseen set s (s.performAll set (storeArgs i args)) ∧
      (∀ j, j < i → (s.performAll set (storeArgs i args)).mem (set.slot j) = s.mem (set.slot j)) ∧
      ∀ j t, args[j]? = some t →
        (s.performAll set (storeArgs i args)).mem (set.slot (i + j)) = s.file t := by
  induction args generalizing i s with
  | nil => exact ⟨⟨rfl, fun _ _ => rfl, rfl, rfl⟩, fun _ _ => rfl, by simp⟩
  | cons arg args ih =>
      rw [List.length_cons] at hfit
      have hi : i < set.outgoing := by omega
      let s₁ := s.write (set.slot i) (s.file arg)
      have hfirst : Unseen set s s₁ := unseen_write hi s (s.file arg)
      obtain ⟨hunseen, hbefore, hargs⟩ := ih (i := i + 1) (by omega) s₁
      refine ⟨hfirst.trans hunseen, ?_, ?_⟩
      · intro j hj
        have hne : set.slot j ≠ set.slot i := fun h =>
          absurd (Setting.slot_inj hspace (hj.trans hi) hi h) (Nat.ne_of_lt hj)
        exact (hbefore j (hj.trans (Nat.lt_succ_self i))).trans (Function.update_of_ne hne _ _)
      · intro j t ht
        cases j with
        | zero =>
            obtain rfl := Option.some.inj ht
            exact (hbefore i (Nat.lt_succ_self i)).trans (Function.update_self _ _ _)
        | succ j =>
            have hj := hargs j t ht
            rwa [Nat.add_assoc, Nat.add_comm 1 j] at hj

/-- A call was made with these arguments and answered. -/
structure Called (set : Setting) (f : Label) (args : List Temp) (s s' : Target) : Prop where
  file : s'.file = s.file
  mem : ∀ addr, ¬ set.Outgoing addr → s'.mem addr = s.mem addr
  effects : ∃ view : Nat → Word, s'.effects set = s.effects set ++ [.call f view] ∧
    ∀ j t, args[j]? = some t → view j = s.file t
  labels : s'.labels = s.labels
  answer : s'.mem (set.slot 0) = 1000 + Word.ofCount ((s.effects set).length + 1)

/-- The instructions for a call that is not asked for a value pass its arguments and make it, if
    there is room for the arguments. -/
theorem call_spec (hspace : set.outgoing * 8 ≤ UInt64.size) (keep : Nat) (f : Label)
    {args : List Temp} (hpos : 0 < set.outgoing) (hfit : args.length ≤ set.outgoing) (s : Target) :
    Called set f args s (s.performAll set (call keep f args none)) := by
  let s₁ := s.performAll set (storeArgs 0 args)
  obtain ⟨hunseen, -, hargs⟩ := storeArgs_spec hspace ((Nat.zero_add _).trans_le hfit) s
  have hcode : s.performAll set (call keep f args none) = s₁.call set f := by
    show s.performAll set (storeArgs 0 args ++ [_] ++ []) = _
    rw [List.append_nil, performAll_append]
    rfl
  rw [hcode]
  let view : Nat → Word := fun i => s₁.mem (set.slot i)
  have heffects : (s₁.note (.call f view)).effects set = s.effects set ++ [.call f view] := by
    rw [← hunseen.effects]
    show (s₁.history ++ [Seen.call f view]).filter _ = _
    simp [effects, Seen.isEffect, s₁]
  refine ⟨hunseen.file, ?_, ⟨view, heffects, ?_⟩, ?_, ?_⟩
  · intro addr haddr
    refine (Function.update_of_ne ?_ _ _).trans (hunseen.mem addr haddr)
    rintro rfl
    exact haddr ⟨0, hpos, rfl⟩
  · intro j t ht
    have hj := hargs j t ht
    rwa [Nat.zero_add] at hj
  · rw [← hunseen.labels]
    show (s₁.history ++ [Seen.call f view]).filterMap _ = _
    simp [labels, Seen.label?, s₁]
  · refine (Function.update_self _ _ _).trans ?_
    show 1000 + Word.ofCount ((s₁.note (.call f view)).effects set).length = _
    rw [heffects, List.length_append]
    rfl

end Select

end MmixBackend
