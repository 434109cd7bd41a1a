import Mathlib.Logic.Relation
import MmixBackend.Proofs.LoweredOperands
import MmixBackend.Proofs.TargetMachine

/-!
# Static links

A function finds the variables of the functions around it through static links: the word at its
frame pointer is the frame pointer of the function around it, and so on outwards. The caller passes
the link as argument 0, and the callee's frame pointer is where argument 0 lies.

* **`eval_followLinks`** — following links comes to the frame that was asked for, by induction on
  the number of links.
* **`Passing.linked`** — so a call passes the callee its link, and the callee's links are right.
* **`Sound.step`** — calls, returns and everything else that spares the words of the links keep the
  links of all active functions.
* **`static_links_stay_right`** — hence they are right along every run.
-/

namespace MmixBackend

open Source

/-- At each frame pointer, from the one at `depth` outwards, is that of the function around it. -/
def Linked (mem : Memory) (depth : Nat) (frames : Nat → Word) : Prop :=
  ∀ j, 1 ≤ j → j ≤ depth → mem (frames j) = frames (j - 1)

-- ── Following links ──────────────────────────────────────────────────────────

section Follow

variable {scope : Scope} {m : Machine} {frames : Nat → Word}

/-- Where links are right, following them leads to the frame as many levels further out. -/
theorem eval_followLinks {depth : Nat} {pointer : Temp} (htop : frames depth = m.temp pointer)
    (hlinks : Linked m.load depth frames) {hops : Nat} (hle : hops ≤ depth) :
    (Machine.eval (followLinks pointer hops)).run.run m = (.ok (frames (depth - hops)), m) := by
  induction hops with
  | zero =>
      rw [followLinks, Machine.eval, Nat.sub_zero, htop]
      rfl
  | succ hops ih =>
      have hlink := hlinks (depth - hops) (by omega) (Nat.sub_le _ _)
      rw [followLinks, Machine.eval]
      refine run_bind_eq_ok.mpr ⟨_, _, ih (Nat.le_of_succ_le hle), ?_⟩
      show ((.ok (m.load (frames (depth - hops))), m) : Except RunError Word × Machine) = _
      rw [hlink, Nat.sub_add_eq]

/-- A frame that is visible is found. -/
theorem eval_frameAt (htop : frames scope.frame.depth = m.temp scope.frame.pointer)
    (hlinks : Linked m.load scope.frame.depth frames) {j : Nat} {e : Tree.Expr}
    (he : scope.frameAt j = .ok e) :
    j ≤ scope.frame.depth ∧ (Machine.eval e).run.run m = (.ok (frames j), m) := by
  rw [Scope.frameAt] at he
  split at he
  · next hj =>
    obtain rfl := Except.ok.inj he
    refine ⟨hj, ?_⟩
    rw [eval_followLinks htop hlinks (Nat.sub_le _ _), Nat.sub_sub_self hj]
  · cases he

/-- A frame no deeper than the function can be seen. -/
theorem frameAt_eq_ok {j : Nat} (hj : j ≤ scope.frame.depth) : ∃ e, scope.frameAt j = .ok e :=
  ⟨_, if_pos hj⟩

/-- The address of a variable is counted from the frame it was declared in. -/
theorem eval_addr_var (htop : frames scope.frame.depth = m.temp scope.frame.pointer)
    (hlinks : Linked m.load scope.frame.depth frames) {name : String} {offset : Word} {j : Nat}
    (haccess : scope.accesses[name]? = some (.relative offset j)) (hj : j ≤ scope.frame.depth)
    (c : Context) :
    ∃ e, (addr scope (.var name)).run.run c = (.ok e, c) ∧
      (Machine.eval e).run.run m = (.ok (frames j + offset), m) := by
  obtain ⟨e, he⟩ := frameAt_eq_ok hj
  refine ⟨.binop .add e (.const offset), ?_, ?_⟩
  · have hvar : scope.varAddr name = .ok (.binop .add e (.const offset)) := by
      simp only [Scope.varAddr, haccess, he]
      rfl
    rw [addr, hvar]
    rfl
  · rw [Machine.eval]
    exact run_bind_eq_ok.mpr ⟨_, _, (eval_frameAt htop hlinks he).2, rfl⟩

/-- A call passes the static link in front of its other arguments. -/
theorem value_call {f : Label} {j : Nat} {args : List Operand} {link : Tree.Expr}
    (he : scope.frameAt (j - 1) = .ok link) :
    value scope (.call f j args) =
      (do return .call f (link :: (← values scope args))) := by
  rw [value, he]
  rfl

/-- The first argument of a call is the frame around the callee. -/
theorem frameAt_of_value_call {f : Label} {j : Nat} {args : List Operand} {link : Tree.Expr}
    {others : List Tree.Expr} {c c' : Context}
    (h : (value scope (.call f j args)).run.run c = (.ok (.call f (link :: others)), c')) :
    scope.frameAt (j - 1) = .ok link := by
  rw [value] at h
  obtain ⟨link', c₁, hlink, h⟩ := run_bind_eq_ok.mp h
  obtain ⟨rest, c₂, -, h⟩ := run_bind_eq_ok.mp h
  obtain ⟨hcall, -⟩ := eq_of_ok_eq h
  obtain ⟨rfl, -⟩ := List.cons.inj (Tree.Expr.call.inj hcall).2
  exact (Prod.mk.inj hlink).1

end Follow

-- ── Passing arguments ────────────────────────────────────────────────────────

section Store

variable {set : Setting}

/-- Storing arguments changes no other word than theirs. -/
theorem mem_storeArgs_of_ne {args : List Temp} {k : Nat} {addr : Word} (s : Target)
    (h : ∀ i < args.length, set.slot (k + i) ≠ addr) :
    (s.performAll set (Select.storeArgs k args)).mem addr = s.mem addr := by
  induction args generalizing k s with
  | nil => rfl
  | cons t args ih =>
      have hrest : ∀ i < args.length, set.slot (k + 1 + i) ≠ addr := by
        intro i hi
        rw [Nat.add_right_comm]
        exact h (i + 1) (Nat.succ_lt_succ hi)
      refine (ih (s.write (set.slot k) (s.file t)) hrest).trans ?_
      exact Function.update_of_ne (h 0 (Nat.succ_pos _)).symm _ _

/-- The first argument stays in its word, if the words of the others are different ones. -/
theorem mem_storeArgs_first (s : Target) (t : Temp) {ts : List Temp}
    (hspace : (ts.length + 1) * 8 ≤ UInt64.size) :
    (s.performAll set (Select.storeArgs 0 (t :: ts))).mem (set.slot 0) = s.file t := by
  refine (mem_storeArgs_of_ne (s.write (set.slot 0) (s.file t)) ?_).trans
    (Function.update_self _ _ _)
  intro i hi heq
  have hzero : 0 + 1 + i = 0 := @Setting.slot_inj { set with outgoing := ts.length + 1 } _ _ hspace
    (by show 0 + 1 + i < ts.length + 1; omega) (Nat.succ_pos _) heq
  omega

end Store

-- ── One call ─────────────────────────────────────────────────────────────────

/-- An active function, with the frame pointers of the functions around it, each at the depth it was
    declared at, and its own. -/
structure Activation where
  scope : Scope
  frames : Nat → Word

namespace Activation

/-- The depth that the function was declared at. -/
def depth (a : Activation) : Nat := a.scope.frame.depth

/-- The frame pointer of the function. -/
def pointer (a : Activation) : Word := a.frames a.depth

/-- The links of the function are right. -/
def Intact (mem : Memory) (a : Activation) : Prop := Linked mem a.depth a.frames

/-- The word at the address holds one of the links of the function. -/
def LinkWord (a : Activation) (address : Word) : Prop :=
  ∃ j, 1 ≤ j ∧ j ≤ a.depth ∧ address = a.frames j

/-- Only the words of the links count. -/
theorem Intact.congr {mem mem' : Memory} {a : Activation} (h : a.Intact mem)
    (hsame : ∀ address, a.LinkWord address → mem' address = mem address) : a.Intact mem' := by
  intro j hj hle
  rw [hsame _ ⟨j, hj, hle, rfl⟩]
  exact h j hj hle

/-- A function that this one calls, at its own frame pointer: around it are functions that are also
    around this one, or this one. -/
def enter (a : Activation) (scope : Scope) (pointer : Word) : Activation :=
  ⟨scope, Function.update a.frames scope.frame.depth pointer⟩

/-- The callee has the frames around it from the caller. -/
theorem frames_enter_of_lt (a : Activation) (scope : Scope) (pointer : Word) {j : Nat}
    (hj : j < scope.frame.depth) : (a.enter scope pointer).frames j = a.frames j :=
  Function.update_of_ne (Nat.ne_of_lt hj) _ _

theorem pointer_enter (a : Activation) (scope : Scope) (pointer : Word) :
    (a.enter scope pointer).pointer = pointer :=
  Function.update_self _ _ _

end Activation

/-- A function of depth `depth` is called: the call was lowered, its first argument was computed
    while the links of the caller were what they are in memory now, and all arguments are stored. -/
structure Passing (caller : Activation) (depth : Nat) (mem : Memory) where
  callee : Label
  operands : List Operand
  link : Tree.Expr
  others : List Tree.Expr
  lowered : ∃ c c', (value caller.scope (.call callee depth operands)).run.run c =
    (.ok (.call callee (link :: others)), c')
  machine : Machine
  pointer_eq : caller.pointer = machine.temp caller.scope.frame.pointer
  agrees : ∀ address, caller.LinkWord address → machine.load address = mem address
  set : Setting
  state : Target
  mem_eq : state.mem = mem
  first : Temp
  temps : List Temp
  computed : ((Machine.eval link).run.run machine).1 = .ok (state.file first)
  space : (temps.length + 1) * 8 ≤ UInt64.size

namespace Passing

variable {caller : Activation} {depth : Nat} {mem : Memory} (p : Passing caller depth mem)

/-- The memory that the callee finds. -/
def after : Memory := (p.state.performAll p.set (Select.storeArgs 0 (p.first :: p.temps))).mem

/-- The callee's frame pointer is where argument 0 is stored. -/
def pointer : Word := p.set.slot 0

/-- No argument is stored in the word of a link of the function. -/
def Spares (a : Activation) : Prop :=
  ∀ address, a.LinkWord address → ∀ i ≤ p.temps.length, p.set.slot i ≠ address

variable {p}

/-- The call leaves the links alone that its arguments spare. -/
theorem Spares.after_eq {a : Activation} (h : p.Spares a) {address : Word}
    (ha : a.LinkWord address) : p.after address = mem address := by
  refine (mem_storeArgs_of_ne p.state ?_).trans (congrFun p.mem_eq address)
  intro i hi
  rw [Nat.zero_add]
  exact h address ha i (Nat.le_of_lt_succ hi)

/-- The callee finds argument 0 at its frame pointer. -/
theorem after_pointer : p.after p.pointer = p.state.file p.first :=
  mem_storeArgs_first p.state p.first p.space

/-- The function around the callee is the caller or a function around it, and its frame pointer is
    the first argument. -/
theorem file_first (h : caller.Intact mem) :
    depth - 1 ≤ caller.depth ∧ p.state.file p.first = caller.frames (depth - 1) := by
  obtain ⟨c, c', hlowered⟩ := p.lowered
  have hlinks : Linked p.machine.load caller.depth caller.frames := h.congr p.agrees
  obtain ⟨hle, heval⟩ := eval_frameAt p.pointer_eq hlinks (frameAt_of_value_call hlowered)
  have hcomputed := p.computed
  rw [heval] at hcomputed
  exact ⟨hle, (Except.ok.inj hcomputed).symm⟩

/-- The callee's links are right. -/
theorem linked (h : caller.Intact mem) (hspare : p.Spares caller) :
    Linked p.after depth (Function.update caller.frames depth p.pointer) := by
  obtain ⟨hle, hfirst⟩ := p.file_first h
  intro j hj hjd
  have hpred : j - 1 ≠ depth := by omega
  rw [Function.update_of_ne hpred]
  by_cases htop : j = depth
  · subst htop
    rw [Function.update_self, after_pointer, hfirst]
  · have hcaller : j ≤ caller.depth := by omega
    rw [Function.update_of_ne htop, hspare.after_eq ⟨j, hj, hcaller, rfl⟩]
    exact h j hj hcaller

end Passing

-- ── Any number of calls ──────────────────────────────────────────────────────

/-- Memory and the functions that have been called and not left, the innermost first. -/
structure CallState where
  mem : Memory
  active : List Activation

namespace CallState

/-- What happens in a run, as far as static links are concerned. -/
inductive Step : CallState → CallState → Prop where
  /-- Memory changes, apart from the words of links. -/
  | work {mem mem' : Memory} {active : List Activation} :
      (∀ a ∈ active, ∀ address, a.LinkWord address → mem' address = mem address) →
        Step ⟨mem, active⟩ ⟨mem', active⟩
  /-- A function is called, and the arguments are stored beside the words of links. -/
  | call {mem : Memory} {caller : Activation} {below : List Activation} {scope : Scope}
      (p : Passing caller scope.frame.depth mem) :
      (∀ a ∈ caller :: below, p.Spares a) →
        Step ⟨mem, caller :: below⟩ ⟨p.after, caller.enter scope p.pointer :: caller :: below⟩
  /-- A function returns and leaves its result where its link was. -/
  | leave {mem : Memory} {callee : Activation} {below : List Activation} (result : Word) :
      Step ⟨mem, callee :: below⟩ ⟨Function.update mem callee.pointer result, below⟩

/-- The links of all active functions are right, and no function has its result where an outer one
    has a link. -/
structure Sound (st : CallState) : Prop where
  intact : ∀ a ∈ st.active, a.Intact st.mem
  apart : st.active.Pairwise fun inner outer => ¬outer.LinkWord inner.pointer

/-- A call or a return keeps the links of all active functions right. -/
theorem Sound.step {st st' : CallState} (h : st.Sound) (hstep : Step st st') : st'.Sound := by
  cases hstep with
  | work hspare => exact ⟨fun a ha => (h.intact a ha).congr (hspare a ha), h.apart⟩
  | @call mem caller below scope p hspare =>
      have hcallee : (caller.enter scope p.pointer).Intact p.after :=
        p.linked (h.intact caller List.mem_cons_self) (hspare caller List.mem_cons_self)
      refine ⟨List.forall_mem_cons.mpr ⟨hcallee, ?_⟩, List.pairwise_cons.mpr ⟨?_, h.apart⟩⟩
      · intro a ha
        exact (h.intact a ha).congr fun address => (hspare a ha).after_eq
      · intro a ha hword
        rw [Activation.pointer_enter] at hword
        exact hspare a ha _ hword 0 (Nat.zero_le _) rfl
  | @leave mem callee below result =>
      obtain ⟨hcallee, hbelow⟩ := List.pairwise_cons.mp h.apart
      refine ⟨?_, hbelow⟩
      intro a ha
      refine (h.intact a (List.mem_cons_of_mem _ ha)).congr ?_
      intro address hword
      refine Function.update_of_ne ?_ _ _
      rintro rfl
      exact hcallee a ha hword

/-- So does a run of calls and returns. By induction on the run. -/
theorem Sound.run {st st' : CallState} (h : st.Sound) (hrun : Relation.ReflTransGen Step st st') :
    st'.Sound := by
  induction hrun with
  | refl => exact h
  | tail _ hstep ih => exact ih.step hstep

end CallState

/-- **Static links stay right.** Where the links of a function are right, a variable is found in the
    frame it was declared in, and a call passes the frame of the function around the callee. So the
    callee's links are right, and the frames around its own are frames that the caller has; and
    along every run of calls and returns, the links of all active functions stay right. -/
theorem static_links_stay_right :
    (∀ (scope : Scope) (m : Machine) (frames : Nat → Word),
      frames scope.frame.depth = m.temp scope.frame.pointer →
      Linked m.load scope.frame.depth frames →
      (∀ name offset j, scope.accesses[name]? = some (.relative offset j) →
        j ≤ scope.frame.depth → ∀ c, ∃ e, (addr scope (.var name)).run.run c = (.ok e, c) ∧
          (Machine.eval e).run.run m = (.ok (frames j + offset), m)) ∧
      ∀ f j args, j ≤ scope.frame.depth + 1 → ∃ link,
        value scope (.call f j args) = (do return .call f (link :: (← values scope args))) ∧
          (Machine.eval link).run.run m = (.ok (frames (j - 1)), m)) ∧
    (∀ (caller : Activation) (mem : Memory) (scope : Scope)
      (p : Passing caller scope.frame.depth mem), caller.Intact mem → p.Spares caller →
      ∃ callee : Activation, callee.scope = scope ∧ callee.pointer = p.pointer ∧
        (∀ j < callee.depth, callee.frames j = caller.frames j) ∧ callee.Intact p.after) ∧
    ∀ (mem : Memory) (start : Activation) (st : CallState), start.Intact mem →
      Relation.ReflTransGen CallState.Step ⟨mem, [start]⟩ st →
      ∀ a ∈ st.active, a.Intact st.mem := by
  refine ⟨?_, ?_, ?_⟩
  · intro scope m frames htop hlinks
    refine ⟨?_, ?_⟩
    · intro name offset j haccess hj c
      exact eval_addr_var htop hlinks haccess hj c
    · intro f j args hj
      obtain ⟨link, hlink⟩ : ∃ link, scope.frameAt (j - 1) = .ok link :=
        frameAt_eq_ok (Nat.sub_le_of_le_add hj)
      exact ⟨link, value_call hlink, (eval_frameAt htop hlinks hlink).2⟩
  · intro caller mem scope p h hspare
    exact ⟨caller.enter scope p.pointer, rfl, caller.pointer_enter scope p.pointer,
      fun j hj => caller.frames_enter_of_lt scope p.pointer hj, p.linked h hspare⟩
  · intro mem start st h hrun
    have hsound : CallState.Sound ⟨mem, [start]⟩ :=
      ⟨List.forall_mem_singleton.mpr h, List.pairwise_singleton _ _⟩
    exact (hsound.run hrun).intact

-- A function of the outermost level, with its frame at 1000, calls one that is declared in it. The
-- callee's frame is at 500, and it names a variable of the caller.

/-- A function at depth 1 with its frame at 1000 and one local. -/
def outerFunction : Activation where
  scope := {
    frame := {
      label := .fresh 0, depth := 1, localsSize := 8, argsSize := 8, result := ⟨0⟩, pointer := ⟨1⟩ }
    accesses := ∅ }
  frames := fun j => if j = 1 then 1000 else 0

/-- The scope of a function inside it, which reads the local `x` of the outer one. -/
def innerScope : Scope where
  frame := {
    label := .fresh 1, depth := 2, localsSize := 0, argsSize := 0, result := ⟨2⟩, pointer := ⟨3⟩ }
  accesses := {("x", .relative (-8) 1)}

/-- The outer function calls the inner one, whose frame is at 500: its own frame pointer is the
    static link. -/
def passInward : Passing outerFunction innerScope.frame.depth fun _ => 0 where
  callee := .fresh 1
  operands := []
  link := .temp ⟨1⟩
  others := []
  lowered := ⟨{}, {}, rfl⟩
  machine := { temps := {(⟨1⟩, 1000)} }
  pointer_eq := rfl
  agrees _ _ := rfl
  set := {
    stack := 500
    address := fun _ => 0
    outgoing := 1
    divide := fun x y => if y = 0 then (0, x) else (x / y, x % y)
    divide_eq := fun _ _ hy => if_neg hy }
  state := { file := fun _ => 1000, mem := fun _ => 0, remainder := 0, history := [] }
  mem_eq := rfl
  first := ⟨4⟩
  temps := []
  computed := rfl
  space := by decide

/-- The machine in the inner function, with the static link at its frame pointer. -/
def innerMachine : Machine := { temps := {(⟨3⟩, 500)}, mem := {(500, 1000)} }

/-- The link of the inner function leads to the outer one, and `x` is found eight bytes below the
    outer frame. -/
theorem static_links_stay_right_inward :
    (outerFunction.enter innerScope 500).Intact passInward.after ∧
      ∃ e, (addr innerScope (.var "x")).run.run {} = (.ok e, {}) ∧
        (Machine.eval e).run.run innerMachine = (.ok 992, innerMachine) := by
  have hstart : outerFunction.Intact fun _ => 0 := by
    intro j hj hle
    obtain rfl : j = 1 := Nat.le_antisymm hle hj
    rfl
  have hspare : ∀ a ∈ [outerFunction], passInward.Spares a := by
    rintro a ha address ⟨j, hj, hle, rfl⟩ i hi
    obtain rfl := List.mem_singleton.mp ha
    obtain rfl : j = 1 := Nat.le_antisymm hle hj
    obtain rfl := Nat.le_zero.mp hi
    decide
  have hinner := static_links_stay_right.2.2 _ _ _ hstart (.single (.call passInward hspare)) _
    List.mem_cons_self
  have hlinks : Linked innerMachine.load innerScope.frame.depth
      (outerFunction.enter innerScope 500).frames := by
    intro j hj hle
    obtain rfl | rfl : j = 1 ∨ j = 2 := by
      change j ≤ 2 at hle
      omega
    · rfl
    · rfl
  have haddress : (outerFunction.enter innerScope 500).frames 1 + (-8) = 992 := by decide
  have hx := (static_links_stay_right.1 innerScope innerMachine _ rfl hlinks).1 "x" (-8) 1 (by rfl)
    (by decide) {}
  rw [haddress] at hx
  exact ⟨hinner, hx⟩

end MmixBackend
