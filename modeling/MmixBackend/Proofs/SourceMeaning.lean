import MmixBackend.Machine
import MmixBackend.Source

/-!
# What source trees mean

The meaning of a source tree is told without labels and jumps, by what running it does to a
reference machine. Operands are computed from left to right. A place is an address, and reading it
is loading the word there. An assignment computes its value before the address it goes to. A
conditional runs one of its branches. A loop computes its condition before every round and ends when
it is 0. A call is recorded as on the reference machine, with the static link as argument 0.

Since a loop may go on forever, the number of rounds that each loop may take is limited. A function
*terminates* if it comes to its end under some limit, and *runs forever* if no limit is enough.

* **`meaning_mono`** — a larger limit changes nothing for what has come to an end.
* **`terminates_unique`** — so a function has one result at most.
-/

namespace MmixBackend.Source

/-- Why a run does not come to its end. -/
inductive Trouble where
  /-- A division by zero, or a name that is not in scope. -/
  | undefined
  /-- A loop takes more rounds than allowed. -/
  | unfinished
  deriving DecidableEq, Repr

/-- A step that changes the machine. -/
abbrev Meaning := StateT Machine (Except Trouble)

/-- The label of each string literal. -/
abbrev Literals := Std.ExtTreeMap String Label

/-- The result of an operator. -/
def applied (op : BinOp) (x y : Word) : Meaning Word :=
  match op.value? x y with
  | some value => return value
  | none => throw .undefined

/-- The frame pointer, after following a number of static links. -/
def linkedPointer (pointer : Temp) : Nat → Meaning Word
  | 0 => return (← get).temp pointer
  | hops + 1 => do
    let inner ← linkedPointer pointer hops
    return (← get).load inner

/-- The frame pointer of the function around this one that was declared at `depth`. -/
def Scope.pointerAt (scope : Scope) (depth : Nat) : Meaning Word :=
  if depth ≤ scope.frame.depth then
    linkedPointer scope.frame.pointer (scope.frame.depth - depth)
  else throw .undefined

/-- The address of a variable. -/
def Scope.locate (scope : Scope) (name : String) : Meaning Word :=
  match scope.accesses[name]? with
  | none => throw .undefined
  | some (.absolute l) => modifyGet (·.labelAddr l)
  | some (.relative offset depth) => do
    return (← scope.pointerAt depth) + offset

section Trees

variable (scope : Scope) (literals : Literals)

mutual

/-- The address of a place. -/
def Place.meaning : Place → Meaning Word
  | .var name => scope.locate name
  | .index array index elemSize => do
    let base ← array.meaning
    let index ← index.meaning
    return base + index * elemSize
  | .field record offset => do
    return (← record.meaning) + offset
  | .deref ptr => ptr.meaning

/-- The value of an operand. -/
def Operand.meaning : Operand → Meaning Word
  | .int value => return value
  | .str text =>
    match literals[text]? with
    | some l => modifyGet (·.labelAddr l)
    | none => throw .undefined
  | .read place => do
    let addr ← place.meaning
    return (← get).load addr
  | .addrOf place => place.meaning
  | .binop op x y => do
    let x ← x.meaning
    let y ← y.meaning
    applied op x y
  | .unop op x => return op.value (← x.meaning)
  | .call f depth args => do
    let link ← scope.pointerAt (depth - 1)
    let args ← operandMeanings args
    modifyGet (·.call f (link :: args))

/-- The values of operands, from left to right. -/
def operandMeanings : List Operand → Meaning (List Word)
  | [] => return []
  | x :: xs => do
    let value ← x.meaning
    let values ← operandMeanings xs
    return value :: values

end

/-- Rounds of a loop, `limit` of them at most. -/
def rounds (cond : Meaning Word) (body : Meaning Unit) : Nat → Meaning Unit
  | 0 => do
    if (← cond) ≠ 0 then throw .unfinished else return ()
  | limit + 1 => do
    if (← cond) ≠ 0 then
      body
      rounds cond body limit
    else return ()

mutual

/-- What a command does, if no loop takes more than `limit` rounds. -/
def Command.meaning (limit : Nat) : Command → Meaning Unit
  | .assign place src => do
    let value ← src.meaning scope literals
    let addr ← place.meaning scope literals
    modify (·.store addr value)
  | .eval x => do
    let _ ← x.meaning scope literals
  | .cond cond thenCmds elseCmds => do
    if (← cond.meaning scope literals) ≠ 0 then commandMeanings limit thenCmds
    else commandMeanings limit elseCmds
  | .loop cond body => rounds (cond.meaning scope literals) (commandMeanings limit body) limit

/-- What commands do, one after the other. -/
def commandMeanings (limit : Nat) : List Command → Meaning Unit
  | [] => return ()
  | c :: cs => do
    c.meaning limit
    commandMeanings limit cs

end

/-- Running the commands and then computing the result. -/
def functionMeaning (limit : Nat) (body : List Command) (result : Operand) : Meaning Word := do
  commandMeanings scope literals limit body
  result.meaning scope literals

/-- From machine `m`, the function comes to its end with the result `v` and machine `m'`. -/
def Terminates (body : List Command) (result : Operand) (m : Machine) (v : Word) (m' : Machine) :
    Prop :=
  ∃ limit, (functionMeaning scope literals limit body result).run m = .ok (v, m')

/-- From machine `m`, the function never comes to an end. -/
def RunsForever (body : List Command) (result : Operand) (m : Machine) : Prop :=
  ∀ limit, (functionMeaning scope literals limit body result).run m = .error .unfinished

end Trees

variable {α β : Type}

/-- One step after the other. -/
theorem run_bind_meaning (x : Meaning α) (f : α → Meaning β) (m : Machine) :
    (x >>= f).run m =
      match x.run m with
      | .ok (a, m₁) => (f a).run m₁
      | .error e => .error e := by
  rw [StateT.run_bind]
  rcases x.run m with e | ⟨a, m₁⟩
  · rfl
  · rfl

-- ── Operands settle ──────────────────────────────────────────────────────────

/-- No loop is in the way of an end. -/
def Settled (x : Meaning α) : Prop := ∀ m, x.run m ≠ .error .unfinished

/-- If neither of two steps has a loop, both together have none. -/
theorem Settled.bind {x : Meaning α} {f : α → Meaning β} (hx : Settled x)
    (hf : ∀ a, Settled (f a)) : Settled (x >>= f) := by
  intro m h
  rw [run_bind_meaning] at h
  cases hrun : x.run m with
  | ok p =>
      rw [hrun] at h
      exact hf p.1 p.2 h
  | error e =>
      rw [hrun] at h
      cases h
      exact hx m hrun

theorem settled_pure (a : α) : Settled (pure a) := by
  intro m h
  cases h

theorem settled_get : Settled get := by
  intro m h
  cases h

theorem settled_modifyGet (f : Machine → α × Machine) : Settled (modifyGet f) := by
  intro m h
  cases h

theorem settled_undefined : Settled (throw .undefined : Meaning α) := by
  intro m h
  cases h

theorem Settled.map {x : Meaning α} (hx : Settled x) (f : α → β) :
    Settled (do return f (← x)) := hx.bind fun _ => settled_pure _

theorem Settled.load {x : Meaning Word} (hx : Settled x) :
    Settled (do
      let addr ← x
      return (← get).load addr) := hx.bind fun _ => settled_get.bind fun _ => settled_pure _

/-- An operator is applied at once. -/
theorem settled_applied (op : BinOp) (x y : Word) : Settled (applied op x y) := by
  rw [applied]
  split
  · exact settled_pure _
  · exact settled_undefined

/-- Static links are followed without a loop. -/
theorem settled_pointerAt (scope : Scope) (depth : Nat) : Settled (scope.pointerAt depth) := by
  have hlinks : ∀ hops, Settled (linkedPointer scope.frame.pointer hops) := by
    intro hops
    induction hops with
    | zero => exact settled_get.map _
    | succ hops ih => exact ih.load
  rw [Scope.pointerAt]
  split
  · exact hlinks _
  · exact settled_undefined

/-- The address of a variable is found without a loop. -/
theorem settled_locate (scope : Scope) (name : String) : Settled (scope.locate name) := by
  rw [Scope.locate]
  split
  · exact settled_undefined
  · exact settled_modifyGet _
  · exact (settled_pointerAt scope _).map _

section Operands

variable (scope : Scope) (literals : Literals)

mutual

/-- Places are computed without a loop. By induction on the source, with operands. -/
theorem settled_place (place : Place) : Settled (place.meaning scope literals) := by
  cases place with
  | var name =>
      rw [Place.meaning]
      exact settled_locate scope name
  | index array index elemSize =>
      rw [Place.meaning]
      exact (settled_place array).bind fun _ => (settled_operand index).map _
  | field record offset =>
      rw [Place.meaning]
      exact (settled_place record).map _
  | deref ptr =>
      rw [Place.meaning]
      exact settled_operand ptr

/-- An operand has a value or an error. -/
theorem settled_operand (operand : Operand) : Settled (operand.meaning scope literals) := by
  cases operand with
  | int value =>
      rw [Operand.meaning]
      exact settled_pure value
  | str text =>
      rw [Operand.meaning]
      split
      · exact settled_modifyGet _
      · exact settled_undefined
  | read place =>
      rw [Operand.meaning]
      exact (settled_place place).load
  | addrOf place =>
      rw [Operand.meaning]
      exact settled_place place
  | binop op x y =>
      rw [Operand.meaning]
      exact (settled_operand x).bind fun _ => (settled_operand y).bind fun _ =>
        settled_applied op _ _
  | unop op x =>
      rw [Operand.meaning]
      exact (settled_operand x).map _
  | call f depth args =>
      rw [Operand.meaning]
      exact (settled_pointerAt scope _).bind fun _ => (settled_operands args).bind fun _ =>
        settled_modifyGet _

/-- Operands are computed without a loop. -/
theorem settled_operands (operands : List Operand) :
    Settled (operandMeanings scope literals operands) := by
  cases operands with
  | nil =>
      rw [operandMeanings]
      exact settled_pure []
  | cons x xs =>
      rw [operandMeanings]
      exact (settled_operand x).bind fun _ => (settled_operands xs).map _

end

end Operands

-- ── Larger limits ────────────────────────────────────────────────────────────

/-- Where the first step comes to an end, the second one does the same. -/
def Refined (x y : Meaning α) : Prop := ∀ m, x.run m = .error .unfinished ∨ x.run m = y.run m

theorem refined_refl (x : Meaning α) : Refined x x := fun _ => .inr rfl

/-- Steps refined one after the other are refined together. -/
theorem Refined.bind {x y : Meaning α} {f g : α → Meaning β} (hxy : Refined x y)
    (hfg : ∀ a, Refined (f a) (g a)) : Refined (x >>= f) (y >>= g) := by
  intro m
  rw [run_bind_meaning, run_bind_meaning]
  rcases hxy m with h | h
  · rw [h]
    exact .inl rfl
  · rw [h]
    rcases y.run m with e | ⟨a, m₁⟩
    · exact .inr rfl
    · exact hfg a m₁

/-- A step that never ends is refined by everything. -/
theorem refined_unfinished (y : Meaning α) : Refined (throw .unfinished) y := fun _ => .inl rfl

/-- A choice is refined if both its branches are. -/
theorem refined_ite {p : Prop} [Decidable p] {x x' y y' : Meaning α} (hx : Refined x x')
    (hy : Refined y y') : Refined (if p then x else y) (if p then x' else y') := by
  split
  · exact hx
  · exact hy

/-- More rounds refine fewer of them. By induction on the rounds that may be taken. -/
theorem refined_rounds (cond : Meaning Word) {body body' : Meaning Unit}
    (hbody : Refined body body') {n n' : Nat} (hle : n ≤ n') :
    Refined (rounds cond body n) (rounds cond body' n') := by
  induction n generalizing n' with
  | zero =>
      cases n' <;>
        exact (refined_refl cond).bind fun v =>
          refined_ite (refined_unfinished _) (refined_refl _)
  | succ n ih =>
      obtain ⟨k, rfl⟩ := Nat.exists_eq_add_of_le' (Nat.le_trans (Nat.le_add_left 1 n) hle)
      rw [rounds, rounds]
      exact (refined_refl cond).bind fun v => refined_ite
        (hbody.bind fun _ => ih (Nat.le_of_succ_le_succ hle)) (refined_refl _)

section Limits

variable (scope : Scope) (literals : Literals) {limit limit' : Nat}

mutual

/-- A larger limit refines a command: it comes to the same end where it came to one. -/
theorem refined_command (hle : limit ≤ limit') (c : Command) :
    Refined (c.meaning scope literals limit) (c.meaning scope literals limit') := by
  cases c with
  | assign place src =>
      rw [Command.meaning, Command.meaning]
      exact refined_refl _
  | eval x =>
      rw [Command.meaning, Command.meaning]
      exact refined_refl _
  | cond cond thenCmds elseCmds =>
      rw [Command.meaning, Command.meaning]
      exact (refined_refl _).bind fun v =>
        refined_ite (refined_commands hle thenCmds) (refined_commands hle elseCmds)
  | loop cond body =>
      rw [Command.meaning, Command.meaning]
      exact refined_rounds _ (refined_commands hle body) hle

/-- A larger limit refines commands, one after the other. -/
theorem refined_commands (hle : limit ≤ limit') (cs : List Command) :
    Refined (commandMeanings scope literals limit cs)
      (commandMeanings scope literals limit' cs) := by
  cases cs with
  | nil =>
      rw [commandMeanings, commandMeanings]
      exact refined_refl _
  | cons c cs =>
      rw [commandMeanings, commandMeanings]
      exact (refined_command hle c).bind fun _ => refined_commands hle cs

end

/-- What has come to an end under a limit comes to the same under a larger one. -/
theorem meaning_mono (hle : limit ≤ limit') (body : List Command) (result : Operand) :
    Refined (functionMeaning scope literals limit body result)
      (functionMeaning scope literals limit' body result) :=
  (refined_commands scope literals hle body).bind fun _ => refined_refl _

/-- A function has one result at most, and none if it runs forever. -/
theorem terminates_unique {body : List Command} {result : Operand} {m m₁ m₂ : Machine}
    {v₁ v₂ : Word} (h₁ : Terminates scope literals body result m v₁ m₁) :
    ¬ RunsForever scope literals body result m ∧
      (Terminates scope literals body result m v₂ m₂ → v₁ = v₂ ∧ m₁ = m₂) := by
  obtain ⟨limit₁, h₁⟩ := h₁
  constructor
  · intro hforever
    rw [hforever limit₁] at h₁
    cases h₁
  · rintro ⟨limit₂, h₂⟩
    have hmax₁ := meaning_mono scope literals (Nat.le_max_left limit₁ limit₂) body result m
    have hmax₂ := meaning_mono scope literals (Nat.le_max_right limit₁ limit₂) body result m
    rw [h₁] at hmax₁
    rw [h₂] at hmax₂
    rcases hmax₁ with hmax₁ | hmax₁
    · cases hmax₁
    · rcases hmax₂ with hmax₂ | hmax₂
      · cases hmax₂
      · exact Prod.mk.inj (Except.ok.inj (hmax₁.trans hmax₂.symm))

end Limits

end MmixBackend.Source
