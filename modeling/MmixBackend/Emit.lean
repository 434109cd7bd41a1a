import MmixBackend.Event

/-!
# Emitting code

A step of code generation takes names from the supply, emits items of code in order, reports
events in order and has a value. `Emit ω` is the monad of such steps. Nothing accumulates from
outside: what a step emits is its own, and what a sequence of steps emits is the concatenation.
-/

namespace MmixBackend

/-- What a step of code generation leaves behind. -/
structure Emitted (ω α : Type) where
  value : α
  code : List ω
  events : List Event
  supply : Supply

/-- A step of code generation that emits items of type `ω`. -/
def Emit (ω α : Type) : Type := Supply → Emitted ω α

namespace Emit

variable {ω ω' α β : Type}

/-- Runs a step. -/
def run (x : Emit ω α) (s : Supply) : Emitted ω α := x s

instance : Monad (Emit ω) where
  pure a := fun s => ⟨a, [], [], s⟩
  bind x f := fun s =>
    let r := x s
    let r' := f r.value r.supply
    ⟨r'.value, r.code ++ r'.code, r.events ++ r'.events, r'.supply⟩

/-- Emits items. -/
def write (items : List ω) : Emit ω Unit := fun s => ⟨(), items, [], s⟩

/-- Reports an event. -/
def report (e : Event) : Emit ω Unit := fun s => ⟨(), [], [e], s⟩

/-- A step that only takes names from the supply. -/
def ofSupply (f : Supply → α × Supply) : Emit ω α := fun s => ⟨(f s).1, [], [], (f s).2⟩

/-- Reports events. -/
def reportAll (es : List Event) : Emit ω Unit := fun s => ⟨(), [], es, s⟩

/-- Takes a temporary from the supply. -/
def freshTemp : Emit ω Temp := fun s => ⟨s.freshTemp.1, [], [], s.freshTemp.2⟩

/-- Takes a label from the supply. -/
def freshLabel : Emit ω Label := fun s => ⟨s.freshLabel.1, [], [], s.freshLabel.2⟩

/-- Runs a step and hands over what it emits instead of emitting it. -/
def collect (x : Emit ω α) : Emit ω' (List ω × α) := fun s =>
  let r := x s
  ⟨(r.code, r.value), [], r.events, r.supply⟩

@[simp] theorem run_pure (a : α) (s : Supply) :
    (pure a : Emit ω α).run s = ⟨a, [], [], s⟩ := rfl

@[simp] theorem run_bind (x : Emit ω α) (f : α → Emit ω β) (s : Supply) :
    (x >>= f).run s =
      ⟨((f (x.run s).value).run (x.run s).supply).value,
        (x.run s).code ++ ((f (x.run s).value).run (x.run s).supply).code,
        (x.run s).events ++ ((f (x.run s).value).run (x.run s).supply).events,
        ((f (x.run s).value).run (x.run s).supply).supply⟩ := rfl

@[simp] theorem run_write (items : List ω) (s : Supply) :
    (write items).run s = ⟨(), items, [], s⟩ := rfl

@[simp] theorem run_report (e : Event) (s : Supply) :
    (report e : Emit ω Unit).run s = ⟨(), [], [e], s⟩ := rfl

@[simp] theorem run_ofSupply (f : Supply → α × Supply) (s : Supply) :
    (ofSupply f : Emit ω α).run s = ⟨(f s).1, [], [], (f s).2⟩ := rfl

@[simp] theorem run_reportAll (es : List Event) (s : Supply) :
    (reportAll es : Emit ω Unit).run s = ⟨(), [], es, s⟩ := rfl

@[simp] theorem run_freshTemp (s : Supply) :
    (freshTemp : Emit ω Temp).run s = ⟨s.freshTemp.1, [], [], s.freshTemp.2⟩ := rfl

@[simp] theorem run_freshLabel (s : Supply) :
    (freshLabel : Emit ω Label).run s = ⟨s.freshLabel.1, [], [], s.freshLabel.2⟩ := rfl

@[simp] theorem run_collect (x : Emit ω α) (s : Supply) :
    (collect x : Emit ω' (List ω × α)).run s =
      ⟨((x.run s).code, (x.run s).value), [], (x.run s).events, (x.run s).supply⟩ := rfl

@[simp] theorem run_map (f : α → β) (x : Emit ω α) (s : Supply) :
    (f <$> x).run s =
      ⟨f (x.run s).value, (x.run s).code, (x.run s).events, (x.run s).supply⟩ := by
  show Emitted.mk (f (x.run s).value) ((x.run s).code ++ []) ((x.run s).events ++ [])
    (x.run s).supply = _
  rw [List.append_nil, List.append_nil]

/-- Joining steps is associative, and a step that does nothing is neutral. -/
instance : LawfulMonad (Emit ω) :=
  LawfulMonad.mk' (Emit ω) (fun x => funext fun s => x.run_map id s) (fun _ _ => rfl)
    fun x f g => funext fun s => by
      show (x >>= f >>= g).run s = (x >>= fun a => f a >>= g).run s
      simp only [run_bind, List.append_assoc]

/-- A failing step ends a sequence, and what was emitted before it stays. -/
theorem run_bind_except {ε : Type} (x : ExceptT ε (Emit ω) α) (f : α → ExceptT ε (Emit ω) β)
    (s : Supply) :
    (x >>= f).run.run s =
      match (x.run.run s).value with
      | .ok a =>
        ⟨((f a).run.run (x.run.run s).supply).value,
          (x.run.run s).code ++ ((f a).run.run (x.run.run s).supply).code,
          (x.run.run s).events ++ ((f a).run.run (x.run.run s).supply).events,
          ((f a).run.run (x.run.run s).supply).supply⟩
      | .error e => ⟨.error e, (x.run.run s).code, (x.run.run s).events, (x.run.run s).supply⟩ := by
  rw [ExceptT.run_bind, run_bind]
  cases (x.run.run s).value <;> simp

end Emit

end MmixBackend
