import MmixBackend.ColorGraph
import MmixBackend.Spill.Window

/-!
# Register allocation

An attempt computes live sets, builds and colours the interference graph, and ends with a
register for every temporary or with a temporary for which there is none. In the second case
that temporary is spilled and another attempt follows. A spilled temporary and those that spilling
creates are never spilled again, so each attempt leaves fewer that may be, and attempts come to an
end.
-/

namespace MmixBackend

/-- One attempt to colour a function. -/
structure Attempt where
  live : LiveSets
  /-- The number of sweeps that the live sets took. -/
  sweeps : Nat
  /-- The graph before colouring. -/
  graph : ColorGraph
  picks : List ColorGraph.Pick
  selection : ColorGraph.Selection

namespace Attempt

/-- Tries to colour a function with `k` registers. -/
def make (k : Nat) (spillTemps : TempSet) (code : Code) : Attempt :=
  let (live, sweeps) := code.liveness
  let graph := ColorGraph.ofInterference (Interference.compute code.instrs live) k
    ({(code.frame.pointer, framePointer)} : TempMap Nat)
  let (picks, simplified) := graph.simplify (liveSpans code.instrs) spillTemps
  let selection := simplified.selectAll (picks.map (·.temp)).reverse
  { live, sweeps, graph, picks, selection }

/-- The frame pointer has its register from the start. -/
theorem stuck_ne_pointer {k : Nat} {spillTemps : TempSet} {code : Code} {t : Temp}
    (h : (make k spillTemps code).selection.stuck = some t) : t ≠ code.frame.pointer := by
  intro heq
  obtain ⟨p, hp, rfl⟩ := List.mem_map.mp (List.mem_reverse.mp (ColorGraph.mem_of_stuck_selectAll h))
  refine ColorGraph.not_mem_active_of_precolored ?_ (ColorGraph.mem_active_of_mem_simplify hp)
  rw [heq]
  simp

/-- What an attempt is reported as. -/
def events (code : Code) (a : Attempt) : List Event :=
  [.settled code.frame.label a.sweeps, .liveSets (code.liveRows a.live),
      .colorGraph a.graph.rows] ++
    a.picks.flatMap (·.events) ++ a.selection.events

end Attempt

namespace Allocation

variable {ω : Type}

/-- The temporaries that may still be spilled. -/
def pending (a : Allocation) : TempSet :=
  (Std.ExtTreeSet.ofList (a.code.frame.result ::
      a.code.instrs.flatMap fun i => i.uses ++ i.defs)).filter
    fun t => t ≠ a.code.frame.pointer ∧ t ∉ a.spills.temps

/-- The result and what the instructions touch may be spilled, but for the frame pointer and what a
    spill has made. -/
theorem mem_pending {a : Allocation} {t : Temp} :
    t ∈ a.pending ↔ (t = a.code.frame.result ∨ ∃ i ∈ a.code.instrs, Spill.Touches t i) ∧
      t ≠ a.code.frame.pointer ∧ t ∉ a.spills.temps := by
  simp [pending, Std.ExtTreeSet.mem_filter, Std.ExtTreeSet.mem_ofList, Spill.Touches,
    and_left_comm]

/-- A successful spill adds no temporary that may still be spilled. -/
theorem mem_pending_of_spill {a a' : Allocation} {t u : Temp} {s : Supply}
    (h : ((a.spill t : Emit ω _).run s).value = (.ok (), a')) (hu : u ∈ a'.pending) :
    u ∈ a.pending := by
  obtain ⟨d, _, hframe, hinstrs, htemps, _⟩ := spill_eq_ok h
  rw [mem_pending, hframe, hinstrs, htemps] at hu
  obtain ⟨hres | ⟨j, hj, hju⟩, hu⟩ := hu
  · exact mem_pending.mpr ⟨.inl hres, hu.1, fun hmem => hu.2 (.inl hmem)⟩
  · rcases Spill.touches_windows hj hju with hold | hold | hold | hold
    · exact mem_pending.mpr ⟨.inr hold.1, hu.1, fun hmem => hu.2 (.inl hmem)⟩
    · exact absurd hold hu.1
    · exact absurd (.inr (.inl hold)) hu.2
    · exact absurd (.inr (.inr hold)) hu.2

/-- A temporary that was spilled may not be spilled any more. -/
theorem not_mem_pending_spill {a a' : Allocation} {t : Temp} {s : Supply}
    (hptr : t ≠ a.code.frame.pointer)
    (h : ((a.spill t : Emit ω _).run s).value = (.ok (), a')) : t ∉ a'.pending := by
  obtain ⟨d, _, hframe, hinstrs, htemps, _⟩ := spill_eq_ok h
  rw [mem_pending, hframe, hinstrs, htemps]
  rintro ⟨hres | ⟨j, hj, hjt⟩, -, hnot⟩
  · exact hnot (.inr (.inl ⟨rfl, hres⟩))
  · rcases Spill.touches_windows hj hjt with hold | hold | hold | hold
    · exact hold.2 rfl
    · exact hptr hold
    · exact hnot (.inr (.inl hold))
    · exact hnot (.inr (.inr hold))

/-- A successful spill leaves fewer temporaries that may still be spilled: the spilled one is no
    longer among them, and none is added. -/
theorem size_pending_spill_lt {a a' : Allocation} {t : Temp} {s : Supply}
    (hptr : t ≠ a.code.frame.pointer) (htemp : t ∉ a.spills.temps)
    (h : ((a.spill t : Emit ω _).run s).value = (.ok (), a')) :
    a'.pending.size < a.pending.size := by
  refine card_lt_of_subset (k := t) (fun u hu => mem_pending_of_spill h hu) ?_
    (not_mem_pending_spill hptr h)
  obtain ⟨_, _, _, _, _, i, hi, hneeds⟩ := spill_eq_ok h
  refine mem_pending.mpr ⟨?_, hptr, htemp⟩
  rcases hneeds with hreload | htouch
  · exact .inl hreload.1
  · exact .inr ⟨i, hi, htouch⟩

/-- The function with the registers that an attempt found. -/
def finish (a : Allocation) (registers : TempMap Nat) : Allocation :=
  { a with code := { a.code with registers, spillSize := a.spills.size } }

/-- Attempts number `n` and later ones. -/
def attemptFrom (k n : Nat) (a : Allocation) : Emit ω (Except Error Unit × Allocation) := fun s =>
  let name := a.code.frame.label
  if s.temps < n then ⟨(.error (.stalled name .tooManyAttempts), a), [], [], s⟩
  else
    let attempt := Attempt.make k a.spills.temps a.code
    let events := .attempt n name :: attempt.events a.code
    match hstuck : attempt.selection.stuck with
    | none =>
      let done := a.finish attempt.selection.graph.assignments
      ⟨(.ok (), done), [], events ++ [.colored name n done.code.spillSize], s⟩
    | some t =>
      if htemp : t ∈ a.spills.temps then
        ⟨(.error (.stalled name (.spilledAgain t)), a), [], events, s⟩
      else
        let r : Emitted ω _ := (a.spill t).run s
        let events := events ++ .spilling t name :: r.events
        match hspill : r.value with
        | (.error e, a') => ⟨(.error e, a'), [], events, r.supply⟩
        | (.ok (), a') =>
          have := size_pending_spill_lt (Attempt.stuck_ne_pointer hstuck) htemp hspill
          let rest : Emitted ω _ := attemptFrom k (n + 1) a' r.supply
          ⟨rest.value, [], events ++ rest.events, rest.supply⟩
termination_by a.pending.size

/-- Allocates `k` registers, spilling temporaries until the others fit. -/
def allocate (k : Nat) (a : Allocation) : Emit ω (Except Error Unit × Allocation) :=
  attemptFrom k 1 a

/-- Allocation that went through, with what it leaves behind. -/
theorem eq_ok_of_isOk {r : Except Error Unit × Allocation} (h : r.1.isOk = true) :
    r = (.ok (), r.2) := by
  obtain ⟨_, hok⟩ := exists_ok_of_isOk h
  exact Prod.ext hok rfl

end Allocation

end MmixBackend
