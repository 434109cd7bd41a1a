import MmixBackend.Proofs.AllocationConverges
import MmixBackend.Proofs.StepContents

/-!
# Allocation ends within a bound

Whatever the code is and however few registers there are, allocation comes to an end. Each attempt
but the last one is followed by a spill, and each spill takes a temporary away from those that may
still be spilled. New temporaries do not count among them, even if their numbers were in use before.

What allocation does is read off what it reports: every attempt, and every temporary that is passed
to spilling.

* **`Round`** — everything that one attempt can do; **`attemptFrom_round`** that it does no more.
* **`Counted.spilled`** — one more attempt with a spill behind it.
* **`allocation_ends`** — all attempts: each temporary is spilled once at most, and there are not
  too many attempts unless no temporary was handed out at all.
-/

namespace MmixBackend

-- ── What is reported ─────────────────────────────────────────────────────────

namespace Event

/-- The temporary that is passed to spilling. -/
def spilled? : Event → Option Temp
  | .spilling t _ => some t
  | _ => none

/-- Does an attempt start here? -/
def startsAttempt : Event → Bool
  | .attempt .. => true
  | _ => false

/-- The event tells neither of an attempt nor of a spill. -/
def Minor (e : Event) : Prop := e.spilled? = none ∧ e.startsAttempt = false

end Event

/-- The temporaries that are passed to spilling, in order. -/
def spilledTemps (es : List Event) : List Temp := es.filterMap Event.spilled?

/-- The number of attempts. -/
def attemptCount (es : List Event) : Nat := es.countP Event.startsAttempt

section Reports

variable {es es' : List Event}

theorem spilledTemps_append (es es' : List Event) :
    spilledTemps (es ++ es') = spilledTemps es ++ spilledTemps es' := List.filterMap_append

theorem attemptCount_append (es es' : List Event) :
    attemptCount (es ++ es') = attemptCount es + attemptCount es' := List.countP_append

/-- Minor events tell of no spill. -/
theorem spilledTemps_minor (h : ∀ e ∈ es, e.Minor) : spilledTemps es = [] :=
  List.filterMap_eq_nil_iff.mpr fun e he => (h e he).1

/-- Minor events tell of no attempt. -/
theorem attemptCount_minor (h : ∀ e ∈ es, e.Minor) : attemptCount es = 0 := by
  refine List.countP_eq_zero.mpr fun e he => ?_
  rw [(h e he).2]
  exact Bool.false_ne_true

end Reports

/-- An attempt reports its live sets, and events that show no instruction. -/
theorem Attempt.events_cases {code : Code} {a : Attempt} {e : Event} (he : e ∈ a.events code) :
    e = .liveSets (code.liveRows a.live) ∨ e.Minor ∧ e.instrs = [] := by
  simp only [events, ColorGraph.Selection.events, List.mem_append, List.mem_cons, List.not_mem_nil,
    or_false, List.mem_flatMap, List.mem_map] at he
  rcases he with ((rfl | rfl | rfl) | ⟨p, -, he⟩) | ⟨x, -, rfl⟩ | ⟨t, -, rfl⟩
  · exact .inr ⟨⟨rfl, rfl⟩, rfl⟩
  · exact .inl rfl
  · exact .inr ⟨⟨rfl, rfl⟩, rfl⟩
  · cases p with
    | easy t =>
        obtain rfl := List.mem_singleton.mp he
        exact .inr ⟨⟨rfl, rfl⟩, rfl⟩
    | risky t degree span =>
        rcases List.mem_cons.mp he with rfl | he
        · exact .inr ⟨⟨rfl, rfl⟩, rfl⟩
        · obtain rfl := List.mem_singleton.mp he
          exact .inr ⟨⟨rfl, rfl⟩, rfl⟩
  · exact .inr ⟨⟨rfl, rfl⟩, rfl⟩
  · exact .inr ⟨⟨rfl, rfl⟩, rfl⟩

/-- What an attempt tells of its own work is minor. -/
theorem Attempt.minor_events (code : Code) (a : Attempt) : ∀ e ∈ a.events code, e.Minor := by
  intro e he
  rcases events_cases he with rfl | h
  · exact ⟨rfl, rfl⟩
  · exact h.1

namespace Allocation

variable {ω : Type} {k n : Nat} {a a' : Allocation} {s : Supply} {t : Temp}

/-- Patching tells neither of an attempt nor of a spill, whether or not it succeeds. -/
theorem minor_spill (a : Allocation) (t : Temp) (s : Supply) :
    ∀ e ∈ ((a.spill t : Emit ω _).run s).events, e.Minor := by
  have hminor : Spill.Preserved (fun _ => True) Event.Minor :=
    { const := fun _ _ _ _ => trivial
      sub := fun _ _ _ => trivial
      load := fun _ _ => trivial
      store := fun _ _ => trivial
      patched := fun _ _ _ _ => trivial
      report := fun _ _ _ _ => ⟨rfl, rfl⟩ }
  exact (leaves_spill hminor (fun _ _ => trivial) t s).2

-- ── One attempt ──────────────────────────────────────────────────────────────

/-- Everything that attempt number `n` can do. -/
inductive Round (k n : Nat) (a : Allocation) (s : Supply) :
    Emitted ω (Except Error Unit × Allocation) → Prop where
  /-- There are more attempts than temporaries were handed out. -/
  | exhausted (h : s.temps < n) :
      Round k n a s ⟨(.error (.stalled a.code.frame.label .tooManyAttempts), a), [], [], s⟩
  | colored (h : n ≤ s.temps) (es : List Event) (hes : ∀ e ∈ es, e.Minor)
      (hstuck : (Attempt.make k a.spills.temps a.code).selection.stuck = none) :
      Round k n a s ⟨(.ok (), a.finish
          (Attempt.make k a.spills.temps a.code).selection.graph.assignments), [],
        .attempt n a.code.frame.label :: es, s⟩
  /-- The attempt got stuck on a temporary that must not be spilled. -/
  | refused (h : n ≤ s.temps) (es : List Event) (hes : ∀ e ∈ es, e.Minor) (t : Temp)
      (hstuck : (Attempt.make k a.spills.temps a.code).selection.stuck = some t)
      (ht : t ∈ a.spills.temps) :
      Round k n a s ⟨(.error (.stalled a.code.frame.label (.spilledAgain t)), a), [],
        .attempt n a.code.frame.label :: es, s⟩
  /-- Spilling the temporary failed. -/
  | failed (h : n ≤ s.temps) (es es' : List Event) (hes : ∀ e ∈ es, e.Minor)
      (hes' : ∀ e ∈ es', e.Minor) (t : Temp) (e : Error) (a' : Allocation)
      (hstuck : (Attempt.make k a.spills.temps a.code).selection.stuck = some t)
      (ht : t ∉ a.spills.temps) (hspill : ((a.spill t : Emit ω _).run s).value = (.error e, a')) :
      Round k n a s ⟨(.error e, a'), [],
        .attempt n a.code.frame.label :: es ++ .spilling t a.code.frame.label :: es',
        ((a.spill t : Emit ω _).run s).supply⟩
  /-- Spilling the temporary succeeded, and more attempts follow. -/
  | again (h : n ≤ s.temps) (es es' : List Event) (hes : ∀ e ∈ es, e.Minor)
      (hes' : ∀ e ∈ es', e.Minor) (t : Temp) (a' : Allocation)
      (hstuck : (Attempt.make k a.spills.temps a.code).selection.stuck = some t)
      (ht : t ∉ a.spills.temps) (hspill : ((a.spill t : Emit ω _).run s).value = (.ok (), a')) :
      Round k n a s
        (let rest : Emitted ω _ :=
          (attemptFrom k (n + 1) a').run ((a.spill t : Emit ω _).run s).supply
        ⟨rest.value, [], .attempt n a.code.frame.label :: es ++
          .spilling t a.code.frame.label :: es' ++ rest.events, rest.supply⟩)

/-- Attempts go on as a round says: allocation ends, or spills one temporary and goes on. -/
theorem attemptFrom_round (k n : Nat) (a : Allocation) (s : Supply) :
    Round k n a s ((attemptFrom k n a : Emit ω _).run s) := by
  have hminor := Attempt.minor_events a.code (Attempt.make k a.spills.temps a.code)
  rw [Emit.run, attemptFrom]
  split
  · next h => exact .exhausted h
  · next h =>
    have hle := Nat.not_lt.mp h
    dsimp only
    split
    · next hstuck =>
      refine .colored hle _ (List.forall_mem_append.mpr ⟨hminor, ?_⟩) hstuck
      exact List.forall_mem_singleton.mpr ⟨rfl, rfl⟩
    · next t hstuck =>
      split
      · next ht => exact .refused hle _ hminor t hstuck ht
      · next ht =>
        split
        · next e a' hspill =>
          exact .failed hle _ _ hminor (minor_spill a t s) t e a' hstuck ht hspill
        · next a' hspill =>
          exact .again hle _ _ hminor (minor_spill a t s) t a' hstuck ht hspill

-- ── All attempts ─────────────────────────────────────────────────────────────

/-- What is counted of the attempts from number `n` on. -/
structure Counted (n : Nat) (a : Allocation) (s : Supply)
    (r : Emitted ω (Except Error Unit × Allocation)) : Prop where
  nodup : (spilledTemps r.events).Nodup
  pending : ∀ t ∈ spilledTemps r.events, t ∈ a.pending
  attempts : attemptCount r.events ≤ (spilledTemps r.events).length + 1
  slots : ∀ t, t ∈ r.value.2.spills.slots ↔ t ∈ a.spills.slots ∨ t ∈ spilledTemps r.events
  converges : n ≤ s.temps → ∀ name, r.value.1 ≠ .error (.stalled name .tooManyAttempts)

/-- A spill gives a slot to the spilled temporary and to no other. -/
theorem mem_slots_spill (a : Allocation) (t u : Temp) (s : Supply) :
    u ∈ ((a.spill t : Emit ω _).run s).value.2.spills.slots ↔ u ∈ a.spills.slots ∨ u = t := by
  rw [slots_spill, Std.ExtTreeMap.mem_insertIfNew, Std.LawfulEqCmp.compare_eq_iff_eq]
  constructor
  · rintro (rfl | h)
    · exact .inr rfl
    · exact .inl h
  · rintro (h | rfl)
    · exact .inr h
    · exact .inl rfl

/-- The last attempt spills nothing. -/
theorem spilledTemps_last {es : List Event} (hes : ∀ e ∈ es, e.Minor) (name : Label) :
    spilledTemps (.attempt n name :: es) = [] :=
  (List.filterMap_cons_none rfl).trans (spilledTemps_minor hes)

theorem attemptCount_last {es : List Event} (hes : ∀ e ∈ es, e.Minor) (name : Label) :
    attemptCount (.attempt n name :: es) = 1 :=
  (List.countP_cons_of_pos rfl).trans (congrArg (· + 1) (attemptCount_minor hes))

/-- An attempt without a spill behind it is the last one. -/
theorem counted_last {value : Except Error Unit × Allocation} {es : List Event}
    (hes : ∀ e ∈ es, e.Minor) (hslots : value.2.spills.slots = a.spills.slots)
    (hvalue : ∀ name, value.1 ≠ .error (.stalled name .tooManyAttempts)) :
    Counted n a s (⟨value, [], .attempt n a.code.frame.label :: es, s⟩ : Emitted ω _) := by
  have hspilled := spilledTemps_last hes (n := n) a.code.frame.label
  refine ⟨?_, ?_, ?_, ?_, fun _ => hvalue⟩
  · rw [hspilled]
    exact List.nodup_nil
  · rw [hspilled]
    exact List.forall_mem_nil _
  · rw [hspilled, attemptCount_last hes]
    exact Nat.le_refl 1
  · intro u
    rw [hspilled, hslots]
    exact ⟨.inl, fun h => h.resolve_right List.not_mem_nil⟩

/-- A round that goes on spills one temporary. -/
theorem spilledTemps_round {es es' : List Event} (hes : ∀ e ∈ es, e.Minor)
    (hes' : ∀ e ∈ es', e.Minor) (name : Label) (t : Temp) :
    spilledTemps (.attempt n name :: es ++ .spilling t name :: es') = [t] := by
  rw [spilledTemps_append]
  show spilledTemps es ++ t :: spilledTemps es' = [t]
  rw [spilledTemps_minor hes, spilledTemps_minor hes', List.nil_append]

theorem attemptCount_round {es es' : List Event} (hes : ∀ e ∈ es, e.Minor)
    (hes' : ∀ e ∈ es', e.Minor) (name : Label) (t : Temp) :
    attemptCount (.attempt n name :: es ++ .spilling t name :: es') = 1 := by
  have hfirst : attemptCount (.attempt n name :: es) = attemptCount es + 1 :=
    List.countP_cons_of_pos rfl
  have hsecond : attemptCount (.spilling t name :: es') = attemptCount es' :=
    List.countP_cons_of_neg Bool.false_ne_true
  rw [attemptCount_append, hfirst, hsecond, attemptCount_minor hes, attemptCount_minor hes']

/-- A failed spill is the last thing that happens. -/
theorem counted_failed {es es' : List Event} {e : Error} (hes : ∀ e ∈ es, e.Minor)
    (hes' : ∀ e ∈ es', e.Minor)
    (hstuck : (Attempt.make k a.spills.temps a.code).selection.stuck = some t)
    (ht : t ∉ a.spills.temps) (hspill : ((a.spill t : Emit ω _).run s).value = (.error e, a')) :
    Counted n a s (⟨(.error e, a'), [],
      .attempt n a.code.frame.label :: es ++ .spilling t a.code.frame.label :: es',
      ((a.spill t : Emit ω _).run s).supply⟩ : Emitted ω _) := by
  have hneeds := Attempt.needed_of_stuck hstuck
  have hspilled := spilledTemps_round (n := n) hes hes' a.code.frame.label t
  refine ⟨?_, ?_, ?_, ?_, ?_⟩
  · rw [hspilled]
    exact List.nodup_singleton t
  · rw [hspilled]
    exact List.forall_mem_singleton.mpr
      (mem_pending_of_needs hneeds (Attempt.stuck_ne_pointer hstuck) ht)
  · rw [hspilled, attemptCount_round hes hes']
    exact Nat.le_succ 1
  · intro u
    have hslots := mem_slots_spill (ω := ω) a t u s
    rw [hspill] at hslots
    rw [hspilled, List.mem_singleton]
    exact hslots
  · intro _ name
    -- a spill of a temporary that is needed fails only for want of a distance
    have hfst := congrArg Prod.fst hspill
    cases hd : a.code.frame.slotDistance (a.spills.slotOf t) with
    | ok d =>
        rw [(spill_of_ok hd hneeds).1] at hfst
        cases hfst
    | error f =>
        rw [spill_of_error hd hneeds] at hfst
        obtain rfl := Except.error.inj hfst
        intro h
        cases h

/-- One more attempt, with a successful spill behind it. -/
theorem Counted.spilled {es es' : List Event} {r : Emitted ω (Except Error Unit × Allocation)}
    (hes : ∀ e ∈ es, e.Minor) (hes' : ∀ e ∈ es', e.Minor)
    (hstuck : (Attempt.make k a.spills.temps a.code).selection.stuck = some t)
    (ht : t ∉ a.spills.temps) (hspill : ((a.spill t : Emit ω _).run s).value = (.ok (), a'))
    (h : Counted (n + 1) a' ((a.spill t : Emit ω _).run s).supply r) :
    Counted n a s (⟨r.value, [], .attempt n a.code.frame.label :: es ++
      .spilling t a.code.frame.label :: es' ++ r.events, r.supply⟩ : Emitted ω _) := by
  have hneeds := Attempt.needed_of_stuck hstuck
  have hptr := Attempt.stuck_ne_pointer hstuck
  have hspilled : spilledTemps (.attempt n a.code.frame.label :: es ++
      .spilling t a.code.frame.label :: es' ++ r.events) = t :: spilledTemps r.events := by
    rw [spilledTemps_append, spilledTemps_round hes hes', List.singleton_append]
  refine ⟨?_, ?_, ?_, ?_, ?_⟩
  · rw [hspilled]
    refine List.nodup_cons.mpr ⟨fun hmem => ?_, h.nodup⟩
    exact not_mem_pending_spill hptr hspill (h.pending t hmem)
  · rw [hspilled]
    refine List.forall_mem_cons.mpr ⟨mem_pending_of_needs hneeds hptr ht, fun u hu => ?_⟩
    exact mem_pending_of_spill hspill (h.pending u hu)
  · have hattempts := h.attempts
    rw [hspilled, attemptCount_append, attemptCount_round hes hes', List.length_cons]
    omega
  · intro u
    have hslots := mem_slots_spill (ω := ω) a t u s
    rw [hspill] at hslots
    rw [hspilled, List.mem_cons, ← or_assoc, h.slots u, hslots]
  · intro hle
    -- the spill has taken a temporary from the supply for the attempt that follows
    obtain ⟨d, hd, -⟩ := spill_eq_ok hspill
    have hsupply := (spill_of_ok (ω := ω) (s := s) hd hneeds).2
    have hpos := Spill.totalNeeded_pos hneeds
    exact h.converges (by omega)

/-- The counts hold for all attempts from any number on. By induction on how many temporaries may
    still be spilled. -/
theorem attemptFrom_counted (k n : Nat) (a : Allocation) (s : Supply) :
    Counted n a s ((attemptFrom k n a : Emit ω _).run s) := by
  induction hsize : a.pending.size using Nat.strongRecOn generalizing n a s with
  | ind size ih =>
      have hround := attemptFrom_round (ω := ω) k n a s
      generalize (attemptFrom k n a : Emit ω _).run s = r at hround
      cases hround with
      | exhausted h =>
          refine ⟨List.nodup_nil, List.forall_mem_nil _, Nat.zero_le _, ?_, ?_⟩
          · intro u
            exact ⟨.inl, fun h => h.resolve_right List.not_mem_nil⟩
          · intro hle
            exact absurd hle (Nat.not_le.mpr h)
      | colored h es hes hstuck => exact counted_last hes rfl (fun _ h => by cases h)
      | refused h es hes t hstuck ht => exact counted_last hes rfl (fun _ h => by cases h)
      | failed h es es' hes hes' t e a' hstuck ht hspill =>
          exact counted_failed hes hes' hstuck ht hspill
      | again h es es' hes hes' t a' hstuck ht hspill =>
          have hless := size_pending_spill_lt (Attempt.stuck_ne_pointer hstuck) ht hspill
          exact Counted.spilled hes hes' hstuck ht hspill (ih _ (hsize ▸ hless) _ _ _ rfl)

/-- **Allocation ends within a bound.** For any code, any number of registers and any temporaries
    that must not be spilled, the temporaries that allocation passes to spilling are different from
    each other. Each of them is the result of the function or occurs in its instructions, and is not
    one of those that must not be spilled. So there are no more spills than such temporaries, and at
    most one attempt more. These spills are all there are: afterwards they have a slot, and beside
    them only temporaries that had one before. Allocation gives up for too many attempts exactly if
    no temporary had been handed out when it was started. -/
theorem allocation_ends (k : Nat) (a : Allocation) (names : Supply) :
    let r := (a.allocate k : Emit ω _).run names
    let spilled := spilledTemps r.events
    spilled.Nodup ∧
      (∀ t ∈ spilled, (t = a.code.frame.result ∨ ∃ i ∈ a.code.instrs, Spill.Touches t i) ∧
        t ≠ a.code.frame.pointer ∧ t ∉ a.spills.temps) ∧
      spilled.length ≤ a.pending.size ∧
      attemptCount r.events ≤ a.pending.size + 1 ∧
      (∀ t, t ∈ r.value.2.spills.slots ↔ t ∈ a.spills.slots ∨ t ∈ spilled) ∧
      (r.value.1 = .error (.stalled a.code.frame.label .tooManyAttempts) ↔ names.temps = 0) := by
  intro r spilled
  have h : Counted 1 a names r := attemptFrom_counted k 1 a names
  have hlength : spilled.length ≤ a.pending.size := by
    have hsub : spilled ⊆ a.pending.toList := fun t ht =>
      Std.ExtTreeSet.mem_toList.mpr (h.pending t ht)
    exact (h.nodup.subperm hsub).length_le.trans_eq Std.ExtTreeSet.length_toList
  refine ⟨h.nodup, fun t ht => mem_pending.mp (h.pending t ht), hlength,
    h.attempts.trans (Nat.succ_le_succ hlength), h.slots, ?_, ?_⟩
  · intro herror
    refine Nat.lt_one_iff.mp (Nat.not_le.mp fun hle => ?_)
    exact h.converges hle _ herror
  · intro hzero
    show ((attemptFrom k 1 a : Emit ω _).run names).value.1 = _
    rw [Emit.run, attemptFrom, if_pos (by omega)]

end Allocation

end MmixBackend
