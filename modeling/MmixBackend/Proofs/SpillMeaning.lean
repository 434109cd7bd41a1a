import MmixBackend.Proofs.SpillWindow

/-!
# Spilling keeps what code does

The new code keeps the spilled temporary in a word of the stack frame. While the two codes run side
by side, this word holds the value that the temporary has in the old code, all other temporaries
and all other words are the same, and control is at the window of the instruction where it is in
the old code. The steps:

* **`patched_perform`** — an instruction under its new name for the temporary does the same.
* **`mirrors_step`** — one step of the old code is matched by running through one window.
* **`spill_keeps_behaviour`** — so the new code carries out the same instructions in the same
  order, with the same values, the same memory outside the slot and the same result at each exit.
  This asks that an instruction which writes the temporary is not left by a jump: the store behind
  it would be skipped (`spill_loses_value_on_jump`).
-/

namespace MmixBackend

namespace Spill

open Cpu

variable {sem : Semantics} {code : Code} {t : Temp} {d slot : Word} {limit : Nat}

-- ── The instruction inside its window ────────────────────────────────────────

/-- The instruction neither reads nor writes the word: with another word there, it does the same
    and leaves this word as it is. -/
def Avoids (sem : Semantics) (slot : Word) (i : Instr) (vals : List Word) (mem : Memory) : Prop :=
  ∀ x, i.respond sem vals (Function.update mem slot x) =
    { i.respond sem vals mem with
      mem := Function.update (i.respond sem vals mem).mem slot x }

theorem rename_eq_self {value u : Temp} (h : u ≠ t) : rename t value u = u := if_neg h

theorem rename_self (value : Temp) : rename t value t = value := if_pos rfl

/-- Only a temporary itself is renamed to it, unless it is the new name. -/
theorem rename_eq_iff {value k u : Temp} (hu : u ≠ value) :
    rename t value k = u ↔ k = u ∧ k ≠ t := by
  by_cases hkt : k = t
  · subst hkt
    rw [rename_self]
    exact ⟨fun h => absurd h.symm hu, fun h => absurd rfl h.2⟩
  · rw [rename_eq_self hkt]
    exact ⟨fun h => ⟨h, hkt⟩, fun h => h.1⟩

/-- Only the spilled temporary gets the new name. -/
theorem eq_of_rename_eq_value {value k : Temp} (hk : k ≠ value) (h : rename t value k = value) :
    k = t := by
  refine Decidable.byContradiction fun hkt => ?_
  rw [rename_eq_self hkt] at h
  exact hk h

section Main

variable {i : Instr} {value : Temp} {s x : Cpu Temp} {v : Word}

/-- The instruction in the window responds as the old one, and leaves the word in the slot. -/
theorem response_replace (havoid : Avoids sem slot i (i.uses.map s.file) s.mem)
    (hbelow : ∀ u, Touches u i → u.index < limit) (hagrees : Agrees t limit s x)
    (hmem : x.mem = Function.update s.mem slot v) (huse : t ∈ i.uses → x.file value = s.file t) :
    x.response sem id ((i.replaceUses t value).replaceDefs t value) =
      { s.response sem id i with
        mem := Function.update (s.response sem id i).mem slot v } := by
  have hvals : (i.uses.map (rename t value)).map (fun u => x.file (id u)) = i.uses.map s.file := by
    rw [List.map_map]
    refine List.map_congr_left ?_
    intro u hu
    show x.file (rename t value u) = s.file u
    by_cases hut : u = t
    · subst hut
      rw [rename_self]
      exact huse hu
    · rw [rename_eq_self hut]
      exact hagrees u hut (hbelow u (.inl hu))
  rw [response, uses_replace, respond_replace, hvals, hmem]
  exact havoid v

/-- The instruction in the window takes the same jump as the old one. -/
theorem taken?_replace
    (hresponse : x.response sem id ((i.replaceUses t value).replaceDefs t value) =
      { s.response sem id i with mem := Function.update (s.response sem id i).mem slot v }) :
    x.taken? sem id ((i.replaceUses t value).replaceDefs t value) = s.taken? sem id i := by
  rw [taken?, hresponse, jumps_replace]
  rfl

/-- Under its new name for the spilled temporary, an instruction does the same. -/
theorem patched_perform
    (hresponse : x.response sem id ((i.replaceUses t value).replaceDefs t value) =
      { s.response sem id i with mem := Function.update (s.response sem id i).mem slot v })
    (hvalue : limit ≤ value.index) (ht : t.index < limit)
    (hbelow : ∀ u, Touches u i → u.index < limit) (hagrees : Agrees t limit s x) :
    Agrees t limit (s.perform sem id i)
      (x.perform sem id ((i.replaceUses t value).replaceDefs t value)) ∧
    (x.perform sem id ((i.replaceUses t value).replaceDefs t value)).mem =
      Function.update (s.perform sem id i).mem slot v ∧
    (t ∈ i.defs →
      (x.perform sem id ((i.replaceUses t value).replaceDefs t value)).file value =
        (s.perform sem id i).file t) ∧
    (x.perform sem id ((i.replaceUses t value).replaceDefs t value)).file t = x.file t := by
  -- the new name is none of the old temporaries
  have hne : ∀ u : Temp, u.index < limit → u ≠ value := by
    rintro u hu rfl
    exact absurd hu (Nat.not_lt.mpr hvalue)
  have hfile : (x.perform sem id ((i.replaceUses t value).replaceDefs t value)).file =
      writeAll (i.defs.map (rename t value)) (s.response sem id i).values x.file := by
    rw [perform, hresponse, defs_replace, List.map_id]
  have hfile' : (s.perform sem id i).file =
      writeAll i.defs (s.response sem id i).values s.file := by
    rw [perform, List.map_id]
  refine ⟨?_, ?_, ?_, ?_⟩
  · intro u hu hlt
    rw [hfile, hfile']
    have hmap := writeAll_map (rename t value) i.defs u s.file x.file (s.response sem id i).values
    rw [rename_eq_self hu] at hmap
    refine hmap ?_ fun _ => hagrees u hu hlt
    intro k _ hk
    exact ((rename_eq_iff (hne u hlt)).mp hk).1
  · rw [perform, hresponse]
    rfl
  · intro hdef
    rw [hfile, hfile']
    have hmap := writeAll_map (rename t value) i.defs t s.file x.file (s.response sem id i).values
    rw [rename_self] at hmap
    refine hmap ?_ fun hnot => absurd hdef hnot
    intro k hk heq
    exact eq_of_rename_eq_value (hne k (hbelow k (.inr hk))) heq
  · rw [hfile]
    refine writeAll_of_not_mem ?_ _ _
    intro hmem
    obtain ⟨k, -, heq⟩ := List.mem_map.mp hmem
    obtain ⟨hkt, hnot⟩ := (rename_eq_iff (hne t ht)).mp heq
    exact hnot hkt

end Main

-- ── One instruction and its window ───────────────────────────────────────────

/-- What is asked of the code, of the spilled temporary and of the first new one. -/
structure Suited (sem : Semantics) (code : Code) (t : Temp) (limit : Nat) : Prop where
  mmix : Mmix sem
  ne_pointer : t ≠ code.frame.pointer
  temp_lt : t.index < limit
  pointer_lt : code.frame.pointer.index < limit
  result_lt : code.frame.result.index < limit
  below : ∀ i ∈ code.instrs, ∀ u, Touches u i → u.index < limit
  keeps_pointer : ∀ i ∈ code.instrs, code.frame.pointer ∉ i.defs

/-- The new code holds the windows of the old one. -/
structure Patches (code : Code) (t : Temp) (d : Word) (limit : Nat) (new : Code) : Prop where
  instrs : new.instrs = patched code t d limit code.instrs
  exit : new.exit = code.exit
  frame : new.frame = code.frame

/-- Where control is in the new code. -/
def newControl (code : Code) (t : Temp) (d : Word) (limit : Nat) : Control → Control
  | .running p => .running (start code t d limit code.instrs p)
  | .left l => .left l
  | .stuck => .stuck

/-- The second state is one of the new code that stands for the first one. -/
structure Mirrors (code : Code) (t : Temp) (d : Word) (limit : Nat) (slot : Word)
    (s s' : Cpu Temp) : Prop where
  control : s'.control = newControl code t d limit s.control
  agrees : Agrees t limit s s'
  mem : ∀ addr, addr ≠ slot → s'.mem addr = s.mem addr
  pointer : slotWord code.frame d s = slot
  value : ∀ p, s.control = .running p → s'.mem slot = s.file t

/-- What is seen during `k` steps of the new code: which instructions of the old code are carried
    out, by number, and the results at its exits. -/
structure Shows (sem : Semantics) (code : Code) (t : Temp) (d : Word) (limit : Nat) (new : Code)
    (s' : Cpu Temp) (k : Nat) (executed : List Nat) (exits : List Word) : Prop where
  executed : (s'.collect sem new id (executed? new) k).filterMap
    (origin? code t d limit code.instrs) = executed
  exits : s'.collect sem new id (exitValue? sem new id) k = exits

variable {new : Code}

/-- What is seen in two portions of steps is seen one after the other. -/
theorem Shows.append {s' : Cpu Temp} {k k' : Nat} {es es' : List Nat} {xs xs' : List Word}
    (h : Shows sem code t d limit new s' k es xs)
    (h' : Shows sem code t d limit new (s'.run sem new id k) k' es' xs') :
    Shows sem code t d limit new s' (k + k') (es ++ es') (xs ++ xs') := by
  constructor
  · rw [collect_add, List.filterMap_append, h.executed, h'.executed]
  · rw [collect_add, h.exits, h'.exits]

/-- A jump in the new code leads to the window of where it leads in the old one. -/
theorem goto_eq (hnew : Patches code t d limit new) (l : Label) :
    new.goto l = newControl code t d limit (code.goto l) := by
  have hposition : new.position? l =
      (code.position? l).map (start code t d limit code.instrs) := by
    rw [Code.position?, hnew.instrs]
    exact findIdx?_patched code t d limit l code.instrs
  rw [Code.goto, Code.goto, hposition]
  cases code.position? l with
  | none => rfl
  | some p => rfl

theorem update_of_agree {mem mem' : Memory} (h : ∀ addr, addr ≠ slot → mem' addr = mem addr) :
    mem' = Function.update mem slot (mem' slot) := by
  funext addr
  by_cases haddr : addr = slot
  · rw [haddr, Function.update_self]
  · rw [Function.update_of_ne haddr]
    exact h addr haddr

/-- If the old code has come to its end, so has the new one. -/
theorem current?_eq_none (hnew : Patches code t d limit new) {s s' : Cpu Temp}
    (hcontrol : s'.control = newControl code t d limit s.control)
    (hs : s.current? code = none) : s'.current? new = none := by
  rw [current?, hcontrol]
  cases hc : s.control with
  | running p =>
      rw [current?, hc] at hs
      have hp : code.instrs.drop p = [] := by
        refine List.drop_eq_nil_of_le ?_
        exact List.getElem?_eq_none_iff.mp (Option.map_eq_none_iff.mp hs)
      have hdrop := drop_start code t d limit code.instrs p
      rw [hp, ← hnew.instrs] at hdrop
      show new.instrs[start code t d limit code.instrs p]?.map _ = none
      rw [List.getElem?_eq_none_iff.mpr (List.drop_eq_nil_iff.mp hdrop)]
      rfl
  | left l => rfl
  | stuck => rfl

/-- A step that nothing is left for is matched by one that nothing is left for. -/
theorem mirrors_step_of_none (hnew : Patches code t d limit new) {s s' : Cpu Temp}
    (h : Mirrors code t d limit slot s s') (hs : s.current? code = none) :
    Mirrors code t d limit slot (s.step sem code id) (s'.run sem new id 1) ∧
    Shows sem code t d limit new s' 1 (s.executed? code).toList
      (s.exitValue? sem code id).toList := by
  have hs' := current?_eq_none hnew h.control hs
  have hstep : s'.run sem new id 1 = s' := step_of_no_current hs'
  rw [hstep, step_of_no_current hs]
  refine ⟨h, ?_, ?_⟩
  · simp [collect, executed?, hs, hs']
  · simp [collect, exitValue?, hs, hs']

/-- An instruction changes only the temporaries that it writes. -/
theorem file_perform_of_not_mem {i : Instr} {u : Temp} (h : u ∉ i.defs) (s : Cpu Temp) :
    (s.perform sem id i).file u = s.file u := by
  have hid : u ∉ i.defs.map id := by rwa [List.map_id]
  exact writeAll_of_not_mem hid _ s.file

/-- Behind the window the new state stands for the old one again, if the slot has the value of the
    spilled temporary there. -/
theorem mirrors_perform {i : Instr} {s z : Cpu Temp} {c : Control}
    (hpointer : code.frame.pointer ∉ i.defs) (hslot : slotWord code.frame d s = slot)
    (hcontrol : z.control = newControl code t d limit c)
    (hagrees : Agrees t limit (s.perform sem id i) z)
    (hmem : ∀ addr, addr ≠ slot → z.mem addr = (s.perform sem id i).mem addr)
    (hvalue : ∀ p, c = .running p → z.mem slot = (s.perform sem id i).file t) :
    Mirrors code t d limit slot { s.perform sem id i with control := c } z := by
  refine ⟨hcontrol, hagrees, hmem, ?_, hvalue⟩
  rw [← hslot, slotWord, slotWord]
  exact congrArg (fun x => octabyte (x - d)) (file_perform_of_not_mem hpointer s)

/-- Where control leaves, the result is the same: it was loaded again if it is in the slot. -/
theorem result_eq (hset : Suited sem code t limit) {i : Instr} {s x : Cpu Temp} {value : Temp}
    (hjump : t ∈ i.defs → s.taken? sem id i = none) (htaken : s.taken? sem id i = some code.exit)
    (hreload : Reloads code t i → x.file t = s.file t)
    (hagrees : Agrees t limit (s.perform sem id i)
      (x.perform sem id ((i.replaceUses t value).replaceDefs t value)))
    (htemp : (x.perform sem id ((i.replaceUses t value).replaceDefs t value)).file t = x.file t) :
    (x.perform sem id ((i.replaceUses t value).replaceDefs t value)).file code.frame.result =
      (s.perform sem id i).file code.frame.result := by
  by_cases hresult : t = code.frame.result
  · have hdefs : t ∉ i.defs := by
      intro hdef
      rw [hjump hdef] at htaken
      cases htaken
    rw [← hresult, htemp, hreload ⟨hresult, mem_jumps_of_taken? htaken⟩,
      file_perform_of_not_mem hdefs]
  · exact hagrees _ (Ne.symm hresult) hset.result_lt

theorem filterMap_range'_eq_nil {f : Nat → Option Nat} {q m : Nat} (h : ∀ j < m, f (q + j) = none) :
    (List.range' q m).filterMap f = [] := by
  rw [List.filterMap_eq_nil_iff]
  intro a ha
  rw [List.mem_range'_1] at ha
  have hj := h (a - q) (by omega)
  rwa [Nat.add_sub_cancel' ha.1] at hj

-- ── Through a window ─────────────────────────────────────────────────────────

section Through

variable {p : Nat} {i : Instr} {s s' : Cpu Temp}

/-- The first new temporary of the window of instruction `p`. -/
abbrev firstTemp (code : Code) (t : Temp) (limit p : Nat) : Nat :=
  limit + totalNeeded code t (code.instrs.take p)

/-- The window of instruction `p`. -/
abbrev windowAt (code : Code) (t : Temp) (d : Word) (limit p : Nat) (i : Instr) : Window :=
  window code t d (firstTemp code t limit p) i

/-- From the start of a window on, the new code is the window and the code behind it. -/
theorem drop_window (hnew : Patches code t d limit new) (hi : code.instrs[p]? = some i) :
    ∃ rest, new.instrs.drop (start code t d limit code.instrs p) =
      (windowAt code t d limit p i).before ++ (windowAt code t d limit p i).main ::
        ((windowAt code t d limit p i).after ++ rest) := by
  have hdrop := drop_start code t d limit code.instrs p
  rw [drop_eq_cons_iff.mpr ⟨hi, rfl⟩, ← hnew.instrs] at hdrop
  refine ⟨patched code t d (firstTemp code t limit p + tempsNeeded code t i)
    (code.instrs.drop (p + 1)), hdrop.trans ?_⟩
  show (windowAt code t d limit p i).instrs ++ _ = _
  rw [Window.instrs, List.append_assoc, List.cons_append]
  rfl

/-- The state in front of the instruction itself, inside its window. -/
structure Entered (code : Code) (t : Temp) (d : Word) (limit : Nat) (slot : Word) (p : Nat)
    (i : Instr) (s x : Cpu Temp) : Prop where
  control : x.control =
    .running (start code t d limit code.instrs p + (windowAt code t d limit p i).before.length)
  mem : x.mem = Function.update s.mem slot (s.file t)
  agrees : Agrees t limit s x
  reloaded : Reloads code t i → x.file t = s.file t
  loaded : t ∈ i.uses → x.file (valueTemp code t (firstTemp code t limit p) i) = s.file t

/-- The slot has the same address in states that agree. -/
theorem slotWord_of_agrees (hset : Suited sem code t limit) (h : Agrees t limit s s') :
    slotWord code.frame d s' = slotWord code.frame d s := by
  rw [slotWord, h _ (Ne.symm hset.ne_pointer) hset.pointer_lt]
  rfl

/-- The instructions in front bring the spilled temporary to where it is read, and nothing is seen
    of them. -/
theorem enter_window (hset : Suited sem code t limit) (hnew : Patches code t d limit new)
    (h : Mirrors code t d limit slot s s') (hs : s.control = .running p)
    (hi : code.instrs[p]? = some i) :
    Entered code t d limit slot p i s
      (s'.run sem new id (windowAt code t d limit p i).before.length) ∧
    Shows sem code t d limit new s' (windowAt code t d limit p i).before.length [] [] := by
  have hs' : s'.control = .running (start code t d limit code.instrs p) := by
    rw [h.control, hs]
    rfl
  have hn : limit ≤ firstTemp code t limit p := Nat.le_add_right _ _
  obtain ⟨rest, hcode⟩ := drop_window hnew hi
  obtain ⟨hrun, hexecuted, hexits⟩ :=
    run_straight hs' hcode fun j hj => (isPlain_before hj).straight
  obtain ⟨hmem, hagrees, hreload, hload⟩ := before_window (d := d) (i := i) hset.mmix hn
    hset.temp_lt hset.pointer_lt hset.ne_pointer s'
  have hslot : slotWord code.frame d s' = slot :=
    (slotWord_of_agrees hset h.agrees).trans h.pointer
  rw [hslot, h.value p hs] at hreload hload
  refine ⟨?_, ?_, hexits⟩
  · rw [hrun]
    refine ⟨rfl, ?_, h.agrees.trans hagrees, hreload, hload⟩
    show (s'.performAll sem id (windowAt code t d limit p i).before).mem = _
    rw [hmem, ← h.value p hs]
    exact update_of_agree h.mem
  · rw [hexecuted]
    refine filterMap_range'_eq_nil ?_
    intro j hj
    have hlen : j < (windowAt code t d limit p i).instrs.length := by
      rw [Window.instrs, List.length_append]
      exact Nat.lt_add_right _ hj
    rw [origin?_window code t d limit hi j hlen, if_neg (Nat.ne_of_lt hj)]

/-- Behind them comes the instruction itself. -/
theorem current?_main (hnew : Patches code t d limit new) (hi : code.instrs[p]? = some i)
    {x : Cpu Temp} (hx : x.control =
      .running (start code t d limit code.instrs p + (windowAt code t d limit p i).before.length)) :
    x.current? new =
      some (start code t d limit code.instrs p + (windowAt code t d limit p i).before.length,
        (windowAt code t d limit p i).main) := by
  obtain ⟨rest, hcode⟩ := drop_window hnew hi
  refine current?_of_running hx ?_
  have hget := congrArg (·[(windowAt code t d limit p i).before.length]?) hcode
  simp only [List.getElem?_drop, List.getElem?_append_right (Nat.le_refl _), Nat.sub_self,
    List.getElem?_cons_zero] at hget
  exact hget

/-- The instruction in the window leaves the function with the same result as the old one. -/
theorem exitValue?_main (hset : Suited sem code t limit) (hnew : Patches code t d limit new)
    {x : Cpu Temp} {q : Nat} {value : Temp}
    (hx : x.current? new = some (q, (i.replaceUses t value).replaceDefs t value))
    (hs : s.current? code = some (p, i))
    (htaken : x.taken? sem id ((i.replaceUses t value).replaceDefs t value) = s.taken? sem id i)
    (hjump : t ∈ i.defs → s.taken? sem id i = none)
    (hreload : Reloads code t i → x.file t = s.file t)
    (hagrees : Agrees t limit (s.perform sem id i)
      (x.perform sem id ((i.replaceUses t value).replaceDefs t value)))
    (htemp : (x.perform sem id ((i.replaceUses t value).replaceDefs t value)).file t = x.file t) :
    x.exitValue? sem new id = s.exitValue? sem code id := by
  rw [exitValue?, exitValue?, hx, hs, step_of_current hx, step_of_current hs]
  show (if _ = some new.exit then some (_ : Word) else none) =
    if s.taken? sem id i = some code.exit then some (_ : Word) else none
  rw [htaken, hnew.exit]
  split
  · next hleft =>
    show some ((perform sem id x _).file new.frame.result) =
      some ((s.perform sem id i).file code.frame.result)
    rw [hnew.frame, result_eq hset hjump hleft hreload hagrees htemp]
  · rfl

/-- The instruction itself: control goes where it goes in the old code, and the result is the same
    where it leaves. -/
theorem main_step (hset : Suited sem code t limit) (hnew : Patches code t d limit new)
    {x : Cpu Temp} (hx : Entered code t d limit slot p i s x) (hi : code.instrs[p]? = some i)
    (hs : s.current? code = some (p, i))
    (havoid : Avoids sem slot i (i.uses.map s.file) s.mem)
    (hjump : t ∈ i.defs → s.taken? sem id i = none) :
    (x.step sem new id).control =
      (match s.taken? sem id i with
        | some l => newControl code t d limit (code.goto l)
        | none =>
          if i.fallsThrough then .running (start code t d limit code.instrs p +
            (windowAt code t d limit p i).before.length + 1)
          else .stuck) ∧
    Agrees t limit (s.perform sem id i) (x.step sem new id) ∧
    (x.step sem new id).mem = Function.update (s.perform sem id i).mem slot (s.file t) ∧
    (t ∈ i.defs →
      (x.step sem new id).file (valueTemp code t (firstTemp code t limit p) i) =
        (s.perform sem id i).file t) ∧
    Shows sem code t d limit new x 1 [p] (s.exitValue? sem code id).toList := by
  have hcurrent := current?_main hnew hi hx.control
  rw [window_main] at hcurrent
  have hbelow := hset.below i (List.mem_of_getElem? hi)
  have hresponse := response_replace havoid hbelow hx.agrees hx.mem hx.loaded
  have htaken := taken?_replace hresponse
  obtain ⟨hagrees, hmem, hdef, htemp⟩ := patched_perform hresponse
    (Nat.le_trans (Nat.le_add_right _ _) (Nat.le_add_right _ _)) hset.temp_lt hbelow hx.agrees
  have hstep : x.step sem new id = _ := step_of_current hcurrent
  refine ⟨?_, ?_, ?_, ?_, ?_, ?_⟩
  · rw [hstep]
    show next sem new id x _ _ = _
    rw [next, htaken, fallsThrough_replace]
    cases s.taken? sem id i with
    | some l => exact goto_eq hnew l
    | none => rfl
  · rw [hstep]
    exact hagrees
  · rw [hstep]
    exact hmem
  · rw [hstep]
    exact hdef
  · -- of the window, only this instruction stands for one of the old code
    have hlen : (windowAt code t d limit p i).before.length <
        (windowAt code t d limit p i).instrs.length := by
      rw [Window.instrs, List.length_append, List.length_cons]
      omega
    have horigin := origin?_window code t d limit hi _ hlen
    rw [if_pos rfl] at horigin
    simp [collect, executed?, hcurrent, horigin]
  · have hexit : x.exitValue? sem new id = s.exitValue? sem code id :=
      exitValue?_main hset hnew hcurrent hs htaken hjump hx.reloaded hagrees htemp
    rw [collect, hexit]
    exact List.append_nil _

/-- What comes behind the instruction, where control goes on from it. -/
theorem leave_window (hset : Suited sem code t limit) (hnew : Patches code t d limit new)
    (hslot : slotWord code.frame d s = slot) (hi : code.instrs[p]? = some i) {y : Cpu Temp}
    (hy : y.control = .running
      (start code t d limit code.instrs p + (windowAt code t d limit p i).before.length + 1))
    (hagrees : Agrees t limit (s.perform sem id i) y)
    (hmem : y.mem = Function.update (s.perform sem id i).mem slot (s.file t))
    (hdef : t ∈ i.defs → y.file (valueTemp code t (firstTemp code t limit p) i) =
      (s.perform sem id i).file t) :
    Mirrors code t d limit slot { s.perform sem id i with control := .running (p + 1) }
      (y.run sem new id (windowAt code t d limit p i).after.length) ∧
    Shows sem code t d limit new y (windowAt code t d limit p i).after.length [] [] := by
  have hmemi := List.mem_of_getElem? hi
  have hn : limit ≤ firstTemp code t limit p := Nat.le_add_right _ _
  have hlen : (windowAt code t d limit p i).instrs.length =
      (windowAt code t d limit p i).before.length +
        ((windowAt code t d limit p i).after.length + 1) := by
    rw [Window.instrs, List.length_append, List.length_cons]
  obtain ⟨rest, hcode⟩ := drop_window hnew hi
  have hcode' : new.instrs.drop
      (start code t d limit code.instrs p + (windowAt code t d limit p i).before.length + 1) =
        (windowAt code t d limit p i).after ++ rest := by
    have hdrop := congrArg (List.drop ((windowAt code t d limit p i).before.length + 1)) hcode
    rw [List.drop_drop, ← Nat.add_assoc] at hdrop
    rw [hdrop, List.drop_length_add_append]
    rfl
  obtain ⟨hrun, hexecuted, hexits⟩ :=
    run_straight hy hcode' fun j hj => (isPlain_after hj).straight
  refine ⟨?_, ?_, hexits⟩
  · rw [hrun]
    have hcontrol : Control.running (start code t d limit code.instrs p +
        (windowAt code t d limit p i).before.length + 1 +
          (windowAt code t d limit p i).after.length) =
        newControl code t d limit (.running (p + 1)) := by
      rw [newControl, start_succ code t d limit hi, hlen]
      congr 1
      omega
    have hslot' : slotWord code.frame d y = slot := by
      rw [slotWord_of_agrees hset hagrees, ← hslot, slotWord, slotWord,
        file_perform_of_not_mem (hset.keeps_pointer i hmemi)]
    by_cases hd : t ∈ i.defs
    · -- the instruction writes the temporary, and the store brings it to the slot
      obtain ⟨hagrees', hmem'⟩ := after_window (d := d) hset.mmix hn hset.pointer_lt hd y
      rw [hslot', hdef hd, hmem, Function.update_idem] at hmem'
      refine mirrors_perform (hset.keeps_pointer i hmemi) hslot hcontrol
        (hagrees.trans hagrees') ?_ ?_
      · intro addr haddr
        show (y.performAll sem id _).mem addr = _
        rw [hmem', Function.update_of_ne haddr]
      · intro _ _
        show (y.performAll sem id _).mem slot = _
        rw [hmem', Function.update_self]
    · -- nothing is stored, and the slot still holds the value
      have hnil : (windowAt code t d limit p i).after = [] := by
        rw [window_after, if_neg hd]
      rw [hnil] at hcontrol ⊢
      refine mirrors_perform (hset.keeps_pointer i hmemi) hslot hcontrol hagrees ?_ ?_
      · intro addr haddr
        show y.mem addr = _
        rw [hmem, Function.update_of_ne haddr]
      · intro _ _
        show y.mem slot = _
        rw [hmem, Function.update_self, file_perform_of_not_mem hd]
  · rw [hexecuted]
    refine filterMap_range'_eq_nil ?_
    intro j hj
    -- the instructions of the store stand for none of the old code
    have hlt : (windowAt code t d limit p i).before.length + 1 + j <
        (windowAt code t d limit p i).instrs.length := by omega
    have hne : (windowAt code t d limit p i).before.length + 1 + j ≠
        (windowAt code t d limit p i).before.length := by omega
    have horigin := origin?_window code t d limit hi _ hlt
    rw [if_neg hne, ← Nat.add_assoc, ← Nat.add_assoc] at horigin
    exact horigin

/-- Running through the window of an instruction matches carrying out the instruction. -/
theorem mirrors_step (hset : Suited sem code t limit) (hnew : Patches code t d limit new)
    (h : Mirrors code t d limit slot s s') (hs : s.current? code = some (p, i))
    (havoid : Avoids sem slot i (i.uses.map s.file) s.mem)
    (hjump : t ∈ i.defs → s.taken? sem id i = none) :
    ∃ k, 0 < k ∧ Mirrors code t d limit slot (s.step sem code id) (s'.run sem new id k) ∧
      Shows sem code t d limit new s' k (s.executed? code).toList
        (s.exitValue? sem code id).toList := by
  obtain ⟨hcontrol, hi⟩ := current?_eq_some hs
  have hpointer := hset.keeps_pointer i (List.mem_of_getElem? hi)
  have hexecuted : (s.executed? code).toList = [p] := by
    rw [executed?, hs]
    rfl
  obtain ⟨hx, hbefore⟩ := enter_window hset hnew h hcontrol hi
  obtain ⟨hgoes, hagrees, hmem, hdef, hmain⟩ := main_step hset hnew hx hi hs havoid hjump
  have hshows := hbefore.append hmain
  have hsame : ∀ addr, addr ≠ slot → ((s'.run sem new id
      (windowAt code t d limit p i).before.length).step sem new id).mem addr =
        (s.perform sem id i).mem addr := by
    intro addr haddr
    rw [hmem, Function.update_of_ne haddr]
  rw [step_of_current hs, hexecuted]
  have hone : s'.run sem new id ((windowAt code t d limit p i).before.length + 1) =
      (s'.run sem new id (windowAt code t d limit p i).before.length).step sem new id :=
    run_add _ 1 s'
  cases htaken : s.taken? sem id i with
  | some l =>
      -- control jumps, so nothing wrote the temporary and nothing comes behind
      rw [htaken] at hgoes
      have hdefs : t ∉ i.defs := by
        intro hd
        rw [hjump hd] at htaken
        cases htaken
      refine ⟨(windowAt code t d limit p i).before.length + 1, Nat.succ_pos _, ?_, hshows⟩
      rw [hone, next, htaken]
      refine mirrors_perform hpointer h.pointer hgoes hagrees hsame ?_
      intro _ _
      rw [hmem, Function.update_self, file_perform_of_not_mem hdefs]
  | none =>
      rw [htaken] at hgoes
      cases hfalls : i.fallsThrough with
      | false =>
          rw [hfalls] at hgoes
          -- control is stuck, so the slot does not matter any more
          refine ⟨(windowAt code t d limit p i).before.length + 1, Nat.succ_pos _, ?_, hshows⟩
          rw [hone, next, htaken, hfalls]
          refine mirrors_perform hpointer h.pointer hgoes hagrees hsame ?_
          intro _ hrunning
          cases hrunning
      | true =>
          rw [hfalls] at hgoes
          obtain ⟨hmirrors, hafter⟩ :=
            leave_window hset hnew h.pointer hi hgoes hagrees hmem hdef
          refine ⟨(windowAt code t d limit p i).before.length + 1 +
            (windowAt code t d limit p i).after.length, by omega, ?_, ?_⟩
          · rw [run_add, hone, next, htaken, hfalls]
            exact hmirrors
          · rw [← hone] at hafter
            have hall := hshows.append hafter
            rwa [List.append_nil, List.append_nil] at hall

end Through

-- ── Whole runs ───────────────────────────────────────────────────────────────

/-- The new code keeps standing for the old one, window by window. By induction on the steps of the
    old code. -/
theorem mirrors_run (hset : Suited sem code t limit) (hnew : Patches code t d limit new)
    {s s' : Cpu Temp} (h : Mirrors code t d limit slot s s')
    (havoid : ∀ n p i, (s.run sem code id n).current? code = some (p, i) →
      Avoids sem slot i (i.uses.map (s.run sem code id n).file) (s.run sem code id n).mem)
    (hjump : ∀ n p i, (s.run sem code id n).current? code = some (p, i) → t ∈ i.defs →
      (s.run sem code id n).taken? sem id i = none) (n : Nat) :
    ∃ N, n ≤ N ∧ Mirrors code t d limit slot (s.run sem code id n) (s'.run sem new id N) ∧
      Shows sem code t d limit new s' N (s.collect sem code id (executed? code) n)
        (s.collect sem code id (exitValue? sem code id) n) := by
  induction n with
  | zero => exact ⟨0, Nat.le_refl 0, h, rfl, rfl⟩
  | succ n ih =>
      obtain ⟨N, hN, hmirrors, hshows⟩ := ih
      obtain ⟨k, hk, hmirrors', hshows'⟩ : ∃ k, 0 < k ∧
          Mirrors code t d limit slot ((s.run sem code id n).step sem code id)
            ((s'.run sem new id N).run sem new id k) ∧
          Shows sem code t d limit new (s'.run sem new id N) k
            ((s.run sem code id n).executed? code).toList
            ((s.run sem code id n).exitValue? sem code id).toList := by
        cases hs : (s.run sem code id n).current? code with
        | none => exact ⟨1, Nat.one_pos, mirrors_step_of_none hnew hmirrors hs⟩
        | some current =>
            obtain ⟨p, i⟩ := current
            exact mirrors_step hset hnew hmirrors hs (havoid n p i hs) (hjump n p i hs)
      refine ⟨N + k, by omega, ?_, ?_⟩
      · rw [run_add N k, run_add n 1]
        exact hmirrors'
      · rw [collect_succ, collect_succ]
        exact hshows.append hshows'

/-- What is given when a temporary is spilled and both codes start in the same state: the slot has
    an address and holds the value of the temporary, the new temporaries are new, the operations
    that reach the slot mean what they mean on the machine, and no instruction of the old code
    touches the slot or writes the frame pointer. -/
structure Given (sem : Semantics) (a : Allocation) (t : Temp) (names : Supply) (d : Word)
    (s : Cpu Temp) : Prop where
  mmix : Mmix sem
  distance : a.code.frame.slotDistance (a.spills.slotOf t) = .ok d
  ne_pointer : t ≠ a.code.frame.pointer
  below : ∀ i ∈ a.code.instrs, ∀ u, Touches u i → u.index < names.temps
  result_lt : a.code.frame.result.index < names.temps
  pointer_lt : a.code.frame.pointer.index < names.temps
  keeps_pointer : ∀ i ∈ a.code.instrs, a.code.frame.pointer ∉ i.defs
  starts : s.control = .running 0
  holds : s.mem (slotWord a.code.frame d s) = s.file t
  avoids : ∀ n p i, (s.run sem a.code id n).current? a.code = some (p, i) →
    Avoids sem (slotWord a.code.frame d s) i (i.uses.map (s.run sem a.code id n).file)
      (s.run sem a.code id n).mem

/-- The first `N` steps of the new code do what the first `n` steps of the old code do. -/
structure Follows (sem : Semantics) (a a' : Allocation) (t : Temp) (names : Supply) (d : Word)
    (s : Cpu Temp) (n N : Nat) : Prop where
  /-- The same instructions are carried out in the same order. -/
  executed : (s.collect sem a'.code id (executed? a'.code) N).filterMap
      (origin? a.code t d names.temps a.code.instrs) =
    s.collect sem a.code id (executed? a.code) n
  /-- The result is the same at each jump to the exit label. -/
  exits : s.collect sem a'.code id (exitValue? sem a'.code id) N =
    s.collect sem a.code id (exitValue? sem a.code id) n
  temps : ∀ u, u ≠ t → u.index < names.temps →
    (s.run sem a'.code id N).file u = (s.run sem a.code id n).file u
  mem : ∀ addr, addr ≠ slotWord a.code.frame d s →
    (s.run sem a'.code id N).mem addr = (s.run sem a.code id n).mem addr
  /-- Control has left for a label in the one code if it has in the other. -/
  left : ∀ l, (s.run sem a'.code id N).control = .left l ↔
    (s.run sem a.code id n).control = .left l

/-- A spill keeps the exit of the function. -/
theorem exit_spill {ω : Type} {a a' : Allocation} {names : Supply} {r : Except Error Unit}
    (h : ((a.spill t : Emit ω _).run names).value = (r, a')) : a'.code.exit = a.code.exit := by
  rw [Emit.run, Allocation.spill] at h
  split at h
  · obtain ⟨-, rfl⟩ := Prod.mk.inj h
    rfl
  · obtain ⟨-, rfl⟩ := Prod.mk.inj h
    rfl

/-- What is given when a temporary is spilled is what is asked of the code. -/
theorem suited_of_given {ω : Type} {a a' : Allocation} {names : Supply} {s : Cpu Temp}
    (hspill : ((a.spill t : Emit ω _).run names).value = (.ok (), a'))
    (h : Given sem a t names d s) : Suited sem a.code t names.temps := by
  obtain ⟨-, -, -, -, -, i, hi, hneeds⟩ := a.spill_eq_ok hspill
  have htemp : t.index < names.temps := by
    rcases hneeds with hreloads | htouches
    · rw [hreloads.1]
      exact h.result_lt
    · exact h.below i hi t htouches
  exact ⟨h.mmix, h.ne_pointer, htemp, h.pointer_lt, h.result_lt, h.below, h.keeps_pointer⟩

/-- **Spilling keeps what code does,** as long as no instruction that writes the temporary is left
    by a jump. For every number of steps of the old code there is a number of steps of the new one,
    not smaller, that carries out the same instructions and leaves with the same results. All other
    temporaries and all words but the slot are then the same. -/
theorem spill_keeps_behaviour {ω : Type} (sem : Semantics) (a a' : Allocation) (t : Temp)
    (names : Supply) (d : Word) (s : Cpu Temp)
    (hspill : ((a.spill t : Emit ω _).run names).value = (.ok (), a'))
    (h : Given sem a t names d s)
    (hjump : ∀ n p i, (s.run sem a.code id n).current? a.code = some (p, i) → t ∈ i.defs →
      (s.run sem a.code id n).taken? sem id i = none) (n : Nat) :
    ∃ N, n ≤ N ∧ Follows sem a a' t names d s n N := by
  obtain ⟨d', hd', hframe, hinstrs, -, -⟩ := a.spill_eq_ok hspill
  obtain rfl : d' = d := by
    rw [h.distance] at hd'
    exact (Except.ok.inj hd').symm
  have hnew : Patches a.code t d' names.temps a'.code := ⟨hinstrs, exit_spill hspill, hframe⟩
  have hstart : Mirrors a.code t d' names.temps (slotWord a.code.frame d' s) s s := by
    refine ⟨?_, fun _ _ _ => rfl, fun _ _ => rfl, rfl, fun _ _ => h.holds⟩
    rw [h.starts]
    rfl
  obtain ⟨N, hN, hmirrors, hshows⟩ :=
    mirrors_run (suited_of_given hspill h) hnew hstart h.avoids hjump n
  refine ⟨N, hN, hshows.executed, hshows.exits, hmirrors.agrees, hmirrors.mem, ?_⟩
  intro l
  rw [hmirrors.control]
  cases (s.run sem a.code id n).control with
  | running p => exact ⟨nofun, nofun⟩
  | left l' => exact Iff.rfl
  | stuck => exact Iff.rfl

/-- Beside the machine's own operations, a branch looks at its register, and anything else writes
    the number 7 and jumps. -/
def jumping : Semantics :=
  machine fun op vals mem =>
    match op, vals with
    | .branchNonZero _, [x] => ⟨fun _ => 7, mem, if x = 0 then none else some 0⟩
    | _, _ => ⟨fun _ => 7, mem, some 0⟩

/-- Counts its result down in a loop and leaves with it. -/
def countdown : Code where
  frame := ⟨.named "f", 1, 8, 0, ⟨0⟩, ⟨1⟩⟩
  entry := .named "f"
  exit := .named "exit"
  instrs := [.label (.named "top"), .plain (.alu .sub) [⟨0⟩, ⟨2⟩] [⟨0⟩],
    .oper (.branchNonZero (.named "top")) [⟨0⟩] [] [.named "top"] true,
    .oper (.jump (.named "exit")) [] [] [.named "exit"] false]

/-- It counts down from 6 by 3, and 6 is also in the slot of the result. -/
def countdownStart : Cpu Temp where
  control := .running 0
  file t := if t = ⟨1⟩ then 1000 else if t = ⟨0⟩ then 6 else 3
  mem addr := if addr = 968 then 6 else 0

/-- All of that is given when the result of the countdown is spilled. -/
theorem given_countdown :
    Given jumping ⟨countdown, {}⟩ ⟨0⟩ { temps := 3 } 32 countdownStart where
  mmix := mmix_machine _
  distance := rfl
  ne_pointer := by decide
  below := by
    have hall : ∀ i ∈ countdown.instrs, ∀ u ∈ i.uses ++ i.defs, u.index < 3 := by decide
    intro i hi u hu
    exact hall i hi u (List.mem_append.mpr hu)
  result_lt := by decide
  pointer_lt := by decide
  keeps_pointer := by decide
  starts := rfl
  holds := rfl
  avoids := by
    -- no instruction of this code looks at the memory
    intro n p i hi
    have hmem := List.mem_of_getElem? (current?_eq_some hi).2
    simp only [countdown, List.mem_cons, List.not_mem_nil, or_false] at hmem
    rcases hmem with rfl | rfl | rfl | rfl <;> exact fun x => rfl

/-- The result itself is spilled: it is read and written by one instruction in a loop, and loaded
    again before control leaves. -/
theorem spill_keeps_behaviour_countdown :
    ∃ N, 7 ≤ N ∧
      Follows jumping ⟨countdown, {}⟩
        ((Allocation.spill ⟨countdown, {}⟩ ⟨0⟩ : Emit Instr _).run { temps := 3 }).value.2 ⟨0⟩
        { temps := 3 } 32 countdownStart 7 N ∧
      countdownStart.collect jumping countdown id (executed? countdown) 7 = [0, 1, 2, 0, 1, 2, 3] ∧
      countdownStart.collect jumping countdown id (exitValue? jumping countdown id) 7 = [0] := by
  have hspill : ((Allocation.spill ⟨countdown, {}⟩ ⟨0⟩ : Emit Instr _).run { temps := 3 }).value =
      (.ok (), _) := rfl
  obtain ⟨N, hN, hfollows⟩ := spill_keeps_behaviour jumping _ _ _ _ _ _ hspill given_countdown
    (by
      intro n p i hi hdef
      have hmem := List.mem_of_getElem? (current?_eq_some hi).2
      simp only [countdown, List.mem_cons, List.not_mem_nil, or_false] at hmem
      rcases hmem with rfl | rfl | rfl | rfl
      · cases hdef
      · rfl
      · cases hdef
      · cases hdef) 7
  exact ⟨N, hN, hfollows, rfl, rfl⟩

-- ── Where control leaves a write by a jump ───────────────────────────────────

/-- A store to another word avoids the slot. -/
theorem avoids_store {other : Semantics} {slot x addr : Word} {uses : List Temp} {mem : Memory}
    (h : octabyte addr ≠ slot) :
    Avoids (machine other) slot (.plain .store uses []) [x, addr] mem := by
  intro y
  exact congrArg (Response.mk (fun _ => 0) · none) (Function.update_comm h x y mem).symm

/-- Writes a temporary and jumps to where the temporary is read. -/
def link : Code where
  frame := ⟨.named "f", 1, 8, 0, ⟨0⟩, ⟨1⟩⟩
  entry := .named "f"
  exit := .named "exit"
  instrs := [.oper (.verbatim "GO `d0,`s0,0") [⟨2⟩] [⟨5⟩] [.named "L"] false,
    .label (.named "L"), .plain .store [⟨5⟩, ⟨6⟩] []]

/-- What the temporary holds goes to the word at 64. -/
def linkStart : Cpu Temp where
  control := .running 0
  file t := if t = ⟨1⟩ then 1000 else if t = ⟨6⟩ then 64 else 0
  mem _ := 0

/-- All of that is given as well when the temporary that the jump writes is spilled. -/
theorem given_link : Given jumping ⟨link, {}⟩ ⟨5⟩ { temps := 7 } 32 linkStart where
  mmix := mmix_machine _
  distance := rfl
  ne_pointer := by decide
  below := by
    have hall : ∀ i ∈ link.instrs, ∀ u ∈ i.uses ++ i.defs, u.index < 7 := by decide
    intro i hi u hu
    exact hall i hi u (List.mem_append.mpr hu)
  result_lt := by decide
  pointer_lt := by decide
  keeps_pointer := by decide
  starts := rfl
  holds := rfl
  avoids := by
    intro n p i hi
    rcases n with - | - | - | n
    · obtain ⟨-, rfl⟩ := Prod.mk.inj (Option.some.inj hi)
      exact fun x => rfl
    · obtain ⟨-, rfl⟩ := Prod.mk.inj (Option.some.inj hi)
      exact fun x => rfl
    · -- the store goes to 64, and the slot is at 968
      obtain ⟨-, rfl⟩ := Prod.mk.inj (Option.some.inj hi)
      have hne : octabyte 64 ≠ 968 := by decide
      exact avoids_store hne
    · have hend : (linkStart.run jumping link id 3).current? link = none := rfl
      have hrun : (linkStart.run jumping link id (3 + n)).current? link = some (p, i) := by
        rw [Nat.add_comm]
        exact hi
      rw [run_of_no_current hend, hend] at hrun
      cases hrun

/-- The code with this temporary spilled. -/
def spilledLink : Allocation :=
  ((Allocation.spill ⟨link, {}⟩ ⟨5⟩ : Emit Instr _).run { temps := 7 }).value.2

/-- The jump skips the store to the slot, so that the old word of the slot is read. -/
theorem mem_spilledLink (N : Nat) :
    (linkStart.run jumping spilledLink.code id N).mem 64 = 0 := by
  have hend : (linkStart.run jumping spilledLink.code id 6).current? spilledLink.code = none := rfl
  have hall : ∀ k < 7, (linkStart.run jumping spilledLink.code id k).mem 64 = 0 := by decide
  rcases Nat.lt_or_ge N 7 with h | h
  · exact hall N h
  · obtain ⟨k, rfl⟩ := Nat.exists_eq_add_of_le (Nat.le_of_succ_le h)
    rw [run_of_no_current hend]
    exact hall 6 (by decide)

/-- Without the condition on jumps, spilling can change what code does. -/
theorem spill_loses_value_on_jump :
    ¬ ∀ (sem : Semantics) (a a' : Allocation) (t : Temp) (names : Supply) (d : Word)
        (s : Cpu Temp), ((a.spill t : Emit Instr _).run names).value = (.ok (), a') →
      Given sem a t names d s → ∀ n, ∃ N, n ≤ N ∧ Follows sem a a' t names d s n N := by
  intro h
  obtain ⟨N, -, hfollows⟩ :=
    h jumping ⟨link, {}⟩ spilledLink ⟨5⟩ { temps := 7 } 32 linkStart rfl given_link 3
  have hmem := hfollows.mem 64 (by decide)
  rw [mem_spilledLink] at hmem
  exact absurd hmem (by decide)

end Spill

end MmixBackend
