import MmixBackend.Proofs.BlockLayout
import MmixBackend.Proofs.LoweredShape

/-!
# Blocks that read nothing unknown

At a label nothing is known but the frame pointer. Code is *ready* if it gets along with that: what
it reads was assigned since the last label, and so was the result where control leaves for the exit.
Every block that such code is cut into stands on its own, and so does every block that two of them
are joined to.

* **`Structured.ready`** — lowered code is ready.
* **`ready_foldLabels`** — folding labels keeps code ready.
* **`known_labelledBlocks`** — the blocks of ready code are known.
* **`all_merge`** — what joining two blocks keeps holds after merging.
* **`layOut_known`** — so the laid-out code of a function is made of known blocks.
-/

namespace MmixBackend

namespace Flat

-- ── Ready code ───────────────────────────────────────────────────────────────

/-- Behind `known`, the code reads only what was assigned since the last label, and leaves for the
    exit only with the result. Nothing is asked of code behind a transfer. -/
def Ready (callees : List Label) (exit : Label) (frame : Frame) (known : Temp → Prop) :
    List Stmt → Prop
  | [] => known frame.result
  | .label l :: rest => l ≠ exit ∧ Ready callees exit frame (· = frame.pointer) rest
  | .act a :: rest => Line callees known [.act a] ∧
      Ready callees exit frame (After known [.act a]) rest
  | .transfer t :: rest => (∀ u ∈ t.temps, known u) ∧ (exit ∈ t.targets → known frame.result) ∧
      Ready callees exit frame (fun _ => True) rest

variable {callees : List Label} {exit : Label} {frame : Frame} {known known' : Temp → Prop}
  {code rest : List Stmt}

/-- Code is also ready if more is known. -/
theorem Ready.mono (hle : ∀ t, known t → known' t) (h : Ready callees exit frame known code) :
    Ready callees exit frame known' code := by
  induction code generalizing known known' with
  | nil => exact hle _ h
  | cons st code ih =>
      cases st with
      | label l => exact h
      | act a => exact ⟨h.1.mono hle, ih (fun _ => After.mono hle _) h.2⟩
      | transfer t => exact ⟨fun u hu => hle u (h.1 u hu), fun hexit => hle _ (h.2.1 hexit), h.2.2⟩

/-- A line of actions hands on what it assigns to the code behind it. -/
theorem ready_line (hline : Line callees known code)
    (hrest : Ready callees exit frame (After known code) rest) :
    Ready callees exit frame known (code ++ rest) := by
  induction code generalizing known with
  | nil => rwa [after_nil] at hrest
  | cons st code ih =>
      cases st with
      | act a =>
          obtain ⟨hfirst, hline⟩ := line_cons.mp hline
          rw [after_cons] at hrest
          exact ⟨hfirst, ih hline hrest⟩
      | _ => exact hline.elim

/-- A jump to a label that is not the exit. -/
theorem ready_jump {l : Label} (hl : l ≠ exit)
    (hrest : Ready callees exit frame (fun _ => True) rest) :
    Ready callees exit frame known (.transfer (.jump l) :: rest) :=
  ⟨fun _ hu => absurd hu List.not_mem_nil, fun h => absurd (List.mem_singleton.mp h) hl.symm, hrest⟩

/-- A branch on something known, with the label of its positive case behind it. -/
theorem ready_guard {t : Temp} {ifTrue neg ifFalse : Label} (ht : known t) (htrue : ifTrue ≠ exit)
    (hneg : neg ≠ exit) (hfalse : ifFalse ≠ exit)
    (hrest : Ready callees exit frame (· = frame.pointer) rest) :
    Ready callees exit frame known (guard t ifTrue neg ifFalse ++ rest) := by
  refine ⟨fun u hu => List.mem_singleton.mp hu ▸ ht, ?_, hneg, ready_jump hfalse ⟨htrue, hrest⟩⟩
  intro h
  rcases List.mem_cons.mp h with h | h
  · exact absurd h.symm htrue
  · exact absurd (List.mem_singleton.mp h).symm hneg

/-- Lowered code is ready wherever the frame pointer is known, if the exit is none of its labels. -/
theorem Structured.ready (h : Structured callees frame.pointer code)
    (hexit : exit ∉ definedLabels code)
    (hrest : Ready callees exit frame (· = frame.pointer) rest) :
    Ready callees exit frame (· = frame.pointer) (code ++ rest) := by
  induction h generalizing rest with
  | line h => exact ready_line h (hrest.mono fun _ => .inl)
  | append _ _ ih ih' =>
      rw [definedLabels_append, List.mem_append, not_or] at hexit
      rw [List.append_assoc]
      exact ih hexit.1 (ih' hexit.2 hrest)
  | conditional htest ht thenLabel neg elseLabel endLabel _ _ ih ih' =>
      have hperm := (perm_definedLabels_conditional htest.acts _ thenLabel neg elseLabel endLabel
        _ _).mem_iff.not.mpr hexit
      simp only [List.mem_append, List.mem_cons, List.not_mem_nil, or_false, not_or] at hperm
      obtain ⟨⟨hthen, helse, hend, hneg⟩, ha, hb⟩ := hperm
      simp only [Flat.conditional, List.append_assoc, List.cons_append, List.nil_append]
      refine ready_line htest (ready_guard ht (Ne.symm hthen) (Ne.symm hneg) (Ne.symm helse) ?_)
      refine ih ha (ready_jump (Ne.symm hend) ⟨Ne.symm helse, ?_⟩)
      exact ih' hb (ready_jump (Ne.symm hend) ⟨Ne.symm hend, hrest⟩)
  | loop htest ht condLabel bodyLabel neg endLabel _ ih =>
      have hperm := (perm_definedLabels_loop htest.acts _ condLabel bodyLabel neg endLabel
        _).mem_iff.not.mpr hexit
      simp only [List.mem_append, List.mem_cons, List.not_mem_nil, or_false, not_or] at hperm
      obtain ⟨⟨hcond, hbody, hend, hneg⟩, ha⟩ := hperm
      simp only [Flat.loop, List.append_assoc, List.cons_append, List.nil_append]
      refine ⟨Ne.symm hcond, ready_line htest (ready_guard ht (Ne.symm hbody) (Ne.symm hneg)
        (Ne.symm hend) ?_)⟩
      exact ih ha (ready_jump (Ne.symm hcond) ⟨Ne.symm hend, hrest⟩)

-- ── Folding labels ───────────────────────────────────────────────────────────

/-- A label directly behind another one can be dropped: both leave only the frame pointer known. -/
theorem ready_dropAliases (kept : Option Label) (hkept : kept ≠ none → known = (· = frame.pointer))
    (h : Ready callees exit frame known code) :
    Ready callees exit frame known (dropAliases kept code) := by
  induction code generalizing known kept with
  | nil => exact h
  | cons st code ih =>
      cases st with
      | label l =>
          cases kept with
          | none => exact ⟨h.1, ih (some l) (fun _ => rfl) h.2⟩
          | some k =>
              obtain rfl := hkept nofun
              exact ih (some k) (fun _ => rfl) h.2
      | act a => exact ⟨h.1, ih none (fun hne => absurd rfl hne) h.2⟩
      | transfer t => exact ⟨h.1, h.2.1, ih none (fun hne => absurd rfl hne) h.2.2⟩

/-- Jumps may be sent elsewhere, but not to the exit. -/
theorem ready_map_retarget {f : Label → Label} (hf : ∀ l, f l = exit → l = exit)
    (h : Ready callees exit frame known code) :
    Ready callees exit frame known (code.map (·.retarget f)) := by
  induction code generalizing known with
  | nil => exact h
  | cons st code ih =>
      cases st with
      | label l => exact ⟨h.1, ih h.2⟩
      | act a => exact ⟨h.1, ih h.2⟩
      | transfer t =>
          obtain ⟨htemps, hexit, hrest⟩ := h
          cases t with
          | jump l =>
              refine ⟨htemps, ?_, ih hrest⟩
              intro h
              exact hexit (List.mem_singleton.mpr (hf l (List.mem_singleton.mp h).symm).symm)
          | branch u l l' =>
              refine ⟨htemps, ?_, ih hrest⟩
              intro h
              refine hexit ?_
              rcases List.mem_cons.mp h with h | h
              · exact List.mem_cons.mpr (.inl (hf l h.symm).symm)
              · exact List.mem_cons_of_mem _
                  (List.mem_singleton.mpr (hf l' (List.mem_singleton.mp h).symm).symm)

/-- Folding labels leaves code ready: it forgets labels, and with them nothing that is known. -/
theorem ready_foldLabels (hnodup : (definedLabels code).Nodup) (hexit : exit ∉ definedLabels code)
    (h : Ready callees exit frame known code) :
    Ready callees exit frame known (foldLabels code) := by
  rw [foldLabels_eq]
  refine ready_map_retarget ?_ (ready_dropAliases none (fun hne => absurd rfl hne) h)
  intro l hl
  rcases foldTarget_cases hnodup l with heq | hmem
  · exact heq.symm.trans hl
  · exact absurd (hl ▸ hmem) hexit

end Flat

-- ── Known blocks ─────────────────────────────────────────────────────────────

open Flat

/-- With nothing but the frame pointer known at its start, the block reads only what it has
    assigned, and leaves for the exit only with the result. -/
structure Block.Known (callees : List Label) (exit : Label) (frame : Frame) (b : Block) : Prop where
  line : Line callees (· = frame.pointer) (b.body.map .act)
  test : ∀ t ∈ b.last.temps, After (· = frame.pointer) (b.body.map .act) t
  result : exit ∈ b.last.targets → After (· = frame.pointer) (b.body.map .act) frame.result

variable {callees : List Label} {exit : Label} {frame : Frame} {known : Temp → Prop}
  {code : List Stmt}

/-- What ready code does up to its next label or transfer. -/
theorem ready_restOfBlock (h : Ready callees exit frame known code) :
    Line callees known ((restOfBlock exit code).1.map .act) ∧
      (∀ t ∈ (restOfBlock exit code).2.temps,
        After known ((restOfBlock exit code).1.map .act) t) ∧
      (exit ∈ (restOfBlock exit code).2.targets →
        After known ((restOfBlock exit code).1.map .act) frame.result) := by
  induction code generalizing known with
  | nil => exact ⟨trivial, fun _ ht => absurd ht List.not_mem_nil, fun _ => .inl h⟩
  | cons st code ih =>
      cases st with
      | label l =>
          refine ⟨trivial, fun _ ht => absurd ht List.not_mem_nil, ?_⟩
          intro hexit
          exact absurd (List.mem_singleton.mp hexit).symm h.1
      | act a =>
          obtain ⟨hline, htest, hresult⟩ := ih h.2
          rw [restOfBlock, List.map_cons, after_cons]
          exact ⟨line_cons.mpr ⟨h.1, hline⟩, htest, hresult⟩
      | transfer t => exact ⟨trivial, fun u hu => .inl (h.1 u hu), fun hexit => .inl (h.2.1 hexit)⟩

/-- Every block of ready code is known. -/
theorem known_labelledBlocks (h : Ready callees exit frame known code) :
    ∀ b ∈ labelledBlocks exit code, b.Known callees exit frame := by
  induction code generalizing known with
  | nil => exact List.forall_mem_nil _
  | cons st code ih =>
      cases st with
      | label l =>
          obtain ⟨hline, htest, hresult⟩ := ready_restOfBlock h.2
          exact List.forall_mem_cons.mpr ⟨⟨hline, htest, hresult⟩, ih h.2⟩
      | act a => exact ih h.2
      | transfer t => exact ih h.2.2

namespace BlockGraph

/-- A block that stands on its own may stand behind another one. -/
theorem known_joined {first second : Block} (h : first.Known callees exit frame)
    (h' : second.Known callees exit frame) : (joined first second).Known callees exit frame := by
  have hbody : (joined first second).body.map Stmt.act =
      first.body.map .act ++ second.body.map .act := List.map_append
  constructor
  · rw [hbody]
    exact h.line.join h'.line
  · intro t ht
    rw [hbody, after_append]
    exact After.mono (fun _ => .inl) _ (h'.test t ht)
  · intro hexit
    rw [hbody, after_append]
    exact After.mono (fun _ => .inl) _ (h'.result hexit)

-- ── Merging ──────────────────────────────────────────────────────────────────

section Merge

variable {P : Block → Prop} {g : BlockGraph}

/-- All blocks of the graph have the property. -/
def All (P : Block → Prop) (g : BlockGraph) : Prop :=
  ∀ (l : Label) (b : Block), g.blocks[l]? = some b → P b

/-- Dropping blocks keeps what holds of all blocks. -/
theorem all_dropUnreachable (h : g.All P) : g.dropUnreachable.All P := by
  intro l b hb
  have hmem := ((mem_dropUnreachable g l).mp (mem_of_getElem?_eq_some hb)).2
  rw [getElem?_dropUnreachable g hmem] at hb
  exact h l b hb

/-- Absorbing a block keeps what holds of all blocks and of two joined ones. -/
theorem all_absorb (hjoin : ∀ first second, P first → P second → P (joined first second))
    {a b : Label} {first second : Block} (hab : Absorbable g a b first second) (h : g.All P) :
    (g.absorb a b).All P := by
  intro l block hblock
  rw [absorb_blocks hab] at hblock
  split at hblock
  · cases hblock
  · split at hblock
    · obtain rfl := Option.some.inj hblock
      exact hjoin first second (h _ _ hab.first_eq) (h _ _ hab.second_eq)
    · exact h l block hblock

/-- What joining two blocks keeps holds of all blocks after merging. -/
theorem all_merge (hjoin : ∀ first second, P first → P second → P (joined first second))
    (h : g.All P) : g.merge.2.All P :=
  mergeAll_induction (P := All P) (fun _ _ h => h) (all_absorb hjoin) (all_dropUnreachable h)

end Merge

theorem all_foldl_insert {P : Block → Prop} {bs : List Block} {g : BlockGraph} (hg : g.All P)
    (h : ∀ b ∈ bs, P b) : (bs.foldl insert g).All P := by
  induction bs generalizing g with
  | nil => exact hg
  | cons b bs ih =>
      obtain ⟨hb, hbs⟩ := List.forall_mem_cons.mp h
      refine ih ?_ hbs
      intro l block hblock
      rw [getElem?_insert] at hblock
      split at hblock
      · exact Option.some.inj hblock ▸ hb
      · exact hg l block hblock

/-- What holds of all blocks of a list holds of all blocks of its graph. -/
theorem all_ofBlocks {P : Block → Prop} {entry : Label} {bs : List Block} (h : ∀ b ∈ bs, P b) :
    (ofBlocks entry bs).All P := by
  refine all_foldl_insert ?_ h
  intro l b hb
  cases (Std.ExtTreeMap.getElem?_empty (a := l)).symm.trans hb

end BlockGraph

/-- The graph of ready code has known blocks only. -/
theorem BlockGraph.all_ofStmts {names : Supply} (hnodup : (definedLabels code).Nodup)
    (hfresh : names.freshLabel.1 ∉ definedLabels code)
    (h : Ready callees exit frame (· = frame.pointer) code) :
    (ofStmts code exit names).1.All (Block.Known callees exit frame) := by
  rcases ofStmts_cases exit hnodup hfresh with ⟨l, rest, -, hg⟩ | hg
  · rw [hg]
    exact all_ofBlocks (known_labelledBlocks h)
  · rw [hg]
    obtain ⟨hline, htest, hresult⟩ := ready_restOfBlock h
    exact all_ofBlocks
      (List.forall_mem_cons.mpr ⟨⟨hline, htest, hresult⟩, known_labelledBlocks h⟩)

/-- A function with ready code is laid out as known blocks. -/
theorem Flat.Function.layOut_known {ω : Type} {f : Flat.Function} {s : Supply}
    (hnodup : (definedLabels f.stmts).Nodup) (hexit : f.exit ∉ definedLabels f.stmts)
    (hfresh : s.freshLabel.1 ∉ definedLabels f.stmts)
    (h : Ready callees f.exit f.frame (· = f.frame.pointer) f.stmts) :
    ∃ bs : List Block,
      ((f.layOut : Emit ω _).run s).value = { f with stmts := bs.flatMap Block.stmts } ∧
      ∀ b ∈ bs, b.Known callees f.exit f.frame := by
  have hsub := definedLabels_foldLabels_sublist f.stmts
  have hnodup' := hsub.nodup hnodup
  have hfresh' : s.freshLabel.1 ∉ definedLabels (foldLabels f.stmts) :=
    fun hl => hfresh (hsub.subset hl)
  have hall := BlockGraph.all_merge (fun _ _ => BlockGraph.known_joined)
    (BlockGraph.all_ofStmts hnodup' hfresh' (ready_foldLabels hnodup hexit h))
  obtain ⟨first, bs, hcode, -, -, hbs⟩ := BlockGraph.linearize_eq
    (BlockGraph.keeps_merge _ (BlockGraph.wellFormed_ofStmts f.exit hnodup' hfresh')).1
  refine ⟨first :: bs, ?_, ?_⟩
  · rw [← hcode]
    rfl
  · intro b hb
    exact hall b.label b ((hbs b.label b).mpr ⟨hb, rfl⟩)

end MmixBackend
