import MmixBackend.Proofs.TargetMeaning
import MmixBackend.Spill.Window

/-!
# What the window of an instruction does

Spilling puts loads before an instruction and a store behind it. Here is what these do, and where
the windows stand in the new code:

* **`before_window`** — what comes before the instruction leaves memory alone, brings the word of
  the slot to the temporary that takes the place of the spilled one, and to the spilled one itself
  where control may leave with it.
* **`after_window`** — what comes behind it brings the new value to the slot.
* **`drop_start`** and **`position?_eq`** — the window of instruction `p` starts at `start p`, and
  a jump to a label of the old code arrives there.
-/

namespace MmixBackend

namespace Spill

open Cpu

variable {sem : Semantics} {frame : Frame} {d : Word}

-- ── Access to the slot ───────────────────────────────────────────────────────

/-- The word `d` bytes below the frame pointer. -/
def slotWord (frame : Frame) (d : Word) (s : Cpu Temp) : Word :=
  octabyte (s.file frame.pointer - d)

/-- The instructions for the address of a slot put it in the given temporary. -/
theorem performAll_addressCode (hsem : Mmix sem) (s : Cpu Temp) {addr : Temp}
    (haddr : addr ≠ frame.pointer) :
    s.performAll sem id (addressCode frame d addr) =
      s.put addr (s.file frame.pointer - d) := by
  have hpointer : (s.put addr d).file frame.pointer = s.file frame.pointer :=
    file_put_of_ne s (Ne.symm haddr) d
  have haddr' : (s.put addr d).file addr = d := file_put_self s addr d
  have hsub := hsem.sub ((s.put addr d).file frame.pointer) ((s.put addr d).file addr)
    (s.put addr d).mem
  rw [addressCode, performAll_append, performAll_loadConst hsem.toImmediate, perform_plain hsub,
    hpointer, haddr', put_put]

/-- A load changes its destination and the temporary that holds the address. -/
theorem performAll_loadCode (hsem : Mmix sem) (s : Cpu Temp) {addr : Temp}
    (haddr : addr ≠ frame.pointer) (dst : Temp) :
    s.performAll sem id (loadCode frame d addr dst) =
      (s.put addr (s.file frame.pointer - d)).put dst (s.mem (slotWord frame d s)) := by
  have hload := hsem.load ((s.put addr (s.file frame.pointer - d)).file addr)
    (s.put addr (s.file frame.pointer - d)).mem
  rw [loadCode, performAll_append, performAll_addressCode hsem s haddr, perform_plain hload,
    file_put_self]
  rfl

/-- A store changes the slot and the temporary that holds the address. -/
theorem performAll_storeCode (hsem : Mmix sem) (s : Cpu Temp) {addr src : Temp}
    (haddr : addr ≠ frame.pointer) (hsrc : src ≠ addr) :
    s.performAll sem id (storeCode frame d addr src) =
      (s.put addr (s.file frame.pointer - d)).putMem (slotWord frame d s) (s.file src) := by
  rw [storeCode, performAll_append, performAll_addressCode hsem s haddr, perform_store hsem,
    file_put_self, file_put_of_ne s hsrc]
  rfl

-- ── What surrounds an instruction is plain ───────────────────────────────────

/-- The instruction is no label and does not jump. -/
def IsPlain (i : Instr) : Prop := ∃ op uses defs, i = .plain op uses defs

theorem isPlain_plain (op : Operation) (uses defs : List Temp) :
    IsPlain (.plain op uses defs) := ⟨op, uses, defs, rfl⟩

theorem IsPlain.straight {i : Instr} (h : IsPlain i) : i.Straight := by
  obtain ⟨op, uses, defs, rfl⟩ := h
  exact ⟨rfl, rfl⟩

theorem IsPlain.label? {i : Instr} (h : IsPlain i) : i.label? = none := by
  obtain ⟨op, uses, defs, rfl⟩ := h
  rfl

theorem isPlain_loadConst {value : Word} {dst : Temp} {i : Instr} (hi : i ∈ loadConst value dst) :
    IsPlain i := by
  rcases mem_loadConst hi with ⟨field, -, rfl⟩ | ⟨part, field, -, rfl⟩ | rfl
  · exact isPlain_plain _ _ _
  · exact isPlain_plain _ _ _
  · exact isPlain_plain _ _ _

theorem isPlain_addressCode {addr : Temp} {i : Instr} (hi : i ∈ addressCode frame d addr) :
    IsPlain i := by
  rcases List.mem_append.mp hi with hi | hi
  · exact isPlain_loadConst hi
  · rw [List.mem_singleton.mp hi]
    exact isPlain_plain _ _ _

/-- A load from a slot does not jump. -/
theorem isPlain_loadCode {addr dst : Temp} {i : Instr} (hi : i ∈ loadCode frame d addr dst) :
    IsPlain i := by
  rcases List.mem_append.mp hi with hi | hi
  · exact isPlain_addressCode hi
  · rw [List.mem_singleton.mp hi]
    exact isPlain_plain _ _ _

/-- A store to a slot does not jump. -/
theorem isPlain_storeCode {addr src : Temp} {i : Instr} (hi : i ∈ storeCode frame d addr src) :
    IsPlain i := by
  rcases List.mem_append.mp hi with hi | hi
  · exact isPlain_addressCode hi
  · rw [List.mem_singleton.mp hi]
    exact isPlain_plain _ _ _

-- ── The parts of a window ────────────────────────────────────────────────────

section Parts

variable (code : Code) (t : Temp) (d : Word) (n : Nat) (i : Instr)

/-- The temporary that takes the place of the spilled one. -/
def valueTemp : Temp := ⟨n + reloadNeeds code t i⟩

/-- The spilled temporary under its new name; all others keep theirs. -/
def rename (t value u : Temp) : Temp := if u = t then value else u

theorem map_rename_of_not_mem {t : Temp} {us : List Temp} (h : t ∉ us) (value : Temp) :
    us.map (rename t value) = us := by
  refine (List.map_congr_left ?_).trans (List.map_id us)
  intro u hu
  refine if_neg ?_
  rintro rfl
  exact h hu

variable (value : Temp)

/-- The instruction in the window reads the temporaries under their new names. -/
theorem uses_replace :
    ((i.replaceUses t value).replaceDefs t value).uses = i.uses.map (rename t value) := by
  cases i <;> rfl

/-- It writes them under their new names. -/
theorem defs_replace :
    ((i.replaceUses t value).replaceDefs t value).defs = i.defs.map (rename t value) := by
  cases i <;> rfl

/-- It has the same jumps. -/
theorem jumps_replace : ((i.replaceUses t value).replaceDefs t value).jumps = i.jumps := by
  cases i <;> rfl

theorem fallsThrough_replace :
    ((i.replaceUses t value).replaceDefs t value).fallsThrough = i.fallsThrough := by
  cases i <;> rfl

theorem label?_replace : ((i.replaceUses t value).replaceDefs t value).label? = i.label? := by
  cases i <;> rfl

/-- It responds to values as before. -/
theorem respond_replace (sem : Semantics) :
    ((i.replaceUses t value).replaceDefs t value).respond sem = i.respond sem := by
  cases i <;> rfl

/-- An instruction that does not use the spilled temporary is as before. -/
theorem replace_of_not_touches {t : Temp} {i : Instr} (h : ¬ Touches t i) :
    (i.replaceUses t value).replaceDefs t value = i := by
  rw [Touches, not_or] at h
  obtain ⟨huses, hdefs⟩ := h
  cases i with
  | label l => rfl
  | move op dst src =>
      have hsrc : ¬ src = t := fun heq => huses (heq ▸ List.mem_cons_self)
      have hdst : ¬ dst = t := fun heq => hdefs (heq ▸ List.mem_cons_self)
      simp only [Instr.replaceUses, Instr.replaceDefs, if_neg hsrc, if_neg hdst]
  | oper op uses defs jumps falls =>
      have huses : t ∉ uses := huses
      have hdefs : t ∉ defs := hdefs
      show Instr.oper op (uses.map (rename t value)) (defs.map (rename t value)) jumps falls = _
      rw [map_rename_of_not_mem huses, map_rename_of_not_mem hdefs]

/-- The spilled temporary has its new name in the window, whether it is there or not. -/
theorem window_main :
    (window code t d n i).main =
      (i.replaceUses t (valueTemp code t n i)).replaceDefs t (valueTemp code t n i) := by
  rw [window]
  split
  · rfl
  · next h => exact (replace_of_not_touches _ h).symm

/-- In front of the instruction, the result is reloaded where control leaves, and the spilled
    temporary is loaded if it is read. -/
theorem window_before :
    (window code t d n i).before = reloadCode code t d n i ++
      if t ∈ i.uses then
        loadCode code.frame d ⟨n + reloadNeeds code t i + 1⟩ (valueTemp code t n i)
      else [] := by
  rw [window]
  split
  · rfl
  · next h =>
    rw [if_neg fun hu => h (.inl hu)]

/-- Behind the instruction, the spilled temporary is stored if it is written. -/
theorem window_after :
    (window code t d n i).after =
      if t ∈ i.defs then
        storeCode code.frame d
          ⟨if t ∈ i.uses then n + reloadNeeds code t i + 2 else n + reloadNeeds code t i + 1⟩
          (valueTemp code t n i)
      else [] := by
  rw [window]
  split
  · rfl
  · next h =>
    rw [if_neg fun hd => h (.inr hd)]

end Parts

-- ── What comes before and behind ─────────────────────────────────────────────

section Effect

variable {code : Code} {t : Temp} {n limit : Nat} {i : Instr}

/-- The temporaries below `limit`, but for the spilled one, are as they were. -/
def Agrees (t : Temp) (limit : Nat) (s s' : Cpu Temp) : Prop :=
  ∀ u, u ≠ t → u.index < limit → s'.file u = s.file u

/-- Agreement is transitive. -/
theorem Agrees.trans {s s' s'' : Cpu Temp} (h : Agrees t limit s s') (h' : Agrees t limit s' s'') :
    Agrees t limit s s'' := by
  intro u hu hlt
  exact (h' u hu hlt).trans (h u hu hlt)

/-- A new temporary does not matter to agreement. -/
theorem agrees_put {s : Cpu Temp} {k : Nat} (hk : limit ≤ k) (value : Word) :
    Agrees t limit s (s.put ⟨k⟩ value) := by
  intro u _ hlt
  refine file_put_of_ne s ?_ value
  rintro rfl
  exact absurd hlt (Nat.not_lt.mpr hk)

/-- Neither does the spilled one. -/
theorem agrees_put_self {s : Cpu Temp} (value : Word) : Agrees t limit s (s.put t value) := by
  intro u hu _
  exact file_put_of_ne s hu value

theorem mk_ne_of_lt {u : Temp} {k : Nat} (h : u.index < k) : (⟨k⟩ : Temp) ≠ u := by
  rintro rfl
  exact Nat.lt_irrefl _ h

/-- Reloading brings the word of the slot to the result and changes no other old temporary. -/
theorem reload_effect (hsem : Mmix sem) (hn : limit ≤ n)
    (hp : code.frame.pointer.index < limit) (s : Cpu Temp) :
    (s.performAll sem id (reloadCode code t d n i)).mem = s.mem ∧
    Agrees t limit s (s.performAll sem id (reloadCode code t d n i)) ∧
    (Reloads code t i →
      (s.performAll sem id (reloadCode code t d n i)).file t =
        s.mem (slotWord code.frame d s)) := by
  rw [reloadCode]
  split
  · have haddr : (⟨n⟩ : Temp) ≠ code.frame.pointer := mk_ne_of_lt (Nat.lt_of_lt_of_le hp hn)
    rw [performAll_loadCode hsem s haddr]
    refine ⟨rfl, (agrees_put hn _).trans (agrees_put_self _), ?_⟩
    intro _
    exact file_put_self _ t _
  · next h => exact ⟨rfl, fun _ _ _ => rfl, fun hr => absurd hr h⟩

/-- What comes before the instruction brings the word of the slot to where it is needed. -/
theorem before_window (hsem : Mmix sem) (hn : limit ≤ n) (ht : t.index < limit)
    (hp : code.frame.pointer.index < limit) (htp : t ≠ code.frame.pointer) (s : Cpu Temp) :
    (s.performAll sem id (window code t d n i).before).mem = s.mem ∧
    Agrees t limit s (s.performAll sem id (window code t d n i).before) ∧
    (Reloads code t i →
      (s.performAll sem id (window code t d n i).before).file t =
        s.mem (slotWord code.frame d s)) ∧
    (t ∈ i.uses →
      (s.performAll sem id (window code t d n i).before).file (valueTemp code t n i) =
        s.mem (slotWord code.frame d s)) := by
  obtain ⟨hmem, hagrees, hreload⟩ := reload_effect (t := t) (d := d) (i := i) hsem hn hp s
  rw [window_before, performAll_append]
  generalize hx : s.performAll sem id (reloadCode code t d n i) = x at hmem hagrees hreload ⊢
  have hslot : slotWord code.frame d x = slotWord code.frame d s := by
    rw [slotWord, hagrees _ (Ne.symm htp) hp]
    rfl
  split
  · next hu =>
    have hv : limit ≤ n + reloadNeeds code t i := Nat.le_add_right_of_le hn
    have haddr : (⟨n + reloadNeeds code t i + 1⟩ : Temp) ≠ code.frame.pointer :=
      mk_ne_of_lt (by omega)
    rw [performAll_loadCode hsem x haddr, hmem, hslot]
    refine ⟨hmem, hagrees.trans ((agrees_put (by omega) _).trans (agrees_put hv _)), ?_, ?_⟩
    · intro hr
      have hvalue : t ≠ valueTemp code t n i := Ne.symm (mk_ne_of_lt (Nat.lt_of_lt_of_le ht hv))
      rw [file_put_of_ne _ hvalue, file_put_of_ne _ (Ne.symm (mk_ne_of_lt (by omega)))]
      exact hreload hr
    · intro _
      exact file_put_self _ _ _
  · next hu => exact ⟨hmem, hagrees, hreload, fun h => absurd h hu⟩

/-- What comes behind the instruction brings the new value to the slot. -/
theorem after_window (hsem : Mmix sem) (hn : limit ≤ n) (hp : code.frame.pointer.index < limit)
    (hd : t ∈ i.defs) (s : Cpu Temp) :
    Agrees t limit s (s.performAll sem id (window code t d n i).after) ∧
    (s.performAll sem id (window code t d n i).after).mem =
      Function.update s.mem (slotWord code.frame d s) (s.file (valueTemp code t n i)) := by
  rw [window_after, if_pos hd]
  generalize hk : (if t ∈ i.uses then n + reloadNeeds code t i + 2
    else n + reloadNeeds code t i + 1) = k
  have hlt : (valueTemp code t n i).index < k := by
    show n + reloadNeeds code t i < k
    split at hk <;> omega
  have hle : n ≤ (valueTemp code t n i).index := Nat.le_add_right _ _
  have haddr : (⟨k⟩ : Temp) ≠ code.frame.pointer := mk_ne_of_lt (by omega)
  rw [performAll_storeCode hsem s haddr (Ne.symm (mk_ne_of_lt hlt))]
  refine ⟨?_, rfl⟩
  intro u hu hlim
  exact agrees_put (by omega) _ u hu hlim

/-- The instructions in front do not jump. -/
theorem isPlain_before {j : Instr} (hj : j ∈ (window code t d n i).before) : IsPlain j := by
  rw [window_before] at hj
  rcases List.mem_append.mp hj with hj | hj
  · rw [reloadCode] at hj
    split at hj
    · exact isPlain_loadCode hj
    · cases hj
  · split at hj
    · exact isPlain_loadCode hj
    · cases hj

/-- Neither do those behind. -/
theorem isPlain_after {j : Instr} (hj : j ∈ (window code t d n i).after) : IsPlain j := by
  rw [window_after] at hj
  split at hj
  · exact isPlain_storeCode hj
  · cases hj

end Effect

-- ── Where the windows stand ──────────────────────────────────────────────────

section Places

variable (code : Code) (t : Temp) (d : Word) (n : Nat)

/-- The new code of instructions, when temporaries are taken from number `n` on. -/
def patched (is : List Instr) : List Instr := (windows code t d n is).flatMap Window.instrs

/-- Where the window of instruction `p` starts. -/
def start (is : List Instr) (p : Nat) : Nat := (patched code t d n (is.take p)).length

/-- Code in two portions is patched portion by portion. -/
theorem patched_append (is js : List Instr) :
    patched code t d n (is ++ js) =
      patched code t d n is ++ patched code t d (n + totalNeeded code t is) js := by
  induction is generalizing n with
  | nil => rfl
  | cons i is ih =>
      show (window code t d n i).instrs ++ patched code t d (n + tempsNeeded code t i) (is ++ js) =
        ((window code t d n i).instrs ++ patched code t d (n + tempsNeeded code t i) is) ++
          patched code t d (n + (tempsNeeded code t i + totalNeeded code t is)) js
      rw [ih, List.append_assoc, Nat.add_assoc]

/-- From the start of a window on, the new code is that of the instructions left. -/
theorem drop_start (is : List Instr) (p : Nat) :
    (patched code t d n is).drop (start code t d n is p) =
      patched code t d (n + totalNeeded code t (is.take p)) (is.drop p) := by
  have hsplit := patched_append code t d n (is.take p) (is.drop p)
  rw [List.take_append_drop] at hsplit
  rw [hsplit, start, List.drop_left]

theorem start_cons_succ (i : Instr) (is : List Instr) (p : Nat) :
    start code t d n (i :: is) (p + 1) =
      start code t d (n + tempsNeeded code t i) is p + (window code t d n i).instrs.length := by
  show ((window code t d n i).instrs ++
    patched code t d (n + tempsNeeded code t i) (is.take p)).length = _
  rw [List.length_append, Nat.add_comm]
  rfl

/-- The next window starts where this one ends. -/
theorem start_succ {is : List Instr} {p : Nat} {i : Instr} (hi : is[p]? = some i) :
    start code t d n is (p + 1) = start code t d n is p +
      (window code t d (n + totalNeeded code t (is.take p)) i).instrs.length := by
  have htake : is.take (p + 1) = is.take p ++ [i] := by
    rw [List.take_add_one, hi]
    rfl
  rw [start, htake, patched_append, List.length_append]
  show _ + (_ ++ []).length = _
  rw [List.append_nil]
  rfl

/-- A window has the label of its instruction, as its first instruction, and no other. -/
theorem findIdx?_window (l : Label) (i : Instr) :
    (window code t d n i).instrs.findIdx? (·.label? = some l) =
      if i.label? = some l then some 0 else none := by
  split
  · next h =>
    -- a label reads, writes and leaves nothing, so it is all of its window
    cases i with
    | label l' =>
        have hwindow : (window code t d n (.label l')).instrs = [.label l'] := by
          simp [window, Window.instrs, reloadCode, Reloads, Touches, Instr.uses, Instr.defs,
            Instr.jumps]
        rw [hwindow, List.findIdx?_singleton, if_pos (decide_eq_true h)]
    | move op dst src => cases h
    | oper op uses defs jumps falls => cases h
  · next h =>
    rw [List.findIdx?_eq_none_iff]
    intro j hj
    refine decide_eq_false ?_
    rcases List.mem_append.mp hj with hj | hj
    · rw [(isPlain_before hj).label?]
      exact (Option.some_ne_none l).symm
    · rcases List.mem_cons.mp hj with rfl | hj
      · rw [window_main, label?_replace]
        exact h
      · rw [(isPlain_after hj).label?]
        exact (Option.some_ne_none l).symm

/-- A label keeps its place in the code, and no other label is put before it. -/
theorem findIdx?_patched (l : Label) (is : List Instr) :
    (patched code t d n is).findIdx? (·.label? = some l) =
      (is.findIdx? (·.label? = some l)).map (start code t d n is) := by
  induction is generalizing n with
  | nil => rfl
  | cons i is ih =>
      have hcode : patched code t d n (i :: is) =
          (window code t d n i).instrs ++ patched code t d (n + tempsNeeded code t i) is := rfl
      rw [hcode, List.findIdx?_append, ih, findIdx?_window, List.findIdx?_cons]
      by_cases hl : i.label? = some l
      · rw [if_pos hl, if_pos (decide_eq_true hl)]
        rfl
      · rw [if_neg hl, if_neg (by simpa using hl), Option.none_or, Option.map_map, Option.map_map]
        congr 1
        funext p
        exact (start_cons_succ code t d n i is p).symm

-- ── Which instructions are old ones ──────────────────────────────────────────

/-- For each instruction of a window, the number of the old instruction that it stands for. -/
def Window.origins (w : Window) (p : Nat) : List (Option Nat) :=
  List.replicate w.before.length none ++ some p :: List.replicate w.after.length none

theorem Window.length_origins (w : Window) (p : Nat) : (w.origins p).length = w.instrs.length := by
  simp [Window.origins, Window.instrs]

/-- Only the instruction itself stands for an old one. -/
theorem Window.join_getElem?_origins (w : Window) (p j : Nat) :
    (w.origins p)[j]?.join = if j = w.before.length then some p else none := by
  have hlen : (List.replicate w.before.length (none : Option Nat)).length = w.before.length :=
    List.length_replicate
  rw [Window.origins]
  rcases Nat.lt_trichotomy j w.before.length with h | h | h
  · rw [List.getElem?_append_left (by omega), List.getElem?_replicate, if_pos h,
      if_neg (Nat.ne_of_lt h)]
    rfl
  · subst h
    rw [List.getElem?_append_right (by omega), hlen, Nat.sub_self, if_pos rfl]
    rfl
  · obtain ⟨k, rfl⟩ : ∃ k, j = w.before.length + (k + 1) := ⟨j - w.before.length - 1, by omega⟩
    rw [List.getElem?_append_right (by omega), hlen, Nat.add_sub_cancel_left,
      List.getElem?_cons_succ, List.getElem?_replicate, if_neg (Nat.ne_of_gt h)]
    split <;> rfl

/-- The same for all windows, where the first one is that of instruction `p`. -/
def origins : Nat → Nat → List Instr → List (Option Nat)
  | _, _, [] => []
  | n, p, i :: is =>
    (window code t d n i).origins p ++ origins (n + tempsNeeded code t i) (p + 1) is

/-- The old instruction that instruction `q` of the new code stands for, if it does. -/
def origin? (is : List Instr) (q : Nat) : Option Nat := (origins code t d n 0 is)[q]?.join

/-- Each instruction of the new code has an entry. -/
theorem length_origins (p : Nat) (is : List Instr) :
    (origins code t d n p is).length = (patched code t d n is).length := by
  induction is generalizing n p with
  | nil => rfl
  | cons i is ih =>
      show ((window code t d n i).origins p ++ _).length =
        ((window code t d n i).instrs ++ _).length
      rw [List.length_append, ih, List.length_append, Window.length_origins]
      rfl

theorem origins_append (p : Nat) (is js : List Instr) :
    origins code t d n p (is ++ js) =
      origins code t d n p is ++
        origins code t d (n + totalNeeded code t is) (p + is.length) js := by
  induction is generalizing n p with
  | nil => rfl
  | cons i is ih =>
      show (window code t d n i).origins p ++ origins code t d _ (p + 1) (is ++ js) =
        ((window code t d n i).origins p ++ origins code t d _ (p + 1) is) ++
          origins code t d (n + (tempsNeeded code t i + totalNeeded code t is))
            (p + (is.length + 1)) js
      rw [ih, List.append_assoc, Nat.add_assoc n, Nat.add_assoc p, Nat.add_comm 1]

/-- Within the window of instruction `p`, only the instruction between what spilling put around it
    stands for an old one. -/
theorem origin?_window {is : List Instr} {p : Nat} {i : Instr} (hi : is[p]? = some i) (j : Nat)
    (hj : j < (window code t d (n + totalNeeded code t (is.take p)) i).instrs.length) :
    origin? code t d n is (start code t d n is p + j) =
      if j = (window code t d (n + totalNeeded code t (is.take p)) i).before.length then some p
      else none := by
  have hlt := (List.getElem?_eq_some_iff.mp hi).1
  have hsplit := origins_append code t d n 0 (is.take p) (is.drop p)
  have hdrop : is.drop p = i :: is.drop (p + 1) := drop_eq_cons_iff.mpr ⟨hi, rfl⟩
  have hp : 0 + (is.take p).length = p := by
    rw [List.length_take]
    omega
  rw [List.take_append_drop, hdrop, hp] at hsplit
  generalize hw : window code t d (n + totalNeeded code t (is.take p)) i = w at hj ⊢
  have hhead : origins code t d (n + totalNeeded code t (is.take p)) p (i :: is.drop (p + 1)) =
      w.origins p ++ origins code t d (n + totalNeeded code t (is.take p) + tempsNeeded code t i)
        (p + 1) (is.drop (p + 1)) := by
    rw [← hw]
    rfl
  have hlen : (w.origins p).length = w.instrs.length := w.length_origins p
  rw [origin?, hsplit, hhead, start, ← length_origins code t d n 0, List.getElem?_append_right
    (Nat.le_add_right _ _), Nat.add_sub_cancel_left, List.getElem?_append_left (by omega),
    Window.join_getElem?_origins]

end Places

end Spill

end MmixBackend
