import Mathlib.Data.List.Induction
import MmixBackend.Proofs.FrameLayout
import MmixBackend.Proofs.LabelDiscipline
import MmixBackend.Proofs.QuotedText

/-!
# Literals are interned

A context keeps three things that change apart from each other: the string table, the chunks of the
data segment, and the counter that all fresh labels come from. Literals, globals and labels can be
asked for in any order, and nothing but the order of the requests ties the three together. Still the
table and the chunks agree: a text has one label and one chunk, and no other text, global or jump
target has this label.

What has been handed out so far is the history that table and chunks are compared with.

* **`serve`**, **`serveAll`** — one request, and all of them.
* **`Interned`** — what table, chunks and counter have to do with the history.
* **`Interned.serve`**, **`Interned.serveAll`** — one request keeps it, and so do all of them.
* **`literals_stay_interned`** — contexts that start out empty.
-/

namespace MmixBackend

-- ── First occurrences ────────────────────────────────────────────────────────

section FirstOccurrences

variable {α : Type} [BEq α] [LawfulBEq α] {a : α} {as : List α}

/-- What occurred before adds no first occurrence. -/
theorem eraseDups_concat_of_mem (h : a ∈ as) : (as ++ [a]).eraseDups = as.eraseDups := by
  simp [List.eraseDups_append, List.cons_removeAll, h]

/-- What is new comes last among the first occurrences. -/
theorem eraseDups_concat_of_not_mem (h : a ∉ as) :
    (as ++ [a]).eraseDups = as.eraseDups ++ [a] := by
  simp [List.eraseDups_append, List.cons_removeAll, List.eraseDups_cons, h]

/-- First occurrences are different from each other. -/
theorem nodup_eraseDups (as : List α) : as.eraseDups.Nodup := by
  induction as using List.reverseRecOn with
  | nil => simp
  | append_singleton as a ih =>
      by_cases h : a ∈ as
      · rw [eraseDups_concat_of_mem h]
        exact ih
      · rw [eraseDups_concat_of_not_mem h]
        refine List.nodup_append.mpr ⟨ih, by simp, ?_⟩
        rintro b hb _ hmem rfl
        rw [List.mem_singleton.mp hmem] at hb
        exact h (List.mem_eraseDups.mp hb)

end FirstOccurrences

namespace Context

-- ── Requests ─────────────────────────────────────────────────────────────────

/-- What a context can be asked for. -/
inductive Request where
  /-- The label of a literal. -/
  | literal (text : String)
  /-- A global of so many bytes. -/
  | global (name : String) (size : Word)
  /-- A fresh label for some other purpose. -/
  | label

/-- A request, with what was handed out for it. -/
inductive Reply where
  | literal (text : String) (l : Label)
  | global (name : String) (size : Word) (access : Access)
  | label (l : Label)

/-- Hands out what is asked for. -/
def serve : Request → Context → Reply × Context
  | .literal text, c => (.literal text (c.internString text).1, (c.internString text).2)
  | .global name size, c =>
    (.global name size (c.addGlobal name size).1, (c.addGlobal name size).2)
  | .label, c => (.label c.freshLabel.1, c.freshLabel.2)

/-- Hands out what is asked for, in order. -/
def serveAll : List Request → Context → List Reply × Context
  | [], c => ([], c)
  | r :: rs, c =>
    let (reply, c) := serve r c
    let (replies, c) := serveAll rs c
    (reply :: replies, c)

variable {c c' : Context} {replies : List Reply} {text : String} {l : Label}

theorem serveAll_cons (r : Request) (rs : List Request) (c : Context) :
    serveAll (r :: rs) c =
      ((serve r c).1 :: (serveAll rs (serve r c).2).1, (serveAll rs (serve r c).2).2) := rfl

/-- Later requests are served in the context that earlier ones leave. -/
theorem context_serveAll_append (rs rs' : List Request) (c : Context) :
    (serveAll (rs ++ rs') c).2 = (serveAll rs' (serveAll rs c).2).2 := by
  induction rs generalizing c with
  | nil => rfl
  | cons r rs ih =>
      rw [List.cons_append, serveAll_cons, serveAll_cons]
      exact ih _

/-- A literal that is known already changes nothing. -/
theorem internString_known (h : c.strings[text]? = some l) : c.internString text = (l, c) := by
  simp only [internString, h]

/-- A new literal takes the next label, and its chunk comes last. -/
theorem internString_new (h : c.strings[text]? = none) :
    c.internString text = (.fresh c.supply.labels,
      { supply := c.supply.freshLabel.2
        data := c.data ++ [stringChunk (.fresh c.supply.labels) text]
        strings := c.strings.insert text (.fresh c.supply.labels) }) := by
  simp only [internString, h]
  rfl

/-- A new literal gets the next label in the table, and the other ones keep theirs. -/
theorem strings_internString_new (h : c.strings[text]? = none) (text' : String) :
    (c.internString text).2.strings[text']? =
      if text = text' then some (.fresh c.supply.labels) else c.strings[text']? := by
  rw [internString_new h]
  simp [Std.ExtTreeMap.getElem?_insert]

/-- The chunk of a new literal comes last. -/
theorem data_internString_new (h : c.strings[text]? = none) :
    (c.internString text).2.data =
      c.data ++ [stringChunk (.fresh c.supply.labels) text] := by
  rw [internString_new h]

/-- A request lets the context grow. -/
theorem grows_serve (r : Request) (c : Context) : c.Grows (serve r c).2 := by
  cases r with
  | literal text => exact (grows_internString text c).1
  | global name size => exact grows_global c name size
  | label => exact grows_freshLabel c

theorem grows_serveAll (rs : List Request) (c : Context) : c.Grows (serveAll rs c).2 := by
  induction rs generalizing c with
  | nil => exact Grows.refl c
  | cons r rs ih => exact (grows_serve r c).trans (ih _)

/-- A request leaves the chunks that there are where they are. -/
theorem data_prefix_serve (r : Request) (c : Context) : c.data <+: (serve r c).2.data := by
  cases r with
  | literal text =>
      show c.data <+: (c.internString text).2.data
      cases h : c.strings[text]? with
      | none =>
          rw [data_internString_new h]
          exact List.prefix_append _ _
      | some l => simp [internString_known h]
  | global name size => exact List.prefix_append _ _
  | label => exact List.prefix_refl _

/-- Requests add chunks behind those that are there. -/
theorem data_prefix_serveAll (rs : List Request) (c : Context) :
    c.data <+: (serveAll rs c).2.data := by
  induction rs generalizing c with
  | nil => exact List.prefix_refl _
  | cons r rs ih => exact (data_prefix_serve r c).trans (ih _)

-- ── Histories ────────────────────────────────────────────────────────────────

namespace Reply

/-- A literal with its label. -/
def literal? : Reply → Option (String × Label)
  | .literal text l => some (text, l)
  | _ => none

/-- The chunk that a global takes up: zero at the start, under the name of the global. -/
def globalChunk? : Reply → Option DataChunk
  | .global name size _ => some { label := .named name, size, init := none }
  | _ => none

end Reply

/-- The literals of a history, as often as they were asked for. -/
def literals (replies : List Reply) : List (String × Label) := replies.filterMap Reply.literal?

/-- The chunks of the globals of a history. -/
def globals (replies : List Reply) : List DataChunk := replies.filterMap Reply.globalChunk?

theorem literals_concat (replies : List Reply) (r : Reply) :
    literals (replies ++ [r]) = literals replies ++ r.literal?.toList := by
  rw [literals, List.filterMap_append]
  cases r <;> rfl

theorem globals_concat (replies : List Reply) (r : Reply) :
    globals (replies ++ [r]) = globals replies ++ r.globalChunk?.toList := by
  rw [globals, List.filterMap_append]
  cases r <;> rfl

/-- The literals of a history are those that were handed out. -/
theorem mem_literals {p : String × Label} : p ∈ literals replies ↔ .literal p.1 p.2 ∈ replies := by
  rw [literals, List.mem_filterMap]
  constructor
  · rintro ⟨reply, hreply, hp⟩
    cases reply with
    | literal text l =>
        obtain rfl := Option.some.inj hp
        exact hreply
    | global name size access => cases hp
    | label l => cases hp
  · intro h
    exact ⟨_, h, rfl⟩

/-- The chunk of a global has a name for a label. -/
theorem label_of_mem_globals {d : DataChunk} (h : d ∈ globals replies) :
    ∃ name, d.label = .named name := by
  obtain ⟨reply, -, hd⟩ := List.mem_filterMap.mp h
  cases reply with
  | literal text l => cases hd
  | global name size access =>
      obtain rfl := Option.some.inj hd
      exact ⟨name, rfl⟩
  | label l => cases hd

-- ── Interned literals ────────────────────────────────────────────────────────

/-- What the string table, the chunks and the counter have to do with what was handed out. -/
structure Interned (replies : List Reply) (c : Context) : Prop where
  tidy : c.Tidy
  /-- The string table holds the literals of the history. -/
  table : ∀ (text : String) (l : Label), c.strings[text]? = some l ↔ .literal text l ∈ replies
  /-- No two literals have the same label. -/
  unshared : ∀ (text text' : String) (l : Label),
    c.strings[text]? = some l → c.strings[text']? = some l → text = text'
  /-- Labels for other purposes were taken and are not those of literals. -/
  others : ∀ l, .label l ∈ replies → ∃ i, l = .fresh i ∧ i < c.supply.labels ∧ ¬c.IsLiteral l
  accesses : ∀ name size access, .global name size access ∈ replies →
    access = .absolute (.named name)
  /-- The chunks with initial contents are those of the literals, in the order in which these were
      first asked for. -/
  literals : c.data.filter (·.init.isSome) =
    (literals replies).eraseDups.map fun p => stringChunk p.2 p.1
  /-- The chunks without are those of the globals. -/
  globals : c.data.filter (·.init.isNone) = globals replies

/-- Before any request, nothing is interned. -/
theorem interned_start (supply : Supply) : Interned [] { supply := supply } where
  tidy := tidy_start supply
  table := by simp
  unshared := by simp
  others := by simp
  accesses := by simp
  literals := rfl
  globals := rfl

namespace Interned

/-- Labels that were handed out for other purposes never become those of literals. -/
theorem others_grow (h : Interned replies c) (hgrows : c.Grows c') :
    ∀ l, .label l ∈ replies → ∃ i, l = .fresh i ∧ i < c'.supply.labels ∧ ¬c'.IsLiteral l := by
  intro l hl
  obtain ⟨i, rfl, hi, hnot⟩ := h.others l hl
  exact ⟨i, rfl, Nat.lt_of_lt_of_le hi hgrows.labels, hgrows.not_isLiteral hi hnot⟩

/-- A literal is asked for again. -/
theorem again (h : Interned replies c) (hl : c.strings[text]? = some l) :
    Interned (replies ++ [.literal text l]) c where
  tidy := h.tidy
  table := by
    have hmem := (h.table text l).mp hl
    intro text' l'
    rw [h.table]
    simp only [List.mem_append, List.mem_singleton, Reply.literal.injEq]
    constructor
    · exact .inl
    · rintro (hmem' | ⟨rfl, rfl⟩)
      · exact hmem'
      · exact hmem
  unshared := h.unshared
  others := by simpa using h.others
  accesses := by simpa using h.accesses
  literals := by
    have hmem : (text, l) ∈ Context.literals replies := mem_literals.mpr ((h.table text l).mp hl)
    rw [literals_concat, Reply.literal?, Option.toList_some, eraseDups_concat_of_mem hmem]
    exact h.literals
  globals := by simpa [globals_concat, Reply.globalChunk?] using h.globals

/-- A literal is asked for the first time. -/
theorem first (h : Interned replies c) (hnone : c.strings[text]? = none) :
    Interned (replies ++ [.literal text (.fresh c.supply.labels)]) (c.internString text).2 := by
  have hgrows := (grows_internString text c).1
  have hnew : ¬c.IsLiteral (.fresh c.supply.labels) := h.tidy.not_isLiteral (Nat.le_refl _)
  have hfirst : ∀ l, .literal text l ∉ replies := by
    intro l hl
    rw [← h.table, hnone] at hl
    cases hl
  refine ⟨hgrows.tidy h.tidy, ?_, ?_, ?_, by simpa using h.accesses, ?_, ?_⟩
  · intro text' l
    rw [strings_internString_new hnone]
    simp only [List.mem_append, List.mem_singleton, Reply.literal.injEq]
    by_cases htext : text = text'
    · subst htext
      simp [hfirst, eq_comm]
    · simp [htext, Ne.symm htext, h.table]
  · intro text₁ text₂ l h₁ h₂
    rw [strings_internString_new hnone] at h₁ h₂
    -- the new label is the one of no literal so far
    split at h₁ <;> split at h₂
    · next heq₁ heq₂ => exact heq₁.symm.trans heq₂
    · next heq hne =>
      obtain rfl := Option.some.inj h₁
      exact absurd ⟨text₂, h₂⟩ hnew
    · next hne heq =>
      obtain rfl := Option.some.inj h₂
      exact absurd ⟨text₁, h₁⟩ hnew
    · exact h.unshared text₁ text₂ l h₁ h₂
  · simpa using h.others_grow hgrows
  · have hmem : (text, .fresh c.supply.labels) ∉ Context.literals replies :=
      fun hmem => hfirst _ (mem_literals.mp hmem)
    rw [data_internString_new hnone, literals_concat, Reply.literal?, Option.toList_some,
      eraseDups_concat_of_not_mem hmem, List.filter_append, h.literals, List.map_append]
    rfl
  · rw [data_internString_new hnone, globals_concat, List.filter_append, h.globals]
    rfl

/-- A global keeps the literals interned. -/
theorem global (h : Interned replies c) (name : String) (size : Word) :
    Interned (replies ++ [.global name size (.absolute (.named name))])
      (c.addGlobal name size).2 where
  tidy := h.tidy
  table := fun text l => (h.table text l).trans (by simp)
  unshared := h.unshared
  others := by simpa using h.others_grow (grows_global c name size)
  accesses := by
    intro name' size' access hmem
    simp only [List.mem_append, List.mem_singleton, Reply.global.injEq] at hmem
    rcases hmem with hmem | ⟨rfl, -, rfl⟩
    · exact h.accesses name' size' access hmem
    · rfl
  literals := by
    show (c.data ++ [_]).filter _ = _
    rw [literals_concat, List.filter_append, h.literals]
    simp [Reply.literal?]
  globals := by
    show (c.data ++ [_]).filter _ = _
    rw [globals_concat, List.filter_append, h.globals]
    rfl

/-- A label for another purpose keeps the literals interned. -/
theorem label (h : Interned replies c) :
    Interned (replies ++ [.label c.freshLabel.1]) c.freshLabel.2 where
  tidy := (grows_freshLabel c).tidy h.tidy
  table := fun text l => (h.table text l).trans (by simp)
  unshared := h.unshared
  others := by
    intro l hl
    rcases List.mem_append.mp hl with hl | hl
    · exact h.others_grow (grows_freshLabel c) l hl
    · obtain rfl := Reply.label.inj (List.mem_singleton.mp hl)
      exact ⟨_, rfl, Nat.lt_succ_self _, h.tidy.not_isLiteral (Nat.le_refl _)⟩
  accesses := by simpa using h.accesses
  literals := by
    show c.data.filter _ = _
    simpa [literals_concat, Reply.literal?] using h.literals
  globals := by
    show c.data.filter _ = _
    simpa [globals_concat, Reply.globalChunk?] using h.globals

/-- One more request. -/
theorem serve (h : Interned replies c) (r : Request) :
    Interned (replies ++ [(c.serve r).1]) (c.serve r).2 := by
  cases r with
  | literal text =>
      show Interned (replies ++ [.literal text (c.internString text).1]) (c.internString text).2
      cases hl : c.strings[text]? with
      | none => exact internString_new hl ▸ h.first hl
      | some l =>
          rw [internString_known hl]
          exact h.again hl
  | global name size => exact h.global name size
  | label => exact h.label

/-- Any more requests. -/
theorem serveAll (h : Interned replies c) (rs : List Request) :
    Interned (replies ++ (c.serveAll rs).1) (c.serveAll rs).2 := by
  induction rs generalizing replies c with
  | nil => simpa [Context.serveAll] using h
  | cons r rs ih =>
      have hrest := ih (h.serve r)
      rw [List.append_assoc] at hrest
      exact hrest

/-- A literal has one chunk. -/
theorem filter_init_eq (h : Interned replies c) (hl : .literal text l ∈ replies) :
    c.data.filter (fun d => d.init = some (Text.quote text)) = [stringChunk l text] := by
  have hmem : (text, l) ∈ (Context.literals replies).eraseDups :=
    List.mem_eraseDups.mpr (mem_literals.mpr hl)
  have hinit : ∀ p ∈ (Context.literals replies).eraseDups,
      (stringChunk p.2 p.1).init = some (Text.quote text) ↔ p = (text, l) := by
    rintro ⟨text', l'⟩ hp
    have hl' := (h.table text' l').mpr (mem_literals.mp (List.mem_eraseDups.mp hp))
    show some (Text.quote text') = some (Text.quote text) ↔ _
    rw [Option.some_inj, Text.quote_inj, Prod.mk.injEq]
    refine ⟨fun heq => ⟨heq, ?_⟩, fun heq => heq.1⟩
    rw [heq, (h.table text l).mpr hl] at hl'
    exact (Option.some.inj hl').symm
  calc c.data.filter (fun d => d.init = some (Text.quote text))
      = (c.data.filter (·.init.isSome)).filter (fun d => d.init = some (Text.quote text)) := by
        rw [List.filter_filter]
        refine List.filter_congr fun d _ => ?_
        cases d.init <;> simp
    _ = ((Context.literals replies).eraseDups.filter
          fun p => (stringChunk p.2 p.1).init = some (Text.quote text)).map
            fun p => stringChunk p.2 p.1 := by
        rw [h.literals, List.filter_map]
        rfl
    _ = ((Context.literals replies).eraseDups.filter (· = (text, l))).map
          fun p => stringChunk p.2 p.1 := by
        refine congrArg _ (List.filter_congr fun p hp => ?_)
        simpa using hinit p hp
    _ = [stringChunk l text] := by
        rw [List.filter_eq, List.count_eq_one_of_mem (nodup_eraseDups _) hmem]
        rfl

/-- No other chunk has the label of a literal. -/
theorem eq_of_label_eq (h : Interned replies c) (hl : .literal text l ∈ replies) {d : DataChunk}
    (hd : d ∈ c.data) (hlabel : d.label = l) : d = stringChunk l text := by
  have htext := (h.table text l).mpr hl
  cases hinit : d.init with
  | none =>
      -- a global has a name for a label, a literal a number
      have hglobal : d ∈ Context.globals replies :=
        h.globals ▸ List.mem_filter.mpr ⟨hd, by simp [hinit]⟩
      obtain ⟨name, hname⟩ := label_of_mem_globals hglobal
      obtain ⟨i, hi, -⟩ := h.tidy l ⟨text, htext⟩
      cases hname.symm.trans (hlabel.trans hi)
  | some init =>
      have hliteral : d ∈ (Context.literals replies).eraseDups.map fun p => stringChunk p.2 p.1 :=
        h.literals ▸ List.mem_filter.mpr ⟨hd, by simp [hinit]⟩
      obtain ⟨⟨text', l'⟩, hp, rfl⟩ := List.mem_map.mp hliteral
      obtain rfl : l' = l := hlabel
      have hl' := (h.table text' l').mpr (mem_literals.mp (List.mem_eraseDups.mp hp))
      rw [h.unshared text' text l' hl' htext]

end Interned

/-- **Literals stay interned.** A context starts out empty, with some labels taken before, and then
    literals, globals and labels are asked for in any order. Two literals get the same label if and
    only if they are the same text, and the string table holds just these labels. The chunks with
    initial contents are those of the literals, one for each text, in the order in which the texts
    were first asked for, with a word for each character and one more, a size that is exact if it
    fits in a word; all others are those of the globals. No chunk but its own has the label of a
    literal. It is not the label of a global, none that was taken before, and none that is handed
    out for another purpose, sooner or later. At any time the chunks so far are in their final
    places. -/
theorem literals_stay_interned {supply : Supply} {requests : List Request}
    (hrun : serveAll requests { supply := supply } = (replies, c)) :
    (∀ text l text' l', .literal text l ∈ replies → .literal text' l' ∈ replies →
      (l = l' ↔ text = text')) ∧
    (∀ (text : String) (l : Label), c.strings[text]? = some l ↔ .literal text l ∈ replies) ∧
    (c.data.filter (·.init.isSome) = (literals replies).eraseDups.map fun p =>
      { label := p.2
        size := Word.ofCount (8 * (p.1.length + 1))
        init := some (Text.quote p.1) }) ∧
    (c.data.filter (·.init.isNone) = globals replies) ∧
    (∀ text l, .literal text l ∈ replies →
      (∃ chunk, c.data.filter (fun d => d.init = some (Text.quote text)) = [chunk] ∧
        chunk.label = l ∧ (∀ d ∈ c.data, d.label = l → d = chunk) ∧
        (8 * ((text.length : Int) + 1) ≤ Int64.maxValue.toInt →
          chunk.size.toInt = 8 * (text.length + 1))) ∧
      (∀ name size access, .global name size access ∈ replies →
        access = .absolute (.named name) ∧ l ≠ .named name) ∧
      .label l ∉ replies ∧ (∀ i < supply.labels, l ≠ .fresh i)) ∧
    (∀ earlier later, requests = earlier ++ later →
      (serveAll earlier { supply := supply }).2.data <+: c.data) := by
  -- everything but the last part follows from what requests keep
  have h : Interned replies c := by
    have h := (interned_start supply).serveAll requests
    rwa [hrun] at h
  have hsize : ∀ text : String,
      Word.ofCount ((text.length + 1) * 8) = Word.ofCount (8 * (text.length + 1)) :=
    fun text => by rw [Nat.mul_comm]
  refine ⟨?_, h.table, ?_, h.globals, ?_, ?_⟩
  · intro text l text' l' hl hl'
    rw [← h.table] at hl hl'
    constructor
    · rintro rfl
      exact h.unshared text text' l hl hl'
    · rintro rfl
      exact Option.some.inj (hl.symm.trans hl')
  · rw [h.literals]
    simp only [stringChunk, hsize]
  · intro text l hl
    have hliteral : c.IsLiteral l := ⟨text, (h.table text l).mpr hl⟩
    refine ⟨⟨stringChunk l text, h.filter_init_eq hl, rfl, fun d => h.eq_of_label_eq hl, ?_⟩,
      ?_, ?_, ?_⟩
    · intro hfits
      show (Word.ofCount ((text.length + 1) * 8)).toInt = _
      rw [hsize, Word.toInt_ofCount (by simpa using hfits)]
      simp
    · intro name size access hmem
      refine ⟨h.accesses name size access hmem, ?_⟩
      rintro rfl
      obtain ⟨i, hi, -⟩ := h.tidy _ hliteral
      cases hi
    · intro hother
      obtain ⟨i, rfl, -, hnot⟩ := h.others l hother
      exact hnot hliteral
    · rintro i hi rfl
      have hgrows := grows_serveAll requests { supply := supply }
      rw [hrun] at hgrows
      exact hgrows.not_isLiteral hi (by simp [IsLiteral]) hliteral
  · rintro earlier later rfl
    have hdata := data_prefix_serveAll later (serveAll earlier { supply := supply }).2
    rwa [← context_serveAll_append, hrun] at hdata

/-- Two literals, one of them asked for twice, with a global in between whose name is written like
    the label of the first. -/
def greetings : List Request :=
  [.literal "hi", .global "L1" 80, .label, .literal "bye", .literal "hi"]

/-- What is handed out for them, after label 0 was taken. -/
def greeted : List Reply :=
  [.literal "hi" (.fresh 1), .global "L1" 80 (.absolute (.named "L1")), .label (.fresh 2),
    .literal "bye" (.fresh 3), .literal "hi" (.fresh 1)]

/-- Each of the two texts has one chunk, and a global named like a label takes nothing from the
    literal with that label. -/
theorem literals_stay_interned_greetings :
    ∃ c, serveAll greetings { supply := { labels := 1 } } = (greeted, c) ∧
      c.data.filter (·.init.isSome) =
        [{ label := .fresh 1, size := 24, init := some (Text.quote "hi") },
          { label := .fresh 3, size := 32, init := some (Text.quote "bye") }] ∧
      (∃ chunk, c.data.filter (fun d => d.init = some (Text.quote "hi")) = [chunk] ∧
        chunk.label = .fresh 1 ∧ (∀ d ∈ c.data, d.label = .fresh 1 → d = chunk) ∧
        chunk.size.toInt = 24) ∧
      c.strings["bye"]? = some (.fresh 3) ∧
      (serveAll [.literal "hi", .global "L1" 80] { supply := { labels := 1 } }).2.data <+:
        c.data := by
  have hrun : serveAll greetings { supply := { labels := 1 } } =
      (greeted, (serveAll greetings { supply := { labels := 1 } }).2) := rfl
  obtain ⟨-, htable, hliterals, -, hown, hstay⟩ := literals_stay_interned hrun
  obtain ⟨⟨chunk, hfilter, hlabel, honly, hsize⟩, -⟩ := hown "hi" (.fresh 1) (.head _)
  refine ⟨_, hrun, hliterals.trans rfl, ⟨chunk, hfilter, hlabel, honly, hsize (by decide)⟩, ?_,
    hstay _ [.label, .literal "bye", .literal "hi"] rfl⟩
  exact (htable "bye" (.fresh 3)).mpr (by simp [greeted])

end Context

end MmixBackend
