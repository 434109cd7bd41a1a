import MmixBackend.Instr

/-!
# How templates are filled in

A template is text with references to operands in it. Filling in goes through it from left to right,
so it may be done part by part.

* **`fillTemplate_append`** — one template behind the other is filled in as each of them is.
* **`fillTemplate_plain`**, **`fillTemplate_target`**, **`fillTemplate_source`** — text stays as it
  is, and a reference becomes the operand it refers to.
-/

namespace MmixBackend

-- ── Cutting into pieces ──────────────────────────────────────────────────────

namespace Piece

/-- A character other than a backquote is a piece of its own. -/
theorem ofChars?_char {c : Char} (hc : c ≠ '\x60') (cs : List Char) :
    ofChars? (c :: cs) = (ofChars? cs).bind fun ps => some (.char c :: ps) := by
  rw [ofChars?.eq_def]
  exact if_neg hc

/-- The pieces of two templates one after the other are those of each. -/
theorem ofChars?_append {cs ds : List Char} {ps qs : List Piece} (hcs : ofChars? cs = some ps)
    (hds : ofChars? ds = some qs) : ofChars? (cs ++ ds) = some (ps ++ qs) := by
  fun_induction ofChars? cs generalizing ps with
  | case1 =>
      obtain rfl := Option.some.inj hcs
      exact hds
  | case2 kind digit rest ih =>
      obtain ⟨p, hp, hrest⟩ := Option.bind_eq_some_iff.mp hcs
      obtain ⟨ps', hps', hcons⟩ := Option.bind_eq_some_iff.mp hrest
      obtain rfl := Option.some.inj hcons
      show ofChars? ('\x60' :: kind :: digit :: (rest ++ ds)) = _
      simp [ofChars?, hp, ih hps']
  | case3 => cases hcs
  | case4 c rest hc ih =>
      obtain ⟨ps', hps', hcons⟩ := Option.bind_eq_some_iff.mp hcs
      obtain rfl := Option.some.inj hcons
      rw [List.cons_append, ofChars?_char hc, ih hps']
      rfl

/-- Text without a backquote is cut into its characters. -/
theorem ofChars?_plain {cs : List Char} (h : '\x60' ∉ cs) : ofChars? cs = some (cs.map .char) := by
  induction cs with
  | nil => rfl
  | cons c cs ih =>
      have hc : c ≠ '\x60' := fun heq => h (heq ▸ List.mem_cons_self)
      rw [ofChars?_char hc, ih fun hmem => h (List.mem_cons_of_mem c hmem)]
      rfl

end Piece

-- ── Filling in ───────────────────────────────────────────────────────────────

section Fill

variable {name : Temp → String} {uses defs : List Temp} {first second : String}

/-- A template is filled in piece by piece. -/
theorem fillTemplate_eq_ok {template : String} {ps : List Piece} {texts : List String}
    (hps : Piece.ofChars? template.toList = some ps)
    (htexts : ps.mapM (Piece.fill? name uses defs) = some texts) :
    fillTemplate name template uses defs = .ok (String.join texts) := by
  simp [fillTemplate, hps, htexts]

/-- A template that was filled in can be cut into pieces, and each of them filled in. -/
theorem exists_of_fillTemplate {template text : String}
    (h : fillTemplate name template uses defs = .ok text) :
    ∃ ps texts, Piece.ofChars? template.toList = some ps ∧
      ps.mapM (Piece.fill? name uses defs) = some texts ∧ String.join texts = text := by
  rw [fillTemplate] at h
  split at h
  · next texts htexts =>
    obtain ⟨ps, hps, hfill⟩ := Option.bind_eq_some_iff.mp htexts
    exact ⟨ps, texts, hps, hfill, Except.ok.inj h⟩
  · cases h

/-- One template behind the other is filled in as each of them is. -/
theorem fillTemplate_append {x y : String} (hfirst : fillTemplate name first uses defs = .ok x)
    (hsecond : fillTemplate name second uses defs = .ok y) :
    fillTemplate name (first ++ second) uses defs = .ok (x ++ y) := by
  obtain ⟨ps, xs, hps, hxs, rfl⟩ := exists_of_fillTemplate hfirst
  obtain ⟨qs, ys, hqs, hys, rfl⟩ := exists_of_fillTemplate hsecond
  have hpieces : Piece.ofChars? (first ++ second).toList = some (ps ++ qs) := by
    rw [String.toList_append]
    exact Piece.ofChars?_append hps hqs
  have hfill : (ps ++ qs).mapM (Piece.fill? name uses defs) = some (xs ++ ys) := by
    simp [List.mapM_append, hxs, hys]
  rw [fillTemplate_eq_ok hpieces hfill, String.join_append]

/-- Text without a backquote stays as it is. -/
theorem fillTemplate_plain {text : String} (h : '\x60' ∉ text.toList) :
    fillTemplate name text uses defs = .ok text := by
  have hfill : (text.toList.map Piece.char).mapM (Piece.fill? name uses defs) =
      some (text.toList.map String.singleton) := by
    rw [List.mapM_map]
    exact List.mapM_pure
  have hjoin : String.join (text.toList.map String.singleton) = text := by
    rw [← String.toList_inj, String.toList_join, List.flatMap_map]
    simp
  rw [fillTemplate_eq_ok (Piece.ofChars?_plain h) hfill, hjoin]

theorem fillTemplate_target (t : Temp) : fillTemplate name "\x60d0" uses [t] = .ok (name t) := by
  have hpieces : Piece.ofChars? "\x60d0".toList = some [.target 0] := by decide
  have hfill : [Piece.target 0].mapM (Piece.fill? name uses [t]) = some [name t] := rfl
  rw [fillTemplate_eq_ok hpieces hfill, String.join_cons, String.join_nil, String.append_empty]

theorem fillTemplate_source (t : Temp) : fillTemplate name "\x60s0" [t] defs = .ok (name t) := by
  have hpieces : Piece.ofChars? "\x60s0".toList = some [.source 0] := by decide
  have hfill : [Piece.source 0].mapM (Piece.fill? name [t] defs) = some [name t] := rfl
  rw [fillTemplate_eq_ok hpieces hfill, String.join_cons, String.join_nil, String.append_empty]

end Fill

/-- The digits of a number are plain text. -/
theorem backquote_not_mem_toString (n : Nat) : '\x60' ∉ (toString n).toList := by
  rw [Nat.toString_eq_repr, Nat.toList_repr]
  intro h
  exact absurd (Nat.isDigit_of_mem_toDigits (by decide) (by decide) h) (by decide)

end MmixBackend
