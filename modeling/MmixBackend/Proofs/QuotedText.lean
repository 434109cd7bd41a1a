import MmixBackend.Text.Quoted

/-!
# Quoting keeps texts apart

The initial contents of a literal are known to the data segment in their written form only. Two
literals are told apart there because quoting can be undone: no character is written like the start
of what another one is written like, so the written form can be cut into characters in one way.

* **`Written`** — the three ways in which a character is written inside quotes.
* **`Written.cut_unique`** — by cases on both characters: where the first character ends.
* **`quote_inj`** — by induction on the text.
-/

namespace MmixBackend.Text

-- ── Hexadecimal numbers ──────────────────────────────────────────────────────

/-- Digits below sixteen are written differently. -/
theorem digitChar_inj {m n : Nat} (hm : m < 16) (hn : n < 16)
    (h : Nat.digitChar m = Nat.digitChar n) : m = n := by
  have hdigits : ∀ m < 16, ∀ n < 16, Nat.digitChar m = Nat.digitChar n → m = n := by decide
  exact hdigits m hm n hn h

/-- Different numbers have different digits, since none has a zero in front. -/
theorem toDigits_inj {m n : Nat} (h : Nat.toDigits 16 m = Nat.toDigits 16 n) : m = n := by
  induction m using Nat.strongRecOn generalizing n with
  | ind m ih =>
      rcases Nat.lt_or_ge m 16 with hm | hm <;> rcases Nat.lt_or_ge n 16 with hn | hn
      · rw [Nat.toDigits_of_lt_base hm, Nat.toDigits_of_lt_base hn] at h
        exact digitChar_inj hm hn (List.singleton_inj.mp h)
      · -- one digit, against a last digit with others before it
        rw [Nat.toDigits_of_lt_base hm, Nat.toDigits_of_base_le (by decide) hn] at h
        simp [List.singleton_eq_append_iff] at h
      · rw [Nat.toDigits_of_base_le (by decide) hm, Nat.toDigits_of_lt_base hn] at h
        simp [List.append_eq_singleton_iff] at h
      · rw [Nat.toDigits_of_base_le (by decide) hm, Nat.toDigits_of_base_le (by decide) hn] at h
        obtain ⟨hfront, hlast⟩ := List.append_singleton_inj.mp h
        have hdiv : m / 16 = n / 16 := ih (m / 16) (by omega) hfront
        have hmod : m % 16 = n % 16 :=
          digitChar_inj (Nat.mod_lt _ (by decide)) (Nat.mod_lt _ (by decide)) hlast
        omega

/-- A closing brace is no digit, so it ends a number. -/
theorem brace_not_mem_toDigits (n : Nat) : '\x7d' ∉ Nat.toDigits 16 n := by
  have hdigit : ∀ d < 16, '\x7d' ≠ Nat.digitChar d := by decide
  induction n using Nat.strongRecOn with
  | ind n ih =>
      rw [Nat.toDigits_eq_if (by decide)]
      split
      · next hn => simp [hdigit n hn]
      · next hn =>
        have hlast := hdigit (n % 16) (Nat.mod_lt _ (by decide))
        simpa [hlast] using ih (n / 16) (by omega)

-- ── Written characters ───────────────────────────────────────────────────────

/-- The characters that have a short escape, with what stands behind the backslash. -/
def shortEscapes : List (Char × Char) :=
  [('\x00', '0'), ('\t', 't'), ('\n', 'n'), ('\r', 'r'), ('\\', '\\'), ('\x22', '\x22')]

/-- How a character can be written inside quotes. -/
inductive Written : Char → List Char → Prop
  | plain {c : Char} (h : c ≠ '\\') : Written c [c]
  | short {c mark : Char} (h : (c, mark) ∈ shortEscapes) : Written c ['\\', mark]
  | numeric (c : Char) :
      Written c ('\\' :: 'u' :: '\x7b' :: (Nat.toDigits 16 c.toNat ++ ['\x7d']))

/-- A character with a short escape is written with it. -/
theorem escape_of_mem {c mark : Char} (h : (c, mark) ∈ shortEscapes) :
    (escape c).toList = ['\\', mark] := by
  have hshort : ∀ p ∈ shortEscapes, (escape p.1).toList = ['\\', p.2] := by decide
  exact hshort (c, mark) h

/-- Any other character stands for itself if it can be printed, and is written by its number if
    not. -/
theorem escape_of_ne {c : Char} (h : ∀ p ∈ shortEscapes, c ≠ p.1) :
    escape c = if isPrintable c then String.singleton c else numericEscape c := by
  simp only [shortEscapes, List.forall_mem_cons] at h
  obtain ⟨hnull, htab, hline, hreturn, hbackslash, hquote, -⟩ := h
  rw [escape, if_neg hnull, if_neg htab, if_neg hline, if_neg hreturn, if_neg hbackslash,
    if_neg hquote]

/-- An escaped character is written in one of the three ways. -/
theorem written_escape (c : Char) : Written c (escape c).toList := by
  by_cases h : ∃ p ∈ shortEscapes, c = p.1
  · obtain ⟨p, hp, rfl⟩ := h
    rw [escape_of_mem hp]
    exact .short hp
  · have hne : ∀ p ∈ shortEscapes, c ≠ p.1 := fun p hp heq => h ⟨p, hp, heq⟩
    rw [escape_of_ne hne]
    split
    · rw [String.toList_singleton]
      exact .plain (hne ('\\', '\\') (by decide))
    · simpa [numericEscape] using Written.numeric c

theorem Written.ne_nil {c : Char} {xs : List Char} (h : Written c xs) : xs ≠ [] := by
  cases h <;> simp

/-- A short escape stands for one character only. -/
theorem eq_of_mark_eq {c d mark : Char} (hc : (c, mark) ∈ shortEscapes)
    (hd : (d, mark) ∈ shortEscapes) : c = d := by
  have hmarks : ∀ p ∈ shortEscapes, ∀ q ∈ shortEscapes, p.2 = q.2 → p.1 = q.1 := by decide
  exact hmarks _ hc _ hd rfl

/-- No short escape looks like the start of a number. -/
theorem mark_ne_u {c mark : Char} (h : (c, mark) ∈ shortEscapes) : mark ≠ 'u' := by
  have hmarks : ∀ p ∈ shortEscapes, p.2 ≠ 'u' := by decide
  exact hmarks _ h

/-- What stands before the first occurrence of an element, and what stands behind it. -/
theorem eq_of_append_cons_eq {α : Type} {a : α} {xs ys r s : List α} (hx : a ∉ xs) (hy : a ∉ ys)
    (h : xs ++ a :: r = ys ++ a :: s) : xs = ys ∧ r = s := by
  induction xs generalizing ys with
  | nil =>
      cases ys with
      | nil => exact ⟨rfl, (List.cons.inj h).2⟩
      | cons y ys => exact absurd ((List.cons.inj h).1 ▸ List.mem_cons_self) hy
  | cons x xs ih =>
      cases ys with
      | nil => exact absurd ((List.cons.inj h).1 ▸ List.mem_cons_self) hx
      | cons y ys =>
          obtain ⟨rfl, hrest⟩ := List.cons.inj h
          obtain ⟨rfl, rfl⟩ := ih (fun hmem => hx (List.mem_cons_of_mem _ hmem))
            (fun hmem => hy (List.mem_cons_of_mem _ hmem)) hrest
          exact ⟨rfl, rfl⟩

/-- Where the first character of a written text ends, and which one it is. -/
theorem Written.cut_unique {c d : Char} {xs ys r s : List Char} (hc : Written c xs)
    (hd : Written d ys) (h : xs ++ r = ys ++ s) : c = d ∧ r = s := by
  cases hc with
  | plain hc =>
      cases hd with
      | plain hd => simpa using h
      | short hd => exact absurd (List.cons.inj h).1 hc
      | numeric => exact absurd (List.cons.inj h).1 hc
  | short hc =>
      cases hd with
      | plain hd => exact absurd (List.cons.inj h).1.symm hd
      | short hd =>
          obtain ⟨rfl, rfl⟩ : _ ∧ r = s := by simpa using h
          exact ⟨eq_of_mark_eq hc hd, rfl⟩
      | numeric =>
          have hmark := (List.cons.inj (List.cons.inj h).2).1
          exact absurd hmark (mark_ne_u hc)
  | numeric =>
      cases hd with
      | plain hd => exact absurd (List.cons.inj h).1.symm hd
      | short hd =>
          have hmark := (List.cons.inj (List.cons.inj h).2).1
          exact absurd hmark.symm (mark_ne_u hd)
      | numeric =>
          -- the digits end at the closing brace
          have hdigits : Nat.toDigits 16 c.toNat ++ '\x7d' :: r =
              Nat.toDigits 16 d.toNat ++ '\x7d' :: s := by simpa using h
          obtain ⟨hdigits, hrest⟩ := eq_of_append_cons_eq (brace_not_mem_toDigits _)
            (brace_not_mem_toDigits _) hdigits
          exact ⟨Char.toNat_inj.mp (toDigits_inj hdigits), hrest⟩

-- ── Written texts ────────────────────────────────────────────────────────────

/-- Escaped texts that are equal come from equal texts. -/
theorem eq_of_escapes_eq {cs ds : List Char}
    (h : cs.flatMap (fun c => (escape c).toList) = ds.flatMap (fun c => (escape c).toList)) :
    cs = ds := by
  induction cs generalizing ds with
  | nil =>
      cases ds with
      | nil => rfl
      | cons d ds =>
          rw [List.flatMap_nil, List.flatMap_cons] at h
          exact absurd (List.append_eq_nil_iff.mp h.symm).1 (written_escape d).ne_nil
  | cons c cs ih =>
      cases ds with
      | nil =>
          rw [List.flatMap_nil, List.flatMap_cons] at h
          exact absurd (List.append_eq_nil_iff.mp h).1 (written_escape c).ne_nil
      | cons d ds =>
          rw [List.flatMap_cons, List.flatMap_cons] at h
          obtain ⟨rfl, hrest⟩ := (written_escape c).cut_unique (written_escape d) h
          rw [ih hrest]

theorem toList_quote (text : String) :
    (quote text).toList =
      '\x22' :: (text.toList.flatMap (fun c => (escape c).toList) ++ ['\x22']) := by
  simp [quote, String.toList_join, List.flatMap_map]

/-- Different texts have different written forms. -/
theorem quote_inj {text text' : String} : quote text = quote text' ↔ text = text' := by
  refine ⟨fun h => ?_, fun h => h ▸ rfl⟩
  have hlist := congrArg String.toList h
  rw [toList_quote, toList_quote] at hlist
  have hbody := (List.append_singleton_inj.mp (List.cons.inj hlist).2).1
  exact String.toList_inj.mp (eq_of_escapes_eq hbody)

end MmixBackend.Text
