import BuildFile.Directive
import BuildFile.Proofs.Text
import Mathlib.Computability.Language
/-! How lines are written. The shape of a line is a language, put together from fixed texts, blanks
and the fields that the line carries. A recogniser takes the first part off a text: the text is in
the whole language exactly if what is left is in the rest of it, as long as no text of the rest
starts with a character that the recogniser would take along. -/
namespace BuildFile
variable {p : Char → Bool} {t w : Text} {M : Language Char}

/-- One text and no other. -/
def just (t : Text) : Language Char := {t}

/-- Blanks, or nothing. -/
def blanks : Language Char := {t | ∀ c ∈ t, isBlank c = true}

/-- Blanks, and not nothing. -/
def gap : Language Char := {t | t ≠ [] ∧ ∀ c ∈ t, isBlank c = true}

/-- Anything without parentheses. -/
def unparenthesised : Language Char := {t | ∀ c ∈ t, isParen c = false}

theorem mem_just {u : Text} : u ∈ just t ↔ u = t := Iff.rfl
theorem mem_blanks : t ∈ blanks ↔ ∀ c ∈ t, isBlank c = true := Iff.rfl
theorem mem_gap : t ∈ gap ↔ t ≠ [] ∧ ∀ c ∈ t, isBlank c = true := Iff.rfl

theorem self_mem_just (t : Text) : t ∈ just t := rfl
theorem nil_mem_blanks : [] ∈ blanks := by simp [mem_blanks]
theorem space_mem_gap : [' '] ∈ gap := ⟨by simp, by simp; decide⟩

/-- No text of the language starts with a character that has the property. -/
def Apart (p : Char → Bool) (M : Language Char) : Prop := ∀ t ∈ M, ∀ c ∈ t.head?, p c = false

theorem apart_just_mul (hne : w ≠ []) (hw : ∀ c ∈ w.head?, p c = false) : Apart p (just w * M) := by
  intro t ht
  obtain ⟨_, rfl, r, _, rfl⟩ := Language.mem_mul.mp ht
  rwa [List.head?_append_of_ne_nil _ hne]

theorem apart_token_mul (h : isBareToken w = true) : Apart isBlank (just w * M) := by
  obtain ⟨hne, hw⟩ := hasBlank_of_isBareToken h
  exact apart_just_mul hne (isBlank_head_of_not_hasBlank hw)

theorem apart_gap_mul (h : ∀ c, isBlank c = true → p c = false) : Apart p (gap * M) := by
  intro t ht c hc
  obtain ⟨b, ⟨hne, hb⟩, r, _, rfl⟩ := Language.mem_mul.mp ht
  rw [List.head?_append_of_ne_nil _ hne] at hc
  exact h c (hb c (List.mem_of_mem_head? hc))

theorem apart_blanks_mul (h : ∀ c, isBlank c = true → p c = false) (hM : Apart p M) :
    Apart p (blanks * M) := by
  intro t ht c hc
  obtain ⟨b, hb, r, hr, rfl⟩ := Language.mem_mul.mp ht
  cases b with
  | nil => exact hM r hr c hc
  | cons a b => exact h c (hb c (List.mem_of_mem_head? hc))

theorem apart_add {N : Language Char} (hM : Apart p M) (hN : Apart p N) : Apart p (M + N) :=
  fun t ht => ht.elim (hM t) (hN t)

theorem just_nil : just [] = 1 := rfl

theorem just_mul_just (t u : Text) : just t * just u = just (t ++ u) := by
  ext v
  simp [Language.mem_mul, mem_just, eq_comm]

/-! The first part of a text. -/

theorem mem_just_mul : t ∈ just w * M ↔ ∃ r ∈ M, after? w t = some r := by
  simp only [Language.mem_mul, mem_just, exists_eq_left, after?_eq_some_iff, eq_comm (a := t)]

theorem skipBlanks_append (hw : w ∈ blanks) (r : Text) : skipBlanks (w ++ r) = skipBlanks r :=
  List.dropWhile_append_of_pos hw

theorem exists_blanks_skipBlanks (t : Text) : ∃ b ∈ blanks, b ++ skipBlanks t = t :=
  ⟨t.takeWhile isBlank, fun _ hc => List.mem_takeWhile_imp hc, List.takeWhile_append_dropWhile⟩

theorem mem_blanks_mul (hM : Apart isBlank M) : t ∈ blanks * M ↔ skipBlanks t ∈ M := by
  constructor
  · intro h
    obtain ⟨b, hb, r, hr, rfl⟩ := Language.mem_mul.mp h
    rwa [skipBlanks_append hb, skipBlanks_eq_self (hM r hr)]
  · intro h
    obtain ⟨b, hb, ht⟩ := exists_blanks_skipBlanks t
    exact Language.mem_mul.mpr ⟨b, hb, skipBlanks t, h, ht⟩

theorem trimEnd_append {b : Text} (hb : b ∈ blanks) (t : Text) : trimEnd (t ++ b) = trimEnd t := by
  have hreverse : b.reverse ∈ blanks := fun c hc => hb c (List.mem_reverse.mp hc)
  rw [trimEnd, List.reverse_append, skipBlanks_append hreverse, trimEnd]

theorem exists_trimEnd_append_blanks (t : Text) : ∃ b ∈ blanks, trimEnd t ++ b = t := by
  obtain ⟨b, hb, ht⟩ := exists_blanks_skipBlanks t.reverse
  refine ⟨b.reverse, fun c hc => hb c (List.mem_reverse.mp hc), ?_⟩
  rw [trimEnd, ← List.reverse_append, ht, List.reverse_reverse]

theorem mem_just_mul_blanks (hw : ∀ c ∈ w.getLast?, isBlank c = false) :
    t ∈ just w * blanks ↔ trimEnd t = w := by
  constructor
  · intro h
    obtain ⟨_, rfl, b, hb, rfl⟩ := Language.mem_mul.mp h
    rw [trimEnd_append hb, trimEnd_eq_self hw]
  · rintro rfl
    obtain ⟨b, hb, ht⟩ := exists_trimEnd_append_blanks t
    exact Language.mem_mul.mpr ⟨_, rfl, b, hb, ht⟩

theorem mem_run_mul (hM : Apart p M) :
    (∃ r ∈ M, run? p t = some (w, r)) ↔ (w ≠ [] ∧ ∀ c ∈ w, p c = true) ∧ t ∈ just w * M := by
  constructor
  · intro h
    obtain ⟨r, hr, hrun⟩ := h
    obtain ⟨hne, hw, rfl⟩ := run?_eq_some hrun
    exact ⟨⟨hne, hw⟩, Language.append_mem_mul rfl hr⟩
  · intro h
    obtain ⟨⟨hne, hw⟩, ht⟩ := h
    obtain ⟨_, rfl, r, hr, rfl⟩ := Language.mem_mul.mp ht
    exact ⟨r, hr, run?_append hne hw (hM r hr)⟩

theorem mem_gap_mul (hM : Apart isBlank M) : t ∈ gap * M ↔ ∃ r ∈ M, blanks? t = some r := by
  have hblanks : (∃ r ∈ M, blanks? t = some r) ↔ ∃ b, ∃ r ∈ M, run? isBlank t = some (b, r) := by
    simp only [blanks?, Option.map_eq_some_iff, Prod.exists, exists_eq_right]
    tauto
  rw [hblanks]
  simp only [mem_run_mul hM, Language.mem_mul, mem_just, exists_eq_left, mem_gap]

namespace Call

/-- A verb and the parenthesis that opens its arguments. -/
def opening (verb : Text) : Language Char := blanks * just verb * blanks * just ['('] * blanks

/-- The closing parenthesis at the end of a line. -/
def closing : Language Char := blanks * just [')'] * blanks

theorem open_mem_opening (verb : Text) : verb ++ ['('] ∈ opening verb := by
  have hverb := Language.append_mem_mul nil_mem_blanks (self_mem_just verb)
  have hparen := Language.append_mem_mul nil_mem_blanks (self_mem_just ['('])
  have hall := Language.append_mem_mul (Language.append_mem_mul hverb hparen) nil_mem_blanks
  simpa [opening, mul_assoc] using hall

theorem close_mem_closing : [')'] ∈ closing :=
  Language.append_mem_mul (Language.append_mem_mul nil_mem_blanks (self_mem_just [')']))
    nil_mem_blanks

theorem apart_closing (h : ∀ c, isBlank c = true → p c = false) (hp : p ')' = false) :
    Apart p closing := by
  rw [closing, mul_assoc]
  exact apart_blanks_mul h (apart_just_mul (by simp) (by simpa using hp))

theorem mem_opening_mul {verb line : Text} (hverb : verb ≠ [] ∧ hasBlank verb = false)
    (hM : Apart isBlank M) :
    line ∈ opening verb * M ↔ ∃ args ∈ M, arguments? verb line = some args := by
  have hopen : Apart isBlank (just ['('] * (blanks * M)) :=
    apart_just_mul (by simp) (by simp; decide)
  have hcall : Apart isBlank (just verb * (blanks * (just ['('] * (blanks * M)))) :=
    apart_just_mul hverb.1 (isBlank_head_of_not_hasBlank hverb.2)
  simp only [opening, mul_assoc, mem_blanks_mul hcall, mem_blanks_mul hopen, mem_blanks_mul hM,
    mem_just_mul, arguments?, Option.bind_eq_bind, Option.bind_eq_some_iff, Option.some.injEq]
  constructor
  · intro h
    obtain ⟨rest, ⟨args, hargs, hparen⟩, hafter⟩ := h
    exact ⟨skipBlanks args, hargs, rest, hafter, args, hparen, rfl⟩
  · intro h
    obtain ⟨_, hargs, rest, hafter, args, hparen, rfl⟩ := h
    exact ⟨rest, ⟨args, hargs, hparen⟩, hafter⟩

theorem mem_word_mul (hM : Apart isBlank M) :
    (∃ r ∈ M, word? t = some (w, r)) ↔
      (w ≠ [] ∧ hasBlank w = false) ∧ t ∈ just w * (gap * M) := by
  have hword : hasBlank w = false ↔ ∀ c ∈ w, (!isBlank c) = true := by simp [hasBlank]
  have hgap : Apart (fun c => !isBlank c) (gap * M) := apart_gap_mul (by simp)
  rw [hword, ← mem_run_mul hgap]
  simp only [mem_gap_mul hM, word?, Option.bind_eq_bind, Option.bind_eq_some_iff, Prod.exists,
    Option.some.injEq, Prod.mk.injEq]
  constructor
  · rintro ⟨r, hr, _, s, hrun, _, hs, rfl, rfl⟩
    exact ⟨s, ⟨_, hr, hs⟩, hrun⟩
  · rintro ⟨s, ⟨r, hr, hs⟩, hrun⟩
    exact ⟨r, hr, w, s, hrun, r, hs, rfl, rfl⟩

/-- The front that calls about a target have in common: the target and a keyword. -/
theorem mem_front_mul {verb target keyword line : Text} (hverb : verb ≠ [] ∧ hasBlank verb = false)
    (hkeyword : keyword ≠ [] ∧ hasBlank keyword = false) (hM : Apart isBlank M) :
    (∃ args rest, ∃ last ∈ M, arguments? verb line = some args ∧ word? args = some (target, rest) ∧
      word? rest = some (keyword, last)) ↔ (target ≠ [] ∧ hasBlank target = false) ∧
      line ∈ opening verb * (just target * (gap * (just keyword * (gap * M)))) := by
  have hrest : Apart isBlank (just keyword * (gap * M)) :=
    apart_just_mul hkeyword.1 (isBlank_head_of_not_hasBlank hkeyword.2)
  constructor
  · intro h
    obtain ⟨args, rest, last, hlast, hargs, htarget, hword⟩ := h
    have hk := (mem_word_mul hM).mp ⟨last, hlast, hword⟩
    obtain ⟨ht, hmem⟩ := (mem_word_mul hrest).mp ⟨rest, hk.2, htarget⟩
    have hall : Apart isBlank (just target * (gap * (just keyword * (gap * M)))) :=
      apart_just_mul ht.1 (isBlank_head_of_not_hasBlank ht.2)
    exact ⟨ht, (mem_opening_mul hverb hall).mpr ⟨args, hmem, hargs⟩⟩
  · intro h
    obtain ⟨ht, hline⟩ := h
    have hall : Apart isBlank (just target * (gap * (just keyword * (gap * M)))) :=
      apart_just_mul ht.1 (isBlank_head_of_not_hasBlank ht.2)
    obtain ⟨args, hmem, hargs⟩ := (mem_opening_mul hverb hall).mp hline
    obtain ⟨rest, hk, htarget⟩ := (mem_word_mul hrest).mpr ⟨ht, hmem⟩
    obtain ⟨last, hlast, hword⟩ := (mem_word_mul hM).mpr ⟨hkeyword, hk⟩
    exact ⟨args, rest, last, hlast, hargs, htarget, hword⟩

theorem front_mem (verb target keyword : Text) :
    verb ++ ['('] ++ target ++ [' '] ++ keyword ++ [' '] ∈
      opening verb * just target * gap * just keyword * gap := by
  have htarget := Language.append_mem_mul (open_mem_opening verb) (self_mem_just target)
  have hkeyword := Language.append_mem_mul (Language.append_mem_mul htarget space_mem_gap)
    (self_mem_just keyword)
  exact Language.append_mem_mul hkeyword space_mem_gap

theorem beforeClose?_eq_some_iff {u : Text} :
    beforeClose? t = some u ↔ t ∈ just u * (just [')'] * blanks) := by
  have hlast : ∀ c ∈ (u ++ [')']).getLast?, isBlank c = false := by simp; decide
  rw [beforeClose?, before?_eq_some_iff, ← mul_assoc, just_mul_just, mem_just_mul_blanks hlast]

theorem mem_mul_close : t ∈ M * (just [')'] * blanks) ↔ ∃ u ∈ M, beforeClose? t = some u := by
  simp only [beforeClose?_eq_some_iff, Language.mem_mul (l := M), Language.mem_mul (l := just _),
    mem_just, exists_eq_left]

theorem mem_mul_closing : t ∈ M * closing ↔ ∃ u ∈ M * blanks, beforeClose? t = some u := by
  rw [closing, mul_assoc, ← mul_assoc, mem_mul_close]

theorem closes_iff : closes t = true ↔ t ∈ closing := by
  have hclose : Apart isBlank (just [')'] * blanks) := apart_just_mul (by simp) (by simp; decide)
  have hlast : ∀ c ∈ [')'].getLast?, isBlank c = false := by simp; decide
  rw [closing, mul_assoc, mem_blanks_mul hclose, mem_just_mul_blanks hlast, closes,
    beq_iff_eq, trim]

theorem lastToken?_eq_some_iff :
    lastToken? t = some w ↔ isBareToken w = true ∧ t ∈ just w * closing := by
  have hclosing : Apart isBare closing := apart_closing (fun _ => isBare_of_isBlank) (by decide)
  rw [isBareToken_iff, ← mem_run_mul hclosing]
  simp only [lastToken?, Option.bind_eq_bind, Option.bind_eq_some_iff, Prod.exists, closes_iff,
    Option.ite_none_right_eq_some, Option.some.injEq]
  constructor
  · intro h
    obtain ⟨_, rest, hrun, hrest, rfl⟩ := h
    exact ⟨rest, hrest, hrun⟩
  · intro h
    obtain ⟨rest, hrest, hrun⟩ := h
    exact ⟨w, rest, hrun, hrest, rfl⟩

end Call
end BuildFile
