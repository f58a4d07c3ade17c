import BuildFile.Text
import Mathlib.Data.List.DropRight
/-! Trimmed texts, and texts cut into lines. A text is trimmed when neither of its ends is blank:
trimming gives such a text and leaves it alone afterwards. -/
namespace BuildFile

theorem trimEnd_eq_rdropWhile (t : Text) : trimEnd t = t.rdropWhile isBlank := rfl

theorem trimEnd_isPrefix (t : Text) : trimEnd t <+: t := List.rdropWhile_prefix isBlank t

theorem skipBlanks_isSuffix (t : Text) : skipBlanks t <:+ t := List.dropWhile_suffix isBlank

theorem mem_of_mem_trim {c : Char} {t : Text} (h : c ∈ trim t) : c ∈ t :=
  (skipBlanks_isSuffix t).mem ((trimEnd_isPrefix (skipBlanks t)).mem h)

theorem isBlank_last_trimEnd (t : Text) : ∀ c ∈ (trimEnd t).getLast?, isBlank c = false := by
  intro c hc
  have hne : t.rdropWhile isBlank ≠ [] := by
    intro h
    simp [trimEnd_eq_rdropWhile, h] at hc
  have hlast := List.rdropWhile_last_not isBlank t hne
  rw [trimEnd_eq_rdropWhile, List.getLast?_eq_some_getLast hne] at hc
  cases hc
  simpa using hlast

def Trimmed (t : Text) : Prop :=
  (∀ c ∈ t.head?, isBlank c = false) ∧ ∀ c ∈ t.getLast?, isBlank c = false

theorem trimmed_trim (t : Text) : Trimmed (trim t) := by
  constructor
  · intro c hc
    -- The first character survives `trimEnd`, so it is the one `skipBlanks` stopped at.
    obtain ⟨s, hs⟩ := List.head?_eq_some_iff.mp hc
    obtain ⟨u, hu⟩ := trimEnd_isPrefix (skipBlanks t)
    rw [show trimEnd (skipBlanks t) = c :: s from hs] at hu
    obtain h | ⟨d, r, h, hd⟩ := skipBlanks_eq_nil_or_head t
    · simp [h] at hu
    · rw [h] at hu
      cases hu
      exact hd
  · exact isBlank_last_trimEnd (skipBlanks t)

theorem skipBlanks_eq_self {t : Text} (h : ∀ c ∈ t.head?, isBlank c = false) :
    skipBlanks t = t := by
  cases t with
  | nil => rfl
  | cons c t => simp [skipBlanks, h c rfl]

theorem trimEnd_eq_self {t : Text} (h : ∀ c ∈ t.getLast?, isBlank c = false) : trimEnd t = t := by
  rw [trimEnd_eq_rdropWhile, List.rdropWhile_eq_self_iff]
  intro hne
  simp [h _ (List.getLast?_eq_some_getLast hne)]

theorem Trimmed.trim_eq {t : Text} (h : Trimmed t) : trim t = t := by
  rw [trim, skipBlanks_eq_self h.1, trimEnd_eq_self h.2]

theorem trim_trim (t : Text) : trim (trim t) = trim t := (trimmed_trim t).trim_eq

theorem head?_trim_cons {c : Char} (t : Text) (h : isBlank c = false) :
    (trim (c :: t)).head? = some c := by
  have hs : skipBlanks (c :: t) = c :: t := by simp [skipBlanks, h]
  obtain ⟨u, hu⟩ := trimEnd_isPrefix (c :: t)
  rw [trim, hs]
  cases ht : trimEnd (c :: t) with
  | nil =>
    -- Nothing is left only of a text that is blank throughout.
    rw [trimEnd_eq_rdropWhile, List.rdropWhile_eq_nil_iff] at ht
    have hc := ht c (by simp)
    simp [h] at hc
  | cons d s =>
    rw [ht, List.cons_append] at hu
    cases hu
    rfl

theorem not_newline_mem_of_not_hasBlank {t : Text} (h : hasBlank t = false) : '\n' ∉ t := by
  intro hm
  have hb : isBlank '\n' = false := by
    simp only [hasBlank, List.any_eq_false, Bool.not_eq_true] at h
    exact h _ hm
  exact absurd hb (by decide)

theorem isIdentRest_of_isBlank {c : Char} (h : isBlank c = true) : isIdentRest c = false := by
  have hascii : isIdentRest c = (decide (c.val ≥ 'A'.val ∧ c.val ≤ 'Z'.val) ||
      (decide (c.val ≥ 'a'.val) && decide (c.val ≤ 'z'.val)) ||
      (decide (c.val ≥ '0'.val) && decide (c.val ≤ '9'.val)) || c == '_') := rfl
  have hne : c ≠ '_' := by
    rintro rfl
    exact absurd h (by decide)
  simp only [isBlank, Bool.or_eq_true, Bool.and_eq_true, decide_eq_true_eq, beq_iff_eq,
    Char.toNat] at h
  simp only [hascii, UInt32.le_iff_toNat_le, Char.reduceVal, UInt32.reduceToNat, ge_iff_le,
    Bool.or_eq_false_iff, Bool.and_eq_false_iff, decide_eq_false_iff_not, beq_eq_false_iff_ne]
  exact ⟨by omega, hne⟩

/-- A run takes a first part with the property, and not an empty one. -/
theorem run?_eq_some {p : Char → Bool} {t w rest : Text} (h : run? p t = some (w, rest)) :
    w ≠ [] ∧ (∀ c ∈ w, p c = true) ∧ t = w ++ rest := by
  unfold run? at h
  cases hw : t.takeWhile p with
  | nil => simp [hw] at h
  | cons c r =>
    have hall := List.all_takeWhile (p := p) (l := t)
    simp only [hw, Option.some.injEq, Prod.mk.injEq] at h
    obtain ⟨rfl, rfl⟩ := h
    refine ⟨by simp, ?_, ?_⟩
    · simpa [hw] using hall
    · rw [← hw, List.takeWhile_append_dropWhile]

theorem run?_append {p : Char → Bool} {w rest : Text} (hne : w ≠ []) (hw : ∀ c ∈ w, p c = true)
    (hr : ∀ c ∈ rest.head?, p c = false) : run? p (w ++ rest) = some (w, rest) := by
  have hstop : rest.takeWhile p = [] ∧ rest.dropWhile p = rest := by
    cases rest with
    | nil => exact ⟨rfl, rfl⟩
    | cons c rest => simp [hr c rfl]
  unfold run?
  rw [List.takeWhile_append_of_pos hw, List.dropWhile_append_of_pos hw, hstop.1, hstop.2,
    List.append_nil]
  cases w with
  | nil => exact absurd rfl hne
  | cons c w => rfl

theorem cutFirst?_eq_some_iff {sep : Char} {t left right : Text} :
    cutFirst? sep t = some (left, right) ↔ t = left ++ sep :: right ∧ sep ∉ left := by
  induction t generalizing left with
  | nil => simp [cutFirst?]
  | cons c t ih =>
    rw [cutFirst?]
    split
    case isTrue hc =>
      cases left with
      | nil => simp [hc, eq_comm]
      | cons b left => simp_all
    case isFalse hc =>
      cases left with
      | nil => simp [hc]
      | cons b left =>
        simp only [Option.map_eq_some_iff, Prod.exists, Prod.mk.injEq, List.cons.injEq,
          List.cons_append]
        constructor
        · intro h
          obtain ⟨l, r, hcut, ⟨rfl, rfl⟩, rfl⟩ := h
          obtain ⟨rfl, hl⟩ := ih.mp hcut
          exact ⟨⟨rfl, rfl⟩, by simp [Ne.symm hc, hl]⟩
        · intro h
          obtain ⟨⟨rfl, rfl⟩, hn⟩ := h
          exact ⟨left, right, ih.mpr ⟨rfl, fun hm => hn (List.mem_cons_of_mem c hm)⟩,
            ⟨rfl, rfl⟩, rfl⟩

theorem eq_append_of_cutFirst? {sep : Char} {t left right : Text}
    (h : cutFirst? sep t = some (left, right)) : t = left ++ sep :: right :=
  (cutFirst?_eq_some_iff.mp h).1

theorem cutFirst?_of_not_mem {sep : Char} {t : Text} (h : sep ∉ t) : cutFirst? sep t = none := by
  rw [Option.eq_none_iff_forall_ne_some]
  intro cut hcut
  exact h (by simp [eq_append_of_cutFirst? hcut])

theorem isBlank_head_of_not_hasBlank {w : Text} (h : hasBlank w = false) :
    ∀ c ∈ w.head?, isBlank c = false := by
  intro c hc
  simp only [hasBlank, List.any_eq_false, Bool.not_eq_true] at h
  exact h c (List.mem_of_mem_head? hc)

theorem isBare_of_isBlank {c : Char} (h : isBlank c = true) : isBare c = false := by
  simp [isBare, h]

theorem isBareToken_iff {t : Text} : isBareToken t = true ↔ t ≠ [] ∧ ∀ c ∈ t, isBare c = true := by
  simp [isBareToken]

theorem hasBlank_of_isBareToken {t : Text} (h : isBareToken t = true) :
    t ≠ [] ∧ hasBlank t = false := by
  simp only [isBareToken, isBare, Bool.and_eq_true, List.all_eq_true, Bool.not_eq_true'] at h
  refine ⟨by simpa using h.1, ?_⟩
  simp only [hasBlank, List.any_eq_false, Bool.not_eq_true]
  exact fun c hc => (h.2 c hc).1

end BuildFile
