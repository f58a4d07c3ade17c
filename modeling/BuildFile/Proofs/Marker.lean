import BuildFile.Chunks.Format
import BuildFile.Proofs.Text
/-! What a marker line is. A line is read as a marker exactly when, trimmed, it is the canonical
text of that marker, so that the marker is determined by the line; the canonical text of a marker
with a usable name is read back as this marker. -/
namespace BuildFile

/-- Names that a region may have. -/
def IsName (n : Text) : Prop := n ≠ [] ∧ hasBlank n = false

instance (n : Text) : Decidable (IsName n) := inferInstanceAs (Decidable (_ ∧ _))

theorem IsName.not_newline_mem {n : Text} (h : IsName n) : '\n' ∉ n :=
  not_newline_mem_of_not_hasBlank h.2

namespace Marker

theorem openingHead_append_ne (u v : Text) : openingHead ++ u ≠ closingHead ++ v := by
  intro h
  -- The heads part at the first letter of their last word.
  have hb : (openingHead ++ u).drop 12 = 'b' :: 'e' :: 'g' :: 'i' :: 'n' :: ' ' :: u := rfl
  have he : (closingHead ++ v).drop 12 = 'e' :: 'n' :: 'd' :: ' ' :: v := rfl
  rw [h, he] at hb
  simp at hb

theorem text_injective {m k : Marker} (h : m.text = k.text) : m = k := by
  cases m with
  | opening n =>
    cases k with
    | opening l => simpa [text] using h
    | closing l =>
      exact absurd (by simpa [text] using h) (openingHead_append_ne (n ++ tail) (l ++ tail))
  | closing n =>
    cases k with
    | opening l =>
      exact absurd (by simpa [text] using h.symm) (openingHead_append_ne (l ++ tail) (n ++ tail))
    | closing l => simpa [text] using h

theorem trimmed_text (m : Marker) : Trimmed m.text := by
  constructor
  · intro c hc
    cases m <;> cases hc <;> decide
  · intro c hc
    have ht : tail.getLast? = some '-' := rfl
    have hl : m.text.getLast? = some '-' := by cases m <;> simp [text, List.getLast?_append, ht]
    rw [hl] at hc
    cases hc
    decide

/-- The marker that a line is read as is the one whose text the line is, blanks at the ends
apart. -/
theorem read_eq_some_iff {line : Text} {m : Marker} :
    read line = some m ↔ trim line = m.text ∧ m.name ≠ [] ∧ '\n' ∉ m.name := by
  have hopen (n : Text) := @between?_eq_some_iff openingHead (trim line) n
  have hclose (n : Text) := @between?_eq_some_iff closingHead (trim line) n
  constructor
  · intro h
    unfold read at h
    cases ho : between? openingHead (trim line) with
    | some n =>
      rw [ho] at h
      cases h
      exact (hopen n).mp ho
    | none =>
      simp only [ho, Option.map_eq_some_iff] at h
      obtain ⟨n, hc, rfl⟩ := h
      exact (hclose n).mp hc
  · intro h
    obtain ⟨ht, hn⟩ := h
    unfold read
    cases m with
    | opening n => rw [(hopen n).mpr ⟨ht, hn⟩]
    | closing n =>
      have ho : between? openingHead (trim line) = none := by
        cases ho : between? openingHead (trim line) with
        | none => rfl
        | some k =>
          have hk : (opening k).text = (closing n).text := ((hopen k).mp ho).1.symm.trans ht
          cases text_injective hk
      rw [ho, (hclose n).mpr ⟨ht, hn⟩]
      rfl

theorem read_text {m : Marker} (h : IsName m.name) : read m.text = some m :=
  read_eq_some_iff.mpr ⟨m.trimmed_text.trim_eq, h.1, h.not_newline_mem⟩

theorem not_newline_mem_text {m : Marker} (h : '\n' ∉ m.name) : '\n' ∉ m.text := by
  have ho : '\n' ∉ openingHead := by decide
  have hc : '\n' ∉ closingHead := by decide
  have ht : '\n' ∉ tail := by decide
  cases m <;> simp_all [text, name]

theorem read_trim (line : Text) : read (trim line) = read line := by
  apply Option.ext
  intro m
  rw [read_eq_some_iff, read_eq_some_iff, trim_trim]

/-- A line with its marker, if it is one, in canonical form. -/
def canonicalLine (line : Text) : Text :=
  match read line with
  | some m => m.text
  | none => line

theorem canonicalLine_of_read {line : Text} {m : Marker} (h : read line = some m) :
    canonicalLine line = m.text := by
  simp [canonicalLine, h]

theorem canonicalLine_of_plain {line : Text} (h : read line = none) :
    canonicalLine line = line := by
  simp [canonicalLine, h]

theorem canonicalLine_eq_self_iff {line : Text} :
    canonicalLine line = line ↔ ∀ m, read line = some m → line = m.text := by
  cases hm : read line with
  | none => simp [canonicalLine_of_plain hm]
  | some m => simp [canonicalLine_of_read hm, eq_comm]

end Marker

theorem isMarker_eq_false_iff {line : Text} : isMarker line = false ↔ Marker.read line = none := by
  simp [isMarker]

theorem isMarker_trim (line : Text) : isMarker (trim line) = isMarker line := by
  rw [isMarker, isMarker, Marker.read_trim]

/-- Every marker line starts with a number sign, once trimmed. -/
theorem isMarker_cons_eq_false {c : Char} (t : Text) (hb : isBlank c = false) (hc : c ≠ '#') :
    isMarker (c :: t) = false := by
  rw [isMarker_eq_false_iff, Option.eq_none_iff_forall_ne_some]
  intro m hm
  have ht := congrArg List.head? (Marker.read_eq_some_iff.mp hm).1
  have hs : m.text.head? = some '#' := by cases m <;> rfl
  rw [head?_trim_cons t hb, hs] at ht
  exact hc (Option.some.inj ht)

/-- A line that stays one plain line when it is written and read back. -/
def IsPlain (line : Text) : Prop := '\n' ∉ line ∧ isMarker line = false

instance (line : Text) : Decidable (IsPlain line) := inferInstanceAs (Decidable (_ ∧ _))

end BuildFile
