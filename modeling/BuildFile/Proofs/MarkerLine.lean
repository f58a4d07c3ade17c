import BuildFile.Chunks.Format
import BuildFile.Proofs.Request.Written
/-! The lines that are markers. A line is read as a marker exactly if it spells the marker, with
nothing but blanks around it, and it spells no other: neither of the other kind nor of another name.
So blanks at the ends of a line decide nothing, and an item that is no marker as it is given is none
either when it is written without them. The reader of documents takes a marker only under a name
that a region may have. -/
namespace BuildFile

theorem exists_blanks_trim (t : Text) : ∃ w ∈ blanks, ∃ w' ∈ blanks, t = w ++ trim t ++ w' := by
  obtain ⟨w, hw, hstart⟩ := exists_blanks_skipBlanks t
  obtain ⟨w', hw', hend⟩ := exists_trimEnd_append_blanks (skipBlanks t)
  refine ⟨w, hw, w', hw', ?_⟩
  rw [List.append_assoc, trim, hend, hstart]

theorem Trimmed.trim_append {t w w' : Text} (h : Trimmed t) (hne : t ≠ []) (hw : w ∈ blanks)
    (hw' : w' ∈ blanks) : trim (w ++ t ++ w') = t := by
  have hhead : ∀ c ∈ (t ++ w').head?, isBlank c = false := by
    rw [List.head?_append_of_ne_nil _ hne]
    exact h.1
  rw [trim, List.append_assoc, skipBlanks_append hw, skipBlanks_eq_self hhead, trimEnd_append hw',
    trimEnd_eq_self h.2]

theorem Trimmed.trim_eq_iff {t line : Text} (h : Trimmed t) (hne : t ≠ []) :
    trim line = t ↔ ∃ w ∈ blanks, ∃ w' ∈ blanks, line = w ++ t ++ w' := by
  constructor
  · rintro rfl
    exact exists_blanks_trim line
  · rintro ⟨w, hw, w', hw', rfl⟩
    exact h.trim_append hne hw hw'

namespace Marker

/-- The line spells the marker: head, name and tail, and nothing but blanks around them. -/
def Spells (line : Text) : Marker → Prop
  | opening n => ∃ w ∈ blanks, ∃ w' ∈ blanks, line = w ++ openingHead ++ n ++ tail ++ w'
  | closing n => ∃ w ∈ blanks, ∃ w' ∈ blanks, line = w ++ closingHead ++ n ++ tail ++ w'

theorem trim_eq_text_iff {line : Text} {m : Marker} : trim line = m.text ↔ m.Spells line := by
  have hne : m.text ≠ [] := by cases m <;> simp [text, tail]
  rw [m.trimmed_text.trim_eq_iff hne]
  cases m <;> simp only [Spells, text, List.append_assoc]

/-- A line spells at most one marker. -/
theorem Spells.unique {line : Text} {m k : Marker} (hm : m.Spells line) (hk : k.Spells line) :
    m = k := by
  apply text_injective
  rw [← trim_eq_text_iff.mpr hm, trim_eq_text_iff.mpr hk]

/-! What the reader takes a line for. -/

/-- The marker that a line is, if any; a name that no region may have is refused. -/
def recognise (number : Nat) (line : Text) : Except RegionError (Option Marker) :=
  match read line with
  | none => .ok none
  | some m => if hasBlank m.name then .error (.invalidName m.name number) else .ok (some m)

theorem recognise_eq_some_iff {number : Nat} {line : Text} {m : Marker} :
    recognise number line = .ok (some m) ↔ read line = some m ∧ hasBlank m.name = false := by
  unfold recognise
  cases hread : read line with
  | none => simp
  | some k =>
    by_cases hblank : hasBlank k.name = true
    · simp only [hblank, if_true, Option.some.injEq, reduceCtorEq, false_iff, not_and]
      rintro rfl
      simp [hblank]
    · simp only [hblank, Option.some.injEq, Except.ok.injEq, Bool.false_eq_true, if_false]
      constructor
      · rintro rfl
        exact ⟨rfl, by simpa using hblank⟩
      · exact fun h => h.1

theorem recognise_text_iff {number : Nat} {m : Marker} :
    recognise number m.text = .ok (some m) ↔ IsName m.name := by
  rw [recognise_eq_some_iff]
  constructor
  · intro h
    exact ⟨(read_eq_some_iff.mp h.1).2.1, h.2⟩
  · intro h
    exact ⟨read_text h, h.2⟩

end Marker

namespace Chunks

/-- Goes on behind a line that was taken for `found`. -/
def proceed (opened : List Level) (current : List Entry) (number : Nat) (line : Text)
    (rest : List Text) (found : Option Marker) : Except RegionError (List Entry) :=
  match found, opened with
  | none, _ => readLines opened (.line line :: current) (number + 1) rest
  | some (.opening name), _ => readLines (⟨name, current⟩ :: opened) [] (number + 1) rest
  | some (.closing name), [] => .error (.unexpectedClose name none number)
  | some (.closing name), level :: outer =>
    if level.name = name then
      readLines outer (.region name (ofEntries current.reverse) :: level.before) (number + 1) rest
    else .error (.unexpectedClose name (some level.name) number)

theorem readLines_cons (opened : List Level) (current : List Entry) (number : Nat) (line : Text)
    (rest : List Text) : readLines opened current number (line :: rest) =
      Marker.recognise number line >>= proceed opened current number line rest := by
  rw [readLines, Marker.recognise]
  cases Marker.read line with
  | none => rfl
  | some m =>
    by_cases hblank : hasBlank m.name = true
    · simp [hblank, bind, Except.bind]
    · cases m with
      | opening name => simp [hblank, bind, Except.bind, proceed]
      | closing name => cases opened <;> simp [hblank, bind, Except.bind, proceed]

end Chunks

/-- Items that pass the check of their request are no markers once they are trimmed. -/
theorem Request.not_isMarker_of_validate {r : Request} (h : r.validate = .ok ()) :
    ∀ items ∈ [r.sources, r.headers, r.exports], ∀ item ∈ items, isMarker (trim item) = false := by
  obtain ⟨hsources, hheaders, hexports, _⟩ := validate_eq_ok_iff.mp h
  have hplain {items : List Text} (hitems : ∀ item ∈ items, lineFault? item = none) :
      ∀ item ∈ items, isMarker (trim item) = false :=
    fun item hi => (isPlain_trim_of_lineFault? (hitems item hi)).2
  simp only [List.mem_cons, List.not_mem_nil, or_false]
  rintro items (rfl | rfl | rfl)
  · exact hplain hsources
  · exact hplain hheaders
  · exact hplain hexports

namespace Marker

/-- What a marker line is, and what follows. A line is read as a marker with a name that is not
empty and within one line exactly if it spells this marker, and it spells at most one marker.
Trimming makes no difference, so that no line that is added for a valid request is a marker. The
reader decides about a line by `recognise`, and the canonical line of a marker is recognised as this
marker exactly if its name can be one. -/
theorem read_iff_spells :
    (∀ line m, read line = some m ↔ m.Spells line ∧ m.name ≠ [] ∧ '\n' ∉ m.name) ∧
    (∀ line (m k : Marker), m.Spells line → k.Spells line → m = k) ∧
    (∀ line, isMarker line = true ↔ ∃ m : Marker, m.Spells line ∧ m.name ≠ [] ∧ '\n' ∉ m.name) ∧
    (∀ line, isMarker (trim line) = isMarker line) ∧
    (∀ r : Request, r.validate = .ok () → ∀ items ∈ [r.sources, r.headers, r.exports],
      (∀ item ∈ items, isMarker (trim item) = false) ∧
      ∀ es t, .line t ∈ (Edit.addLines items es).1 → .line t ∈ es ∨ isMarker t = false) ∧
    (∀ opened current number line rest, Chunks.readLines opened current number (line :: rest) =
      recognise number line >>= Chunks.proceed opened current number line rest) ∧
    ∀ number (m : Marker), recognise number m.text = .ok (some m) ↔
      m.name ≠ [] ∧ hasBlank m.name = false := by
  have hread (line : Text) (m : Marker) :
      read line = some m ↔ m.Spells line ∧ m.name ≠ [] ∧ '\n' ∉ m.name := by
    rw [read_eq_some_iff, trim_eq_text_iff]
  refine ⟨hread, fun _ _ _ => Spells.unique, ?_, isMarker_trim, ?_, Chunks.readLines_cons,
    fun _ _ => recognise_text_iff⟩
  · intro line
    rw [isMarker, Option.isSome_iff_exists]
    exact exists_congr (hread line)
  · intro r hvalid items hitems
    have hplain := Request.not_isMarker_of_validate hvalid items hitems
    refine ⟨hplain, fun es t ht => ?_⟩
    obtain hold | ⟨item, hi, he⟩ := Edit.mem_addLines ht
    · exact .inl hold
    · cases he
      exact .inr (hplain item hi)

/-- A marker within the name of another, wide blanks around, and a carriage return at the end. -/
def sampleLine : Text := "\u3000 # --== proj begin a ==-- # --== proj end b ==--\r"

def sampleName : Text := "a ==-- # --== proj end b"

/-- All of a line that stands between head and tail is the name, also where it reads like a marker
itself; such a name is refused. Nothing between head and tail makes a plain line, which can be an
item. -/
theorem read_iff_spells_inner :
    (opening sampleName).Spells sampleLine ∧ read sampleLine = some (opening sampleName) ∧
    (∀ n, ¬ (closing n).Spells sampleLine) ∧
    recognise 1 (opening sampleName).text ≠ .ok (some (opening sampleName)) ∧
    ({ action := .add, sources := [" # --== proj begin ==-- "] } : Request).validate = .ok () ∧
    isMarker (trim " # --== proj begin ==-- ") = false := by
  obtain ⟨hread, hunique, _, _, hvalid, _, hrecognise⟩ := read_iff_spells
  have hline : read sampleLine = some (opening sampleName) := by decide +kernel
  have hspells := ((hread _ _).mp hline).1
  have hrequest : ({ action := .add, sources := [" # --== proj begin ==-- "] } : Request).validate =
      .ok () := by decide +kernel
  refine ⟨hspells, hline, ?_, ?_, hrequest, ?_⟩
  · intro n hn
    cases hunique _ _ _ hspells hn
  · intro h
    have hblank := ((hrecognise 1 (opening sampleName)).mp h).2
    exact absurd hblank (by decide +kernel)
  · exact (hvalid _ hrequest _ (by simp)).1 _ (List.mem_singleton.mpr rfl)

end Marker
end BuildFile
