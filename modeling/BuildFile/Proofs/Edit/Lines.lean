import BuildFile.Edit
import BuildFile.Proofs.Text
/-! Adding and removing lines. Whether a line is present is asked of the entries each time; keeping
the lines seen so far in a set comes to the same. Items can be given in one call or in several, and
adding them again adds nothing. -/
namespace BuildFile.Edit
variable {items : List Text} {es : List Entry}

/-- Adds lines in one pass that keeps the trimmed lines seen so far. -/
def addUnseen (seen : List Text) : List Text → List Entry → List Entry × Nat
  | [], es => (es, 0)
  | item :: items, es =>
    if (trim item).isEmpty || seen.contains (trim item) then addUnseen seen items es
    else
      let (es, n) := addUnseen (trim item :: seen) items (es ++ [.line (trim item)])
      (es, n + 1)

theorem any_reads_iff {t : Text} :
    es.any (reads t) = true ↔ t ∈ (es.filterMap Entry.line?).map trim := by
  simp only [List.any_eq_true, List.mem_map, List.mem_filterMap]
  constructor
  · intro h
    obtain ⟨e, he, hr⟩ := h
    cases e with
    | line l => exact ⟨l, ⟨.line l, he, rfl⟩, by simpa [reads] using hr⟩
    | region n body => cases hr
  · intro h
    obtain ⟨l, ⟨e, he, hl⟩, ht⟩ := h
    cases e with
    | line k =>
      cases hl
      exact ⟨.line l, he, by simpa [reads] using ht⟩
    | region n body => cases hl

theorem addLines_eq_addUnseen (items : List Text) (es : List Entry) :
    addLines items es = addUnseen ((es.filterMap Entry.line?).map trim) items es := by
  -- The set may hold the lines in any order, and only membership is asked.
  suffices h : ∀ seen, (∀ t, es.any (reads t) = true ↔ t ∈ seen) →
      addLines items es = addUnseen seen items es from h _ fun _ => any_reads_iff
  induction items generalizing es with
  | nil => exact fun _ _ => rfl
  | cons item items ih =>
    intro seen hseen
    have hpresent : es.any (reads (trim item)) = seen.contains (trim item) := by
      rw [Bool.eq_iff_iff, hseen, List.contains_iff_mem]
    have hnext : ∀ t, (es ++ [Entry.line (trim item)]).any (reads t) = true ↔
        t ∈ trim item :: seen := by
      intro t
      have hnew : [Entry.line (trim item)].any (reads t) = true ↔ t = trim item := by
        rw [List.any_cons, List.any_nil, Bool.or_false, reads, trim_trim, beq_iff_eq, eq_comm]
      rw [List.any_append, Bool.or_eq_true, hseen, hnew, List.mem_cons, or_comm]
    rw [addLines, addUnseen, hpresent]
    split
    · exact ih es seen hseen
    · rw [ih _ (trim item :: seen) hnext]

theorem addLines_append (items more : List Text) (es : List Entry) :
    (addLines (items ++ more) es).1 = (addLines more (addLines items es).1).1 := by
  induction items generalizing es with
  | nil => rfl
  | cons item items ih =>
    rw [List.cons_append, addLines, addLines]
    split
    · exact ih es
    · exact ih (es ++ [.line (trim item)])

theorem removeLines_append (items more : List Text) (es : List Entry) :
    (removeLines (items ++ more) es).1 = (removeLines more (removeLines items es).1).1 := by
  change es.filter _ = (es.filter _).filter _
  rw [List.filter_filter]
  apply List.filter_congr
  intro e _
  simp [readsAny, Bool.and_comm]

theorem isPrefix_addLines (items : List Text) (es : List Entry) : es <+: (addLines items es).1 := by
  induction items generalizing es with
  | nil => exact List.prefix_rfl
  | cons item items ih =>
    rw [addLines]
    split
    · exact ih es
    · exact (List.prefix_append es _).trans (ih (es ++ [.line (trim item)]))

/-- Items that are blank or present add nothing. -/
theorem addLines_of_present
    (h : ∀ item ∈ items, (trim item).isEmpty = true ∨ es.any (reads (trim item)) = true) :
    addLines items es = (es, 0) := by
  induction items with
  | nil => rfl
  | cons item items ih =>
    rw [addLines, if_pos (by simpa using h item (by simp))]
    exact ih fun i hi => h i (List.mem_cons_of_mem item hi)

theorem present_addLines {item : Text} (h : item ∈ items) (es : List Entry) :
    (trim item).isEmpty = true ∨ (addLines items es).1.any (reads (trim item)) = true := by
  induction items generalizing es with
  | nil => cases h
  | cons i items ih =>
    rw [addLines]
    obtain rfl | h := List.mem_cons.mp h
    · split
      case isTrue hpresent =>
        refine (Bool.or_eq_true _ _ ▸ hpresent).imp_right ?_
        intro hany
        obtain ⟨e, he, hr⟩ := List.any_eq_true.mp hany
        exact List.any_eq_true.mpr ⟨e, (isPrefix_addLines items es).mem he, hr⟩
      case isFalse =>
        right
        have hmem : Entry.line (trim item) ∈ es ++ [Entry.line (trim item)] := by simp
        refine List.any_eq_true.mpr ⟨_, (isPrefix_addLines items _).mem hmem, ?_⟩
        simp [reads, trim_trim]
    · split
      · exact ih h es
      · exact ih h (es ++ [.line (trim i)])

theorem addLines_addLines (items : List Text) (es : List Entry) :
    addLines items (addLines items es).1 = ((addLines items es).1, 0) :=
  addLines_of_present fun _ hi => present_addLines hi es

end BuildFile.Edit
