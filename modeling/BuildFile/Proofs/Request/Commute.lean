import BuildFile.Proofs.Request.Sequence
/-! Requests for different categories. What a request reports depends on the checks and on the
entries of its own categories, and an edit of other categories changes neither. So two requests
without a common category can be applied in either order: each reports what it reports alone, and
the document is the same. -/
namespace BuildFile.Request
open Sheet (entriesOf)
variable {r q : Request} {d e : Chunks} {o : Outcome} {c : Category}

/-- The result of a request, from the checks and the sheets. -/
theorem apply_fst_eq (r : Request) (d : Chunks) : (r.apply d).1 =
    if r.isEmpty then .ok {}
    else (r.prepare d).map fun found =>
      { kind := some found.1, changes := r.categories.map (r.report found.2 d.sheets) } := by
  have happlied := r.applied d
  generalize r.apply d = result at happlied
  cases happlied with
  | empty h => rw [if_pos h]
  | refused h hp =>
    rw [if_neg (by simp [h]), hp]
    rfl
  | edited h hp hown hsheets =>
    rw [if_neg (by simp [h]), hp]
    rfl

theorem apply_fst_congr (hprepare : r.prepare e = r.prepare d)
    (h : ∀ c ∈ r.categories, entriesOf c.region e.sheets = entriesOf c.region d.sheets) :
    (r.apply e).1 = (r.apply d).1 := by
  have hreport (target : Text) :
      r.categories.map (r.report target e.sheets) =
        r.categories.map (r.report target d.sheets) := by
    apply List.map_congr_left
    intro c hc
    rw [report, report, h c hc]
  simp only [apply_fst_eq, hprepare, hreport]

/-- After a request for other categories, a request has the outcome that it has alone. -/
theorem exists_apply_of_disjoint {o' : Outcome} {e' : Chunks}
    (hdisjoint : ∀ c ∈ q.categories, c ∉ r.categories) (h : r.apply d = (.ok o, e))
    (h' : q.apply d = (.ok o', e')) : ∃ final, q.apply e = (.ok o', final) := by
  have hfst : (q.apply e).1 = (q.apply d).1 :=
    apply_fst_congr ((apply_congr_checks h).2 q)
      fun c hc => entriesOf_of_apply_of_not_mem h (hdisjoint c hc)
  rw [h'] at hfst
  exact ⟨(q.apply e).2, Prod.ext hfst rfl⟩

/-- Of two requests without a common category, at most one edits the entries of a category. -/
theorem edit_edit_comm (hdisjoint : ∀ c ∈ r.categories, c ∉ q.categories) (target : Text)
    (c : Category) (es : List Entry) :
    (q.edit target c (r.edit target c es).1).1 = (r.edit target c (q.edit target c es).1).1 := by
  by_cases hc : c ∈ r.categories
  · have hq : q.count c = 0 := count_eq_zero_of_not_mem (hdisjoint c hc)
    rw [edit_of_count_eq_zero hq, edit_of_count_eq_zero hq]
  · have hr : r.count c = 0 := count_eq_zero_of_not_mem hc
    rw [edit_of_count_eq_zero hr, edit_of_count_eq_zero hr]

/-- Requests without a common category commute. Each of them has the same outcome first, second and
alone. -/
theorem apply_comm {t : Text} {o' : Outcome} {e' : Chunks} (hparse : Chunks.parse t = .ok d)
    (hr : r.Typed) (hq : q.Typed) (hdisjoint : ∀ c ∈ r.categories, c ∉ q.categories)
    (h : r.apply d = (.ok o, e)) (h' : q.apply d = (.ok o', e')) :
    ∃ final, q.apply e = (.ok o', final) ∧ r.apply e' = (.ok o, final) := by
  have hnormal := Chunks.normal_of_parse hparse
  obtain ⟨final, h₂⟩ := exists_apply_of_disjoint (fun c hc hr => hdisjoint c hr hc) h h'
  obtain ⟨final', h₂'⟩ := exists_apply_of_disjoint hdisjoint h' h
  have hown : final'.ownEntries = final.ownEntries := by
    rw [ownEntries_of_apply h₂, ownEntries_of_apply h, ownEntries_of_apply h₂',
      ownEntries_of_apply h']
  have hsheets : final'.sheets = final.sheets := by
    rw [hr.sheets_of_apply_apply hq h h₂, hq.sheets_of_apply_apply hr h' h₂']
    exact Sheet.editEach_congr (by decide) fun c _ => (edit_edit_comm hdisjoint _ c _).symm
  have heq : final' = final :=
    Chunks.eq_of_outline (hr.normal_of_apply (hq.normal_of_apply hnormal h') h₂').joined
      (hq.normal_of_apply (hr.normal_of_apply hnormal h) h₂).joined hown hsheets
  exact ⟨final, h₂, heq ▸ h₂'⟩

def sampleRemoval : Request where
  action := .remove
  sources := ["a.cpp", "b.cpp"]

def sampleAddition : Request where
  action := .add
  headers := ["b.h", "a.h"]

/-- The headers are nested in the sources: lines go from the outer region and come to the inner
one. -/
theorem apply_comm_nested :
    sampleRemoval.apply (sampleNested (.text "a.h" .nil) (.text "a.cpp" .nil)) =
      (.ok { kind := some .library, changes := [(.sources, { removed := 1 })] },
        sampleNested (.text "a.h" .nil) .nil) ∧
    sampleAddition.apply (sampleNested (.text "a.h" .nil) (.text "a.cpp" .nil)) =
      (.ok { kind := some .library, changes := [(.headers, { added := 1 })] },
        sampleNested (.text "a.h\nb.h" .nil) (.text "a.cpp" .nil)) ∧
    ∃ final, sampleAddition.apply (sampleNested (.text "a.h" .nil) .nil) =
        (.ok { kind := some .library, changes := [(.headers, { added := 1 })] }, final) ∧
      sampleRemoval.apply (sampleNested (.text "a.h\nb.h" .nil) (.text "a.cpp" .nil)) =
        (.ok { kind := some .library, changes := [(.sources, { removed := 1 })] }, final) := by
  have hparse : Chunks.parse (sampleNested (.text "a.h" .nil) (.text "a.cpp" .nil)).print =
      .ok (sampleNested (.text "a.h" .nil) (.text "a.cpp" .nil)) := by decide +kernel
  have hremove : sampleRemoval.apply (sampleNested (.text "a.h" .nil) (.text "a.cpp" .nil)) =
      (.ok { kind := some .library, changes := [(.sources, { removed := 1 })] },
        sampleNested (.text "a.h" .nil) .nil) := by decide +kernel
  have hadd : sampleAddition.apply (sampleNested (.text "a.h" .nil) (.text "a.cpp" .nil)) =
      (.ok { kind := some .library, changes := [(.headers, { added := 1 })] },
        sampleNested (.text "a.h\nb.h" .nil) (.text "a.cpp" .nil)) := by decide +kernel
  exact ⟨hremove, hadd,
    apply_comm hparse ⟨nofun, nofun⟩ ⟨nofun, nofun⟩ (by decide) hremove hadd⟩

end BuildFile.Request
