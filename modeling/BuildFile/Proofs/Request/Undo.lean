import BuildFile.Proofs.Edit.Distinct
import BuildFile.Proofs.Request.Repeat
/-! Taking back what was added. After a request to add items, the request to remove the same items
succeeds; it drops what was added, and with it the lines that named the items before. Where none of
the items was there, the document is the one at the start. -/
namespace BuildFile
open Sheet (editEach entriesOf)

/-- Drops entries from the first region of a name. -/
def Chunks.dropFirst (n : Text) (p : Entry → Bool) (c : Chunks) : Chunks :=
  match c.editRegion? n fun es => (es.filter fun e => !p e, ()) with
  | some (d, _) => d
  | none => c

theorem Edit.shallow_filter {p : Entry → Bool} (hp : ∀ e, p e.shell = p e)
    (hr : ∀ e, Entry.isRegion e = true → p e = false) :
    Edit.Shallow fun es => (es.filter fun e => !p e, ()) where
  map_shell es := by rw [filter_not_map_shell hp]
  filter_isRegion es := filter_isRegion_filter (fun e he => by simp [hr e he]) es

theorem Chunks.outline_dropFirst {n : Text} {p : Entry → Bool} {c : Chunks}
    (hp : ∀ e, p e.shell = p e) (hr : ∀ e, Entry.isRegion e = true → p e = false)
    (h : n ∈ c.names) : (c.dropFirst n p).ownEntries = c.ownEntries ∧
      (c.dropFirst n p).sheets =
        Sheet.editFirst n (fun es => es.filter fun e => !p e) c.sheets := by
  obtain ⟨d, hd, hown, hsheets⟩ := exists_editRegion? (Edit.shallow_filter hp hr) h
  have hdrop : c.dropFirst n p = d := by rw [dropFirst, hd]
  rw [hdrop]
  refine ⟨hown, hsheets.trans (Sheet.editFirst_congr ?_)⟩
  exact flatMap_cut_eq_self fun e he => cut_of_mem_entriesOf e (List.mem_filter.mp he).1

theorem Chunks.Normal.dropFirst {c : Chunks} (hc : c.Normal) (n : Text) (p : Entry → Bool) :
    (c.dropFirst n p).Normal := by
  unfold Chunks.dropFirst
  split
  case h_1 d _ hd => exact hc.editRegion? (fun es h e he => h e (List.mem_filter.mp he).1) hd
  case h_2 => exact hc

namespace Request
variable {r : Request} {d final : Chunks} {o : Outcome} {target : Text} {c : Category}

/-- The request to remove the same items. -/
def removal (r : Request) : Request := { r with action := .remove }

/-- A document without the lines that name an item of the request, in the first region of each
category of the request. -/
def without (r : Request) (d : Chunks) : Chunks :=
  r.categories.foldl (fun e c => e.dropFirst c.region (r.asksFor (declaredTarget d) c)) d

theorem asksFor_shell (r : Request) (target : Text) (c : Category) (e : Entry) :
    r.asksFor target c e.shell = r.asksFor target c e := by
  cases c with
  | sources | headers | exports => exact Edit.readsAny_shell _ e
  | definitions | subdirs | linkLibraries => simp only [asksFor, Edit.names_shell]

theorem asksFor_of_isRegion {e : Entry} (he : e.isRegion = true) :
    r.asksFor target c e = false := by
  cases e with
  | line t => cases he
  | region n body => cases c <;> simp [asksFor, Edit.readsAny, Edit.reads, Edit.names, Entry.line?]

theorem asksFor_of_count_eq_zero (h : r.count c = 0) (e : Entry) :
    r.asksFor target c e = false := by
  cases c with
  | sources | headers | exports =>
    simp only [asksFor, Edit.readsAny, List.eq_nil_of_length_eq_zero h, List.any_nil]
  | definitions | subdirs | linkLibraries =>
    simp only [asksFor, List.eq_nil_of_length_eq_zero h, List.map_nil, List.any_nil]

/-- The entries of a category that name no item of the request. -/
def others (r : Request) (target : Text) (c : Category) (es : List Entry) : List Entry :=
  es.filter fun e => !r.asksFor target c e

theorem outline_foldl_dropFirst (target : Text) {cs : List Category}
    (h : ∀ c ∈ cs, c.region ∈ d.names) :
    (cs.foldl (fun e c => e.dropFirst c.region (r.asksFor target c)) d).ownEntries = d.ownEntries ∧
      (cs.foldl (fun e c => e.dropFirst c.region (r.asksFor target c)) d).sheets =
        editEach (r.others target) cs d.sheets := by
  induction cs generalizing d with
  | nil => exact ⟨rfl, rfl⟩
  | cons c cs ih =>
    obtain ⟨hown, hsheets⟩ := Chunks.outline_dropFirst (r.asksFor_shell target c)
      (fun e he => asksFor_of_isRegion he) (h c (by simp))
    have hnames : (d.dropFirst c.region (r.asksFor target c)).names = d.names := by
      rw [← Chunks.map_name_sheets, hsheets, Sheet.map_name_editFirst, Chunks.map_name_sheets]
    obtain ⟨hown', hsheets'⟩ := @ih (d.dropFirst c.region (r.asksFor target c)) fun k hk => by
      rw [hnames]
      exact h k (List.mem_cons_of_mem c hk)
    refine ⟨hown'.trans hown, hsheets'.trans ?_⟩
    rw [hsheets]
    rfl

theorem normal_without (hd : d.Normal) : (r.without d).Normal := by
  unfold without
  generalize declaredTarget d = target
  induction r.categories generalizing d with
  | nil => exact hd
  | cons c cs ih => exact ih (hd.dropFirst c.region (r.asksFor target c))

theorem others_of_count_eq_zero (h : r.count c = 0) (es : List Entry) : r.others target c es = es :=
  List.filter_eq_self.mpr fun e _ => by simp [asksFor_of_count_eq_zero h e]

theorem sheets_without (h : ∀ c ∈ r.categories, c.region ∈ d.names) :
    (r.without d).sheets = editEach (r.others (declaredTarget d)) Category.all d.sheets := by
  refine (outline_foldl_dropFirst (declaredTarget d) h).2.trans ?_
  refine Sheet.editEach_filter (by decide) fun c _ hc => others_of_count_eq_zero ?_ _
  simpa using hc

/-- One category: what the removal leaves of what the addition made. -/
theorem Typed.edit_removal (hr : r.Typed) (hadd : r.action = .add) (hv : r.validate = .ok ())
    (ht : c.needsTarget = true → isBareToken target = true) (es : List Entry) :
    (r.removal.edit target c (r.edit target c es).1).1 = r.others target c es := by
  cases c with
  | sources | headers | exports =>
    simp only [edit, removal, hadd]
    exact Edit.removeLines_addLines _ es
  | definitions =>
    simp only [edit, removal, hadd]
    exact Edit.removeAll_upsertAll (hr.readsBack_definitions (ht rfl)) es
  | subdirs =>
    simp only [edit, removal, hadd]
    exact Edit.removeAll_upsertAll (readsBack_subdirectories hv) es
  | linkLibraries =>
    simp only [edit, removal, hadd]
    exact Edit.removeAll_upsertAll (hr.readsBack_linkLibraries (ht rfl)) es

theorem exists_apply_removal (h : r.apply d = (.ok o, final)) :
    ∃ o' e, r.removal.apply final = (.ok o', e) := by
  -- The checks do not look at the action.
  have hsame : r.removal.prepare d = r.prepare d := rfl
  have hempty : r.removal.isEmpty = r.isEmpty := rfl
  refine exists_apply_of_apply h (exists_apply_iff.mpr ?_)
  rw [hsame, hempty]
  exact exists_apply_iff.mp ⟨o, final, h⟩

theorem region_mem_names_of_apply (h : r.apply d = (.ok o, final)) :
    ∀ c ∈ r.categories, c.region ∈ d.names := fun _ hc => (checks_of_apply h hc).2.1

/-- Where no line names an item of the request, nothing is dropped. -/
theorem sheets_without_eq_self (hnames : ∀ c ∈ r.categories, c.region ∈ d.names)
    (h : ∀ c ∈ r.categories, ∀ region ∈ d.find? c.region, ∀ l ∈ region.body.ownLines,
      r.asksFor (declaredTarget d) c (.line l) = false) : (r.without d).sheets = d.sheets := by
  have hkept : ∀ c ∈ r.categories, r.others (declaredTarget d) c (entriesOf c.region d.sheets) =
      entriesOf c.region d.sheets := by
    intro c hc
    refine List.filter_eq_self.mpr fun e he => ?_
    cases e with
    | region n body => simp [@asksFor_of_isRegion r (declaredTarget d) c (.region n body) rfl]
    | line l =>
      cases hf : d.find? c.region with
      | none => exact absurd (hnames c hc) (Chunks.find?_eq_none_iff.mp hf)
      | some region =>
        have hl : l ∈ region.body.ownLines := by
          rw [Chunks.ownLines_of_find? hf]
          exact List.mem_filterMap.mpr ⟨.line l, he, rfl⟩
        simp [h c hc region hf l hl]
  have hnone := Sheet.editEach_filter (p := fun _ => false) r.nodup_categories fun c hc _ =>
    hkept c hc
  rw [List.filter_false] at hnone
  exact (outline_foldl_dropFirst (declaredTarget d) hnames).2.trans hnone.symm

/-- Adding and removing the same items leaves the entries that name none of them. -/
theorem Typed.sheets_removal {o' : Outcome} {e : Chunks} (hr : r.Typed) (hadd : r.action = .add)
    (h : r.apply d = (.ok o, final)) (h' : r.removal.apply final = (.ok o', e)) :
    e.sheets = (r.without d).sheets := by
  have hremoval : r.removal.Typed := ⟨hr.definitions, hr.linkLibraries⟩
  rw [hr.sheets_of_apply_apply hremoval h h', sheets_without (region_mem_names_of_apply h)]
  refine Sheet.editEach_congr (by decide) fun c _ => ?_
  by_cases hc : c ∈ r.categories
  · obtain ⟨hv, _, ht⟩ := checks_of_apply h hc
    exact hr.edit_removal hadd hv ht _
  · have hcount := count_eq_zero_of_not_mem hc
    have hcount' : r.removal.count c = 0 := hcount
    rw [edit_of_count_eq_zero hcount', edit_of_count_eq_zero hcount, others_of_count_eq_zero hcount]

/-- A request to add can be taken back. Removing the same items succeeds and leaves the document of
the start without the lines that name them; where there was no such line, this is the document of
the start, and its text is the one that was read if all markers were in canonical form. -/
theorem apply_removal {t : Text} (hparse : Chunks.parse t = .ok d) (hadd : r.action = .add)
    (hr : r.Typed) (h : r.apply d = (.ok o, final)) :
    (∃ o', r.removal.apply final = (.ok o', r.without d)) ∧
    ((∀ c ∈ r.categories, ∀ region ∈ d.find? c.region, ∀ l ∈ region.body.ownLines,
        r.asksFor (declaredTarget d) c (.line l) = false) →
      r.without d = d ∧ (Chunks.CanonicalMarkers t → (r.without d).print = t)) := by
  have hd := Chunks.normal_of_parse hparse
  have hnames := region_mem_names_of_apply h
  have hwithout : (r.without d).Normal := normal_without hd
  have hown : (r.without d).ownEntries = d.ownEntries :=
    (outline_foldl_dropFirst (declaredTarget d) hnames).1
  constructor
  · obtain ⟨o', e, h'⟩ := exists_apply_removal h
    have hremoval : r.removal.Typed := ⟨hr.definitions, hr.linkLibraries⟩
    have hfinal := hremoval.normal_of_apply (hr.normal_of_apply hd h) h'
    have hown' : e.ownEntries = (r.without d).ownEntries := by
      rw [ownEntries_of_apply h', ownEntries_of_apply h, hown]
    have heq : e = r.without d :=
      Chunks.eq_of_outline hfinal.joined hwithout.joined hown' (hr.sheets_removal hadd h h')
    exact ⟨o', heq ▸ h'⟩
  · intro hnone
    have heq : r.without d = d :=
      Chunks.eq_of_outline hwithout.joined hd.joined hown (sheets_without_eq_self hnames hnone)
    rw [heq]
    exact ⟨rfl, fun ht => ht.print_of_parse hparse⟩

/-- Two spellings of a definition become one line, and then none; into an empty region the line
comes and goes. -/
theorem apply_removal_spaced :
    sampleTwice.apply (sampleExecutable (.text sampleSpaced .nil)) =
      (.ok { kind := some .executable, changes := [(.definitions, { replaced := 1 })] },
        sampleExecutable (.text "target_compile_definitions(app PUBLIC -DX=1)\n# kept" .nil)) ∧
    (∃ o, sampleTwice.removal.apply
        (sampleExecutable (.text "target_compile_definitions(app PUBLIC -DX=1)\n# kept" .nil)) =
      (.ok o, sampleExecutable (.text "# kept" .nil))) ∧
    sampleTwice.apply (sampleExecutable .nil) =
      (.ok { kind := some .executable, changes := [(.definitions, { added := 1 })] },
        sampleExecutable (.text "target_compile_definitions(app PUBLIC -DX=1)" .nil)) ∧
    ∃ o, sampleTwice.removal.apply
        (sampleExecutable (.text "target_compile_definitions(app PUBLIC -DX=1)" .nil)) =
      (.ok o, sampleExecutable .nil) := by
  have hparse : Chunks.parse (sampleExecutable (.text sampleSpaced .nil)).print =
      .ok (sampleExecutable (.text sampleSpaced .nil)) := by decide +kernel
  have happly : sampleTwice.apply (sampleExecutable (.text sampleSpaced .nil)) =
      (.ok { kind := some .executable, changes := [(.definitions, { replaced := 1 })] },
        sampleExecutable (.text "target_compile_definitions(app PUBLIC -DX=1)\n# kept" .nil)) := by
    decide +kernel
  have hwithout : sampleTwice.without (sampleExecutable (.text sampleSpaced .nil)) =
      sampleExecutable (.text "# kept" .nil) := by decide +kernel
  have hparse' : Chunks.parse (sampleExecutable .nil).print = .ok (sampleExecutable .nil) := by
    decide +kernel
  have happly' : sampleTwice.apply (sampleExecutable .nil) =
      (.ok { kind := some .executable, changes := [(.definitions, { added := 1 })] },
        sampleExecutable (.text "target_compile_definitions(app PUBLIC -DX=1)" .nil)) := by
    decide +kernel
  obtain ⟨hundo, _⟩ := apply_removal hparse rfl typed_sampleTwice happly
  obtain ⟨hundo', hrestored⟩ := apply_removal hparse' rfl typed_sampleTwice happly'
  rw [hwithout] at hundo
  rw [(hrestored (by decide +kernel)).1] at hundo'
  exact ⟨happly, hundo, happly', hundo'⟩

end Request
end BuildFile
