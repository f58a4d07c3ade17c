import BuildFile.Proofs.Request.Directives
/-! Inspecting a document before and after a request. A summary lists the lines of each category
trimmed and without blank ones; an edit of lines, seen through that view, is an append of the new
items or a filter. All else that a summary shows is left alone: the kind, the names, which
categories there are, and the lines of those that the request does not carry. -/
namespace BuildFile
variable {d final : Chunks} {o : Outcome} {c : Category}

/-- The lines among entries as a summary shows them: trimmed, the blank ones left out. -/
def shown (es : List Entry) : List Text := ((es.filterMap Entry.line?).map trim).filter (!·.isEmpty)

theorem shown_region (n : Text) (body : Chunks) (es : List Entry) :
    shown (.region n body :: es) = shown es := rfl

theorem shown_line (l : Text) (es : List Entry) :
    shown (.line l :: es) = if trim l = [] then shown es else trim l :: shown es := by
  by_cases h : trim l = [] <;> simp [shown, Entry.line?, h]

theorem mem_shown_iff {t : Text} {es : List Entry} :
    t ∈ shown es ↔ t ≠ [] ∧ es.any (Edit.reads t) = true := by
  rw [Edit.any_reads_iff, shown, List.mem_filter, and_comm]
  simp

/-! Edits of lines. -/

namespace Edit

theorem shown_addLines {items : List Text} (h : ∀ item ∈ items, trim item ≠ []) (es : List Entry) :
    shown (addLines items es).1 =
      shown es ++ ((items.map trim).filter fun t => t ∉ shown es).eraseDups := by
  induction items generalizing es with
  | nil => simp [addLines, List.eraseDups_nil]
  | cons item items ih =>
    obtain ⟨hitem, hitems⟩ := List.forall_mem_cons.mp h
    have hpresent : es.any (reads (trim item)) = true ↔ trim item ∈ shown es := by
      rw [mem_shown_iff, and_iff_right hitem]
    rw [addLines, List.map_cons]
    by_cases hmem : trim item ∈ shown es
    · rw [if_pos (by simp [hpresent.mpr hmem]), ih hitems,
        List.filter_cons_of_neg (by simpa using hmem)]
    · have hnew : shown (es ++ [Entry.line (trim item)]) = shown es ++ [trim item] := by
        simp [shown, Entry.line?, trim_trim, hitem]
      have hlater : ((items.map trim).filter fun t => t ∉ shown es ++ [trim item]) =
          (((items.map trim).filter fun t => t ∉ shown es).filter fun t => !t == trim item) := by
        rw [List.filter_filter]
        refine List.filter_congr fun t _ => ?_
        rw [Bool.eq_iff_iff]
        simp [and_comm]
      rw [if_neg (by simp [hitem, mt hpresent.mp hmem])]
      dsimp only
      rw [ih hitems, hnew, hlater, List.filter_cons_of_pos (by simpa using hmem),
        List.eraseDups_cons, List.append_assoc]
      rfl

theorem readsAny_line_iff {items : List Text} {l : Text} :
    readsAny items (.line l) = true ↔ trim l ≠ [] ∧ trim l ∈ items.map trim := by
  simp only [readsAny, reads, List.any_eq_true, Bool.and_eq_true, beq_iff_eq, List.mem_map]
  constructor
  · intro h
    obtain ⟨item, hitem, hblank, htrim⟩ := h
    rw [htrim]
    exact ⟨by simpa using hblank, item, hitem, rfl⟩
  · intro h
    obtain ⟨hblank, item, hitem, htrim⟩ := h
    exact ⟨item, hitem, by simpa [htrim] using hblank, htrim.symm⟩

theorem shown_removeLines (items : List Text) (es : List Entry) :
    shown (removeLines items es).1 = (shown es).filter fun t => t ∉ items.map trim := by
  change shown (es.filter fun e => !readsAny items e) = _
  induction es with
  | nil => rfl
  | cons e es ih =>
    cases e with
    | region n body =>
      rw [List.filter_cons_of_pos (by simp [readsAny, reads]), shown_region, shown_region, ih]
    | line l =>
      -- A blank line is never dropped, and never shown.
      cases hdrop : readsAny items (.line l) with
      | true =>
        obtain ⟨hblank, hmem⟩ := readsAny_line_iff.mp hdrop
        rw [List.filter_cons_of_neg (by simp [hdrop]), shown_line, if_neg hblank,
          List.filter_cons_of_neg (by simpa using hmem), ih]
      | false =>
        rw [List.filter_cons_of_pos (by simp [hdrop]), shown_line, shown_line]
        by_cases hblank : trim l = []
        · rw [if_pos hblank, if_pos hblank, ih]
        · have hmem : trim l ∉ items.map trim := by
            intro hmem
            rw [readsAny_line_iff.mpr ⟨hblank, hmem⟩] at hdrop
            cases hdrop
          rw [if_neg hblank, if_neg hblank, List.filter_cons_of_pos (by simpa using hmem), ih]

end Edit

/-! Summaries. -/

theorem summarizeRegion?_eq_some_iff {x : RegionSummary} : summarizeRegion? d c = some x ↔
    ∃ r, d.find? c.region = some r ∧ x = ⟨c, c.region, shown r.body.ownEntries⟩ := by
  rw [summarizeRegion?, Option.map_eq_some_iff]
  have hlines (r : Region) :
      ((r.body.ownLines.map trim).filter (!·.isEmpty)) = shown r.body.ownEntries := by
    rw [Chunks.ownLines_eq_filterMap_ownEntries]
    rfl
  constructor
  · intro h
    obtain ⟨r, hr, rfl⟩ := h
    exact ⟨r, hr, by rw [Chunks.name_of_find? hr, hlines]⟩
  · intro h
    obtain ⟨r, hr, rfl⟩ := h
    exact ⟨r, hr, by rw [Chunks.name_of_find? hr, hlines]⟩

/-- Which regions a summary lists depends only on the names in the document. -/
theorem map_summarizeRegion? (d : Chunks) (c : Category) :
    (summarizeRegion? d c).map (fun x => (x.category, x.region)) =
      if c.region ∈ d.names then some (c, c.region) else none := by
  cases h : summarizeRegion? d c with
  | some x =>
    obtain ⟨r, hr, rfl⟩ := summarizeRegion?_eq_some_iff.mp h
    have hmem : c.region ∈ d.names := by
      by_contra hnot
      rw [Chunks.find?_eq_none_iff.mpr hnot] at hr
      cases hr
    rw [if_pos hmem]
    rfl
  | none =>
    have hnone : d.find? c.region = none := Option.map_eq_none_iff.mp h
    rw [if_neg (Chunks.find?_eq_none_iff.mp hnone)]
    rfl

theorem summarize_eq_ok_iff {s : Summary} : summarize d = .ok s ↔ ∃ kind, detectKind d = .ok kind ∧
    s = { kind, projectName := (projectName d).toOption, targetName := (targetName d kind).toOption,
          regions := Category.all.filterMap (summarizeRegion? d) } := by
  rw [summarize, bind_eq_ok_iff]
  constructor
  · intro h
    obtain ⟨kind, hkind, hs⟩ := h
    exact ⟨kind, hkind, (Except.ok.inj hs).symm⟩
  · intro h
    obtain ⟨kind, hkind, rfl⟩ := h
    exact ⟨kind, hkind, rfl⟩

namespace Request
variable {r : Request}

/-- The items for a category whose entries are plain lines. -/
def lineItems? (r : Request) : Category → Option (List Text)
  | .sources => some r.sources
  | .headers => some r.headers
  | .exports => some r.exports
  | .definitions | .subdirs | .linkLibraries => none

/-- What a request makes of the lines that a summary shows for a category of plain lines. -/
def relist (action : Action) (items lines : List Text) : List Text :=
  match action with
  | .add => lines ++ ((items.map trim).filter fun t => t ∉ lines).eraseDups
  | .remove => lines.filter fun t => t ∉ items.map trim

theorem ne_nil_of_lineItems? {items : List Text} (hv : r.validate = .ok ())
    (hitems : r.lineItems? c = some items) : ∀ item ∈ items, trim item ≠ [] := by
  have hfault (item : Text) (h : lineFault? item = none) : trim item ≠ [] := by
    intro hblank
    simp [lineFault?, hblank] at h
  obtain ⟨hsources, hheaders, hexports, _⟩ := validate_eq_ok_iff.mp hv
  intro item hitem
  cases c with
  | sources =>
    cases hitems
    exact hfault item (hsources item hitem)
  | headers =>
    cases hitems
    exact hfault item (hheaders item hitem)
  | exports =>
    cases hitems
    exact hfault item (hexports item hitem)
  | definitions | subdirs | linkLibraries => cases hitems

theorem shown_edit {items : List Text} {target : Text} (hv : r.validate = .ok ())
    (hitems : r.lineItems? c = some items) (es : List Entry) :
    shown (r.edit target c es).1 = relist r.action items (shown es) := by
  have hlines : r.edit target c es = editLines r.action items es := by
    cases c with
    | sources | headers | exports =>
      cases hitems
      rfl
    | definitions | subdirs | linkLibraries => cases hitems
  rw [hlines]
  cases r.action with
  | add => exact Edit.shown_addLines (ne_nil_of_lineItems? hv hitems) es
  | remove => exact Edit.shown_removeLines items es

theorem exists_detectKind_of_apply (hne : r.isEmpty = false) (h : r.apply d = (.ok o, final)) :
    ∃ kind, detectKind d = .ok kind := by
  have happlied := r.applied d
  rw [h] at happlied
  cases happlied with
  | empty he => simp [he] at hne
  | edited _ hp => exact ⟨_, (prepare_eq_ok_iff.mp hp).2.1⟩

/-- The lines of a category before and after a request, as two summaries list them. -/
theorem Typed.shown_of_apply {before after : Region} (hr : r.Typed) (h : r.apply d = (.ok o, final))
    (hbefore : d.find? c.region = some before) (hafter : final.find? c.region = some after) :
    (c ∉ r.categories → shown after.body.ownEntries = shown before.body.ownEntries) ∧
    ∀ items, c ∈ r.categories → r.lineItems? c = some items →
      shown after.body.ownEntries = relist r.action items (shown before.body.ownEntries) := by
  rw [Chunks.ownEntries_of_find? hbefore, Chunks.ownEntries_of_find? hafter]
  refine ⟨fun hc => by rw [entriesOf_of_apply_of_not_mem h hc], ?_⟩
  intro items hc hitems
  rw [hr.entriesOf_of_apply h hc, shown_edit (checks_of_apply h hc).1 hitems]

/-- Inspecting a document before a request and, written and read again, after it. The kind, the
names and the list of categories stay; so do the lines of categories that the request does not
carry. Of the categories of plain lines, an addition appends the trimmed items that were not listed,
each once and in order, and a removal drops the lines that are equal to a trimmed item. -/
theorem summarize_of_apply {t : Text} (hparse : Chunks.parse t = .ok d) (hr : r.Typed)
    (hne : r.isEmpty = false) (h : r.apply d = (.ok o, final)) :
    ∃ s back s', summarize d = .ok s ∧ Chunks.parse final.print = .ok back ∧
      summarize back = .ok s' ∧
      s'.kind = s.kind ∧ s'.projectName = s.projectName ∧ s'.targetName = s.targetName ∧
      s'.regions.map (fun x => (x.category, x.region)) =
        s.regions.map (fun x => (x.category, x.region)) ∧
      ∀ x ∈ s.regions, ∀ x' ∈ s'.regions, x'.category = x.category →
        (x.category ∉ r.categories → x'.lines = x.lines) ∧
        ∀ items, x.category ∈ r.categories → r.lineItems? x.category = some items →
          x'.lines = relist r.action items x.lines := by
  have hnames := names_of_apply h
  have hother := fun n => entriesOf_of_apply_of_forall_ne (n := n) h
  obtain ⟨kind, hkind⟩ := exists_detectKind_of_apply hne h
  have hkind' : detectKind final = .ok kind := (detectKind_congr hnames).trans hkind
  refine ⟨_, final, _, summarize_eq_ok_iff.mpr ⟨kind, hkind, rfl⟩,
    (hr.normal_of_apply (Chunks.normal_of_parse hparse) h).parse_print,
    summarize_eq_ok_iff.mpr ⟨kind, hkind', rfl⟩, rfl, ?_, ?_, ?_, ?_⟩
  · have hproject : projectName final = projectName d :=
      extractName_congr hnames (hother _ fun c => by cases c <;> decide)
    rw [hproject]
  · rw [targetName_congr hnames hother]
  · simp only [List.map_filterMap, map_summarizeRegion?, hnames]
  · intro x hx x' hx' hcategory
    obtain ⟨c, _, hc⟩ := List.mem_filterMap.mp hx
    obtain ⟨c', _, hc'⟩ := List.mem_filterMap.mp hx'
    obtain ⟨before, hbefore, rfl⟩ := summarizeRegion?_eq_some_iff.mp hc
    obtain ⟨after, hafter, rfl⟩ := summarizeRegion?_eq_some_iff.mp hc'
    obtain rfl : c' = c := hcategory
    exact hr.shown_of_apply h hbefore hafter

/-- A new source twice, and one that is there. -/
def sampleSources : Request where
  action := .add
  sources := ["b.cpp", " keep", "b.cpp "]

/-- The summary of a library with one header, nested in its sources. -/
def sampleSummary (sources : List Text) : Summary where
  kind := .library
  projectName := none
  targetName := none
  regions := [⟨.sources, "sources", sources⟩, ⟨.headers, "headers", ["a.h"]⟩]

/-- A source that is there, between blanks, is not listed twice; a new one is listed once, and the
nested headers are left as they are. -/
theorem summarize_of_apply_nested :
    sampleSources.apply (sampleNested (.text "a.h" .nil) (.text " a.cpp\n" .nil)) =
      (.ok { kind := some .library, changes := [(.sources, { added := 1 })] },
        sampleNested (.text "a.h" .nil) (.text " a.cpp\n\nb.cpp" .nil)) ∧
    summarize (sampleNested (.text "a.h" .nil) (.text " a.cpp\n" .nil)) =
      .ok (sampleSummary ["keep", "a.cpp"]) ∧
    ∃ back s', Chunks.parse (sampleNested (.text "a.h" .nil) (.text " a.cpp\n\nb.cpp" .nil)).print =
      .ok back ∧ summarize back = .ok s' ∧ s'.kind = .library ∧
      (∀ x ∈ s'.regions, x.category = .sources → x.lines = ["keep", "a.cpp", "b.cpp"]) ∧
      ∀ x ∈ s'.regions, x.category = .headers → x.lines = ["a.h"] := by
  have hparse : Chunks.parse (sampleNested (.text "a.h" .nil) (.text " a.cpp\n" .nil)).print =
      .ok (sampleNested (.text "a.h" .nil) (.text " a.cpp\n" .nil)) := by decide +kernel
  have happly : sampleSources.apply (sampleNested (.text "a.h" .nil) (.text " a.cpp\n" .nil)) =
      (.ok { kind := some .library, changes := [(.sources, { added := 1 })] },
        sampleNested (.text "a.h" .nil) (.text " a.cpp\n\nb.cpp" .nil)) := by decide +kernel
  have hsummary : summarize (sampleNested (.text "a.h" .nil) (.text " a.cpp\n" .nil)) =
      .ok (sampleSummary ["keep", "a.cpp"]) := by decide +kernel
  have htyped : sampleSources.Typed := ⟨nofun, nofun⟩
  obtain ⟨s, back, s', hs, hback, hs', hkind, _, _, _, hlines⟩ :=
    summarize_of_apply hparse htyped rfl happly
  obtain rfl := Except.ok.inj (hsummary.symm.trans hs)
  refine ⟨happly, hsummary, back, s', hback, hs', hkind, ?_, ?_⟩
  · intro x hx hcategory
    have hrelist :=
      (hlines ⟨.sources, "sources", ["keep", "a.cpp"]⟩ (by simp [sampleSummary]) x hx hcategory).2
      sampleSources.sources (by decide) rfl
    exact hrelist.trans (by decide +kernel)
  · intro x hx hcategory
    exact (hlines ⟨.headers, "headers", ["a.h"]⟩ (by simp [sampleSummary]) x hx hcategory).1
      (by decide)

end Request
end BuildFile
