import BuildFile.Proofs.Request.Frame
/-! Requests one after another. The checks see the same document before and after an edit: the same
regions, and the same lines in the regions that declare names. On the outline, a request is an edit
of all six categories, of which those without items do nothing; so two requests in a row edit each
category twice, and come to the same as one request with the items of both. -/
namespace BuildFile.Request
open Sheet (editEach entriesOf)
variable {r q : Request} {d final : Chunks} {o : Outcome} {kind : ProjectKind} {target : Text}
  {c : Category}

/-! The checks after an edit. -/

section
variable {e : Chunks} (hnames : e.names = d.names)
include hnames

theorem hasRegion_congr (n : Text) : e.hasRegion n = d.hasRegion n := by
  rw [Bool.eq_iff_iff, Chunks.hasRegion_iff, Chunks.hasRegion_iff, hnames]

theorem extractName_congr {region : Text} {name? : Text → Option Text}
    (h : entriesOf region e.sheets = entriesOf region d.sheets) :
    extractName e region name? = extractName d region name? := by
  unfold extractName
  cases he : e.find? region with
  | none =>
    have hd : d.find? region = none := by
      rwa [Chunks.find?_eq_none_iff, ← hnames, ← Chunks.find?_eq_none_iff]
    rw [hd]
  | some a =>
    cases hd : d.find? region with
    | none =>
      rw [Chunks.find?_eq_none_iff, ← hnames, ← Chunks.find?_eq_none_iff, he] at hd
      cases hd
    | some b =>
      have hlines : a.body.ownLines = b.body.ownLines := by
        rw [Chunks.ownLines_of_find? he, Chunks.ownLines_of_find? hd, h]
      simp only [hlines]

theorem detectKind_congr : detectKind e = detectKind d := by
  simp only [detectKind, hasRegion_congr hnames]

theorem checkCategories_congr (cs : List Category) :
    checkCategories kind e cs = checkCategories kind d cs := by
  induction cs with
  | nil => rfl
  | cons c cs ih => simp only [checkCategories, hasRegion_congr hnames, ih]

variable (h : ∀ n, (∀ c : Category, n ≠ c.region) → entriesOf n e.sheets = entriesOf n d.sheets)
include h

theorem targetName_congr (kind : ProjectKind) : targetName e kind = targetName d kind := by
  cases kind with
  | rootProject => rfl
  | executable => exact extractName_congr hnames (h _ fun c => by cases c <;> decide)
  | library => exact extractName_congr hnames (h _ fun c => by cases c <;> decide)

theorem prepare_congr (r : Request) : r.prepare e = r.prepare d := by
  simp only [prepare, neededTarget, detectKind_congr hnames, checkCategories_congr hnames,
    targetName_congr hnames h]

end

/-- The target that a document declares; without a usable one, no name. -/
def declaredTarget (d : Chunks) : Text :=
  match detectKind d with
  | .ok kind =>
    match targetName d kind with
    | .ok target => target
    | .error _ => []
  | .error _ => []

theorem eq_declaredTarget (hp : r.prepare d = .ok (kind, target)) (hc : c ∈ r.categories)
    (hn : c.needsTarget = true) : target = declaredTarget d := by
  obtain ⟨_, hkind, _, htarget⟩ := prepare_eq_ok_iff.mp hp
  rw [neededTarget, if_pos (List.any_eq_true.mpr ⟨c, hc, hn⟩)] at htarget
  simp only [declaredTarget, hkind, htarget]

theorem entriesOf_of_apply_of_forall_ne {n : Text} (h : r.apply d = (.ok o, final))
    (hn : ∀ c : Category, n ≠ c.region) : entriesOf n final.sheets = entriesOf n d.sheets := by
  obtain ⟨target, _, _, hsheets, _⟩ := outline_of_apply h
  rw [hsheets]
  exact Sheet.entriesOf_editEach_of_forall_ne fun c _ => hn c

theorem apply_congr_checks (h : r.apply d = (.ok o, final)) :
    declaredTarget final = declaredTarget d ∧ ∀ q : Request, q.prepare final = q.prepare d := by
  have hnames := names_of_apply h
  have hother := fun n => entriesOf_of_apply_of_forall_ne (n := n) h
  constructor
  · simp only [declaredTarget, detectKind_congr hnames, targetName_congr hnames hother]
  · exact prepare_congr hnames hother

theorem exists_apply_iff :
    (∃ o final, r.apply d = (.ok o, final)) ↔
      r.isEmpty = true ∨ ∃ found, r.prepare d = .ok found := by
  rw [← exists_apply_fst_iff]
  simp [Prod.ext_iff]

/-- A request that succeeds does so as well after another one. -/
theorem exists_apply_of_apply (h : r.apply d = (.ok o, final))
    (hq : ∃ o e, q.apply d = (.ok o, e)) : ∃ o e, q.apply final = (.ok o, e) := by
  rw [exists_apply_iff, (apply_congr_checks h).2 q, ← exists_apply_iff]
  exact hq

/-- A request for some of the categories of one that succeeds. -/
theorem exists_apply_of_subset (h : r.apply d = (.ok o, final))
    (hv : r.validate = .ok () → q.validate = .ok ())
    (hc : ∀ c ∈ q.categories, c ∈ r.categories) : ∃ o e, q.apply d = (.ok o, e) := by
  rw [exists_apply_iff]
  obtain hempty | ⟨⟨kind, target⟩, hp⟩ := exists_apply_iff.mp ⟨o, final, h⟩
  · left
    rw [isEmpty_iff] at hempty ⊢
    rw [hempty] at hc
    exact List.eq_nil_iff_forall_not_mem.mpr fun c hm => List.not_mem_nil (hc c hm)
  · right
    obtain ⟨hvalid, hkind, hcategories, htarget⟩ := prepare_eq_ok_iff.mp hp
    rw [checkCategories_eq_ok_iff] at hcategories
    have hneeded := exists_neededTarget_iff.mp ⟨target, htarget⟩
    obtain ⟨t, ht⟩ := exists_neededTarget_iff.mpr fun hneeds => hneeded (by
      obtain ⟨c, hm, hn⟩ := hneeds
      exact ⟨c, hc c hm, hn⟩)
    exact ⟨(kind, t), prepare_eq_ok_iff.mpr ⟨hv hvalid, hkind,
      checkCategories_eq_ok_iff.mpr fun c hm => hcategories c (hc c hm), ht⟩⟩

/-! A request as an edit of all categories. -/

theorem edit_congr_target {t : Text} (h : c.needsTarget = true → t = target) :
    r.edit t c = r.edit target c := by
  cases c with
  | definitions | linkLibraries => rw [h rfl]
  | sources | headers | exports | subdirs => rfl

theorem editLines_nil (action : Action) (es : List Entry) : (editLines action [] es).1 = es := by
  cases action with
  | add => rfl
  | remove => exact List.filter_eq_self.mpr fun _ _ => rfl

theorem editDirectives_nil {δ : Type} [Directive δ] (action : Action) (es : List Entry) :
    (editDirectives action ([] : List δ) es).1 = es := by cases action <;> rfl

theorem edit_of_count_eq_zero (h : r.count c = 0) (es : List Entry) :
    (r.edit target c es).1 = es := by
  cases c with
  | sources | headers | exports =>
    simp only [edit, List.eq_nil_of_length_eq_zero h, editLines_nil]
  | definitions | subdirs | linkLibraries =>
    simp only [edit, subdirectories, List.eq_nil_of_length_eq_zero h, List.map_nil,
      editDirectives_nil]

theorem rewrite_eq_edit {es : List Entry} (hw : ∀ l ∈ r.written target c, IsPlain l)
    (hes : ∀ e ∈ es, e.cut = [e]) : r.rewrite target c es = (r.edit target c es).1 := by
  apply flatMap_cut_eq_self
  intro e he
  obtain he | ⟨l, hl, rfl⟩ := mem_edit he
  · exact hes e he
  · exact Entry.cut_of_not_mem (hw l hl).1

theorem ownEntries_of_apply (h : r.apply d = (.ok o, final)) : final.ownEntries = d.ownEntries := by
  obtain ⟨_, _, hown, _⟩ := outline_of_apply h
  exact hown

theorem entriesOf_of_apply_of_not_mem (h : r.apply d = (.ok o, final)) (hc : c ∉ r.categories) :
    entriesOf c.region final.sheets = entriesOf c.region d.sheets := by
  obtain ⟨target, _, _, hsheets, _⟩ := outline_of_apply h
  rw [hsheets]
  refine Sheet.entriesOf_editEach_of_forall_ne fun k hk => Sheet.region_ne ?_
  rintro rfl
  exact hc hk

theorem Typed.normal_of_apply (hr : r.Typed) (hd : d.Normal) (h : r.apply d = (.ok o, final)) :
    final.Normal := by
  have hfinal := hr.normal_apply hd
  rwa [h] at hfinal

/-- The sheets after a request, as an edit of all categories for the target that the document
declares. -/
theorem Typed.sheets_of_apply (hr : r.Typed) (h : r.apply d = (.ok o, final)) :
    final.sheets = editEach (fun c es => (r.edit (declaredTarget d) c es).1) Category.all
      d.sheets := by
  obtain ⟨target, hprep, _, hsheets, _⟩ := outline_of_apply h
  have hall : Category.all.Nodup := by decide
  have hcategories : editEach (r.rewrite target) r.categories d.sheets =
      editEach (fun c es => (r.edit (declaredTarget d) c es).1) r.categories d.sheets := by
    apply Sheet.editEach_congr r.nodup_categories
    intro c hc
    obtain ⟨kind, hp⟩ := hprep c hc
    obtain ⟨hv, _, _, hneeded⟩ := prepare_eq_ok_iff.mp hp
    have hw := hr.isPlain_written hv (not_newline_mem_of_neededTarget hneeded) c
    rw [rewrite_eq_edit hw Chunks.cut_of_mem_entriesOf, edit_congr_target (eq_declaredTarget hp hc)]
  rw [hsheets, hcategories]
  refine Sheet.editEach_filter hall fun c _ hc => edit_of_count_eq_zero ?_ _
  simpa using hc

/-- Two requests edit each category twice, for the same target. -/
theorem Typed.sheets_of_apply_apply {o' : Outcome} {e : Chunks} (hr : r.Typed) (hq : q.Typed)
    (h : r.apply d = (.ok o, final)) (h' : q.apply final = (.ok o', e)) :
    e.sheets = editEach (fun c es => (q.edit (declaredTarget d) c
      (r.edit (declaredTarget d) c es).1).1) Category.all d.sheets := by
  rw [hq.sheets_of_apply h', (apply_congr_checks h).1, hr.sheets_of_apply h,
    Sheet.editEach_editEach (by decide)]
  rfl

/-! Two requests in one. -/

/-- The request with the items of both. -/
def append (r q : Request) : Request where
  action := r.action
  sources := r.sources ++ q.sources
  headers := r.headers ++ q.headers
  exports := r.exports ++ q.exports
  definitions := r.definitions ++ q.definitions
  subdirs := r.subdirs ++ q.subdirs
  linkLibraries := r.linkLibraries ++ q.linkLibraries

theorem count_append (r q : Request) (c : Category) :
    (r.append q).count c = r.count c + q.count c := by
  cases c <;> simp [count, append]

theorem mem_categories_append_iff :
    c ∈ (r.append q).categories ↔ c ∈ r.categories ∨ c ∈ q.categories := by
  simp only [mem_categories_iff, count_append]
  omega

theorem validate_append_iff :
    (r.append q).validate = .ok () ↔ r.validate = .ok () ∧ q.validate = .ok () := by
  simp only [validate_eq_ok_iff, append, List.forall_mem_append]
  tauto

theorem Typed.append (hr : r.Typed) (hq : q.Typed) : (r.append q).Typed where
  definitions i hi := (List.mem_append.mp hi).elim (hr.definitions i) (hq.definitions i)
  linkLibraries i hi := (List.mem_append.mp hi).elim (hr.linkLibraries i) (hq.linkLibraries i)

theorem editLines_append (action : Action) (items more : List Text) (es : List Entry) :
    (editLines action (items ++ more) es).1 =
      (editLines action more (editLines action items es).1).1 := by
  cases action with
  | add => exact Edit.addLines_append items more es
  | remove => exact Edit.removeLines_append items more es

theorem editDirectives_append {δ : Type} [Directive δ] (action : Action) (ds ks : List δ)
    (es : List Entry) : (editDirectives action (ds ++ ks) es).1 =
      (editDirectives action ks (editDirectives action ds es).1).1 := by
  cases action with
  | add => exact Edit.upsertAll_append ds ks es
  | remove => exact Edit.removeAll_append ds ks es

theorem edit_append (h : r.action = q.action) (target : Text) (c : Category) (es : List Entry) :
    ((r.append q).edit target c es).1 = (q.edit target c (r.edit target c es).1).1 := by
  cases c with
  | sources | headers | exports =>
    simp only [edit, append, ← h]
    exact editLines_append r.action _ _ es
  | definitions | subdirs | linkLibraries =>
    simp only [edit, append, subdirectories, List.map_append, ← h]
    exact editDirectives_append r.action _ _ es

/-- One request with all items, and two requests with a write and a read in between, give the same
document. -/
theorem apply_append {t : Text} (hparse : Chunks.parse t = .ok d) (haction : r.action = q.action)
    (hr : r.Typed) (hq : q.Typed) (h : (r.append q).apply d = (.ok o, final)) :
    ∃ o₁ d₁, r.apply d = (.ok o₁, d₁) ∧ Chunks.parse d₁.print = .ok d₁ ∧
      ∃ o₂, q.apply d₁ = (.ok o₂, final) := by
  have hnormal := Chunks.normal_of_parse hparse
  obtain ⟨o₁, d₁, h₁⟩ : ∃ o e, r.apply d = (.ok o, e) :=
    exists_apply_of_subset h (fun hv => (validate_append_iff.mp hv).1)
      fun c hc => mem_categories_append_iff.mpr (.inl hc)
  have halone : ∃ o e, q.apply d = (.ok o, e) :=
    exists_apply_of_subset h (fun hv => (validate_append_iff.mp hv).2)
      fun c hc => mem_categories_append_iff.mpr (.inr hc)
  obtain ⟨o₂, d₂, h₂⟩ := exists_apply_of_apply h₁ halone
  have hnormal₁ := hr.normal_of_apply hnormal h₁
  have hnormal₂ := hq.normal_of_apply hnormal₁ h₂
  have hfinal := (hr.append hq).normal_of_apply hnormal h
  have hown : d₂.ownEntries = final.ownEntries := by
    rw [ownEntries_of_apply h₂, ownEntries_of_apply h₁, ownEntries_of_apply h]
  have hsheets : d₂.sheets = final.sheets := by
    rw [hr.sheets_of_apply_apply hq h₁ h₂, (hr.append hq).sheets_of_apply h]
    exact Sheet.editEach_congr (by decide) fun c _ => (edit_append haction _ c _).symm
  have heq : d₂ = final := Chunks.eq_of_outline hnormal₂.joined hfinal.joined hown hsheets
  exact ⟨o₁, d₁, h₁, hnormal₁.parse_print, o₂, heq ▸ h₂⟩

/-- Items for two categories, of which one region is nested in the other. The second request repeats
an item of the first one with blanks around it. -/
theorem apply_append_nested :
    apply (append { action := .add, sources := ["c.cpp"], headers := ["c.h"] }
        { action := .add, sources := ["d.cpp", " c.cpp "], headers := ["a.h", "b.h"] })
        (sampleNested (.text "a.h" .nil) (.text "a.cpp" .nil)) =
      (.ok { kind := some .library,
             changes := [(.sources, { added := 2 }), (.headers, { added := 2 })] },
        sampleNested (.text "a.h\nc.h\nb.h" .nil) (.text "a.cpp\nc.cpp\nd.cpp" .nil)) ∧
    ∃ o₁ d₁, apply { action := .add, sources := ["c.cpp"], headers := ["c.h"] }
        (sampleNested (.text "a.h" .nil) (.text "a.cpp" .nil)) = (.ok o₁, d₁) ∧
      Chunks.parse d₁.print = .ok d₁ ∧
      ∃ o₂, apply
          { action := .add, sources := ["d.cpp", " c.cpp "], headers := ["a.h", "b.h"] } d₁ =
        (.ok o₂, sampleNested (.text "a.h\nc.h\nb.h" .nil) (.text "a.cpp\nc.cpp\nd.cpp" .nil)) := by
  have hparse : Chunks.parse (sampleNested (.text "a.h" .nil) (.text "a.cpp" .nil)).print =
      .ok (sampleNested (.text "a.h" .nil) (.text "a.cpp" .nil)) := by decide +kernel
  have happly : apply (append { action := .add, sources := ["c.cpp"], headers := ["c.h"] }
        { action := .add, sources := ["d.cpp", " c.cpp "], headers := ["a.h", "b.h"] })
        (sampleNested (.text "a.h" .nil) (.text "a.cpp" .nil)) =
      (.ok { kind := some .library,
             changes := [(.sources, { added := 2 }), (.headers, { added := 2 })] },
        sampleNested (.text "a.h\nc.h\nb.h" .nil) (.text "a.cpp\nc.cpp\nd.cpp" .nil)) := by
    decide +kernel
  exact ⟨happly, apply_append hparse rfl ⟨by simp, by simp⟩ ⟨by simp, by simp⟩ happly⟩

end BuildFile.Request
