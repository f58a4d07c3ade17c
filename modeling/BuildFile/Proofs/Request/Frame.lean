import BuildFile.Proofs.Edit.Shallow
import BuildFile.Proofs.Request.Stable
import Mathlib.Data.List.Flatten
/-! What a request touches. Every edit of a request is shallow, so no edit adds, drops or renames a
region; the loop over the categories therefore finds all its regions, and a request fails only in
the checks that come before the loop. On the outline, a request edits the first sheet of each of its
categories. -/
namespace BuildFile.Request
open Sheet (editEach entriesOf)
variable {r : Request} {d : Chunks} {kind : ProjectKind} {target : Text} {c : Category}

theorem shallow_editLines (action : Action) (items : List Text) :
    Edit.Shallow (editLines action items) := by
  cases action with
  | add => exact (Edit.shallow_addLines items).report fun n => ({ added := n } : Edit.Change)
  | remove =>
    exact (Edit.shallow_removeLines items).report fun n => ({ removed := n } : Edit.Change)

theorem shallow_editDirectives {δ : Type} [Directive δ] (action : Action) (ds : List δ) :
    Edit.Shallow (editDirectives action ds) := by
  cases action with
  | add => exact Edit.shallow_upsertAll ds
  | remove => exact Edit.shallow_removeAll ds

theorem shallow_edit (r : Request) (target : Text) (c : Category) :
    Edit.Shallow (r.edit target c) := by
  cases c with
  | sources | headers | exports => exact shallow_editLines _ _
  | definitions | subdirs | linkLibraries => exact shallow_editDirectives _ _

/-! The checks. -/

theorem mem_categories_iff : c ∈ r.categories ↔ 0 < r.count c := by
  simp [categories, Category.mem_all]

theorem count_eq_zero_of_not_mem (h : c ∉ r.categories) : r.count c = 0 := by
  rwa [mem_categories_iff, Nat.not_lt, Nat.le_zero] at h

theorem nodup_categories (r : Request) : r.categories.Nodup :=
  List.Nodup.sublist List.filter_sublist (by decide)

theorem isEmpty_iff : r.isEmpty = true ↔ r.categories = [] := List.isEmpty_iff

theorem detectKind_eq_ok_iff :
    detectKind d = .ok kind ↔ ∀ k : ProjectKind, k.marker ∈ d.names ↔ k = kind := by
  have hfilter : detectKind d = .ok kind ↔
      ProjectKind.all.filter (fun k => d.hasRegion k.marker) = [kind] := by
    unfold detectKind
    split
    case h_1 k hk => simp [hk]
    case h_2 hk => simp [hk]
    case h_3 hone _ => simpa using hone kind
  rw [hfilter]
  constructor
  · intro h k
    have hmem : k ∈ ProjectKind.all.filter (fun k => d.hasRegion k.marker) ↔ k ∈ [kind] := by rw [h]
    rwa [List.mem_filter, List.mem_singleton, Chunks.hasRegion_iff,
      and_iff_right (ProjectKind.mem_all k)] at hmem
  · intro h
    have hcongr : ∀ k ∈ ProjectKind.all, d.hasRegion k.marker = decide (k = kind) := by
      intro k _
      rw [Bool.eq_iff_iff, Chunks.hasRegion_iff, h k, decide_eq_true_iff]
    rw [List.filter_congr hcongr]
    cases kind <;> rfl

theorem checkCategories_eq_ok_iff {cs : List Category} :
    checkCategories kind d cs = .ok () ↔ ∀ c ∈ cs, kind.allows c = true ∧ c.region ∈ d.names := by
  induction cs with
  | nil => simp [checkCategories]
  | cons c cs ih =>
    rw [checkCategories, List.forall_mem_cons, ← ih, ← Chunks.hasRegion_iff]
    cases kind.allows c <;> cases d.hasRegion c.region <;> simp

theorem exists_neededTarget_iff {cs : List Category} :
    (∃ target, neededTarget kind d cs = .ok target) ↔
      ((∃ c ∈ cs, c.needsTarget = true) → ∃ target, targetName d kind = .ok target) := by
  unfold neededTarget
  rw [← List.any_eq_true]
  cases cs.any Category.needsTarget <;> simp

theorem exists_needsTarget_iff : (∃ c, 0 < r.count c ∧ c.needsTarget = true) ↔
    0 < r.count .definitions ∨ 0 < r.count .linkLibraries := by
  constructor
  · intro h
    obtain ⟨c, hc, hn⟩ := h
    cases c with
    | definitions => exact .inl hc
    | linkLibraries => exact .inr hc
    | sources | headers | exports | subdirs => cases hn
  · intro h
    obtain h | h := h
    · exact ⟨.definitions, h, rfl⟩
    · exact ⟨.linkLibraries, h, rfl⟩

theorem region_mem_names_of_prepare (h : r.prepare d = .ok (kind, target)) :
    ∀ c ∈ r.categories, c.region ∈ d.names :=
  fun c hc => (checkCategories_eq_ok_iff.mp (prepare_eq_ok_iff.mp h).2.2.1 c hc).2

/-! The loop. -/

/-- What a request makes of the entries of a category's sheet. -/
def rewrite (r : Request) (target : Text) (c : Category) (es : List Entry) : List Entry :=
  (r.edit target c es).1.flatMap Entry.cut

/-- What a request reports about a category, from the sheets before. -/
def report (r : Request) (target : Text) (ss : List Sheet) (c : Category) :
    Category × Edit.Change :=
  (c, (r.edit target c (entriesOf c.region ss)).2)

/-- No lookup in the loop fails: an edit leaves all regions where they were. -/
theorem exists_editAll (r : Request) (target : Text) {cs : List Category} (hcs : cs.Nodup)
    (h : ∀ c ∈ cs, c.region ∈ d.names) :
    ∃ final, r.editAll target cs d = (.ok (cs.map (r.report target d.sheets)), final) ∧
      final.ownEntries = d.ownEntries ∧
      final.sheets = editEach (r.rewrite target) cs d.sheets := by
  induction cs generalizing d with
  | nil => exact ⟨d, rfl, rfl, rfl⟩
  | cons c cs ih =>
    obtain ⟨hc, hnodup⟩ := List.nodup_cons.mp hcs
    obtain ⟨mid, he, hown, hsheets⟩ :=
      Chunks.exists_editRegion? (r.shallow_edit target c) (h c (by simp))
    have hnames : mid.names = d.names := by
      rw [← Chunks.map_name_sheets, hsheets, Sheet.map_name_editFirst, Chunks.map_name_sheets]
    obtain ⟨final, hall, hown', hsheets'⟩ := ih hnodup fun k hk => by
      rw [hnames]
      exact h k (List.mem_cons_of_mem c hk)
    have hreport : cs.map (r.report target mid.sheets) = cs.map (r.report target d.sheets) := by
      apply List.map_congr_left
      intro k hk
      have hkc : k ≠ c := fun hkc => hc (hkc ▸ hk)
      rw [report, report, hsheets, Sheet.entriesOf_editFirst_of_ne (Sheet.region_ne hkc)]
    refine ⟨final, ?_, hown'.trans hown, ?_⟩
    · simp only [editAll, he, hall, hreport]
      rfl
    · rw [hsheets', hsheets]
      rfl

/-- The three ways in which a request can end. -/
inductive Applied (r : Request) (d : Chunks) : Except Error Outcome × Chunks → Prop
  | empty (h : r.isEmpty = true) : Applied r d (.ok {}, d)
  | refused {e : Error} (h : r.isEmpty = false) (hp : r.prepare d = .error e) :
    Applied r d (.error e, d)
  | edited {kind : ProjectKind} {target : Text} {final : Chunks} (h : r.isEmpty = false)
    (hp : r.prepare d = .ok (kind, target)) (hown : final.ownEntries = d.ownEntries)
    (hsheets : final.sheets = editEach (r.rewrite target) r.categories d.sheets) :
    Applied r d
      (.ok { kind := some kind, changes := r.categories.map (r.report target d.sheets) }, final)

theorem applied (r : Request) (d : Chunks) : Applied r d (r.apply d) := by
  cases he : r.isEmpty with
  | true =>
    rw [apply, if_pos he]
    exact .empty he
  | false =>
    rw [apply, if_neg (by simp [he])]
    cases hp : r.prepare d with
    | error e => exact .refused he hp
    | ok found =>
      obtain ⟨kind, target⟩ := found
      obtain ⟨final, hall, hown, hsheets⟩ :=
        r.exists_editAll target r.nodup_categories (region_mem_names_of_prepare hp)
      simp only [hall]
      exact .edited he hp hown hsheets

theorem exists_apply_fst_iff :
    (∃ o, (r.apply d).1 = .ok o) ↔ r.isEmpty = true ∨ ∃ found, r.prepare d = .ok found := by
  have happlied := r.applied d
  generalize r.apply d = result at happlied
  cases happlied with
  | empty h => simp [h]
  | refused h hp => simp [h, hp]
  | edited h hp => simp [h, hp]

/-- A request succeeds exactly if it is empty or passes all its checks. The loop over the categories
cannot fail, and a request that fails leaves the document as it was. -/
theorem apply_succeeds_iff (r : Request) (d : Chunks) :
    ((∃ o, (r.apply d).1 = .ok o) ↔
      r.isEmpty = true ∨
      (r.validate = .ok () ∧ ∃ kind : ProjectKind,
        (∀ k : ProjectKind, k.marker ∈ d.names ↔ k = kind) ∧
        (∀ c, 0 < r.count c → kind.allows c = true) ∧
        (∀ c, 0 < r.count c → c.region ∈ d.names) ∧
        (0 < r.count .definitions ∨ 0 < r.count .linkLibraries →
          ∃ target, targetName d kind = .ok target))) ∧
    (∀ target, (∀ c ∈ r.categories, c.region ∈ d.names) →
      ∃ changes, (r.editAll target r.categories d).1 = .ok changes) ∧
    ∀ e, (r.apply d).1 = .error e → (r.apply d).2 = d := by
  have hchecks : (∃ found, r.prepare d = .ok found) ↔
      r.validate = .ok () ∧ ∃ kind : ProjectKind,
        (∀ k : ProjectKind, k.marker ∈ d.names ↔ k = kind) ∧
        (∀ c, 0 < r.count c → kind.allows c = true) ∧
        (∀ c, 0 < r.count c → c.region ∈ d.names) ∧
        (0 < r.count .definitions ∨ 0 < r.count .linkLibraries →
          ∃ target, targetName d kind = .ok target) := by
    simp only [Prod.exists, prepare_eq_ok_iff, exists_and_left, exists_neededTarget_iff,
      detectKind_eq_ok_iff, checkCategories_eq_ok_iff, mem_categories_iff, exists_needsTarget_iff,
      imp_and, forall_and, and_assoc]
  refine ⟨?_, ?_, ?_⟩
  · rw [exists_apply_fst_iff, hchecks]
  · intro target h
    obtain ⟨final, hall, _⟩ := r.exists_editAll target r.nodup_categories h
    exact ⟨_, by rw [hall]⟩
  · intro e he
    have happlied := r.applied d
    generalize r.apply d = result at happlied he
    cases happlied with
    | empty h => rfl
    | refused h hp => rfl
    | edited h hp => cases he

/-! The frame. -/

/-- What a successful request does to the outline. An empty one has no categories, and is not
checked. -/
theorem outline_of_apply {o : Outcome} {final : Chunks} (h : r.apply d = (.ok o, final)) :
    ∃ target, (∀ c ∈ r.categories, ∃ kind, r.prepare d = .ok (kind, target)) ∧
      final.ownEntries = d.ownEntries ∧
      final.sheets = editEach (r.rewrite target) r.categories d.sheets ∧
      o.changes = r.categories.map (r.report target d.sheets) := by
  have happlied := r.applied d
  rw [h] at happlied
  cases happlied with
  | empty he =>
    rw [isEmpty_iff.mp he]
    exact ⟨[], by simp, rfl, rfl, rfl⟩
  | edited he hp hown hsheets => exact ⟨_, fun _ _ => ⟨_, hp⟩, hown, hsheets, rfl⟩

theorem names_of_apply {o : Outcome} {final : Chunks} (h : r.apply d = (.ok o, final)) :
    final.names = d.names := by
  obtain ⟨target, _, _, hsheets, _⟩ := outline_of_apply h
  rw [← Chunks.map_name_sheets, hsheets, Sheet.map_name_editEach, Chunks.map_name_sheets]

/-- Whether an entry is a line that names an item of the request. -/
def asksFor (r : Request) (target : Text) : Category → Entry → Bool
  | .sources => Edit.readsAny r.sources
  | .headers => Edit.readsAny r.headers
  | .exports => Edit.readsAny r.exports
  | .definitions => fun e => (r.definitions.map fun i =>
      Definition.mk target i.visibility i.symbol i.value).any (Edit.names · e)
  | .subdirs => fun e => (r.subdirs.map fun p => Subdirectory.mk (trim p)).any (Edit.names · e)
  | .linkLibraries => fun e => (r.linkLibraries.map fun i =>
      LinkLibrary.mk target i.qualifier i.library).any (Edit.names · e)

theorem survivors_editLines (action : Action) (items : List Text) (es : List Entry) :
    (es.filter fun e => !Edit.readsAny items e).Sublist (editLines action items es).1 := by
  cases action with
  | add => exact List.filter_sublist.trans (Edit.isPrefix_addLines items es).sublist
  | remove => exact List.Sublist.refl _

theorem survivors_editDirectives {δ : Type} [Directive δ] (action : Action) (ds : List δ)
    (es : List Entry) :
    (es.filter fun e => !ds.any (Edit.names · e)).Sublist (editDirectives action ds es).1 := by
  cases action with
  | add => exact Edit.filter_not_names_sublist_upsertAll ds es
  | remove => exact Edit.filter_not_names_sublist_removeAll ds es

theorem survivors_edit (r : Request) (target : Text) (c : Category) (es : List Entry) :
    (es.filter fun e => !r.asksFor target c e).Sublist (r.edit target c es).1 := by
  cases c with
  | sources | headers | exports => exact survivors_editLines _ _ es
  | definitions | subdirs | linkLibraries => exact survivors_editDirectives _ _ es

theorem survivors_rewrite (r : Request) (target : Text) (c : Category) {es : List Entry}
    (h : ∀ e ∈ es, e.cut = [e]) :
    (es.filter fun e => !r.asksFor target c e).Sublist (r.rewrite target c es) := by
  have hcut : (es.filter fun e => !r.asksFor target c e).flatMap Entry.cut =
      es.filter fun e => !r.asksFor target c e :=
    flatMap_cut_eq_self fun e he => h e (List.mem_filter.mp he).1
  rw [← hcut]
  exact (r.survivors_edit target c es).flatMap Entry.cut

/-- What a successful request leaves alone. The regions are the same, by name and in order, and the
document has the same entries of its own. The `k`-th region has the same entries of its own, unless
it is the first region of a requested category; there, nested regions and the lines that name no
requested item survive. -/
theorem apply_frame {o : Outcome} {final : Chunks} (h : r.apply d = (.ok o, final)) :
    final.names = d.names ∧ final.ownEntries = d.ownEntries ∧
    ∀ k s, d.sheets[k]? = some s → ∃ s', final.sheets[k]? = some s' ∧ s'.name = s.name ∧
      ((∀ c ∈ r.categories, d.names.idxOf? c.region ≠ some k) → s'.entries = s.entries) ∧
      ∀ c ∈ r.categories, d.names.idxOf? c.region = some k →
        ∃ kind target, r.prepare d = .ok (kind, target) ∧
          (s.entries.filter fun e => !r.asksFor target c e).Sublist s'.entries := by
  refine ⟨names_of_apply h, ?_⟩
  obtain ⟨target, hprep, hown, hsheets, _⟩ := outline_of_apply h
  refine ⟨hown, ?_⟩
  intro k s hs
  rw [hsheets, ← Chunks.map_name_sheets]
  by_cases hfirst : ∃ c ∈ r.categories, (d.sheets.map Sheet.name).idxOf? c.region = some k
  · obtain ⟨c, hc, hk⟩ := hfirst
    have hedited := @Sheet.getElem?_editEach_of_mem (r.rewrite target) _ _ r.nodup_categories
      c hc k hk
    rw [hs] at hedited
    refine ⟨_, hedited, rfl, fun hnone => absurd hk (hnone c hc), ?_⟩
    intro c' hc' hk'
    have hcc : c' = c := by
      obtain ⟨_, hn, _⟩ := List.idxOf?_eq_some_iff.mp hk
      obtain ⟨_, hn', _⟩ := List.idxOf?_eq_some_iff.mp hk'
      exact Category.region_injective (hn'.symm.trans hn)
    subst hcc
    obtain ⟨kind, hp⟩ := hprep c' hc
    exact ⟨kind, target, hp,
      r.survivors_rewrite target c' (Chunks.cut_of_mem_sheets (List.mem_of_getElem? hs))⟩
  · have hnone : ∀ c ∈ r.categories, (d.sheets.map Sheet.name).idxOf? c.region ≠ some k :=
      fun c hc hk => hfirst ⟨c, hc, hk⟩
    have hsame := @Sheet.getElem?_editEach_of_forall_ne (r.rewrite target) _ _ k hnone
    exact ⟨s, hsame.trans hs, rfl, fun _ => rfl, fun c hc hk => absurd hk (hnone c hc)⟩

/-- A library whose headers are nested in its sources, with a second region of sources behind
them. -/
def sampleNested (headers sources : Chunks) : Chunks :=
  .region "type-library" .nil (.region "sources" (.text "keep" (.region "headers" headers sources))
    (.region "sources" (.text "b.cpp" .nil) .nil))

/-- The line of the second region of sources stays, although it reads a requested item; so do the
nested region and the line that is not requested. -/
theorem apply_frame_duplicate :
    apply { action := .remove, sources := ["a.cpp", "b.cpp"], headers := ["a.h"] }
        (sampleNested (.text "a.h" .nil) (.text "a.cpp" .nil)) =
      (.ok { kind := some .library,
             changes := [(.sources, { removed := 1 }), (.headers, { removed := 1 })] },
        sampleNested .nil .nil) ∧
    (∃ s, (sampleNested .nil .nil).sheets[3]? = some s ∧ s.entries = [.line "b.cpp"]) ∧
    ∃ s, (sampleNested .nil .nil).sheets[1]? = some s ∧
      [Entry.line "keep", .region "headers" .nil].Sublist s.entries := by
  have happly : apply { action := .remove, sources := ["a.cpp", "b.cpp"], headers := ["a.h"] }
        (sampleNested (.text "a.h" .nil) (.text "a.cpp" .nil)) =
      (.ok { kind := some .library,
             changes := [(.sources, { removed := 1 }), (.headers, { removed := 1 })] },
        sampleNested .nil .nil) := rfl
  obtain ⟨_, _, hframe⟩ := apply_frame happly
  refine ⟨happly, ?_, ?_⟩
  · obtain ⟨s, hs, _, hsame, _⟩ := hframe 3 ⟨"sources", [.line "b.cpp"]⟩ rfl
    exact ⟨s, hs, hsame (by decide)⟩
  · obtain ⟨s, hs, _, _, hfirst⟩ :=
      hframe 1 ⟨"sources", [.line "keep", .region "headers" .nil, .line "a.cpp"]⟩ rfl
    obtain ⟨kind, target, hp, hsub⟩ := hfirst .sources (by decide) (by decide)
    exact ⟨s, hs, hsub⟩

end BuildFile.Request
