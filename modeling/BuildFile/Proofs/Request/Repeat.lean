import BuildFile.Proofs.Edit.Upsert
import BuildFile.Proofs.Request.ReadsBack
import BuildFile.Proofs.Request.Sequence
/-! Adding twice. Whatever a category holds, a second edit with the same items finds the work done:
lines are present, and every directive stands on one line, with the last value that was asked for.
Two definitions with different values for one symbol take turns on their line, so that such a
request reports changes each time and leaves the same text. -/
namespace BuildFile.Request
open Sheet (entriesOf)
variable {r : Request} {d final : Chunks} {o : Outcome} {target : Text} {c : Category}

/-! One category. -/

theorem editLines_again (items : List Text) (es : List Entry) :
    editLines .add items (editLines .add items es).1 = ((editLines .add items es).1, {}) := by
  simp only [editLines, Edit.addLines_addLines]

theorem editDirectives_again {δ : Type} [Directive δ] [LawfulDirective δ] {ds : List δ}
    (hds : ∀ k ∈ ds, ReadsBack k) (es : List Entry) :
    (editDirectives .add ds (editDirectives .add ds es).1).1 = (editDirectives .add ds es).1 ∧
      ((editDirectives .add ds (editDirectives .add ds es).1).2 = {} ↔ Edit.Agree ds) :=
  ⟨Edit.upsertAll_upsertAll hds es, Edit.upsertAll_upsertAll_snd_iff hds es⟩

/-- No two definitions with the same visibility and symbol have different values. -/
def Consistent (r : Request) : Prop :=
  ∀ i ∈ r.definitions, ∀ j ∈ r.definitions,
    i.visibility = j.visibility → i.symbol = j.symbol → i.value = j.value

theorem agree_definitions_iff (h : ∀ k ∈ r.definitions.map (·.forTarget target), ReadsBack k) :
    Edit.Agree (r.definitions.map (·.forTarget target)) ↔ r.Consistent := by
  constructor
  · intro ha i hi j hj hvisibility hsymbol
    have hi := List.mem_map_of_mem (f := (·.forTarget target)) hi
    have hj := List.mem_map_of_mem (f := (·.forTarget target)) hj
    have hline := ha _ hj _ hi (by
      simp [Directive.same, Definition.same, DefinitionItem.forTarget, hvisibility, hsymbol])
    have hread : some (i.forTarget target) = some (j.forTarget target) := by
      rw [← h _ hi, hline, h _ hj]
    exact congrArg Definition.value (Option.some.inj hread)
  · intro hc d hd k hk hs
    obtain ⟨i, hi, rfl⟩ := List.mem_map.mp hd
    obtain ⟨j, hj, rfl⟩ := List.mem_map.mp hk
    simp only [Directive.same, Definition.same, DefinitionItem.forTarget, Bool.and_eq_true,
      beq_iff_eq] at hs
    obtain ⟨⟨_, hvisibility⟩, hsymbol⟩ := hs
    simp only [DefinitionItem.forTarget, hvisibility, hsymbol, hc j hj i hi hvisibility hsymbol]

theorem agree_linkLibraries (ds : List LinkLibrary) : Edit.Agree ds := by
  intro d _ k _ hs
  simp only [Directive.same, LinkLibrary.same, Bool.and_eq_true, beq_iff_eq] at hs
  obtain ⟨⟨htarget, hqualifier⟩, hlibrary⟩ := hs
  simp only [Directive.render, LinkLibrary.render, htarget, hqualifier, hlibrary]

theorem agree_subdirectories (ds : List Subdirectory) : Edit.Agree ds := by
  intro d _ k _ hs
  simp only [Directive.same, Subdirectory.same, beq_iff_eq] at hs
  simp only [Directive.render, Subdirectory.render, hs]

/-- Of all categories, only definitions can disagree. -/
theorem edit_again (hadd : r.action = .add) (hr : r.Typed) (hv : r.validate = .ok ())
    (ht : c.needsTarget = true → isBareToken target = true) (es : List Entry) :
    (r.edit target c (r.edit target c es).1).1 = (r.edit target c es).1 ∧
      ((r.edit target c (r.edit target c es).1).2 = {} ↔ (c = .definitions → r.Consistent)) := by
  cases c with
  | sources | headers | exports => simp [edit, hadd, editLines_again]
  | definitions =>
    have hreads := hr.readsBack_definitions (ht rfl)
    have hagain := editDirectives_again hreads es
    rw [agree_definitions_iff hreads] at hagain
    simpa [edit, hadd] using hagain
  | subdirs =>
    have hagain := editDirectives_again (readsBack_subdirectories hv) es
    simpa [edit, hadd, agree_subdirectories] using hagain
  | linkLibraries =>
    have hagain := editDirectives_again (hr.readsBack_linkLibraries (ht rfl)) es
    simpa [edit, hadd, agree_linkLibraries] using hagain

/-! The whole request. -/

/-- What a successful request has checked about a category that it edits. -/
theorem checks_of_apply (h : r.apply d = (.ok o, final)) (hc : c ∈ r.categories) :
    r.validate = .ok () ∧ c.region ∈ d.names ∧
      (c.needsTarget = true → isBareToken (declaredTarget d) = true) := by
  obtain ⟨target, hprep, _⟩ := outline_of_apply h
  obtain ⟨kind, hp⟩ := hprep c hc
  obtain ⟨hv, _, _, htarget⟩ := prepare_eq_ok_iff.mp hp
  refine ⟨hv, region_mem_names_of_prepare hp c hc, fun hn => ?_⟩
  rw [← eq_declaredTarget hp hc hn]
  exact isBareToken_of_neededTarget htarget hc hn

theorem changes_of_apply (h : r.apply d = (.ok o, final)) :
    o.changes = r.categories.map (r.report (declaredTarget d) d.sheets) := by
  obtain ⟨target, hprep, _, _, hchanges⟩ := outline_of_apply h
  rw [hchanges]
  apply List.map_congr_left
  intro c hc
  obtain ⟨kind, hp⟩ := hprep c hc
  rw [report, report, edit_congr_target (eq_declaredTarget hp hc)]

theorem Typed.entriesOf_of_apply (hr : r.Typed) (h : r.apply d = (.ok o, final))
    (hc : c ∈ r.categories) : entriesOf c.region final.sheets =
      (r.edit (declaredTarget d) c (entriesOf c.region d.sheets)).1 := by
  obtain ⟨_, hregion, _⟩ := checks_of_apply h hc
  rw [hr.sheets_of_apply h]
  refine Sheet.entriesOf_editEach_of_mem (by decide) (Category.mem_all c) ?_
  rwa [Chunks.map_name_sheets]

theorem changed_eq_false_iff (h : r.apply d = (.ok o, final)) : o.changed = false ↔
    ∀ c ∈ r.categories, (r.report (declaredTarget d) d.sheets c).2 = {} := by
  rw [Outcome.changed, changes_of_apply h, List.any_eq_false, List.forall_mem_map]
  simp [Edit.Change.isEmpty_iff]

/-- A request to add can be repeated on what was written. The text stays as it is, and the second
time nothing is reported, exactly if no two definitions disagree. -/
theorem apply_again {t : Text} (hparse : Chunks.parse t = .ok d) (hadd : r.action = .add)
    (hr : r.Typed) (h : r.apply d = (.ok o, final)) :
    Chunks.parse final.print = .ok final ∧ ∃ o', r.apply final = (.ok o', final) ∧
      (o'.changed = false ↔ r.Consistent) := by
  have hnormal := hr.normal_of_apply (Chunks.normal_of_parse hparse) h
  obtain ⟨o', e, h'⟩ := exists_apply_of_apply h ⟨o, final, h⟩
  have hown : e.ownEntries = final.ownEntries := ownEntries_of_apply h'
  have hsheets : e.sheets = final.sheets := by
    rw [hr.sheets_of_apply_apply hr h h', hr.sheets_of_apply h]
    refine Sheet.editEach_congr (by decide) fun c _ => ?_
    by_cases hc : c ∈ r.categories
    · obtain ⟨hv, _, ht⟩ := checks_of_apply h hc
      exact (edit_again hadd hr hv ht _).1
    · rw [mem_categories_iff, Nat.not_lt, Nat.le_zero] at hc
      exact edit_of_count_eq_zero hc _
  have heq : e = final :=
    Chunks.eq_of_outline (hr.normal_of_apply hnormal h').joined hnormal.joined hown hsheets
  refine ⟨hnormal.parse_print, o', heq ▸ h', ?_⟩
  have hreport : ∀ c ∈ r.categories, (r.report (declaredTarget final) final.sheets c).2 = {} ↔
      (c = .definitions → r.Consistent) := by
    intro c hc
    obtain ⟨hv, _, ht⟩ := checks_of_apply h hc
    rw [report, (apply_congr_checks h).1, hr.entriesOf_of_apply h hc]
    exact (edit_again hadd hr hv ht _).2
  rw [changed_eq_false_iff h']
  constructor
  · intro hnone i hi
    have hc : .definitions ∈ r.categories := mem_categories_iff.mpr (List.length_pos_of_mem hi)
    exact (hreport _ hc).mp (hnone _ hc) rfl i hi
  · intro hconsistent c hc
    exact (hreport c hc).mpr fun _ => hconsistent

/-- A request that asks for one definition twice. -/
def sampleTwice : Request where
  action := .add
  definitions := [⟨.scopePublic, "X", some "1"⟩, ⟨.scopePublic, "X", some "1"⟩]

theorem typed_sampleTwice : sampleTwice.Typed where
  definitions i hi := ⟨"PUBLIC:X=1", by
    have hx : i = ⟨.scopePublic, "X", some "1"⟩ := by simpa [sampleTwice] using hi
    rw [hx]
    rfl⟩
  linkLibraries := nofun

/-- Two spellings of a definition, and a comment between them. -/
def sampleSpaced : Text :=
  "target_compile_definitions( app  PUBLIC -DX=0 )\n# kept\n" ++
  "  target_compile_definitions(app PUBLIC -DX)"

/-- The two spellings become one line, and then there is nothing left to do. -/
theorem apply_again_spaced :
    sampleTwice.apply (sampleExecutable (.text sampleSpaced .nil)) =
      (.ok { kind := some .executable, changes := [(.definitions, { replaced := 1 })] },
        sampleExecutable (.text "target_compile_definitions(app PUBLIC -DX=1)\n# kept" .nil)) ∧
    ∃ o, sampleTwice.apply
        (sampleExecutable (.text "target_compile_definitions(app PUBLIC -DX=1)\n# kept" .nil)) =
      (.ok o, sampleExecutable (.text "target_compile_definitions(app PUBLIC -DX=1)\n# kept"
        .nil)) ∧
      o.changed = false := by
  have hparse : Chunks.parse (sampleExecutable (.text sampleSpaced .nil)).print =
      .ok (sampleExecutable (.text sampleSpaced .nil)) := by decide +kernel
  have happly : sampleTwice.apply (sampleExecutable (.text sampleSpaced .nil)) =
      (.ok { kind := some .executable, changes := [(.definitions, { replaced := 1 })] },
        sampleExecutable (.text "target_compile_definitions(app PUBLIC -DX=1)\n# kept" .nil)) := by
    decide +kernel
  obtain ⟨_, o, hagain, hchanged⟩ := apply_again hparse rfl typed_sampleTwice happly
  exact ⟨happly, o, hagain, hchanged.mpr (by simp [Consistent, sampleTwice])⟩

/-- Two values for one symbol: the text stays, but both are written again. -/
example :
    apply { action := .add,
            definitions := [⟨.scopePublic, "X", none⟩, ⟨.scopePublic, "X", some "1"⟩] }
        (sampleExecutable (.text "target_compile_definitions(app PUBLIC -DX=1)" .nil)) =
      (.ok { kind := some .executable, changes := [(.definitions, { replaced := 2 })] },
        sampleExecutable (.text "target_compile_definitions(app PUBLIC -DX=1)" .nil)) := by
  decide +kernel

end BuildFile.Request
