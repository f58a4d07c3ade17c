import BuildFile.Proofs.Edit.Distinct
import BuildFile.Proofs.Request.Repeat
/-! Documents without duplicates. When no two lines in the region of a category are about the same
item, no request changes that, whatever it asks for and whether it succeeds; and a request to remove
items leaves no line that names one of them, although it deletes only the first line for each
directive. -/
namespace BuildFile

/-- Whether two lines in the region of a category are about the same item. -/
def Category.sameItem : Category → Text → Text → Bool
  | sources | headers | exports => Edit.sameLine
  | definitions => Edit.sameDirective Definition
  | subdirs => Edit.sameDirective Subdirectory
  | linkLibraries => Edit.sameDirective LinkLibrary

def Category.Distinct (c : Category) (ls : List Text) : Prop :=
  ls.Pairwise fun a b => c.sameItem a b = false

/-- In the first region of each category, no two lines of its own are about the same item. -/
def Chunks.DuplicateFree (d : Chunks) : Prop :=
  ∀ c ∈ Category.all, ∀ region ∈ d.find? c.region, c.Distinct region.body.ownLines

instance (c : Category) (ls : List Text) : Decidable (c.Distinct ls) :=
  inferInstanceAs (Decidable (ls.Pairwise _))

instance (d : Chunks) : Decidable d.DuplicateFree :=
  inferInstanceAs (Decidable (∀ c ∈ Category.all, ∀ region ∈ d.find? c.region, _))

open Sheet (entriesOf)

theorem Chunks.duplicateFree_iff {d : Chunks} : d.DuplicateFree ↔
    ∀ c : Category, c.Distinct ((entriesOf c.region d.sheets).filterMap Entry.line?) := by
  constructor
  · intro h c
    cases hf : d.find? c.region with
    | none =>
      have hname : c.region ∉ d.sheets.map Sheet.name := by
        rwa [map_name_sheets, ← find?_eq_none_iff]
      have hnone := @Sheet.entriesOf_append_of_not_mem c.region d.sheets [] hname
      rw [List.append_nil] at hnone
      rw [hnone]
      exact List.Pairwise.nil
    | some region =>
      rw [← ownLines_of_find? hf]
      exact h c (Category.mem_all c) region hf
  · intro h c _ region hf
    rw [ownLines_of_find? hf]
    exact h c

namespace Request
variable {r : Request} {d final : Chunks} {o : Outcome} {target : Text} {c : Category}
  {es : List Entry}

/-! One category. -/

theorem distinct_editLines (action : Action) (items : List Text)
    (h : (es.filterMap Entry.line?).Pairwise fun a b => Edit.sameLine a b = false) :
    ((editLines action items es).1.filterMap Entry.line?).Pairwise
      fun a b => Edit.sameLine a b = false := by
  cases action with
  | add =>
    rw [Edit.pairwise_sameLine_iff] at h ⊢
    exact fun t ht => Edit.countP_reads_addLines (h t ht)
  | remove => exact h.sublist (List.filter_sublist.filterMap Entry.line?)

theorem distinct_editDirectives {δ : Type} [Directive δ] [LawfulDirective δ] (action : Action)
    {ds : List δ} (hds : ∀ k ∈ ds, ReadsBack k)
    (h : (es.filterMap Entry.line?).Pairwise fun a b => Edit.sameDirective δ a b = false) :
    ((editDirectives action ds es).1.filterMap Entry.line?).Pairwise
      fun a b => Edit.sameDirective δ a b = false := by
  cases action with
  | add =>
    rw [Edit.pairwise_sameDirective_iff] at h ⊢
    exact fun d => Edit.countP_upsertAll_le hds (h d)
  | remove => exact h.sublist ((Edit.removeAll_sublist ds es).filterMap Entry.line?)

theorem Typed.distinct_edit (hr : r.Typed) (hv : r.validate = .ok ())
    (ht : c.needsTarget = true → isBareToken target = true)
    (h : c.Distinct (es.filterMap Entry.line?)) :
    c.Distinct ((r.edit target c es).1.filterMap Entry.line?) := by
  cases c with
  | sources | headers | exports => exact distinct_editLines r.action _ h
  | definitions => exact distinct_editDirectives r.action (hr.readsBack_definitions (ht rfl)) h
  | subdirs => exact distinct_editDirectives r.action (readsBack_subdirectories hv) h
  | linkLibraries => exact distinct_editDirectives r.action (hr.readsBack_linkLibraries (ht rfl)) h

theorem editDirectives_remove {δ : Type} [Directive δ] [LawfulDirective δ] (ds : List δ)
    (h : (es.filterMap Entry.line?).Pairwise fun a b => Edit.sameDirective δ a b = false) :
    (editDirectives .remove ds es).1 = es.filter fun e => !ds.any (Edit.names · e) :=
  Edit.removeAll_eq_filter fun d _ => Edit.pairwise_sameDirective_iff.mp h d

/-- Among distinct lines, a request to remove items leaves exactly the entries that name none of
them. -/
theorem edit_remove_of_distinct (hremove : r.action = .remove)
    (h : c.Distinct (es.filterMap Entry.line?)) :
    (r.edit target c es).1 = es.filter fun e => !r.asksFor target c e := by
  cases c with
  | sources | headers | exports =>
    rw [edit, hremove]
    rfl
  | definitions | subdirs | linkLibraries =>
    rw [edit, hremove]
    exact editDirectives_remove _ h

/-! The whole document. -/

/-- One step: no request brings in a duplicate. -/
theorem Typed.duplicateFree_apply (hr : r.Typed) (hd : d.DuplicateFree) :
    (r.apply d).2.DuplicateFree := by
  cases hresult : r.apply d with
  | mk result final =>
    cases result with
    | error e =>
      have happlied := r.applied d
      rw [hresult] at happlied
      cases happlied
      exact hd
    | ok o =>
      rw [Chunks.duplicateFree_iff] at hd ⊢
      intro c
      by_cases hc : c ∈ r.categories
      · obtain ⟨hv, _, ht⟩ := checks_of_apply hresult hc
        rw [hr.entriesOf_of_apply hresult hc]
        exact hr.distinct_edit hv ht (hd c)
      · rw [entriesOf_of_apply_of_not_mem hresult hc]
        exact hd c

theorem Typed.asksFor_of_remove (hr : r.Typed) (hremove : r.action = .remove)
    (hd : d.DuplicateFree) (h : r.apply d = (.ok o, final)) (hc : c ∈ r.categories) :
    ∃ region, final.find? c.region = some region ∧
      ∀ l ∈ region.body.ownLines, r.asksFor (declaredTarget d) c (.line l) = false := by
  obtain ⟨_, hname, _⟩ := checks_of_apply h hc
  rw [← names_of_apply h] at hname
  cases hf : final.find? c.region with
  | none => exact absurd hname (Chunks.find?_eq_none_iff.mp hf)
  | some region =>
    refine ⟨region, rfl, ?_⟩
    intro l hl
    rw [Chunks.ownLines_of_find? hf, hr.entriesOf_of_apply h hc,
      edit_remove_of_distinct hremove (Chunks.duplicateFree_iff.mp hd c), List.mem_filterMap] at hl
    obtain ⟨e, he, hline⟩ := hl
    obtain ⟨_, hkept⟩ := List.mem_filter.mp he
    cases e with
    | line k =>
      cases hline
      simpa using hkept
    | region n body => cases hline

/-- Along every run of requests, a document without duplicates stays without; and whenever a request
to remove items succeeds, no line directly in the first region of a requested category names one of
them. -/
theorem duplicateFree_run {rs : List Request} (hrs : ∀ r ∈ rs, r.Typed) (hd : d.DuplicateFree) :
    (run rs d).DuplicateFree ∧
    ∀ r : Request, r.Typed → r.action = .remove → ∀ o final, r.apply (run rs d) = (.ok o, final) →
      ∀ c ∈ r.categories, ∃ region, final.find? c.region = some region ∧
        ∀ l ∈ region.body.ownLines, r.asksFor (declaredTarget (run rs d)) c (.line l) = false := by
  have hfree : (run rs d).DuplicateFree := by
    induction rs generalizing d with
    | nil => exact hd
    | cons r rs ih =>
      have hstep := (hrs r (by simp)).duplicateFree_apply hd
      exact ih (fun q hq => hrs q (List.mem_cons_of_mem r hq)) hstep
  exact ⟨hfree, fun r hr hremove o final h c hc => hr.asksFor_of_remove hremove hfree h hc⟩

/-- A request to remove a definition, whatever its value is. -/
def sampleUndefine : Request where
  action := .remove
  definitions := [⟨.scopePublic, "X", none⟩]

/-- A definition is asked for twice, and then removed: its line is the only one. -/
theorem duplicateFree_run_definition :
    (sampleExecutable (.text "target_compile_definitions( app PUBLIC -DX=0 )\n# kept"
      .nil)).DuplicateFree ∧
    run [sampleTwice] (sampleExecutable
        (.text "target_compile_definitions( app PUBLIC -DX=0 )\n# kept" .nil)) =
      sampleExecutable (.text "target_compile_definitions(app PUBLIC -DX=1)\n# kept" .nil) ∧
    (sampleExecutable (.text "target_compile_definitions(app PUBLIC -DX=1)\n# kept"
      .nil)).DuplicateFree ∧
    ∃ region, (sampleExecutable (.text "# kept" .nil)).find? Category.definitions.region =
      some region ∧
      ∀ l ∈ region.body.ownLines, sampleUndefine.asksFor "app" .definitions (.line l) = false := by
  have hfree : (sampleExecutable
      (.text "target_compile_definitions( app PUBLIC -DX=0 )\n# kept" .nil)).DuplicateFree := by
    decide +kernel
  have hrun : run [sampleTwice] (sampleExecutable
        (.text "target_compile_definitions( app PUBLIC -DX=0 )\n# kept" .nil)) =
      sampleExecutable (.text "target_compile_definitions(app PUBLIC -DX=1)\n# kept" .nil) := by
    decide +kernel
  have hremove : sampleUndefine.apply
        (sampleExecutable (.text "target_compile_definitions(app PUBLIC -DX=1)\n# kept" .nil)) =
      (.ok { kind := some .executable, changes := [(.definitions, { removed := 1 })] },
        sampleExecutable (.text "# kept" .nil)) := by
    decide +kernel
  have htarget : declaredTarget
      (sampleExecutable (.text "target_compile_definitions(app PUBLIC -DX=1)\n# kept" .nil)) =
      "app" := by
    decide +kernel
  have hadd : ∀ r ∈ [sampleTwice], r.Typed := by
    intro r hr
    rw [List.mem_singleton.mp hr]
    exact typed_sampleTwice
  have htyped : sampleUndefine.Typed := by
    refine ⟨?_, nofun⟩
    intro i hi
    rw [List.mem_singleton.mp hi]
    exact ⟨"PUBLIC:X", rfl⟩
  obtain ⟨hafter, hnone⟩ := duplicateFree_run hadd hfree
  rw [hrun] at hafter hnone
  have hleft := hnone sampleUndefine htyped rfl _ _ hremove .definitions (by decide)
  rw [htarget] at hleft
  exact ⟨hfree, hrun, hafter, hleft⟩

/-- Where a definition has two lines, a request to remove it leaves one of them. -/
example : (sampleUndefine.apply (sampleExecutable (.text sampleSpaced .nil))).2 =
    sampleExecutable (.text "# kept\n  target_compile_definitions(app PUBLIC -DX)" .nil) := by
  decide +kernel

end Request
end BuildFile
