import BuildFile.Proofs.Edit.Placement
import BuildFile.Proofs.Request.Repeat
/-! The directives of a document after a request to add some. In the region of each category that
the request carries, every requested directive has one line, in the last form that was asked for; it
stands where the first line about it stood, or behind all that was there. -/
namespace BuildFile
variable {d final : Chunks} {o : Outcome} {c : Category}

theorem Chunks.exists_find?_of_mem {n : Text} (h : n ∈ d.names) : ∃ r, d.find? n = some r := by
  rw [← Option.isSome_iff_exists, Option.isSome_iff_ne_none]
  exact fun hnone => find?_eq_none_iff.mp hnone h

namespace Request
variable {r : Request}

/-- A category's region, as it is found before and after a request. -/
theorem Typed.exists_regions_of_apply (hr : r.Typed) (h : r.apply d = (.ok o, final))
    (hc : c ∈ r.categories) : ∃ before after, d.find? c.region = some before ∧
      final.find? c.region = some after ∧
      after.body.ownEntries = (r.edit (declaredTarget d) c before.body.ownEntries).1 := by
  obtain ⟨_, hregion, _⟩ := checks_of_apply h hc
  obtain ⟨before, hbefore⟩ := Chunks.exists_find?_of_mem hregion
  obtain ⟨after, hafter⟩ := Chunks.exists_find?_of_mem (names_of_apply h ▸ hregion)
  refine ⟨before, after, hbefore, hafter, ?_⟩
  rw [Chunks.ownEntries_of_find? hafter, Chunks.ownEntries_of_find? hbefore,
    hr.entriesOf_of_apply h hc]

/-- Where a category needs a target, the document declares one. -/
theorem exists_targetName_of_apply (h : r.apply d = (.ok o, final)) (hc : c ∈ r.categories)
    (hn : c.needsTarget = true) :
    ∃ kind, detectKind d = .ok kind ∧ targetName d kind = .ok (declaredTarget d) := by
  obtain ⟨target, hprep, _⟩ := outline_of_apply h
  obtain ⟨kind, hp⟩ := hprep c hc
  obtain ⟨_, hkind, _, htarget⟩ := prepare_eq_ok_iff.mp hp
  rw [neededTarget, if_pos (List.any_eq_true.mpr ⟨c, hc, hn⟩),
    eq_declaredTarget hp hc hn] at htarget
  exact ⟨kind, hkind, htarget⟩

/-- The directives of a category's region after they were added to the document. -/
def SettledIn {δ : Type} [Directive δ] (ds : List δ) (c : Category) (d final : Chunks) : Prop :=
  ∃ before after, d.find? c.region = some before ∧ final.find? c.region = some after ∧
    Edit.Settled ds before.body.ownEntries after.body.ownEntries

theorem settledIn_of_edit {δ : Type} [Directive δ] [LawfulDirective δ] {ds : List δ} (hr : r.Typed)
    (h : r.apply d = (.ok o, final)) (hc : c ∈ r.categories) (hds : ∀ k ∈ ds, ReadsBack k)
    (hedit : ∀ es, (r.edit (declaredTarget d) c es).1 = (Edit.upsertAll ds es).1) :
    SettledIn ds c d final := by
  obtain ⟨before, after, hbefore, hafter, heq⟩ := hr.exists_regions_of_apply h hc
  rw [hedit] at heq
  exact ⟨before, after, hbefore, hafter, heq ▸ Edit.settled_upsertAll hds _⟩

/-- A request to add directives settles them in the region of their category, definitions and
libraries for the target that the document declares. -/
theorem apply_add_directives (hadd : r.action = .add) (hr : r.Typed)
    (h : r.apply d = (.ok o, final)) :
    (.definitions ∈ r.categories → ∃ kind target, detectKind d = .ok kind ∧
      targetName d kind = .ok target ∧
      SettledIn (r.definitions.map fun i => Definition.mk target i.visibility i.symbol i.value)
        .definitions d final) ∧
    (.subdirs ∈ r.categories →
      SettledIn (r.subdirs.map fun p => Subdirectory.mk (trim p)) .subdirs d final) ∧
    (.linkLibraries ∈ r.categories → ∃ kind target, detectKind d = .ok kind ∧
      targetName d kind = .ok target ∧
      SettledIn (r.linkLibraries.map fun i => LinkLibrary.mk target i.qualifier i.library)
        .linkLibraries d final) := by
  refine ⟨fun hc => ?_, fun hc => ?_, fun hc => ?_⟩
  · obtain ⟨_, _, ht⟩ := checks_of_apply h hc
    obtain ⟨kind, hkind, htarget⟩ := exists_targetName_of_apply h hc rfl
    refine ⟨kind, _, hkind, htarget,
      settledIn_of_edit hr h hc (hr.readsBack_definitions (ht rfl)) ?_⟩
    intro es
    simp only [edit, editDirectives, hadd]
    rfl
  · obtain ⟨hv, _, _⟩ := checks_of_apply h hc
    refine settledIn_of_edit hr h hc (readsBack_subdirectories hv) ?_
    intro es
    simp only [edit, editDirectives, hadd]
    rfl
  · obtain ⟨_, _, ht⟩ := checks_of_apply h hc
    obtain ⟨kind, hkind, htarget⟩ := exists_targetName_of_apply h hc rfl
    refine ⟨kind, _, hkind, htarget,
      settledIn_of_edit hr h hc (hr.readsBack_linkLibraries (ht rfl)) ?_⟩
    intro es
    simp only [edit, editDirectives, hadd]
    rfl

/-- Two values for one symbol, with another symbol between them. -/
def sampleRevised : Request where
  action := .add
  definitions := [⟨.scopePublic, "X", some "0"⟩, ⟨.scopePrivate, "Y", none⟩,
    ⟨.scopePublic, "X", some "2"⟩]

def sampleSettled : Text :=
  "target_compile_definitions(app PUBLIC -DX=2)\n# kept\n" ++
  "target_compile_definitions(app PRIVATE -DY)"

/-- The two spellings of one symbol become one line with the last value, at the place of the first;
the new symbol comes last. -/
theorem apply_add_directives_revised :
    sampleRevised.apply (sampleExecutable (.text sampleSpaced .nil)) =
      (.ok { kind := some .executable, changes := [(.definitions, { added := 1, replaced := 2 })] },
        sampleExecutable (.text sampleSettled .nil)) ∧
    SettledIn [Definition.mk "app" .scopePublic "X" (some "0"),
        Definition.mk "app" .scopePrivate "Y" none,
        Definition.mk "app" .scopePublic "X" (some "2")] .definitions
      (sampleExecutable (.text sampleSpaced .nil))
      (sampleExecutable (.text sampleSettled .nil)) := by
  have happly : sampleRevised.apply (sampleExecutable (.text sampleSpaced .nil)) =
      (.ok { kind := some .executable, changes := [(.definitions, { added := 1, replaced := 2 })] },
        sampleExecutable (.text sampleSettled .nil)) := by
    decide +kernel
  have htyped : sampleRevised.Typed := by
    refine ⟨?_, nofun⟩
    intro i hi
    simp only [sampleRevised, List.mem_cons, List.not_mem_nil, or_false] at hi
    obtain rfl | rfl | rfl := hi
    · exact ⟨"PUBLIC:X=0", rfl⟩
    · exact ⟨"Y", rfl⟩
    · exact ⟨"PUBLIC:X=2", rfl⟩
  obtain ⟨hdefinitions, _⟩ := apply_add_directives rfl htyped happly
  obtain ⟨kind, target, hkind, htarget, hsettled⟩ := hdefinitions (by decide)
  have hexecutable : detectKind (sampleExecutable (.text sampleSpaced .nil)) = .ok .executable := by
    decide +kernel
  have hname :
      targetName (sampleExecutable (.text sampleSpaced .nil)) .executable = .ok "app".toList := by
    decide +kernel
  obtain rfl := Except.ok.inj (hexecutable.symm.trans hkind)
  obtain rfl := Except.ok.inj (hname.symm.trans htarget)
  exact ⟨happly, hsettled⟩

end Request
end BuildFile
