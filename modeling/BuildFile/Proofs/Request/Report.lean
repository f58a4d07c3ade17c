import BuildFile.Proofs.Edit.Report
import BuildFile.Proofs.FileFlow.Edit
/-! What the outcome of a request says about the document. An outcome without changes is sound:
every counter that stays at zero belongs to a region that was left alone, so the document is the
same, and an edit of a file loses nothing when it writes nothing. An outcome with changes tells of a
different text, with one exception: definitions of one request that disagree about a value are all
counted, although the last one may put back what was there. -/
namespace BuildFile.Request
open Sheet (entriesOf)
variable {r : Request} {d final : Chunks} {o : Outcome} {target : Text} {c : Category}
  {es : List Entry}

/-! One category. -/

theorem editLines_snd_eq_empty_iff {action : Action} {items : List Text} :
    (editLines action items es).2 = {} ↔ (editLines action items es).1 = es := by
  cases action with
  | add => simpa [editLines] using @Edit.addLines_snd_eq_zero_iff items es
  | remove => simpa [editLines] using @Edit.removeLines_snd_eq_zero_iff items es

theorem editDirectives_of_snd_eq_empty {δ : Type} [Directive δ] {action : Action} {ds : List δ}
    (h : (editDirectives action ds es).2 = {}) : (editDirectives action ds es).1 = es := by
  cases action with
  | add => exact Edit.upsertAll_of_snd_eq_empty h
  | remove => exact Edit.removeAll_snd_eq_empty_iff.mp h

/-- A category about which nothing is reported was left alone. -/
theorem edit_of_snd_eq_empty (h : (r.edit target c es).2 = {}) : (r.edit target c es).1 = es := by
  cases c with
  | sources | headers | exports => exact editLines_snd_eq_empty_iff.mp h
  | definitions | subdirs | linkLibraries => exact editDirectives_of_snd_eq_empty h

/-- A category that was left alone is reported only if it is added to and its definitions
disagree. -/
theorem edit_snd_eq_empty_iff (hr : r.Typed) (hv : r.validate = .ok ())
    (ht : c.needsTarget = true → isBareToken target = true) : (r.edit target c es).2 = {} ↔
      (r.edit target c es).1 = es ∧ (r.action = .add → c = .definitions → r.Consistent) := by
  constructor
  · intro h
    have hself := edit_of_snd_eq_empty h
    refine ⟨hself, fun hadd => ?_⟩
    have hagain := (edit_again hadd hr hv ht es).2
    rwa [hself, h, eq_self_iff_true, true_iff] at hagain
  · intro h
    obtain ⟨hself, hconsistent⟩ := h
    cases haction : r.action with
    | add =>
      have hagain := (edit_again haction hr hv ht es).2
      rw [hself] at hagain
      exact hagain.mpr (hconsistent haction)
    | remove =>
      cases c with
      | sources | headers | exports => exact editLines_snd_eq_empty_iff.mpr hself
      | definitions | subdirs | linkLibraries =>
        simp only [edit, haction, editDirectives] at hself ⊢
        exact Edit.removeAll_snd_eq_empty_iff.mpr hself

/-! Nothing reported. -/

theorem editAll_eq_self {cs : List Category} {changes : List (Category × Edit.Change)}
    (hd : d.Joined) (h : r.editAll target cs d = (.ok changes, final))
    (hnone : ∀ e ∈ changes, e.2 = {}) : final = d := by
  induction cs generalizing changes with
  | nil =>
    cases h
    rfl
  | cons c cs ih =>
    rw [editAll] at h
    split at h
    · cases h
    case h_2 mid change he =>
      cases hrest : r.editAll target cs mid with
      | mk result last =>
        cases result with
        | error e => simp [hrest] at h
        | ok rest =>
          simp only [hrest, Prod.mk.injEq, Except.ok.injEq] at h
          obtain ⟨rfl, rfl⟩ := h
          have hmid : mid = d := hd.editRegion?_eq_self
            (fun es hes => edit_of_snd_eq_empty (hes.trans (hnone (c, change) (by simp)))) he
          subst hmid
          exact ih hrest fun e he => hnone e (List.mem_cons_of_mem _ he)

theorem apply_eq_self (hd : d.Joined) (h : r.apply d = (.ok o, final)) (hsame : o.changed = false) :
    final = d := by
  unfold apply at h
  split at h
  · cases h
    rfl
  · split at h
    · cases h
    case h_2 kind target hp =>
      split at h
      case h_1 changes last hall =>
        cases h
        refine editAll_eq_self hd hall fun e he => ?_
        have hempty : (!e.2.isEmpty) = false := by simpa using List.any_eq_false.mp hsame e he
        exact Edit.Change.isEmpty_iff.mp (by simpa using hempty)
      · cases h

/-- A request that reports no change has left the document as it was. An edit of a file with that
text then writes nothing, and says so. -/
theorem apply_unchanged {t : Text} (hparse : Chunks.parse t = .ok d)
    (h : r.apply d = (.ok o, final)) (hsame : o.changed = false) :
    final = d ∧ ∀ (tag path : Text) (dryRun : Bool) (disk : Disk), disk.readText path = .ok t →
      FileFlow.edit tag path r dryRun disk = (.ok { path, outcome := o }, disk) := by
  refine ⟨apply_eq_self (Chunks.normal_of_parse hparse).joined h hsame, ?_⟩
  intro tag path dryRun disk hread
  unfold FileFlow.edit
  split
  case isTrue hempty =>
    rw [apply, if_pos hempty] at h
    cases h
    rfl
  case isFalse hempty =>
    obtain ⟨c, hc⟩ := List.exists_mem_of_ne_nil _ fun hnil => hempty (isEmpty_iff.mpr hnil)
    have hrevision := FileFlow.revision_eq_ok_iff.mpr
      ⟨(checks_of_apply h hc).1, hread, revise_eq_ok_iff.mpr ⟨d, final, hparse, h, rfl⟩⟩
    rw [hrevision]
    simp [hsame]

/-- An executable with one definition. -/
def sampleDefined : Chunks :=
  sampleExecutable (.text "target_compile_definitions(app PUBLIC -DX=1)" .nil)

theorem parse_sampleDefined : Chunks.parse sampleDefined.print = .ok sampleDefined := by
  decide +kernel

/-- The definition is asked for twice, and is there. -/
theorem apply_unchanged_definition :
    Chunks.parse sampleDefined.print = .ok sampleDefined ∧
    sampleTwice.apply sampleDefined =
      (.ok { kind := some .executable, changes := [(.definitions, {})] }, sampleDefined) ∧
    FileFlow.edit "7" "CMakeLists.txt" sampleTwice false
        { nodes := [(["CMakeLists.txt"], .file (Disk.encode sampleDefined.print))] } =
      (.ok { path := "CMakeLists.txt",
             outcome := { kind := some .executable, changes := [(.definitions, {})] } },
        { nodes := [(["CMakeLists.txt"], .file (Disk.encode sampleDefined.print))] }) := by
  have happly : sampleTwice.apply sampleDefined =
      (.ok { kind := some .executable, changes := [(.definitions, {})] }, sampleDefined) := by
    decide +kernel
  obtain ⟨-, hedit⟩ := apply_unchanged parse_sampleDefined happly rfl
  exact ⟨parse_sampleDefined, happly, hedit "7" "CMakeLists.txt" false _
    (Disk.readText_eq_ok_iff.mpr ⟨_, rfl, Disk.decode?_encode _⟩)⟩

/-! Something reported. -/

theorem Typed.changed_eq_false_iff_eq (hr : r.Typed) (hd : d.Joined)
    (h : r.apply d = (.ok o, final)) :
    o.changed = false ↔ final = d ∧ (r.action = .add → r.Consistent) := by
  have hreport : ∀ c ∈ r.categories, (r.report (declaredTarget d) d.sheets c).2 = {} ↔
      (r.edit (declaredTarget d) c (entriesOf c.region d.sheets)).1 = entriesOf c.region d.sheets ∧
        (r.action = .add → c = .definitions → r.Consistent) := by
    intro c hc
    obtain ⟨hv, _, ht⟩ := checks_of_apply h hc
    exact edit_snd_eq_empty_iff hr hv ht
  constructor
  · intro hsame
    refine ⟨apply_eq_self hd h hsame, ?_⟩
    intro hadd i hi
    have hc : .definitions ∈ r.categories := mem_categories_iff.mpr (List.length_pos_of_mem hi)
    exact ((hreport _ hc).mp ((changed_eq_false_iff h).mp hsame _ hc)).2 hadd rfl i hi
  · intro hboth
    obtain ⟨rfl, hconsistent⟩ := hboth
    refine (changed_eq_false_iff h).mpr fun c hc => (hreport c hc).mpr ?_
    exact ⟨(hr.entriesOf_of_apply h hc).symm, fun hadd _ => hconsistent hadd⟩

/-- A request reports a change exactly if the text is another one, or if it adds definitions that
disagree about a value. So a report is truthful for all removals, and for all additions that agree
with themselves. -/
theorem changed_iff_print_ne {t : Text} (hparse : Chunks.parse t = .ok d) (hr : r.Typed)
    (h : r.apply d = (.ok o, final)) :
    o.changed = true ↔ final.print ≠ d.print ∨ r.action = .add ∧ ¬r.Consistent := by
  have hd := Chunks.normal_of_parse hparse
  have hfinal := hr.normal_of_apply hd h
  have hprint : final.print = d.print ↔ final = d := by
    constructor
    · intro he
      have hread := hfinal.parse_print
      rw [he, hd.parse_print] at hread
      exact (Except.ok.inj hread).symm
    · intro he
      rw [he]
  rw [← Bool.not_eq_false, hr.changed_eq_false_iff_eq hd.joined h, Ne, hprint]
  tauto

/-- A definition in other spellings: what is reported can be seen in the text. -/
theorem changed_iff_print_ne_spaced :
    sampleTwice.apply (sampleExecutable (.text sampleSpaced .nil)) =
      (.ok { kind := some .executable, changes := [(.definitions, { replaced := 1 })] },
        sampleExecutable (.text "target_compile_definitions(app PUBLIC -DX=1)\n# kept" .nil)) ∧
    (sampleExecutable (.text "target_compile_definitions(app PUBLIC -DX=1)\n# kept" .nil)).print ≠
      (sampleExecutable (.text sampleSpaced .nil)).print := by
  have hparse : Chunks.parse (sampleExecutable (.text sampleSpaced .nil)).print =
      .ok (sampleExecutable (.text sampleSpaced .nil)) := by decide +kernel
  have happly : sampleTwice.apply (sampleExecutable (.text sampleSpaced .nil)) =
      (.ok { kind := some .executable, changes := [(.definitions, { replaced := 1 })] },
        sampleExecutable (.text "target_compile_definitions(app PUBLIC -DX=1)\n# kept" .nil)) := by
    decide +kernel
  refine ⟨happly, ?_⟩
  obtain hprint | ⟨_, hconflict⟩ := (changed_iff_print_ne hparse typed_sampleTwice happly).mp rfl
  · exact hprint
  · exact absurd (by simp [Consistent, sampleTwice]) hconflict

/-- Two values for one symbol, of which the last is the one that is there. -/
def sampleConflict : Request where
  action := .add
  definitions := [⟨.scopePublic, "X", some "0"⟩, ⟨.scopePublic, "X", some "1"⟩]

/-- Both values are counted as replaced, and the document is the same: a report of changes does not
always tell of a difference. -/
theorem changed_without_difference :
    Chunks.parse sampleDefined.print = .ok sampleDefined ∧ sampleConflict.Typed ∧
    ∃ o, sampleConflict.apply sampleDefined = (.ok o, sampleDefined) ∧ o.changed = true := by
  refine ⟨parse_sampleDefined, ⟨?_, nofun⟩,
    { kind := some .executable, changes := [(.definitions, { replaced := 2 })] }, ?_, rfl⟩
  · intro i hi
    obtain rfl | rfl : i = ⟨.scopePublic, "X", some "0"⟩ ∨ i = ⟨.scopePublic, "X", some "1"⟩ := by
      simpa [sampleConflict] using hi
    · exact ⟨"PUBLIC:X=0", rfl⟩
    · exact ⟨"PUBLIC:X=1", rfl⟩
  · decide +kernel

end BuildFile.Request
