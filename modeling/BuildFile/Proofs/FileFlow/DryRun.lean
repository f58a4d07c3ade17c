import BuildFile.Proofs.Diff.Reading
import BuildFile.Proofs.FileFlow.Create
/-! Dry runs. A dry run of an edit, or of a creation, reports what the run itself reports, and a
diff from the text that is there to the text that the run writes. -/
namespace BuildFile.FileFlow
variable {tag path seed : Text} {r : Request} {confirm : Confirm} {there : Bool} {d after : Disk}
  {o : Outcome} {old new : Text} {report made : Report}

theorem commit_eq_ok (h : commit tag report new d = (.ok made, after)) :
    made = { report with written := true } ∧ after.readText report.path = .ok new := by
  unfold commit Disk.writeText at h
  split at h
  · cases h
  case h_2 hwrite =>
    cases h
    exact ⟨rfl, Disk.readText_eq_ok_iff.mpr ⟨_, Disk.look_of_write hwrite, Disk.decode?_encode new⟩⟩

/-- An edit that writes has read the file, and its request has changed the document. -/
theorem committed_of_edit (h : edit tag path r false d = (.ok made, after))
    (hwritten : made.written = true) :
    r.isEmpty = false ∧ ∃ old o new, revision r path d = .ok (old, o, new) ∧ o.changed = true ∧
      commit tag { path, outcome := o } new d = (.ok made, after) := by
  unfold edit at h
  split at h
  · cases h
    cases hwritten
  case isFalse hempty =>
    split at h
    · cases h
    case h_2 old o new hrevision =>
      split at h
      · cases h
        cases hwritten
      case isFalse hchanged =>
        exact ⟨by simpa using hempty, old, o, new, hrevision, by simpa using hchanged, h⟩

theorem edit_dryRun (hempty : r.isEmpty = false) (hrevision : revision r path d = .ok (old, o, new))
    (hchanged : o.changed = true) : edit tag path r true d =
      (.ok { path, outcome := o, diff := some (Diff.unified old new (Place.label path)) }, d) := by
  unfold edit
  rw [hempty, hrevision]
  simp [hchanged]

theorem committed_of_create {asked : List Text}
    (h : create tag path seed r false confirm d = ⟨.ok made, after, asked⟩) :
    ∃ there o new, planned path seed r d = .ok (there, o, new) ∧
      commit tag { path, outcome := o } new d = (.ok made, after) := by
  have hcreated := created_create tag path seed r false confirm d
  generalize create tag path seed r false confirm d = c at h hcreated
  cases hcreated with
  | unplanned => cases h
  | shown _ hdry => cases hdry
  | declined => cases h
  | @committed there o new result _ _ hplanned _ _ hmade =>
    obtain ⟨hresult, hafter, -⟩ := Creation.mk.inj h
    exact ⟨there, o, new, hplanned, hmade.trans (Prod.ext hresult hafter)⟩

theorem create_dryRun (hplanned : planned path seed r d = .ok (there, o, new))
    (hreplaced : replaced path there d = .ok old) :
    create tag path seed r true confirm d =
      { result := .ok { path, outcome := o,
                        diff := some (Diff.unified old new (Place.label path)) },
        disk := d } := by
  unfold create
  rw [hplanned]
  simp [hreplaced]

/-- The text that a new file would replace, or none. -/
def Replaceable (path : Text) (d : Disk) (old : Text) : Prop :=
  d.probe path = .file ∧ d.readText path = .ok old ∨ d.probe path = .missing ∧ old = []

theorem replaced_of_replaceable (hplanned : planned path seed r d = .ok (there, o, new))
    (h : Replaceable path d old) : replaced path there d = .ok old := by
  obtain ⟨_, hprobe, _⟩ := planned_eq_ok_iff.mp hplanned
  obtain ⟨hfile, hread⟩ | ⟨hmissing, rfl⟩ := h
  · cases there with
    | true => simpa [replaced, mapError_eq_ok_iff] using hread
    | false => simp [hfile] at hprobe
  · cases there with
    | true => simp [hmissing] at hprobe
    | false => rfl

/-- A dry run shows what the run itself writes. -/
theorem dryRun_shows_write (tag path : Text) (r : Request) (d : Disk) :
    (∀ made after, edit tag path r false d = (.ok made, after) → made.written = true →
      ∃ old new diff, d.readText path = .ok old ∧ after.readText path = .ok new ∧
        edit tag path r true d = (.ok { path, outcome := made.outcome, diff := some diff }, d) ∧
        Diff.Shows old new (Place.label path) diff) ∧
    ∀ seed confirm asks made after asked old, create tag path seed r false confirm d =
      ⟨.ok made, after, asked⟩ → Replaceable path d old →
      ∃ new diff, after.readText path = .ok new ∧
        create tag path seed r true asks d =
          { result := .ok { path, outcome := made.outcome, diff := some diff }, disk := d } ∧
        Diff.Shows old new (Place.label path) diff := by
  constructor
  · intro made after hedit hwritten
    obtain ⟨hempty, old, o, new, hrevision, hchanged, hcommit⟩ := committed_of_edit hedit hwritten
    obtain ⟨_, hread, _⟩ := revision_eq_ok_iff.mp hrevision
    obtain ⟨rfl, hnew⟩ := commit_eq_ok hcommit
    exact ⟨old, new, _, hread, hnew, edit_dryRun hempty hrevision hchanged,
      Diff.shows_unified old new _⟩
  · intro seed confirm asks made after asked old hcreate hold
    obtain ⟨there, o, new, hplanned, hcommit⟩ := committed_of_create hcreate
    obtain ⟨rfl, hnew⟩ := commit_eq_ok hcommit
    exact ⟨new, _, hnew, create_dryRun hplanned (replaced_of_replaceable hplanned hold),
      Diff.shows_unified old new _⟩

/-- A build file in which a marker is followed by a blank, and a line by the name of a source. -/
def spacedText : Text :=
  "# --== proj begin type-executable ==--\n# --== proj end type-executable ==--\n" ++
  "# --== proj begin sources ==--\n# --== proj end sources ==-- \na\n"

def spacedRevised : Text :=
  "# --== proj begin type-executable ==--\n# --== proj end type-executable ==--\n" ++
  "# --== proj begin sources ==--\na\n# --== proj end sources ==--\na\n"

def spacedDisk : Disk where
  nodes := [(["CMakeLists.txt"], .file (Disk.encode spacedText))]
  here := []

def sampleAdd : Request where
  action := .add
  sources := ["a"]

def sampleOutcome : Outcome where
  kind := some .executable
  changes := [(.sources, { added := 1 })]

theorem readText_spacedDisk : spacedDisk.readText "CMakeLists.txt" = .ok spacedText :=
  Disk.readText_eq_ok_iff.mpr ⟨_, rfl, Disk.decode?_encode _⟩

theorem revise_sampleAdd : sampleAdd.revise spacedText = .ok (sampleOutcome, spacedRevised) := by
  decide +kernel

theorem revision_sampleAdd : revision sampleAdd "CMakeLists.txt" spacedDisk =
    .ok (spacedText, sampleOutcome, spacedRevised) :=
  revision_eq_ok_iff.mpr ⟨rfl, readText_spacedDisk, revise_sampleAdd⟩

/-- The file is edited, and then made anew from its own text; both dry runs show the change. -/
theorem dryRun_shows_write_spaced :
    (∃ made after new diff, edit "7" "CMakeLists.txt" sampleAdd false spacedDisk =
      (.ok made, after) ∧ made.written = true ∧ after.readText "CMakeLists.txt" = .ok new ∧
      edit "7" "CMakeLists.txt" sampleAdd true spacedDisk =
        (.ok { path := "CMakeLists.txt", outcome := made.outcome, diff := some diff }, spacedDisk) ∧
      Diff.Shows spacedText new "CMakeLists.txt" diff) ∧
    ∃ made after asked new diff,
      create "7" "CMakeLists.txt" spacedText sampleAdd false .assumeYes spacedDisk =
        ⟨.ok made, after, asked⟩ ∧
      Replaceable "CMakeLists.txt" spacedDisk spacedText ∧
        after.readText "CMakeLists.txt" = .ok new ∧
      create "7" "CMakeLists.txt" spacedText sampleAdd true (.ask fun _ => .ok false) spacedDisk =
        { result := .ok { path := "CMakeLists.txt", outcome := made.outcome, diff := some diff },
          disk := spacedDisk } ∧
      Diff.Shows spacedText new "CMakeLists.txt" diff := by
  obtain ⟨hedit, hcreate⟩ := dryRun_shows_write "7" "CMakeLists.txt" sampleAdd spacedDisk
  constructor
  · obtain ⟨after, hrun⟩ : ∃ after, edit "7" "CMakeLists.txt" sampleAdd false spacedDisk =
        (.ok { path := "CMakeLists.txt", outcome := sampleOutcome, written := true }, after) := by
      unfold edit
      rw [if_neg (by decide), revision_sampleAdd]
      exact ⟨_, rfl⟩
    obtain ⟨old, new, diff, hold, hnew, hdry, hshows⟩ := hedit _ _ hrun rfl
    obtain rfl := Except.ok.inj (readText_spacedDisk.symm.trans hold)
    exact ⟨_, _, new, diff, hrun, rfl, hnew, hdry, hshows⟩
  · have hfile : spacedDisk.probe "CMakeLists.txt" = .file := rfl
    have hplanned : planned "CMakeLists.txt" spacedText sampleAdd spacedDisk =
        .ok (true, sampleOutcome, spacedRevised) :=
      planned_eq_ok_iff.mpr ⟨rfl, hfile, revise_sampleAdd⟩
    obtain ⟨after, hrun⟩ :
        ∃ after, create "7" "CMakeLists.txt" spacedText sampleAdd false .assumeYes spacedDisk =
        ⟨.ok { path := "CMakeLists.txt", outcome := sampleOutcome, written := true },
          after, []⟩ := by
      unfold create
      rw [hplanned]
      exact ⟨_, rfl⟩
    have hold : Replaceable "CMakeLists.txt" spacedDisk spacedText :=
      .inl ⟨hfile, readText_spacedDisk⟩
    obtain ⟨new, diff, hnew, hdry, hshows⟩ :=
      hcreate _ _ (.ask fun _ => .ok false) _ _ _ _ hrun hold
    exact ⟨_, _, _, new, diff, hrun, hold, hnew, hdry, hshows⟩

/-- The hunk that the dry run shows for it. -/
def spacedHunk : Diff.Hunk where
  oldFrom := 0
  oldTo := 4
  newFrom := 0
  newTo := 6
  rows := [(.keep, "# --== proj begin type-executable ==--\n"),
    (.keep, "# --== proj end type-executable ==--\n"), (.keep, "# --== proj begin sources ==--\n"),
    (.delete, "# --== proj end sources ==-- \n"), (.keep, "a\n"),
    (.insert, "# --== proj end sources ==--\n"), (.insert, "a\n")]

/-- A header can be wrong. Here the insertion at the end has passed the deletion, and the header
still counts the old lines up to where the insertion was: it says four, and five are listed. -/
theorem header_miscounts :
    edit "7" "CMakeLists.txt" sampleAdd true spacedDisk =
      (.ok { path := "CMakeLists.txt", outcome := sampleOutcome,
             diff := some (Diff.heading "CMakeLists.txt" ++ spacedHunk.text) }, spacedDisk) ∧
    spacedHunk.text.take 16 = "@@ -1,4 +1,6 @@\n" ∧ spacedHunk.oldLines.length = 5 ∧
    ∀ i j, ¬ spacedHunk.Exact i j := by
  have hdiff : Diff.unified spacedText spacedRevised "CMakeLists.txt" =
      Diff.heading "CMakeLists.txt" ++ spacedHunk.text := by decide +kernel
  have hdry : edit "7" "CMakeLists.txt" sampleAdd true spacedDisk =
      (.ok { path := "CMakeLists.txt", outcome := sampleOutcome,
             diff := some (Diff.unified spacedText spacedRevised "CMakeLists.txt") }, spacedDisk) :=
    edit_dryRun (by decide) revision_sampleAdd rfl
  refine ⟨hdiff ▸ hdry, by decide +kernel, rfl, fun i j h => ?_⟩
  have hto := h.oldTo
  rw [← h.oldFrom] at hto
  cases hto

end BuildFile.FileFlow
