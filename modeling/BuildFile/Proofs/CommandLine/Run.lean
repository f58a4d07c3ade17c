import BuildFile.CommandLine.Run
import BuildFile.Proofs.CommandLine.Arguments
import BuildFile.Proofs.FileFlow.Create
/-! What a run of the command line does to the disk. A command ends in one of three ways: it leaves
the disk alone, it fails after some directories were made, or it puts one file at the path of the
build file. Which path that is and whether the command can write at all is known from the text of
the arguments. -/
namespace BuildFile.CommandLine
variable {s : Setting} {path : Text} {writes dryRun : Bool} {d : Disk}

/-- The ways in which a command can end; only one that writes can leave another disk. -/
inductive Ended (path : Text) (writes : Bool) (d : Disk) : Except Failure Text × Disk → Prop
  | idle (result : Except Failure Text) : Ended path writes d (result, d)
  | failed {e : Disk} (hwrites : writes = true) (reason : Failure)
    (hgrown : d.Grown (Place.above path) e) : Ended path writes d (.error reason, e)
  | wrote {e : Disk} (hwrites : writes = true) (out : Text) (content : ByteArray)
    (hgrown : d.Grown (Place.above path) e) (hne : e.place path ≠ []) :
    Ended path writes d (.ok out, e.put (e.place path) (.file content))

section
variable (htemp : d.get? (d.place (Disk.temporary s.tag path)) = none)
include htemp

theorem ended_runEdit (action : Action) (items : Items) (dryRun : Bool) :
    Ended path (!dryRun) d (runEdit s path action items dryRun d) := by
  unfold runEdit
  split
  · exact .idle _
  case h_2 r _ =>
    split
    · exact .idle _
    · have hedited := FileFlow.edited_edit r dryRun htemp
      generalize FileFlow.edit s.tag path r dryRun d = edited at hedited ⊢
      cases hedited with
      | failed => exact .idle _
      | unwritten => exact .idle _
      | rewritten _ hdry hrevision =>
        obtain ⟨_, hlook⟩ := FileFlow.look_of_revision hrevision
        exact .wrote (by simp [hdry]) _ _ (.refl _ d) (FileFlow.place_ne_nil_of_look hlook)

theorem ended_runCreate (kind : ProjectKind) (template : Text) (yes : Bool) (items : Items)
    (dryRun : Bool) :
    Ended path (!dryRun) d (runCreate s path kind template yes items dryRun d) := by
  unfold runCreate
  split
  · exact .idle _
  case h_2 t _ =>
    split
    · exact .idle _
    case h_2 r _ =>
      dsimp only
      generalize (if yes then .assumeYes else noTerminal : FileFlow.Confirm) = confirm
      have hcreated := FileFlow.created_create s.tag path t r dryRun confirm d
      generalize FileFlow.create s.tag path t r dryRun confirm d = made at hcreated ⊢
      cases hcreated with
      | unplanned => exact .idle _
      | shown result => cases result <;> exact .idle _
      | declined => exact .idle _
      | @committed _ o new made _ hdry _ _ _ hmade =>
        have hcommitted := FileFlow.committed_commit { path, outcome := o } new htemp
        rw [hmade] at hcommitted
        cases hcommitted with
        | failed reason hgrown => exact .failed (by simp [hdry]) _ hgrown
        | written hgrown hlook =>
          have hne := FileFlow.place_ne_nil_of_look hlook
          exact .wrote (by simp [hdry]) _ _ hgrown hne

theorem ended_runCommand (c : Command) : Ended path c.writes d (runCommand s path d c) := by
  cases c with
  | banner => exact .idle _
  | answer i => cases i <;> exact .idle _
  | edit action items dryRun => exact ended_runEdit htemp action items dryRun
  | create kind template yes items dryRun =>
    exact ended_runCreate htemp kind template yes items dryRun
  | «show» json =>
    rw [runCommand, runShow]
    split <;> exact .idle _

end

/-- What a run does to the disk. With an exit code other than zero all files are as they were, and
there can only be new directories above the selected build file. With exit code zero the same is
true of every place but that of the selected build file. Without a command, for `show` and `help`,
in a dry run, and where help is asked for anywhere, the disk is the same. -/
theorem run_disk {args : List Text} {response : Response} {after : Disk}
    (htemp : d.get? (d.place (Disk.temporary s.tag (selectedFile s.environment args))) = none)
    (h : run s args d = (response, after)) :
    (response.exit ≠ 0 → ∀ q, d.Keeps (Place.above (selectedFile s.environment args)) after q) ∧
    (response.exit = 0 → ∀ q, q ≠ d.place (selectedFile s.environment args) →
      d.Keeps (Place.above (selectedFile s.environment args)) after q) ∧
    (commandWord? args = none ∨ commandWord? args = some "show".toList ∨
      commandWord? args = some "help".toList ∨ dryRunOption ∈ args ∨ helpOption ∈ args →
      after = d) := by
  unfold run at h
  split at h
  case h_1 =>
    cases h
    exact ⟨fun _ _ => .inl rfl, fun _ _ _ => .inl rfl, fun _ => rfl⟩
  case h_2 i hparse =>
    obtain ⟨hfile, hidle⟩ := parse?_eq_some hparse
    have hended : Ended (selectedFile s.environment args) i.command.writes d
        (runCommand s i.buildFile d i.command) := by
      obtain ⟨q, hanswer⟩ | hfile := hfile
      · rw [hanswer]
        cases q <;> exact .idle _
      · rw [hfile]
        exact ended_runCommand htemp i.command
    generalize runCommand s i.buildFile d i.command = result at hended h
    cases hended with
    | idle result =>
      cases result <;> cases h <;> exact ⟨fun _ _ => .inl rfl, fun _ _ _ => .inl rfl, fun _ => rfl⟩
    | failed hwrites reason hgrown =>
      cases h
      refine ⟨fun _ => hgrown.keeps, nofun, fun hargs => ?_⟩
      rw [hidle hargs] at hwrites
      cases hwrites
    | wrote hwrites out content hgrown hne =>
      cases h
      refine ⟨fun hexit => absurd rfl hexit, fun _ q hq => hgrown.keeps_put hne _ hq,
        fun hargs => ?_⟩
      rw [hidle hargs] at hwrites
      cases hwrites

/-- Adds a definition to the build file that is named last. -/
def sampleAdd : List Text :=
  ["--cmakelists", "other.txt", "add", "--definitions", "PUBLIC:X=1",
    "--cmakelists=app/.././app//CMakeLists.txt"]

/-- A new project at the place of a directory, from a template that is not there. -/
def sampleNew : List Text := ["--cmakelists", "app", "new", "-yt", "other.txt", "executable"]

/-- A repeated build file, which is refused only after the command has answered. -/
def sampleHelp : List Text := ["--cmakelists", "a", "--cmakelists", "b", "remove", "-v", "--help"]

def sampleRun (args : List Text) : Response × Disk := run { tag := "7" } args FileFlow.sampleDisk

/-- An edit touches the file that was named last and nothing else, and its dry run nothing at all; a
creation that fails leaves all files as they were. Help is given for the program and for each
command, with exit code zero, but not for what is no command. -/
theorem run_disk_samples :
    (∀ q, q ≠ FileFlow.samplePlace →
      FileFlow.sampleDisk.Keeps (Place.above FileFlow.samplePath) (sampleRun sampleAdd).2 q) ∧
    (sampleRun (sampleAdd ++ [dryRunOption])).2 = FileFlow.sampleDisk ∧
    (sampleRun sampleNew).1.exit = 1 ∧
    (∀ q content, (sampleRun sampleNew).2.get? q = some (.file content) ↔
      FileFlow.sampleDisk.get? q = some (.file content)) ∧
    (sampleRun sampleHelp).1.exit = 0 ∧ (sampleRun sampleHelp).2 = FileFlow.sampleDisk ∧
    (sampleRun ["-vh"]).1.exit = 0 ∧ (sampleRun ["help", "new"]).1.exit = 0 ∧
    (sampleRun ["help", "new", "help"]).1.exit = 2 ∧
    (sampleRun ["help", "new", "help"]).2 = FileFlow.sampleDisk := by
  have hrun (args : List Text) :
      run { tag := "7" } args FileFlow.sampleDisk = ((sampleRun args).1, (sampleRun args).2) := rfl
  have hselected : selectedFile none sampleAdd = FileFlow.samplePath := by decide +kernel
  have hplace : FileFlow.sampleDisk.place FileFlow.samplePath = FileFlow.samplePlace := by
    decide +kernel
  have hexit : (sampleRun sampleNew).1.exit = 1 := by decide +kernel
  obtain ⟨hfailed, hdone, _⟩ := run_disk (by decide +kernel) (hrun sampleAdd)
  obtain ⟨_, _, hdry⟩ := run_disk (by decide +kernel) (hrun (sampleAdd ++ [dryRunOption]))
  obtain ⟨hnew, _⟩ := run_disk (by decide +kernel) (hrun sampleNew)
  obtain ⟨_, _, hhelp⟩ := run_disk (by decide +kernel) (hrun sampleHelp)
  obtain ⟨_, _, hwrong⟩ := run_disk (by decide +kernel) (hrun ["help", "new", "help"])
  refine ⟨?_, hdry (by simp), hexit, fun q content => (hnew (by simp [hexit]) q).file_iff,
    by decide +kernel, hhelp (by decide +kernel), by decide +kernel, by decide +kernel,
    by decide +kernel, hwrong (by decide +kernel)⟩
  intro q hq
  rw [← hplace, ← hselected] at hq
  rw [← hselected]
  by_cases hzero : (sampleRun sampleAdd).1.exit = 0
  · exact hdone hzero q hq
  · exact hfailed hzero q

end BuildFile.CommandLine
