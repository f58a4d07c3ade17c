import BuildFile.FileFlow
import BuildFile.Proofs.Disk.Write
import BuildFile.Proofs.Request.Repeat
/-! Editing a build file on disk. Of the many ways in which an edit can end, only one touches the
disk: the file was read, the request changed the document, and no dry run was asked for. Then the
file holds the printed document, and everything else on the disk is as it was. -/
namespace BuildFile

theorem mapError_eq_ok_iff {ε ε' α : Type} {f : ε → ε'} {x : Except ε α} {a : α} :
    x.mapError f = .ok a ↔ x = .ok a := by
  cases x <;> simp [Except.mapError]

theorem Request.revise_eq_ok_iff {r : Request} {t new : Text} {o : Outcome} :
    r.revise t = .ok (o, new) ↔
      ∃ doc final, Chunks.parse t = .ok doc ∧ r.apply doc = (.ok o, final) ∧ final.print = new := by
  have hparse (doc : Chunks) : parseDocument t = .ok doc ↔ Chunks.parse t = .ok doc :=
    mapError_eq_ok_iff
  unfold revise
  split
  case h_1 e h =>
    have hnone (doc : Chunks) : Chunks.parse t ≠ .ok doc := by
      rw [Ne, ← hparse, h]
      simp
    simp [hnone]
  case h_2 doc h =>
    rw [hparse] at h
    split
    case h_1 e final ha => simp [h, ha]
    case h_2 found final ha => simp [h, ha, and_assoc, eq_comm]

namespace FileFlow
variable {r : Request} {path tag : Text} {dryRun : Bool} {d : Disk}

theorem revision_eq_ok_iff {old new : Text} {o : Outcome} :
    revision r path d = .ok (old, o, new) ↔
      r.validate = .ok () ∧ d.readText path = .ok old ∧ r.revise old = .ok (o, new) := by
  simp only [revision, bind_eq_ok_iff, mapError_eq_ok_iff]
  constructor
  · intro h
    obtain ⟨_, hv, t, ht, ⟨o', new'⟩, hr, he⟩ := h
    cases he
    exact ⟨hv, ht, hr⟩
  · intro h
    obtain ⟨hv, ht, hr⟩ := h
    exact ⟨(), hv, old, ht, (o, new), hr, rfl⟩

/-- The ways in which an edit can end: with an error, without a write, or with the file
rewritten. -/
inductive Edited (path : Text) (r : Request) (dryRun : Bool) (d : Disk) :
    Except Error Report × Disk → Prop
  | failed (e : Error) : Edited path r dryRun d (.error e, d)
  | unwritten (report : Report) (hwritten : report.written = false)
    (hnothing : dryRun = true ∨ report.outcome.changed = false) :
    Edited path r dryRun d (.ok report, d)
  | rewritten {old new : Text} {o : Outcome} (hempty : r.isEmpty = false) (hdry : dryRun = false)
    (hrevision : revision r path d = .ok (old, o, new)) (hchanged : o.changed = true) :
    Edited path r dryRun d
      (.ok { path, outcome := o, written := true }, d.put (d.place path) (.file (Disk.encode new)))

theorem look_of_revision {old new : Text} {o : Outcome}
    (h : revision r path d = .ok (old, o, new)) : ∃ content, d.look path = .ok (.file content) := by
  obtain ⟨_, hread, _⟩ := revision_eq_ok_iff.mp h
  obtain ⟨content, hlook, _⟩ := Disk.readText_eq_ok_iff.mp hread
  exact ⟨content, hlook⟩

theorem edited_edit (r : Request) (dryRun : Bool)
    (htemp : d.get? (d.place (Disk.temporary tag path)) = none) :
    Edited path r dryRun d (edit tag path r dryRun d) := by
  unfold edit
  split
  · exact .unwritten _ rfl (.inr rfl)
  case isFalse hempty =>
    cases hrevision : revision r path d with
    | error e => exact .failed e
    | ok found =>
      obtain ⟨old, o, new⟩ := found
      dsimp only
      split
      case isTrue hchanged => exact .unwritten _ rfl (.inr (by simpa using hchanged))
      case isFalse hchanged =>
        split
        case isTrue hdry => exact .unwritten _ rfl (.inl hdry)
        case isFalse hdry =>
          obtain ⟨content, hlook⟩ := look_of_revision hrevision
          have hreach := (Disk.look_eq_file_iff.mp hlook).1
          have hwritten := Disk.written_write_of_reach hreach htemp (Disk.encode new)
          unfold commit Disk.writeText
          generalize d.write tag path (Disk.encode new) = result at hwritten ⊢
          cases hwritten with
          | failed e => exact .failed _
          | replaced =>
            exact .rewritten (by simpa using hempty) (by simpa using hdry) hrevision
              (by simpa using hchanged)

/-- What an edit of a file does to the disk. An error, a dry run and a report without a write leave
the disk as it was. A report says that the file was written exactly if the request changed the
document and no dry run was asked for; then the file holds the printed document, and all else is as
it was. -/
theorem edit_disk {result : Except Error Report} {after : Disk}
    (htemp : d.get? (d.place (Disk.temporary tag path)) = none)
    (h : edit tag path r dryRun d = (result, after)) :
    (∀ e, result = .error e → after = d) ∧ (dryRun = true → after = d) ∧
    ∀ report, result = .ok report →
      (report.written = true ↔ dryRun = false ∧ report.outcome.changed = true) ∧
      (report.written = false → after = d) ∧
      (report.written = true → r.isEmpty = false ∧
        ∃ old doc final, d.readText path = .ok old ∧ Chunks.parse old = .ok doc ∧
          r.apply doc = (.ok report.outcome, final) ∧
          after.look path = .ok (.file (Disk.encode final.print)) ∧
          (∀ p, p ≠ d.place path → after.get? p = d.get? p) ∧ after.here = d.here ∧
          after.get? (after.place (Disk.temporary tag path)) = none ∧
          ∀ p, after.get? p = some .directory ↔ d.get? p = some .directory) := by
  have hedited := edited_edit r dryRun htemp
  rw [h] at hedited
  cases hedited with
  | failed e => exact ⟨fun _ _ => rfl, fun _ => rfl, nofun⟩
  | unwritten report hwritten hnothing =>
    refine ⟨nofun, fun _ => rfl, ?_⟩
    rintro _ ⟨⟩
    refine ⟨?_, fun _ => rfl, fun hw => absurd hw (by simp [hwritten])⟩
    obtain hdry | hsame := hnothing
    · simp [hwritten, hdry]
    · simp [hwritten, hsame]
  | rewritten hempty hdry hrevision hchanged =>
    refine ⟨nofun, fun hdry' => absurd hdry' (by simp [hdry]), ?_⟩
    rintro _ ⟨⟩
    refine ⟨by simp [hdry, hchanged], nofun, fun _ => ⟨hempty, ?_⟩⟩
    obtain ⟨_, hread, hrevise⟩ := revision_eq_ok_iff.mp hrevision
    obtain ⟨doc, final, hparse, happly, rfl⟩ := Request.revise_eq_ok_iff.mp hrevise
    obtain ⟨content, hlook⟩ := look_of_revision hrevision
    obtain ⟨_, hfile, _⟩ := Disk.look_eq_file_iff.mp hlook
    have hother : ∀ p, p ≠ d.place path →
        (d.put (d.place path) (.file (Disk.encode final.print))).get? p = d.get? p := by
      intro p hp
      rw [Disk.get?_put d (Disk.ne_nil_of_get?_eq hfile nofun), if_neg hp]
    refine ⟨_, doc, final, hread, hparse, happly, Disk.look_put hlook _, hother, rfl, ?_,
      Disk.get?_put_eq_directory_iff hfile⟩
    -- The temporary file has a place of its own: nothing was there before, and the target was.
    rw [Disk.place_put, hother _ fun he => by rw [he, hfile] at htemp; cases htemp]
    exact htemp

def samplePlace : Place := ["work", "app", "CMakeLists.txt"]

/-- A build file and another file in a directory below the one in which paths start. -/
def sampleDisk : Disk where
  nodes := [(["work"], .directory), (["work", "app"], .directory),
    (samplePlace, .file (Disk.encode (Request.sampleExecutable .nil).print)),
    (["work", "app", "main.cpp"], .file .empty)]
  here := ["work"]

/-- The long way to the build file. -/
def samplePath : Text := "app/.././app//CMakeLists.txt"

/-- A definition is written into the build file. -/
theorem edit_disk_executable :
    sampleDisk.get? (sampleDisk.place (Disk.temporary "7" samplePath)) = none ∧
    ∃ after, edit "7" samplePath Request.sampleTwice false sampleDisk =
        (.ok { path := samplePath,
               outcome := { kind := some .executable, changes := [(.definitions, { added := 1 })] },
               written := true }, after) ∧
      after.look samplePath = .ok (.file (Disk.encode (Request.sampleExecutable
        (.text "target_compile_definitions(app PUBLIC -DX=1)" .nil)).print)) ∧
      ∀ p, p ≠ samplePlace → after.get? p = sampleDisk.get? p := by
  have htemp : sampleDisk.get? (sampleDisk.place (Disk.temporary "7" samplePath)) = none := by
    decide +kernel
  have hplace : sampleDisk.place samplePath = samplePlace := by decide +kernel
  -- Text and bytes are kept apart from the evaluation: the file is read by what reading does.
  have hread : sampleDisk.readText samplePath = .ok (Request.sampleExecutable .nil).print :=
    Disk.readText_eq_ok_iff.mpr ⟨_, rfl, Disk.decode?_encode _⟩
  have hparse :
      Chunks.parse (Request.sampleExecutable .nil).print = .ok (Request.sampleExecutable .nil) := by
    decide +kernel
  have happly : Request.sampleTwice.apply (Request.sampleExecutable .nil) =
      (.ok { kind := some .executable, changes := [(.definitions, { added := 1 })] },
        Request.sampleExecutable (.text "target_compile_definitions(app PUBLIC -DX=1)" .nil)) := by
    decide +kernel
  have hrevision := revision_eq_ok_iff.mpr
    ⟨rfl, hread, Request.revise_eq_ok_iff.mpr ⟨_, _, hparse, happly, rfl⟩⟩
  have hedit : edit "7" samplePath Request.sampleTwice false sampleDisk =
      (.ok { path := samplePath,
             outcome := { kind := some .executable, changes := [(.definitions, { added := 1 })] },
             written := true }, (edit "7" samplePath Request.sampleTwice false sampleDisk).2) := by
    unfold edit
    rw [if_neg (by decide), hrevision]
    rfl
  obtain ⟨-, -, hreport⟩ := edit_disk htemp hedit
  obtain ⟨-, -, hwritten⟩ := hreport _ rfl
  obtain ⟨-, old, doc, final, hread', hparse', happly', hlook, hother, -⟩ := hwritten rfl
  obtain rfl := Except.ok.inj (hread.symm.trans hread')
  obtain rfl := Except.ok.inj (hparse.symm.trans hparse')
  obtain rfl := (Prod.mk.inj (happly.symm.trans happly')).2
  exact ⟨htemp, _, hedit, hlook, hplace ▸ hother⟩

end FileFlow
end BuildFile
