import BuildFile.Proofs.Disk.Growth
import BuildFile.Proofs.FileFlow.Edit
/-! Creating a build file. All that can go wrong with the request and the seed is found out before
anybody is asked, and a file that is there is touched only after a yes. What a failure can leave
behind are directories above the path; a success puts the printed document at the path, and changes
no other file. -/
namespace BuildFile.FileFlow
variable {path seed tag : Text} {r : Request} {dryRun there : Bool} {confirm : Confirm} {d : Disk}
  {o : Outcome} {new : Text}

theorem occupied_eq_ok_iff :
    occupied path d = .ok there ↔ d.probe path = if there then .file else .missing := by
  unfold occupied
  cases d.probe path <;> cases there <;> simp

theorem planned_eq_ok_iff : planned path seed r d = .ok (there, o, new) ↔
    r.validate = .ok () ∧ d.probe path = (if there then .file else .missing) ∧
      r.revise seed = .ok (o, new) := by
  simp only [planned, bind_eq_ok_iff, occupied_eq_ok_iff]
  constructor
  · intro h
    obtain ⟨_, hv, found, hfound, ⟨o', new'⟩, hrevise, he⟩ := h
    cases he
    exact ⟨hv, hfound, hrevise⟩
  · intro h
    obtain ⟨hv, hfound, hrevise⟩ := h
    exact ⟨(), hv, there, hfound, (o, new), hrevise, rfl⟩

theorem exists_planned_occupied_iff :
    (∃ o new, planned path seed r d = .ok (true, o, new)) ↔
      d.probe path = .file ∧ r.validate = .ok () ∧
        ∃ doc o final, Chunks.parse seed = .ok doc ∧ r.apply doc = (.ok o, final) := by
  simp only [planned_eq_ok_iff, Request.revise_eq_ok_iff, if_true]
  constructor
  · intro h
    obtain ⟨o, new, hv, hfile, doc, final, hparse, happly, _⟩ := h
    exact ⟨hfile, hv, doc, o, final, hparse, happly⟩
  · intro h
    obtain ⟨hfile, hv, doc, o, final, hparse, happly⟩ := h
    exact ⟨o, final.print, hv, hfile, doc, final, hparse, happly, rfl⟩

/-! Writing the report's text. -/

inductive Committed (report : Report) (t : Text) (d : Disk) : Except Error Report × Disk → Prop
  | failed {e : Disk} (reason : Error) (hgrown : d.Grown (Place.above report.path) e) :
    Committed report t d (.error reason, e)
  | written {e : Disk} (hgrown : d.Grown (Place.above report.path) e)
    (hlook : (e.put (e.place report.path) (.file (Disk.encode t))).look report.path =
      .ok (.file (Disk.encode t))) :
    Committed report t d
      (.ok { report with written := true }, e.put (e.place report.path) (.file (Disk.encode t)))

theorem committed_commit (report : Report) (t : Text)
    (htemp : d.get? (d.place (Disk.temporary tag report.path)) = none) :
    Committed report t d (commit tag report t d) := by
  obtain ⟨e, hgrown, hwritten⟩ := Disk.exists_grown_written htemp (Disk.encode t)
  unfold commit Disk.writeText
  cases hresult : d.write tag report.path (Disk.encode t) with
  | mk result after =>
    have hlook : result = .ok () → after.look report.path = .ok (.file (Disk.encode t)) :=
      fun hok => Disk.look_of_write (hok ▸ hresult)
    rw [hresult] at hwritten
    cases hwritten with
    | failed e => exact .failed _ hgrown
    | replaced => exact .written hgrown (hlook rfl)

theorem place_ne_nil_of_look {content : ByteArray} (h : d.look path = .ok (.file content)) :
    d.place path ≠ [] :=
  Disk.ne_nil_of_get?_eq (Disk.look_eq_file_iff.mp h).2.1 nofun

/-! The endings. -/

/-- What a confirmation comes to for a path. -/
def Confirm.reply : Confirm → Text → Except Text Bool
  | assumeYes, _ => .ok true
  | ask reply, path => reply path

/-- The ways in which a creation can end: nothing can be made of the seed, the result is only shown,
the file that is there may not be replaced, or the text is written. -/
inductive Created (tag path seed : Text) (r : Request) (dryRun : Bool) (confirm : Confirm)
    (d : Disk) : Creation → Prop
  | unplanned (e : Error) (h : planned path seed r d = .error e) :
    Created tag path seed r dryRun confirm d { result := .error e, disk := d }
  | shown (result : Except Error Report) (hdry : dryRun = true) :
    Created tag path seed r dryRun confirm d { result, disk := d }
  | declined {o : Outcome} {new : Text} (e : Error) (hdry : dryRun = false)
    (h : planned path seed r d = .ok (true, o, new))
    (hasks : confirm ≠ .assumeYes) (hreply : confirm.reply path ≠ .ok true) :
    Created tag path seed r dryRun confirm d { result := .error e, disk := d, asked := [path] }
  | committed {there : Bool} {o : Outcome} {new : Text} {made : Except Error Report × Disk}
    {asked : List Text} (hdry : dryRun = false) (h : planned path seed r d = .ok (there, o, new))
    (hreply : there = true → confirm.reply path = .ok true)
    (hasked : there = true ∧ confirm ≠ .assumeYes ∧ asked = [path] ∨
      (there = true → confirm = .assumeYes) ∧ asked = [])
    (hmade : commit tag { path, outcome := o } new d = made) :
    Created tag path seed r dryRun confirm d { result := made.1, disk := made.2, asked }

theorem created_create (tag path seed : Text) (r : Request) (dryRun : Bool) (confirm : Confirm)
    (d : Disk) :
    Created tag path seed r dryRun confirm d (create tag path seed r dryRun confirm d) := by
  unfold create
  cases hplanned : planned path seed r d with
  | error e => exact .unplanned e hplanned
  | ok found =>
    obtain ⟨there, o, new⟩ := found
    cases dryRun with
    | true =>
      dsimp only
      rw [if_pos rfl]
      split
      · exact .shown _ rfl
      · exact .shown _ rfl
    | false =>
      dsimp only
      rw [if_neg (by simp)]
      cases there with
      | false =>
        rw [if_pos (by simp)]
        exact .committed rfl hplanned nofun (.inr ⟨nofun, rfl⟩) rfl
      | true =>
        rw [if_neg (by simp)]
        cases confirm with
        | assumeYes => exact .committed rfl hplanned (fun _ => rfl) (.inr ⟨fun _ => rfl, rfl⟩) rfl
        | ask reply =>
          dsimp only
          split
          case h_1 reason hreply =>
            exact .declined _ rfl hplanned nofun (by simp [Confirm.reply, hreply])
          case h_2 hreply => exact .declined _ rfl hplanned nofun (by simp [Confirm.reply, hreply])
          case h_3 hreply =>
            exact .committed rfl hplanned (fun _ => hreply) (.inl ⟨rfl, nofun, rfl⟩) rfl

section
variable {made : Creation} (h : Created tag path seed r dryRun confirm d made)
include h

theorem Created.asked_eq : made.asked = [] ∨ made.asked = [path] := by
  cases h with
  | unplanned => exact .inl rfl
  | shown => exact .inl rfl
  | declined => exact .inr rfl
  | committed _ _ _ hasked =>
    obtain ⟨_, _, hasked⟩ | ⟨_, hasked⟩ := hasked
    · exact .inr hasked
    · exact .inl hasked

/-- Somebody is asked exactly when the answer is all that is missing. -/
theorem Created.asked_iff : made.asked = [path] ↔ confirm ≠ .assumeYes ∧ dryRun = false ∧
    ∃ o new, planned path seed r d = .ok (true, o, new) := by
  cases h with
  | unplanned e hplanned => simp [hplanned]
  | shown _ hdry => simp [hdry]
  | declined _ hdry hplanned hasks => simp [hdry, hplanned, hasks]
  | committed hdry hplanned _ hasked =>
    obtain ⟨rfl, hasks, hasked⟩ | ⟨hassumed, hasked⟩ := hasked
    · simp [hdry, hplanned, hasks, hasked]
    · simp only [hasked, hdry, hplanned, Except.ok.injEq, Prod.mk.injEq]
      constructor
      · nofun
      · intro hready
        obtain ⟨hasks, _, _, _, hthere, _⟩ := hready
        exact absurd (hassumed hthere) hasks

theorem Created.disk_of_dryRun (hdry : dryRun = true) : made.disk = d := by
  cases h with
  | unplanned => rfl
  | shown => rfl
  | declined => rfl
  | committed hdry' => simp [hdry'] at hdry

theorem Created.disk_of_refused (hfile : d.probe path = .file)
    (hreply : confirm.reply path ≠ .ok true) : made.disk = d := by
  cases h with
  | unplanned => rfl
  | shown => rfl
  | declined => rfl
  | @committed there _ _ _ _ _ hplanned hreply' =>
    obtain ⟨_, hprobe, _⟩ := planned_eq_ok_iff.mp hplanned
    cases there with
    | true => exact absurd (hreply' rfl) hreply
    | false => simp [hfile] at hprobe

end

/-- What the creation of a file does to the disk, and whom it asks. Only the path is asked about, at
most once, and exactly when there is a file to replace, no dry run was asked for, and a request that
fits makes a document of the seed. A file is replaced only on a yes. A success puts the printed
document at the path and changes no other file; a dry run changes nothing, and a failure can only
leave new directories above the path. -/
theorem create_disk {made : Creation} (htemp : d.get? (d.place (Disk.temporary tag path)) = none)
    (h : create tag path seed r dryRun confirm d = made) :
    (made.asked = [] ∨ made.asked = [path]) ∧
    (made.asked = [path] ↔ confirm ≠ .assumeYes ∧ dryRun = false ∧ d.probe path = .file ∧
      r.validate = .ok () ∧
      ∃ doc o final, Chunks.parse seed = .ok doc ∧ r.apply doc = (.ok o, final)) ∧
    (d.probe path = .file → confirm.reply path ≠ .ok true → made.disk = d) ∧
    (dryRun = true → made.disk = d) ∧
    (∀ report, made.result = .ok report → dryRun = false → report.written = true ∧
      ∃ doc final, Chunks.parse seed = .ok doc ∧ r.apply doc = (.ok report.outcome, final) ∧
        made.disk.look path = .ok (.file (Disk.encode final.print)) ∧
        ∀ q, q ≠ d.place path → d.Keeps (Place.above path) made.disk q) ∧
    ∀ e, made.result = .error e → (∀ q, d.Keeps (Place.above path) made.disk q) ∧
      ∀ content, made.disk.get? (d.place (Disk.temporary tag path)) ≠ some (.file content) := by
  have hcreated := created_create tag path seed r dryRun confirm d
  rw [h] at hcreated
  refine ⟨hcreated.asked_eq, ?_, hcreated.disk_of_refused, hcreated.disk_of_dryRun, ?_⟩
  · rw [hcreated.asked_iff, exists_planned_occupied_iff]
  have hnothing : (∀ q, d.Keeps (Place.above path) d q) ∧
      ∀ content, d.get? (d.place (Disk.temporary tag path)) ≠ some (.file content) :=
    ⟨fun _ => .inl rfl, fun content => by simp [htemp]⟩
  cases hcreated with
  | unplanned e => exact ⟨nofun, fun _ _ => hnothing⟩
  | shown result hdry => exact ⟨fun _ _ hdry' => absurd hdry (by simp [hdry']), fun _ _ => hnothing⟩
  | declined e => exact ⟨nofun, fun _ _ => hnothing⟩
  | @committed _ o new made _ _ hplanned _ _ hmade =>
    have hcommitted := committed_commit { path, outcome := o } new htemp
    rw [hmade] at hcommitted
    cases hcommitted with
    | failed reason hgrown =>
      refine ⟨nofun, fun _ _ => ⟨hgrown.keeps, fun content => ?_⟩⟩
      rw [Ne, (hgrown.keeps _).file_iff]
      exact hnothing.2 content
    | written hgrown hlook =>
      refine ⟨?_, nofun⟩
      rintro _ ⟨⟩ _
      obtain ⟨_, _, hrevise⟩ := planned_eq_ok_iff.mp hplanned
      obtain ⟨doc, final, hparse, happly, rfl⟩ := Request.revise_eq_ok_iff.mp hrevise
      have hne := place_ne_nil_of_look hlook
      exact ⟨rfl, doc, final, hparse, happly, hlook, fun q hq => hgrown.keeps_put hne _ hq⟩

/-- A path on which nothing is there yet, with a way back from the first directory. -/
def sampleNewPath : Text := "lib/../src/CMakeLists.txt"

def sampleNewPlace : Place := ["work", "src", "CMakeLists.txt"]

theorem revise_sampleTwice : Request.sampleTwice.revise (Request.sampleExecutable .nil).print =
    .ok ({ kind := some .executable, changes := [(.definitions, { added := 1 })] },
      (Request.sampleExecutable (.text "target_compile_definitions(app PUBLIC -DX=1)"
        .nil)).print) := by
  decide +kernel

/-- Both directories on the way are made, and nobody is asked; where a file is, a no leaves the disk
alone. -/
theorem create_disk_executable :
    sampleDisk.get? (sampleDisk.place (Disk.temporary "7" sampleNewPath)) = none ∧
    sampleDisk.get? (sampleDisk.place (Disk.temporary "7" samplePath)) = none ∧
    (∃ made, create "7" sampleNewPath (Request.sampleExecutable .nil).print
        Request.sampleTwice false
        (.ask fun _ => .error "closed") sampleDisk = made ∧ made.asked = [] ∧
      made.disk.get? ["work", "lib"] = some .directory ∧
      made.disk.look sampleNewPath = .ok (.file (Disk.encode (Request.sampleExecutable
        (.text "target_compile_definitions(app PUBLIC -DX=1)" .nil)).print)) ∧
      ∀ q, q ≠ sampleNewPlace → sampleDisk.Keeps (Place.above sampleNewPath) made.disk q) ∧
    ∃ made, create "7" samplePath (Request.sampleExecutable .nil).print Request.sampleTwice false
        (.ask fun _ => .ok false) sampleDisk = made ∧ made.asked = [samplePath] ∧
      made.disk = sampleDisk := by
  have hnew : sampleDisk.get? (sampleDisk.place (Disk.temporary "7" sampleNewPath)) = none := by
    decide +kernel
  have hold : sampleDisk.get? (sampleDisk.place (Disk.temporary "7" samplePath)) = none := by
    decide +kernel
  have hplace : sampleDisk.place sampleNewPath = sampleNewPlace := by decide +kernel
  have hmissing : sampleDisk.probe sampleNewPath = .missing := by decide +kernel
  have hfile : sampleDisk.probe samplePath = .file := by decide +kernel
  refine ⟨hnew, hold, ⟨_, rfl, ?_⟩, ⟨_, rfl, ?_⟩⟩
  · have hplanned : planned sampleNewPath (Request.sampleExecutable .nil).print Request.sampleTwice
        sampleDisk = .ok (false, _, _) := planned_eq_ok_iff.mpr
      ⟨rfl, hmissing, revise_sampleTwice⟩
    have hresult :
        (create "7" sampleNewPath (Request.sampleExecutable .nil).print Request.sampleTwice false
        (.ask fun _ => .error "closed") sampleDisk).result =
        .ok { path := sampleNewPath,
              outcome := { kind := some .executable, changes := [(.definitions, { added := 1 })] },
              written := true } := by
      unfold create
      rw [hplanned]
      rfl
    have hlib :
        (create "7" sampleNewPath (Request.sampleExecutable .nil).print Request.sampleTwice false
          (.ask fun _ => .error "closed") sampleDisk).disk.get? ["work", "lib"] =
            some .directory := by
      unfold create
      rw [hplanned]
      rfl
    obtain ⟨hasked, hask, _, _, hwritten, _⟩ := create_disk hnew rfl
    refine ⟨hasked.resolve_right fun he => ?_, hlib, ?_⟩
    · obtain ⟨_, _, hthere, _⟩ := hask.mp he
      rw [hmissing] at hthere
      cases hthere
    · obtain ⟨_, doc, final, hparse, happly, hlook, hkeeps⟩ := hwritten _ hresult rfl
      have hrevise := Request.revise_eq_ok_iff.mpr ⟨doc, final, hparse, happly, rfl⟩
      rw [revise_sampleTwice] at hrevise
      obtain ⟨_, hprint⟩ := Prod.mk.inj (Except.ok.inj hrevise)
      exact ⟨hprint ▸ hlook, hplace ▸ hkeeps⟩
  · obtain ⟨_, hask, hrefused, _⟩ := create_disk hold rfl
    obtain ⟨doc, final, hparse, happly, _⟩ := Request.revise_eq_ok_iff.mp revise_sampleTwice
    exact ⟨hask.mpr ⟨nofun, rfl, hfile, rfl, doc, _, final, hparse, happly⟩, hrefused hfile nofun⟩

end BuildFile.FileFlow
