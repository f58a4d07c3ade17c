import BuildFile.Proofs.Disk.Parents
import BuildFile.Text
/-! Atomic writes. A write goes through a temporary file in the directory of its target, which is
never the target itself. It succeeds exactly if nothing is in the way, and then the target holds the
content; otherwise no file has changed. In both cases the temporary file is gone, and all that can
be new are directories above the target. -/
namespace BuildFile
namespace Place
variable {path t directory name : Text}

theorem steps_of_not_mem (h : '/' ∉ t) (hne : t ≠ []) : steps t = [t] := by
  simp [steps, parts, List.splitOn_eq_singleton h, hne]

theorem steps_within (directory name : Text) :
    steps (within directory name) = steps directory ++ steps name := by
  unfold within
  split
  case isTrue h =>
    obtain rfl | hslash := h
    · rfl
    · obtain ⟨front, rfl⟩ := List.getLast?_eq_some_iff.mp (beq_iff_eq.mp hslash)
      rw [List.append_assoc, List.singleton_append, steps_append_slash, steps_append_slash]
      simp [steps, parts]
  case isFalse => exact steps_append_slash directory name

theorem isAbsolute_within (h : isAbsolute name = false) (directory : Text) :
    isAbsolute (within directory name) = isAbsolute directory := by
  cases directory with
  | nil => exact h
  | cons c directory =>
    unfold within
    split <;> exact isAbsolute_append (List.cons_ne_nil c directory) _

theorem getLast?_within (hne : name ≠ []) (directory : Text) :
    (within directory name).getLast? = name.getLast? := by
  have hlast := List.getLast?_eq_some_getLast hne
  unfold within
  split <;> simp [List.getLast?_append, List.getLast?_cons, hlast]

end Place

namespace Disk
open Place (Fits EndsInName)
variable {d e filled after : Disk} {path tag p : Text} {content : ByteArray}

/-! The temporary file. -/

theorem temporaryName_eq (tag path : Text) : temporaryName tag path =
    '.' :: ((Place.fileName? path).getD [] ++ ('.' :: tag ++ ['.', 't', 'm', 'p'])) := by
  simp [temporaryName]

theorem temporary_eq (h : EndsInName path) (tag : Text) :
    temporary tag path = Place.within ((Place.parent? path).getD []) (temporaryName tag path) := by
  rw [temporary, Place.beside, h.fileName?_eq]

theorem endsInSlash_temporary (h : EndsInName path) (tag : Text) :
    Place.endsInSlash (temporary tag path) = false := by
  rw [Place.endsInSlash, temporary_eq h, Place.getLast?_within (by simp [temporaryName_eq]),
    temporaryName_eq]
  simp [List.getLast?_cons, List.getLast?_append]

theorem steps_temporary (h : EndsInName path) (htag : '/' ∉ tag) :
    Place.steps (temporary tag path) =
    Place.steps ((Place.parent? path).getD []) ++ [temporaryName tag path] := by
  obtain ⟨before, hparts, _⟩ := h.exists_before
  have hlast : '/' ∉ Place.last path := by
    apply not_mem_of_mem_splitOn
    rw [← Place.parts, ← List.mem_reverse, hparts]
    exact List.mem_cons_self
  have hname : '/' ∉ temporaryName tag path := by
    simp [temporaryName_eq, h.fileName?_eq, hlast, htag]
  rw [temporary_eq h, Place.steps_within, Place.steps_of_not_mem hname (by simp [temporaryName_eq])]

theorem place_eq_append {ys : List Text} {z : Text} (h : Place.steps path = ys ++ [z])
    (hhere : z ≠ ['.'])
    (hback : z ≠ ['.', '.']) : d.place path = ys.foldl Place.step (d.start path) ++ [z] := by
  rw [place, Place.follow, h, List.foldl_append, List.foldl_cons, List.foldl_nil, Place.step,
    if_neg hhere, if_neg hback]

/-- The temporary file is another one than the target. -/
theorem place_temporary_ne (h : EndsInName path) (htag : '/' ∉ tag) :
    d.place (temporary tag path) ≠ d.place path := by
  obtain ⟨_, _, _, hsteps, _⟩ := h.exists_before
  have hlength : (Place.last path).length + 2 < (temporaryName tag path).length := by
    simp only [temporaryName_eq, h.fileName?_eq, Option.getD_some, List.length_cons,
      List.length_append]
    omega
  have hname (z : Text) (hz : z.length ≤ 2) : temporaryName tag path ≠ z := by
    rintro rfl
    omega
  rw [place_eq_append (steps_temporary h htag) (hname _ (by simp)) (hname _ (by simp)),
    place_eq_append (Place.steps_eq_way_append hsteps) h.here h.back]
  intro he
  have hsame : temporaryName tag path = Place.last path := by simpa using congrArg List.getLast? he
  rw [hsame] at hlength
  omega

theorem pass_steps_of_look (h : d.look p = .ok .directory) (hne : Place.steps p ≠ []) :
    d.pass (d.start p) (Place.steps p) = .ok () := by
  obtain ⟨hreach, hdirectory⟩ := look_eq_directory_iff.mp h
  obtain ⟨_, _, _, hpass, hlast⟩ := reach_eq_ok_iff.mp hreach
  rw [place, Place.follow, Place.steps_eq_way_append hne, List.foldl_append] at hdirectory
  rw [Place.steps_eq_way_append hne, pass_append, pass_singleton_iff]
  exact ⟨hpass, hlast, hdirectory⟩

/-- Whoever can follow a path can go through its parent. -/
theorem pass_parent (h : d.reach path = .ok ()) :
    d.pass (d.start ((Place.parent? path).getD []))
      (Place.steps ((Place.parent? path).getD [])) = .ok () := by
  unfold Place.parent?
  split
  · rfl
  · cases habove : Place.above path with
    | nil =>
      have hroot := Place.steps_root_append path []
      rw [List.append_nil] at hroot
      simp only [List.head?_nil, Option.getD_none, Option.getD_some, hroot]
      rfl
    | cons p above =>
      have hp : p ∈ Place.above path := by simp [habove]
      obtain ⟨_, _, hsteps, _⟩ := Place.exists_of_mem_above hp
      exact pass_steps_of_look (look_of_mem_above hp h) hsteps

theorem reach_temporary (hname : EndsInName path) (htag : '/' ∉ tag)
    (hfits : Fits (temporary tag path))
    (h : d.reach path = .ok ()) : d.reach (temporary tag path) = .ok () := by
  have hsteps := steps_temporary hname htag
  have hstart : d.start (temporary tag path) = d.start ((Place.parent? path).getD []) := by
    have hrelative : Place.isAbsolute (temporaryName tag path) = false := by
      rw [temporaryName_eq]
      rfl
    rw [start, temporary_eq hname, Place.isAbsolute_within hrelative, start]
  rw [reach_eq_pass hfits (by simp [hsteps]), hstart, Place.way, hsteps, List.dropLast_concat]
  exact pass_parent h

/-! When a write succeeds. -/

/-- Nothing is in the way of a write. The path ends in a name, and neither its text nor that of the
temporary path exceeds a limit. There is no file above it and no directory at its place; and no part
of the way that is gone back from leads through its place or the place of the temporary file. -/
structure Clear (tag path : Text) (d : Disk) : Prop where
  name : EndsInName path
  fits : Fits path
  temporary_fits : Fits (temporary tag path)
  files : d.NoFiles (Place.above path)
  target : d.get? (d.place path) ≠ some .directory
  apart : ∀ p ∈ Place.above path, d.place p ≠ d.place path ∧
    d.place p ≠ d.place (temporary tag path)

theorem fill_of_reach (hreach : d.reach path = .ok ()) (hslash : Place.endsInSlash path = false)
    (hplace : d.get? (d.place path) ≠ some .directory) (content : ByteArray) :
    d.fill path content = .ok (d.put (d.place path) (.file content)) := by
  unfold fill
  simp only [hreach, hslash, Bool.false_eq_true, if_false]

theorem moveTo_of_reach (hreach : d.reach path = .ok ()) (hname : EndsInName path)
    (hplace : d.get? (d.place path) ≠ some .directory) (source : Place) (content : ByteArray) :
    d.moveTo source content path = .ok ((d.remove source).put (d.place path) (.file content)) := by
  unfold moveTo
  simp only [hreach, hname.here, hname.back, hname.slash, or_self, Bool.false_eq_true, if_false]

theorem Clear.write_eq_ok (h : Clear tag path d) (htag : '/' ∉ tag)
    (htemp : d.get? (d.place (temporary tag path)) = none) (content : ByteArray) :
    (d.write tag path content).1 = .ok () := by
  obtain ⟨e, hmade, hreach⟩ := exists_makeDirectories_above h.name h.fits h.files
  have hgrown := grown_makeDirectories (Place.above path) d
  rw [hmade] at hgrown
  -- The new directories are neither at the target nor at the temporary file.
  have htemp_free : e.get? (e.place (temporary tag path)) = none := by
    rw [place_congr hgrown.here, hgrown.get?_eq fun p hp => (h.apart p hp).2, htemp]
  have htarget : e.get? (e.place path) ≠ some .directory := by
    rw [place_congr hgrown.here, hgrown.get?_eq fun p hp => (h.apart p hp).1]
    exact h.target
  have hno_directory : e.get? (e.place (temporary tag path)) ≠ some .directory := by
    simp [htemp_free]
  have hfill := fill_of_reach (reach_temporary h.name htag h.temporary_fits hreach)
    (endsInSlash_temporary h.name tag) hno_directory content
  -- The temporary file stands in nobody's way.
  have hdirectories (q : Place) := get?_put_file_eq_directory_iff hno_directory content q
  have hmove :=
    moveTo_of_reach (reach_of_directories (fun q => (hdirectories q).mpr) rfl hreach) h.name
    (mt (hdirectories _).mp htarget) (e.place (temporary tag path)) content
  unfold write
  simp only [hmade, hfill, place_put, hmove]

theorem reach_of_fill (h : d.fill path content = .ok e) : d.reach path = .ok () := by
  unfold fill at h
  split at h
  · cases h
  case h_2 hreach => exact hreach

theorem clear_of_write (h : d.write tag path content = (.ok (), after)) : Clear tag path d := by
  obtain ⟨e, filled, hmade, hfill, hmove⟩ := exists_steps_of_write h
  have hgrown := grown_makeDirectories (Place.above path) d
  rw [hmade] at hgrown
  obtain ⟨hreach_filled, hname, htarget_filled⟩ := checks_of_moveTo hmove
  have htemp := ne_directory_of_fill hfill
  obtain rfl := fill_eq_ok hfill
  have hdirectories (q : Place) := get?_put_file_eq_directory_iff htemp content q
  have hreach : e.reach path = .ok () :=
    reach_of_directories (fun q => (hdirectories q).mp) rfl hreach_filled
  have htarget : e.get? (e.place path) ≠ some .directory := mt (hdirectories _).mpr htarget_filled
  have habove (p : Text) (hp : p ∈ Place.above path) : e.get? (e.place p) = some .directory :=
    (look_eq_directory_iff.mp (look_of_mem_above hp hreach)).2
  simp only [place_congr hgrown.here] at htemp htarget habove
  refine ⟨hname, fits_of_reach hreach, fits_of_reach (reach_of_fill hfill), ?_, ?_, ?_⟩
  · intro p hp old hfile
    have hsame := (hgrown.keeps _).file_iff.mpr hfile
    rw [habove p hp] at hsame
    cases hsame
  · exact fun hdirectory => htarget (hgrown.directory hdirectory)
  · intro p hp
    constructor
    · exact fun he => htarget (he ▸ habove p hp)
    · exact fun he => htemp (he ▸ habove p hp)

/-! What a write leaves. -/

theorem slash_not_mem_decimal (n : Nat) : '/' ∉ decimal n := by
  intro h
  exact absurd (Nat.isDigit_of_mem_toDigits (by decide) (by decide) h) (by decide)

section
variable (htemp : d.get? (d.place (temporary tag path)) = none)
include htemp

theorem write_eq_ok_iff_clear (htag : '/' ∉ tag) (content : ByteArray) :
    (d.write tag path content).1 = .ok () ↔ Clear tag path d :=
  ⟨fun h => clear_of_write (Prod.ext h rfl), fun h => h.write_eq_ok htag htemp content⟩

/-- A write that succeeds changes one place besides. -/
theorem exists_grown_of_write (h : d.write tag path content = (.ok (), after)) :
    ∃ e, Grown (Place.above path) d e ∧ e.place path ≠ [] ∧
      after = e.put (e.place path) (.file content) := by
  obtain ⟨e, hgrown, hwritten⟩ := exists_grown_written htemp content
  rw [h] at hwritten
  cases hwritten with
  | replaced =>
    have hne : d.place path ≠ [] := ne_nil_of_get?_eq rfl (clear_of_write h).target
    exact ⟨e, hgrown, place_congr hgrown.here path ▸ hne, rfl⟩

theorem grown_of_write_error {fault : DiskError}
    (h : d.write tag path content = (.error fault, after)) : Grown (Place.above path) d after := by
  obtain ⟨e, hgrown, hwritten⟩ := exists_grown_written htemp content
  rw [h] at hwritten
  cases hwritten with
  | failed _ => exact hgrown

theorem temporary_gone {result : Except DiskError Unit} (htag : '/' ∉ tag)
    (h : d.write tag path content = (result, after)) (left : ByteArray) :
    after.get? (d.place (temporary tag path)) ≠ some (.file left) := by
  have hkeeps : Keeps (Place.above path) d after (d.place (temporary tag path)) := by
    cases result with
    | error fault => exact (grown_of_write_error htemp h).keeps _
    | ok _ =>
      obtain ⟨e, hgrown, hne, rfl⟩ := exists_grown_of_write htemp h
      exact hgrown.keeps_put hne _ (place_temporary_ne (clear_of_write h).name htag)
  rw [Ne, hkeeps.file_iff, htemp]
  nofun

end

/-- All or nothing. A write that succeeds leaves the content at its target, from where it can be
read, and no other file is different; one that fails leaves every file as it was. Directories above
the target are all that can be new besides, and neither ending leaves a temporary file. The write
succeeds exactly if nothing is in the way. -/
theorem write_atomic {pid : Nat} (htemp : d.get? (d.place (temporary (decimal pid) path)) = none) :
    (∀ content after, d.write (decimal pid) path content = (.ok (), after) →
      after.look path = .ok (.file content) ∧ after.get? (d.place path) = some (.file content) ∧
      after.here = d.here ∧ ∀ q, q ≠ d.place path → Keeps (Place.above path) d after q ∧
        ∀ old, after.get? q = some (.file old) ↔ d.get? q = some (.file old)) ∧
    (∀ t after, d.writeText (decimal pid) path t = (.ok (), after) → after.readText path = .ok t) ∧
    (∀ content fault after, d.write (decimal pid) path content = (.error fault, after) →
      after.here = d.here ∧ ∀ q, Keeps (Place.above path) d after q ∧
        ∀ old, after.get? q = some (.file old) ↔ d.get? q = some (.file old)) ∧
    (∀ content left,
      (d.write (decimal pid) path content).2.get? (d.place (temporary (decimal pid) path)) ≠
      some (.file left)) ∧
    (∀ content, (d.write (decimal pid) path content).1 = .ok () ↔ Clear (decimal pid) path d) ∧
    ∀ p ∈ Place.above path, ∃ s, path = p ++ '/' :: s ∧ Place.steps p ≠ [] ∧
      Place.steps s ≠ [] := by
  have htag := slash_not_mem_decimal pid
  refine ⟨?_, ?_, ?_, fun content => temporary_gone htemp htag rfl,
    write_eq_ok_iff_clear htemp htag, fun p => Place.exists_of_mem_above⟩
  · intro content after h
    obtain ⟨e, hgrown, hne, hafter⟩ := exists_grown_of_write htemp h
    refine ⟨look_of_write h, ?_, by rw [hafter]; exact hgrown.here, fun q hq => ?_⟩
    · rw [hafter, get?_put e hne, if_pos (place_congr hgrown.here path).symm]
    · have hkeeps := hgrown.keeps_put hne (.file content) hq
      rw [← hafter] at hkeeps
      exact ⟨hkeeps, fun old => hkeeps.file_iff⟩
  · intro t after h
    exact readText_eq_ok_iff.mpr ⟨encode t, look_of_write h, decode?_encode t⟩
  · intro content fault after h
    have hgrown := grown_of_write_error htemp h
    exact ⟨hgrown.here, fun q => ⟨hgrown.keeps q, fun old => (hgrown.keeps q).file_iff⟩⟩

/-- A directory stands where a file shall go. -/
def occupiedDisk : Disk where
  nodes := [(["work"], .directory), (["work", "app"], .directory),
    (["work", "app", "keep"], .file (encode "x"))]
  here := ["work"]

/-- Both directories on the way of a new file are made; where a directory stands in its place, what
is in the directory stays. -/
theorem write_atomic_occupied :
    occupiedDisk.get? (occupiedDisk.place (temporary (decimal 7) "lib/../src/main")) = none ∧
    occupiedDisk.get? (occupiedDisk.place (temporary (decimal 7) "app")) = none ∧
    (∀ t, ∃ after, occupiedDisk.writeText (decimal 7) "lib/../src/main" t = (.ok (), after) ∧
      after.readText "lib/../src/main" = .ok t ∧ after.get? ["work", "lib"] = some .directory ∧
      after.get? ["work", "app", "keep"] = some (.file (encode "x"))) ∧
    ∀ content, ∃ after, occupiedDisk.write (decimal 7) "app" content =
      (.error ⟨"app", .isDirectory⟩, after) ∧
      after.get? ["work", "app", "keep"] = some (.file (encode "x")) ∧
      after.get? ["work", ".app.7.tmp"] = none := by
  have hnew :
      occupiedDisk.get? (occupiedDisk.place (temporary (decimal 7) "lib/../src/main")) = none := by
    decide +kernel
  have hold : occupiedDisk.get? (occupiedDisk.place (temporary (decimal 7) "app")) = none := by
    decide +kernel
  obtain ⟨hok, hread, _⟩ := write_atomic hnew
  obtain ⟨_, _, herror, _⟩ := write_atomic hold
  refine ⟨hnew, hold, fun t => ?_, fun content => ?_⟩
  · have hwrite : occupiedDisk.writeText (decimal 7) "lib/../src/main" t = (.ok (), _) := rfl
    obtain ⟨_, _, _, hrest⟩ := hok (encode t) _ hwrite
    exact ⟨_, hwrite, hread t _ hwrite, rfl, ((hrest _ (by decide +kernel)).2 _).mpr rfl⟩
  · have hwrite :
        occupiedDisk.write (decimal 7) "app" content = (.error ⟨"app", .isDirectory⟩, _) := rfl
    obtain ⟨_, hrest⟩ := herror content _ _ hwrite
    exact ⟨_, hwrite, ((hrest _).2 _).mpr rfl, rfl⟩

end Disk
end BuildFile
