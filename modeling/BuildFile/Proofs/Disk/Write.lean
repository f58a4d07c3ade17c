import BuildFile.Proofs.Disk.Path
/-! How a write ends. Once the directories above the target are there, a write either fails and
leaves nothing behind, or puts the content at the place of the target and nothing anywhere else: the
temporary file is gone in both cases. For a target that can be followed there are no directories to
make. -/
namespace BuildFile.Disk
variable {d e : Disk} {path tag : Text} {content : ByteArray} {p : Place}

/-- The root is a directory. -/
theorem ne_nil_of_get?_eq {found : Option Node} (h : d.get? p = found)
    (hfound : found ≠ some .directory) : p ≠ [] := by
  rintro rfl
  exact hfound h.symm

@[simp] theorem place_put (d : Disk) (p : Place) (n : Node) (path : Text) :
    (d.put p n).place path = d.place path := rfl

theorem remove_put (h : d.get? p = none) (n : Node) : (d.put p n).remove p = d := by
  have hp : p ≠ [] := ne_nil_of_get?_eq h nofun
  rw [get?, if_neg hp, List.lookup_eq_none_iff] at h
  have hfilter : (d.nodes.filter fun e => e.1 != p) = d.nodes :=
    List.filter_eq_self.mpr fun e he => bne_comm.trans (h e he)
  simp [put, remove, hfilter]

theorem fill_eq_ok (h : d.fill path content = .ok e) :
    e = d.put (d.place path) (.file content) := by
  unfold fill at h
  split at h
  · cases h
  · split at h
    · cases h
    · split at h
      · cases h
      · cases h
        rfl

theorem moveTo_eq_ok {source : Place} (h : d.moveTo source content path = .ok e) :
    e = (d.remove source).put (d.place path) (.file content) := by
  unfold moveTo at h
  split at h
  · cases h
  · split at h
    · cases h
    · split at h
      · cases h
      · split at h
        · cases h
        · cases h
          rfl

/-- The ways in which a write can end, on the disk with the directories that it made. -/
inductive Written (path : Text) (content : ByteArray) (d : Disk) :
    Except DiskError Unit × Disk → Prop
  | failed (e : DiskError) : Written path content d (.error e, d)
  | replaced : Written path content d (.ok (), d.put (d.place path) (.file content))

theorem written_write (tag path : Text) (content : ByteArray) {made : Except Fault Unit}
    (hmade : d.makeDirectories (Place.above path) = (made, e))
    (htemp : e.get? (e.place (temporary tag path)) = none) :
    Written path content e (d.write tag path content) := by
  unfold write
  rw [hmade]
  cases made with
  | error fault => exact .failed _
  | ok _ =>
    cases hfill : e.fill (temporary tag path) content with
    | error fault =>
      simp only [hfill]
      exact .failed _
    | ok filled =>
      cases fill_eq_ok hfill
      -- The temporary file is taken away again, whichever way the move ends.
      have hremoved := remove_put htemp (.file content)
      simp only [hfill, place_put]
      split
      · rw [hremoved]
        exact .failed _
      case h_2 moved hmove =>
        rw [moveTo_eq_ok hmove, hremoved, place_put]
        exact .replaced

/-- A write to a path that can be followed makes no directories. -/
theorem written_write_of_reach (h : d.reach path = .ok ())
    (htemp : d.get? (d.place (temporary tag path)) = none) (content : ByteArray) :
    Written path content d (d.write tag path content) :=
  written_write tag path content (makeDirectories_above h) htemp

/-! A file in the place of another. -/

theorem decode?_encode (t : Text) : decode? (encode t) = some t := by
  have hread : String.fromUTF8? (String.ofList t).toUTF8 = some (String.ofList t) :=
    dif_pos (String.ofList t).isValidUTF8
  rw [decode?, encode, hread, Option.map_some, String.toList_ofList]

/-- A file where no directory is leaves the directories as they are. -/
theorem get?_put_file_eq_directory_iff (h : d.get? p ≠ some .directory) (new : ByteArray)
    (q : Place) : (d.put p (.file new)).get? q = some .directory ↔ d.get? q = some .directory := by
  rw [get?_put d (ne_nil_of_get?_eq rfl h)]
  split
  case isTrue hq => simp [hq, h]
  case isFalse => rfl

theorem get?_put_eq_directory_iff {new : ByteArray} (h : d.get? p = some (.file content))
    (q : Place) : (d.put p (.file new)).get? q = some .directory ↔ d.get? q = some .directory :=
  get?_put_file_eq_directory_iff (by simp [h]) new q

/-- The path of a file that is replaced leads to the new content. -/
theorem look_put (h : d.look path = .ok (.file content)) (new : ByteArray) :
    (d.put (d.place path) (.file new)).look path = .ok (.file new) := by
  obtain ⟨hreach, hfile, hslash⟩ := look_eq_file_iff.mp h
  refine look_eq_file_iff.mpr ⟨?_, ?_, hslash⟩
  · exact reach_of_directories (fun q => (get?_put_eq_directory_iff hfile q).mpr) rfl hreach
  · rw [place_put, get?_put d (ne_nil_of_get?_eq hfile nofun), if_pos rfl]

end BuildFile.Disk
