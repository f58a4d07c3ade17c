import BuildFile.Proofs.Disk.Write
/-! What a write does to the rest of the disk. Making directories only adds directories, at the
paths that were asked for, and the step that makes one of them is the only step of a write that can
outlive a failure. So after a write the disk has grown by directories above the target; if the write
succeeded, the target holds the content besides. -/
namespace BuildFile.Disk
variable {d e f : Disk} {path tag : Text} {content : ByteArray} {paths more : List Text} {q : Place}

/-- At a place all is as before, or there is a new directory, to which one of these paths leads. -/
def Keeps (paths : List Text) (d e : Disk) (q : Place) : Prop :=
  e.get? q = d.get? q ∨ d.get? q = none ∧ e.get? q = some .directory ∧ ∃ p ∈ paths, d.place p = q

/-- The disk is the same but for new directories at some of these paths. -/
structure Grown (paths : List Text) (d e : Disk) : Prop where
  here : e.here = d.here
  keeps : ∀ q, Keeps paths d e q

theorem place_congr (h : e.here = d.here) (path : Text) : e.place path = d.place path := by
  simp only [place, start, h]

/-- No file comes, goes or changes at such a place. -/
theorem Keeps.file_iff (h : Keeps paths d e q) :
    e.get? q = some (.file content) ↔ d.get? q = some (.file content) := by
  obtain hq | ⟨hd, he, _⟩ := h
  · rw [hq]
  · simp [hd, he]

theorem Grown.refl (paths : List Text) (d : Disk) : Grown paths d d := ⟨rfl, fun _ => .inl rfl⟩

theorem Grown.mono (hsub : ∀ p ∈ paths, p ∈ more) (h : Grown paths d e) : Grown more d e := by
  refine ⟨h.here, fun q => (h.keeps q).imp_right ?_⟩
  intro hnew
  obtain ⟨hd, he, p, hp, hq⟩ := hnew
  exact ⟨hd, he, p, hsub p hp, hq⟩

theorem Grown.trans (h : Grown paths d e) (h' : Grown paths e f) : Grown paths d f := by
  refine ⟨h'.here.trans h.here, fun q => ?_⟩
  obtain hde | ⟨hd, he, hp⟩ := h.keeps q
  · obtain hef | ⟨he, hf, p, hp, hq⟩ := h'.keeps q
    · exact .inl (hef.trans hde)
    · exact .inr ⟨hde ▸ he, hf, p, hp, place_congr h.here p ▸ hq⟩
  · obtain hef | ⟨he', _⟩ := h'.keeps q
    · exact .inr ⟨hd, hef.trans he, hp⟩
    · rw [he] at he'
      cases he'

theorem Grown.start_eq (h : Grown paths d e) (path : Text) : e.start path = d.start path := by
  rw [start, h.here, start]

theorem Grown.directory (h : Grown paths d e) (hq : d.get? q = some .directory) :
    e.get? q = some .directory := by
  obtain hsame | ⟨hnone, _⟩ := h.keeps q
  · rw [hsame, hq]
  · rw [hq] at hnone
    cases hnone

theorem Grown.get?_eq (h : Grown paths d e) (hq : ∀ p ∈ paths, d.place p ≠ q) :
    e.get? q = d.get? q := by
  obtain hsame | ⟨_, _, p, hp, he⟩ := h.keeps q
  · exact hsame
  · exact absurd he (hq p hp)

/-- A file put at one place leaves the others as they are. -/
theorem Grown.keeps_put (h : Grown paths d e) (hne : e.place path ≠ []) (n : Node)
    (hq : q ≠ d.place path) : Keeps paths d (e.put (e.place path) n) q := by
  have hsame : (e.put (e.place path) n).get? q = e.get? q := by
    rw [get?_put e hne, if_neg (place_congr h.here path ▸ hq)]
  unfold Keeps
  rw [hsame]
  exact h.keeps q

/-! Making directories. -/

theorem makeDirectory_eq_ok (h : d.makeDirectory path = .ok e) :
    d.get? (d.place path) = none ∧ e = d.put (d.place path) .directory := by
  unfold makeDirectory at h
  split at h
  · cases h
  · split at h
    · cases h
    case isFalse hfree =>
      cases h
      exact ⟨by simpa using hfree, rfl⟩

theorem grown_makeDirectory (h : d.makeDirectory path = .ok e) : Grown [path] d e := by
  obtain ⟨hfree, rfl⟩ := makeDirectory_eq_ok h
  have hne : d.place path ≠ [] := ne_nil_of_get?_eq hfree nofun
  refine ⟨rfl, fun q => ?_⟩
  by_cases hq : q = d.place path
  · subst hq
    exact .inr ⟨hfree, by rw [get?_put d hne, if_pos rfl], path, by simp, rfl⟩
  · exact .inl (by rw [get?_put d hne, if_neg hq])

theorem grown_makeDirectories (paths : List Text) (d : Disk) :
    Grown paths d (d.makeDirectories paths).2 := by
  induction paths generalizing d with
  | nil => exact .refl [] d
  | cons path above ih =>
    have hone {a b : Disk} (h : a.makeDirectory path = .ok b) : Grown (path :: above) a b :=
      (grown_makeDirectory h).mono (by simp)
    have habove : Grown (path :: above) d (d.makeDirectories above).2 :=
      (ih d).mono fun p hp => List.mem_cons_of_mem path hp
    unfold makeDirectories
    split
    case h_1 made h => exact hone h
    case h_2 h =>
      -- Something on the way is missing: the directories above are made, then this one is tried
      -- again.
      split
      case h_1 fault mid hmade =>
        rw [hmade] at habove
        exact habove
      case h_2 mid hmade =>
        rw [hmade] at habove
        split
        case h_1 made h => exact habove.trans (hone h)
        case h_2 fault h => exact habove
    case h_3 fault _ h => exact .refl _ d

/-! Writing. -/

theorem fill_of_directory (h : d.get? (d.place path) = some .directory) (content : ByteArray) :
    ∃ fault, d.fill path content = .error fault := by
  unfold fill
  split
  · exact ⟨_, rfl⟩
  · split
    · exact ⟨_, rfl⟩
    · rw [h]
      exact ⟨_, rfl⟩

/-- A write ends on a disk that has grown by directories above the target. -/
theorem exists_grown_written (htemp : d.get? (d.place (temporary tag path)) = none)
    (content : ByteArray) :
    ∃ e, Grown (Place.above path) d e ∧ Written path content e (d.write tag path content) := by
  have hgrown := grown_makeDirectories (Place.above path) d
  cases hmade : d.makeDirectories (Place.above path) with
  | mk made e =>
    rw [hmade] at hgrown
    refine ⟨e, hgrown, ?_⟩
    rw [← place_congr hgrown.here] at htemp
    obtain hsame | ⟨_, hdirectory, _⟩ := hgrown.keeps (e.place (temporary tag path))
    · exact written_write tag path content hmade (hsame.trans htemp)
    · -- One of the new directories stands where the temporary file should go.
      obtain ⟨fault, hfill⟩ := fill_of_directory hdirectory content
      unfold write
      rw [hmade]
      cases made with
      | error fault => exact .failed _
      | ok _ =>
        simp only [hfill]
        exact .failed _

theorem ne_directory_of_fill (h : d.fill path content = .ok e) :
    d.get? (d.place path) ≠ some .directory := by
  intro hdirectory
  obtain ⟨fault, hfault⟩ := fill_of_directory hdirectory content
  rw [hfault] at h
  cases h

/-- What is checked about a path before a file is moved there. -/
theorem checks_of_moveTo {source : Place} (h : d.moveTo source content path = .ok e) :
    d.reach path = .ok () ∧ Place.EndsInName path ∧ d.get? (d.place path) ≠ some .directory := by
  unfold moveTo at h
  split at h
  · cases h
  case h_2 hreach =>
    split at h
    · cases h
    case isFalse hname =>
      split at h
      · cases h
      case isFalse hslash =>
        split at h
        · cases h
        case h_2 hplace =>
          rw [not_or] at hname
          exact ⟨hreach, ⟨by simpa using hslash, hname.1, hname.2⟩, hplace⟩

/-- A file that was moved to a path is found there. -/
theorem look_of_moveTo {source : Place} {old : ByteArray}
    (hsource : d.get? source = some (.file old))
    (h : d.moveTo source content path = .ok e) : e.look path = .ok (.file content) := by
  obtain ⟨hreach, hname, hplace⟩ := checks_of_moveTo h
  obtain rfl := moveTo_eq_ok h
  have hne : d.place path ≠ [] := ne_nil_of_get?_eq rfl hplace
  have hput (q : Place) : ((d.remove source).put (d.place path) (.file content)).get? q =
      if q = d.place path then some (.file content) else (d.remove source).get? q := get?_put _ hne
  -- The move takes a file away and puts one down, so the directories on the way are still there.
  have hdirectories (q : Place) (hq : d.get? q = some .directory) :
      ((d.remove source).put (d.place path) (.file content)).get? q = some .directory := by
    have hsource_ne : q ≠ source := fun he => by rw [he, hsource] at hq; cases hq
    have hplace_ne : q ≠ d.place path := fun he => hplace (he ▸ hq)
    rw [hput, if_neg hplace_ne, get?_remove d (ne_nil_of_get?_eq hsource nofun),
      if_neg hsource_ne, hq]
  exact look_eq_file_iff.mpr
    ⟨reach_of_directories hdirectories rfl hreach, (hput _).trans (if_pos rfl), hname.slash⟩

/-- The three steps of a write that succeeds. -/
theorem exists_steps_of_write {after : Disk} (h : d.write tag path content = (.ok (), after)) :
    ∃ e filled, d.makeDirectories (Place.above path) = (.ok (), e) ∧
      e.fill (temporary tag path) content = .ok filled ∧
      filled.moveTo (filled.place (temporary tag path)) content path = .ok after := by
  unfold write at h
  split at h
  · cases h
  case h_2 e hmade =>
    split at h
    · cases h
    case h_2 filled hfill =>
      split at h
      · cases h
      case h_2 moved hmove =>
        cases h
        exact ⟨e, filled, hmade, hfill, hmove⟩

theorem look_of_write {after : Disk} (h : d.write tag path content = (.ok (), after)) :
    after.look path = .ok (.file content) := by
  obtain ⟨e, filled, _, hfill, hmove⟩ := exists_steps_of_write h
  have hne : e.place (temporary tag path) ≠ [] := ne_nil_of_get?_eq rfl (ne_directory_of_fill hfill)
  have hfilled : filled.get? (filled.place (temporary tag path)) = some (.file content) := by
    rw [fill_eq_ok hfill, place_put, get?_put e hne, if_pos rfl]
  exact look_of_moveTo hfilled hmove

end BuildFile.Disk
