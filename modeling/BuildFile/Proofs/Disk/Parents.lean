import BuildFile.Proofs.Disk.Growth
/-! Making the directories above a path. The paths above it, the nearest first, lead to every place
on the way, and parts that can be left out lead nowhere new. So where no file is in the way, a path
that cannot be followed only misses directories; they are made from the farthest to the nearest, and
then the path can be followed. -/
namespace BuildFile
namespace Place
variable {path part p s : Text} {ps before up : List Text}

/-- Nothing about the text of a path stops anybody from following it. -/
structure Fits (path : Text) : Prop where
  nul : Char.ofNat 0 ∉ path
  length : pathTooLong path = false
  parts : ∀ part ∈ steps path, tooLong part = false

theorem Fits.front (h : Fits (p ++ '/' :: s)) : Fits p := by
  refine ⟨fun hnul => h.nul (List.mem_append_left _ hnul), ?_, ?_⟩
  · have hlength := h.length
    simp only [pathTooLong, byteLength_append, decide_eq_false_iff_not] at hlength ⊢
    omega
  · intro part hpart
    apply h.parts
    rw [steps_append_slash]
    exact List.mem_append_left _ hpart

/-! The paths above a path are given by their parts, in reverse. -/

def stepsOf (ps : List Text) : List Text := ps.reverse.filter (· ≠ [])

/-- The path through such parts, from where another path starts. -/
def spell (path : Text) (up : List Text) : Text := root path ++ List.intercalate ['/'] up.reverse

theorem stepsOf_cons_nil (before : List Text) : stepsOf ([] :: before) = stepsOf before := by
  simp [stepsOf]

theorem stepsOf_cons (h : part ≠ []) (before : List Text) :
    stepsOf (part :: before) = stepsOf before ++ [part] := by
  simp [stepsOf, h]

theorem steps_spell (h : ∀ part ∈ up, '/' ∉ part) : steps (spell path up) = stepsOf up := by
  rw [spell, steps_root_append]
  cases up with
  | nil => rfl
  | cons part up =>
    rw [steps_intercalate (by simp) fun q hq => h q (List.mem_reverse.mp hq), stepsOf]

theorem ne_nil_of_not_isIdle (h : ¬ isIdle path part before = true) : part ≠ [] := by
  rintro rfl
  exact h (by simp [isIdle])

/-- A relative path does not start with an empty part. -/
def Headed (path : Text) (ps : List Text) : Prop :=
  isAbsolute path = false → ∀ part ∈ ps.getLast?, part ≠ []

theorem Headed.tail (h : Headed path (part :: before)) : Headed path before := by
  intro hrelative first hfirst
  cases before with
  | nil => cases hfirst
  | cons q before => exact h hrelative first (by simpa using hfirst)

theorem Headed.stepsOf_ne_nil (h : Headed path ps) (hrelative : isAbsolute path = false)
    (hne : ps ≠ []) : stepsOf ps ≠ [] := by
  have hfirst := h hrelative _ (List.getLast?_eq_some_getLast hne)
  have hmem : ps.getLast hne ∈ stepsOf ps :=
    List.mem_filter.mpr ⟨List.mem_reverse.mpr (List.getLast_mem hne), by simpa using hfirst⟩
  exact List.ne_nil_of_mem hmem

theorem headed_parts (hne : path ≠ []) :
    Headed path (parts (path.drop (root path).length)).reverse := by
  intro hrelative first hfirst
  cases path with
  | nil => exact absurd rfl hne
  | cons c path =>
    have hc : c ≠ '/' := by simpa [isAbsolute] using hrelative
    rw [List.getLast?_reverse, root, if_neg (by simp [hrelative]), List.length_nil,
      List.drop_zero, parts,
      List.splitOn_cons_eq_if_modifyHead, if_neg (by simpa using hc)] at hfirst
    cases hpieces : List.splitOn '/' path with
    | nil => exact absurd hpieces (List.splitOn_ne_nil '/' path)
    | cons q qs =>
      rw [hpieces] at hfirst
      cases hfirst
      simp

theorem EndsInName.exists_parts (h : EndsInName path) :
    last path ≠ [] ∧ ∃ before, (parts (path.drop (root path).length)).reverse =
      last path :: before := by
  obtain hnil | ⟨front, z, hparts⟩ := List.eq_nil_or_concat (parts (path.drop (root path).length))
  · exact absurd hnil (List.splitOn_ne_nil _ _)
  rw [List.concat_eq_append] at hparts
  have hpath : path = root path ++ List.intercalate ['/'] (front ++ [z]) := by
    rw [← hparts, parts, List.intercalate_splitOn, root_append_drop]
  have hslashes : ∀ q ∈ front ++ [z], '/' ∉ q := by
    rw [← hparts]
    exact fun q => not_mem_of_mem_splitOn
  have hsteps : steps path = (front ++ [z]).filter (· ≠ []) := by
    rw [hpath, steps_root_append, steps_intercalate (by simp) hslashes]
  have hz : z ≠ [] := by
    rintro rfl
    cases front with
    | cons q front =>
      have hslash := h.slash
      rw [hpath, intercalate_append (by simp) (by simp)] at hslash
      simp [endsInSlash] at hslash
    | nil =>
      -- A root alone: it ends in the part that goes nowhere.
      exact h.here (by simp [last, hsteps])
  have hlast : last path = z := by simp [last, hsteps, hz]
  exact ⟨hlast ▸ hz, front.reverse, by simp [hparts, hlast]⟩

/-- The parts before the last one make the way, and the paths above are those along it. -/
theorem EndsInName.exists_before (h : EndsInName path) :
    ∃ before, (parts (path.drop (root path).length)).reverse = last path :: before ∧
      lineage path = (last path :: before) :: chain path before ∧ steps path ≠ [] ∧
      way path = stepsOf before := by
  obtain ⟨hne, before, hparts⟩ := h.exists_parts
  have hidle : ¬ isIdle path (last path) before = true := by simp [isIdle, hne, h.here]
  have hbody := steps_root_append path (path.drop (root path).length)
  rw [root_append_drop] at hbody
  have hsteps : steps path = stepsOf before ++ [last path] := by
    rw [hbody, ← stepsOf_cons hne, ← hparts, stepsOf, List.reverse_reverse, steps]
  refine ⟨before, hparts, by rw [lineage, hparts, chain, if_neg hidle], by simp [hsteps], ?_⟩
  rw [way, hsteps, List.dropLast_concat]

theorem EndsInName.fileName?_eq (h : EndsInName path) : fileName? path = some (last path) := by
  obtain ⟨before, _, hlineage, _⟩ := h.exists_before
  simp [fileName?, hlineage, h.here, h.back]

end Place

namespace Disk
open Place (Fits Headed EndsInName stepsOf spell chain isIdle)
variable {d e mid : Disk} {path p part : Text} {ps before above : List Text}

theorem tooLong_of_pass {here : Place} (h : d.pass here ps = .ok ()) :
    ∀ part ∈ ps, Place.tooLong part = false := by
  induction ps generalizing here with
  | nil => simp
  | cons part ps ih =>
    rw [← List.singleton_append, pass_append, pass_singleton_iff] at h
    intro q hq
    obtain rfl | hq := List.mem_cons.mp hq
    · exact h.1.1
    · exact ih h.2 q hq

theorem fits_of_reach (h : d.reach path = .ok ()) : Fits path := by
  obtain ⟨hnul, _, hlong, hpass, hlast⟩ := reach_eq_ok_iff.mp h
  refine ⟨hnul, hlong, fun part hpart => ?_⟩
  rw [Place.steps_eq_way_append (List.ne_nil_of_mem hpart), List.mem_append,
    List.mem_singleton] at hpart
  obtain hway | rfl := hpart
  · exact tooLong_of_pass hpass part hway
  · exact hlast

theorem reach_eq_pass (h : Fits path) (hne : Place.steps path ≠ []) :
    d.reach path = d.pass (d.start path) (Place.way path) := by
  have hpath : path ≠ [] := by
    rintro rfl
    exact hne rfl
  have hlast : Place.tooLong (Place.last path) = false := by
    apply h.parts
    rw [Place.steps_eq_way_append hne]
    simp
  rw [reach, if_neg h.nul, if_neg hpath, if_neg (by simp [h.length])]
  cases d.pass (d.start path) (Place.way path) with
  | error fault => rfl
  | ok _ => simp [hlast]

/-- Whoever has gone through directories stands in one. -/
theorem directory_of_pass {here : Place} (h : d.pass here ps = .ok ())
    (hhere : ps = [] → d.get? here = some .directory) :
    d.get? (ps.foldl Place.step here) = some .directory := by
  obtain rfl | ⟨front, z, rfl⟩ := List.eq_nil_or_concat ps
  · exact hhere rfl
  · rw [List.concat_eq_append, pass_append, pass_singleton_iff] at h
    rw [List.concat_eq_append, List.foldl_append]
    exact h.2.2

/-- A part that can be left out leads from a directory to the same directory. -/
theorem pass_idle (hhead : Headed path before) (hidle : isIdle path part before = true) :
    d.pass (d.start path) (stepsOf (part :: before)) = d.pass (d.start path) (stepsOf before) := by
  simp only [isIdle, Bool.or_eq_true, Bool.and_eq_true, decide_eq_true_eq, Bool.not_eq_true',
    List.isEmpty_eq_false_iff] at hidle
  obtain rfl | ⟨rfl, hidle⟩ := hidle
  · rw [Place.stepsOf_cons_nil]
  · rw [Place.stepsOf_cons (by simp), pass_append_eq]
    cases hpass : d.pass (d.start path) (stepsOf before) with
    | error fault => rfl
    | ok _ =>
      have hstart : stepsOf before = [] → d.get? (d.start path) = some .directory := by
        intro hnone
        cases habsolute : Place.isAbsolute path with
        | true =>
          rw [start, habsolute]
          rfl
        | false =>
          rw [habsolute] at hidle
          exact absurd hnone (hhead.stepsOf_ne_nil habsolute (by simpa using hidle))
      exact (pass_singleton_iff _ ['.']).mpr ⟨by decide, directory_of_pass hpass hstart⟩

/-! The rungs of a ladder: the paths that parts in reverse make, and those above them. -/

structure Ladder (path : Text) (ps : List Text) : Prop where
  headed : Headed path ps
  parts : ∀ part ∈ ps, '/' ∉ part ∧ Place.tooLong part = false
  paths : ∀ up ∈ chain path ps, Fits (spell path up) ∧
    Place.isAbsolute (spell path up) = Place.isAbsolute path

theorem Ladder.tail (h : Ladder path (part :: before)) : Ladder path before := by
  refine ⟨h.headed.tail, fun q hq => h.parts q (List.mem_cons_of_mem part hq),
    fun up hup => h.paths up ?_⟩
  rw [chain]
  split
  · exact hup
  · exact List.mem_cons_of_mem _ hup

section
variable (h : Ladder path (part :: before)) (hidle : ¬ isIdle path part before = true)
include h hidle

theorem Ladder.top : Fits (spell path (part :: before)) ∧
    Place.isAbsolute (spell path (part :: before)) = Place.isAbsolute path := by
  apply h.paths
  rw [chain, if_neg hidle]
  exact List.mem_cons_self

theorem Ladder.steps_top :
    Place.steps (spell path (part :: before)) = stepsOf before ++ [part] := by
  rw [Place.steps_spell fun q hq => (h.parts q hq).1,
    Place.stepsOf_cons (Place.ne_nil_of_not_isIdle hidle)]

theorem Ladder.place_top (d : Disk) : d.place (spell path (part :: before)) =
    Place.step ((stepsOf before).foldl Place.step (d.start path)) part := by
  rw [place, Place.follow, h.steps_top hidle, start, (h.top hidle).2, ← start, List.foldl_append]
  rfl

theorem Ladder.reach_top (d : Disk) : d.reach (spell path (part :: before)) =
    d.pass (d.start path) (stepsOf before) := by
  have hsteps := h.steps_top hidle
  rw [reach_eq_pass (h.top hidle).1 (by simp [hsteps]), start, (h.top hidle).2, ← start,
    Place.way, hsteps, List.dropLast_concat]

/-- Once the top is a directory, the way to it can be followed to the end. -/
theorem Ladder.pass_of_top (hpass : d.pass (d.start path) (stepsOf before) = .ok ())
    (hdirectory : d.get? (d.place (spell path (part :: before))) = some .directory) :
    d.pass (d.start path) (stepsOf (part :: before)) = .ok () := by
  rw [h.place_top hidle] at hdirectory
  rw [Place.stepsOf_cons (Place.ne_nil_of_not_isIdle hidle), pass_append, pass_singleton_iff]
  exact ⟨hpass, (h.parts part (by simp)).2, hdirectory⟩

end

/-- No file is at any of these paths. -/
def NoFiles (paths : List Text) (d : Disk) : Prop :=
  ∀ p ∈ paths, ∀ content, d.get? (d.place p) ≠ some (.file content)

theorem NoFiles.of_grown {paths : List Text} (hfree : d.NoFiles paths) (h : Grown above d e) :
    e.NoFiles paths := by
  intro p hp content
  rw [place_congr h.here, Ne, (h.keeps _).file_iff]
  exact hfree p hp content

theorem Ladder.pass_or_missing (h : Ladder path ps)
    (hfree : d.NoFiles ((chain path ps).map (spell path))) :
    d.pass (d.start path) (stepsOf ps) = .ok () ∨
      d.pass (d.start path) (stepsOf ps) = .error .missing := by
  induction ps with
  | nil => exact .inl rfl
  | cons part before ih =>
    by_cases hidle : isIdle path part before = true
    · rw [pass_idle h.headed.tail hidle]
      rw [chain, if_pos hidle] at hfree
      exact ih h.tail hfree
    · rw [chain, if_neg hidle, List.map_cons] at hfree
      obtain hok | hmissing := ih h.tail fun p hp => hfree p (List.mem_cons_of_mem _ hp)
      · cases htop : d.get? (d.place (spell path (part :: before))) with
        | none =>
          rw [h.place_top hidle] at htop
          right
          rw [Place.stepsOf_cons (Place.ne_nil_of_not_isIdle hidle), pass_append_eq, hok]
          simp [bind, Except.bind, pass, htop, (h.parts part (by simp)).2]
        | some found =>
          cases found with
          | file content => exact absurd htop (hfree _ (by simp) content)
          | directory => exact .inl (h.pass_of_top hidle hok htop)
      · right
        rw [Place.stepsOf_cons (Place.ne_nil_of_not_isIdle hidle), pass_append_eq, hmissing]
        rfl

/-! Making directories. -/

/-- Where a path can be followed and no file is at its end, its directory is made or is there. -/
theorem exists_made (hreach : d.reach p = .ok ())
    (hfree : ∀ content, d.get? (d.place p) ≠ some (.file content)) :
    ∃ e, Grown [p] d e ∧ e.get? (e.place p) = some .directory ∧
      (d.makeDirectory p = .ok e ∨
        d.makeDirectory p = .error .occupied ∧ d.probe p = .other ∧ e = d) := by
  cases hfound : d.get? (d.place p) with
  | none =>
    have hmade : d.makeDirectory p = .ok (d.put (d.place p) .directory) := by
      simp [makeDirectory, hreach, hfound]
    have hne : d.place p ≠ [] := ne_nil_of_get?_eq hfound (by simp)
    refine ⟨_, grown_makeDirectory hmade, ?_, .inl hmade⟩
    rw [place_put, get?_put d hne, if_pos rfl]
  | some found =>
    cases found with
    | file content => exact absurd hfound (hfree content)
    | directory =>
      have hlook := look_eq_directory_iff.mpr ⟨hreach, hfound⟩
      refine ⟨d, .refl _ d, hfound, .inr ⟨?_, ?_, rfl⟩⟩
      · simp [makeDirectory, hreach, hfound]
      · simp [probe, hlook]

theorem exists_makeDirectories_of_reach (hreach : d.reach p = .ok ())
    (hfree : ∀ content, d.get? (d.place p) ≠ some (.file content)) (above : List Text) :
    ∃ e, d.makeDirectories (p :: above) = (.ok (), e) ∧ Grown [p] d e ∧
      e.get? (e.place p) = some .directory := by
  obtain ⟨e, hgrown, hdirectory, hmade | ⟨hoccupied, hprobe, rfl⟩⟩ := exists_made hreach hfree
  · exact ⟨e, by simp [makeDirectories, hmade], hgrown, hdirectory⟩
  · exact ⟨e, by simp [makeDirectories, hoccupied, hprobe], hgrown, hdirectory⟩

theorem exists_makeDirectories_of_missing (hmissing : d.reach p = .error .missing)
    (habove : d.makeDirectories above = (.ok (), mid)) (hreach : mid.reach p = .ok ())
    (hfree : ∀ content, mid.get? (mid.place p) ≠ some (.file content)) :
    ∃ e, d.makeDirectories (p :: above) = (.ok (), e) ∧ Grown [p] mid e ∧
      e.get? (e.place p) = some .directory := by
  have hfirst : d.makeDirectory p = .error .missing := by rw [makeDirectory, hmissing]
  obtain ⟨e, hgrown, hdirectory, hmade | ⟨hoccupied, hprobe, rfl⟩⟩ := exists_made hreach hfree
  · exact ⟨e, by simp [makeDirectories, hfirst, habove, hmade], hgrown, hdirectory⟩
  · exact ⟨e, by simp [makeDirectories, hfirst, habove, hoccupied, hprobe], hgrown, hdirectory⟩

theorem Ladder.exists_makeDirectories (h : Ladder path ps)
    (hfree : d.NoFiles ((chain path ps).map (spell path))) :
    ∃ e, d.makeDirectories ((chain path ps).map (spell path)) = (.ok (), e) ∧
      e.pass (e.start path) (stepsOf ps) = .ok () := by
  induction ps with
  | nil => exact ⟨d, rfl, rfl⟩
  | cons part before ih =>
    by_cases hidle : isIdle path part before = true
    · rw [chain, if_pos hidle] at hfree ⊢
      obtain ⟨e, hmade, hpass⟩ := ih h.tail hfree
      exact ⟨e, hmade, (pass_idle h.headed.tail hidle).trans hpass⟩
    · rw [chain, if_neg hidle, List.map_cons] at hfree ⊢
      have hbefore : d.NoFiles ((chain path before).map (spell path)) :=
        fun p hp => hfree p (List.mem_cons_of_mem _ hp)
      -- From a disk on which the way up to the top can be followed, the top is the last step.
      have hlast {f e : Disk} (hpass : f.pass (f.start path) (stepsOf before) = .ok ())
          (hgrown : Grown [spell path (part :: before)] f e)
          (hdirectory : e.get? (e.place (spell path (part :: before))) = some .directory) :
          e.pass (e.start path) (stepsOf (part :: before)) = .ok () := by
        refine h.pass_of_top hidle ?_ hdirectory
        rw [hgrown.start_eq]
        exact pass_of_directories (fun q => hgrown.directory) hpass
      obtain hok | hmissing := h.tail.pass_or_missing hbefore
      · obtain ⟨e, hmade, hgrown, hdirectory⟩ := exists_makeDirectories_of_reach
          ((h.reach_top hidle d).trans hok) (hfree _ (by simp)) _
        exact ⟨e, hmade, hlast hok hgrown hdirectory⟩
      · obtain ⟨mid, habove, hmid⟩ := ih h.tail hbefore
        have hgrown_mid := grown_makeDirectories ((chain path before).map (spell path)) d
        rw [habove] at hgrown_mid
        obtain ⟨e, hmade, hgrown, hdirectory⟩ := exists_makeDirectories_of_missing
          ((h.reach_top hidle d).trans hmissing) habove ((h.reach_top hidle mid).trans hmid)
          (hfree.of_grown hgrown_mid _ (by simp))
        exact ⟨e, hmade, hlast hmid hgrown hdirectory⟩

/-- Where no file is above a path that ends in a name, the directories above it can be made, and
then the path can be followed. -/
theorem exists_makeDirectories_above (hname : EndsInName path) (hfits : Fits path)
    (hfree : d.NoFiles (Place.above path)) :
    ∃ e, d.makeDirectories (Place.above path) = (.ok (), e) ∧ e.reach path = .ok () := by
  obtain ⟨before, hparts, hlineage, hsteps, hway⟩ := hname.exists_before
  have habove : Place.above path = (chain path before).map (spell path) := by
    rw [Place.above, hlineage]
    rfl
  have hpath : path ≠ [] := by
    rintro rfl
    exact hsteps rfl
  have hladder : Ladder path before := by
    refine ⟨(hparts ▸ Place.headed_parts hpath).tail, fun part hpart => ⟨?_, ?_⟩, fun up hup => ?_⟩
    · have hmem : part ∈ (Place.parts (path.drop (Place.root path).length)).reverse := by
        simp [hparts, hpart]
      exact not_mem_of_mem_splitOn (List.mem_reverse.mp hmem)
    · by_cases hnil : part = []
      · rw [hnil]
        decide
      · apply hfits.parts
        rw [Place.steps_eq_way_append hsteps, hway]
        simp [stepsOf, hpart, hnil]
    · obtain ⟨s, hs, hne, _⟩ := Place.exists_of_mem_above (habove ▸ List.mem_map_of_mem hup)
      rw [hs] at hfits
      have hup_ne : spell path up ≠ [] := by
        intro hnil
        exact hne (by rw [hnil]; rfl)
      exact ⟨hfits.front, by rw [hs, Place.isAbsolute_append hup_ne, ← hs]⟩
  rw [habove] at hfree ⊢
  obtain ⟨e, hmade, hpass⟩ := hladder.exists_makeDirectories hfree
  exact ⟨e, hmade, by rw [reach_eq_pass hfits hsteps, hway, hpass]⟩

end Disk
end BuildFile
