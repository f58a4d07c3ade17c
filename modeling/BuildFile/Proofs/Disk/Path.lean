import BuildFile.Disk.Write
import BuildFile.Proofs.Text
/-! Paths and the directories they go through. A path above another is a first part of its text, cut
at a slash, so that whoever follows the longer path has come through the place of the shorter one,
and has found a directory there. Making the directories above a path that can be followed therefore
changes nothing. -/
namespace BuildFile

namespace Place
variable {path p : Text}

theorem steps_append_slash (p s : Text) : steps (p ++ '/' :: s) = steps p ++ steps s := by
  rw [steps, parts, List.splitOn_append_cons_self, List.filter_append]
  rfl

theorem byteLength_append (s t : Text) : byteLength (s ++ t) = byteLength s + byteLength t := by
  induction s with
  | nil => simp [byteLength]
  | cons c s ih => simp only [List.cons_append, byteLength, ih, Nat.add_assoc]

/-- A member of a chain is what is left of the parts once some are taken off, up to one that says
something. -/
theorem isSuffix_of_mem_chain {ps up : List Text} (h : up ∈ chain path ps) :
    up <:+ ps ∧ ∃ part before, up = part :: before ∧ part ≠ [] := by
  induction ps with
  | nil => cases h
  | cons part before ih =>
    rw [chain] at h
    split at h
    · obtain ⟨hsuffix, hpart⟩ := ih h
      exact ⟨hsuffix.trans (List.suffix_cons part before), hpart⟩
    case isFalse hidle =>
      obtain rfl | h := List.mem_cons.mp h
      · refine ⟨List.suffix_rfl, part, before, rfl, ?_⟩
        rintro rfl
        exact hidle (by simp [isIdle])
      · obtain ⟨hsuffix, hpart⟩ := ih h
        exact ⟨hsuffix.trans (List.suffix_cons part before), hpart⟩

theorem exists_of_mem_tail_chain {ps up : List Text} (h : up ∈ (chain path ps).tail) :
    ∃ down, ps = down ++ up ∧ (∃ part ∈ down, part ≠ []) ∧
      ∃ part before, up = part :: before ∧ part ≠ [] := by
  induction ps with
  | nil => cases h
  | cons part before ih =>
    rw [chain] at h
    split at h
    · obtain ⟨down, hdown, ⟨last, hlast, hne⟩, hup⟩ := ih h
      exact ⟨part :: down, by rw [hdown]; rfl, ⟨last, List.mem_cons_of_mem part hlast, hne⟩, hup⟩
    case isFalse hidle =>
      obtain ⟨⟨down, hdown⟩, hup⟩ := isSuffix_of_mem_chain h
      refine ⟨part :: down, by rw [← hdown]; rfl, ⟨part, by simp, ?_⟩, hup⟩
      rintro rfl
      exact hidle (by simp [isIdle])

theorem root_append_drop (path : Text) : root path ++ path.drop (root path).length = path := by
  unfold root isAbsolute
  cases path with
  | nil => rfl
  | cons c path => by_cases hc : c = '/' <;> simp [hc]

theorem steps_root_append (path t : Text) : steps (root path ++ t) = steps t := by
  unfold root
  split
  · exact steps_append_slash [] t
  · rfl

theorem steps_intercalate {ps : List Text} (hne : ps ≠ []) (h : ∀ part ∈ ps, '/' ∉ part) :
    steps (List.intercalate ['/'] ps) = ps.filter (· ≠ []) := by
  rw [steps, parts, List.splitOn_intercalate '/' h hne]

/-- A path above another stands before a slash in it, and there are parts on both sides of the
slash. -/
theorem exists_of_mem_above (h : p ∈ above path) :
    ∃ s, path = p ++ '/' :: s ∧ steps p ≠ [] ∧ steps s ≠ [] := by
  obtain ⟨up, hup, rfl⟩ := List.mem_map.mp h
  obtain ⟨down, hparts, ⟨last, hlast, hne⟩, part, before, rfl, hpart⟩ :=
    exists_of_mem_tail_chain hup
  have hbody : parts (path.drop (root path).length) = (part :: before).reverse ++ down.reverse := by
    rw [← List.reverse_append, ← hparts, List.reverse_reverse]
  have hslash : ∀ q ∈ (part :: before).reverse ++ down.reverse, '/' ∉ q := by
    rw [← hbody]
    exact fun q => not_mem_of_mem_splitOn
  have hup_ne : (part :: before).reverse ≠ [] := by simp
  have hdown_ne : down.reverse ≠ [] := by
    rw [Ne, List.reverse_eq_nil_iff]
    exact List.ne_nil_of_mem hlast
  refine ⟨List.intercalate ['/'] down.reverse, ?_, ?_, ?_⟩
  · rw [List.append_assoc, ← intercalate_append hup_ne hdown_ne, ← hbody, parts,
      List.intercalate_splitOn, root_append_drop]
  · rw [steps_root_append,
      steps_intercalate hup_ne fun q hq => hslash q (List.mem_append_left _ hq)]
    exact List.ne_nil_of_mem (List.mem_filter.mpr ⟨show part ∈ _ by simp, by simpa using hpart⟩)
  · rw [steps_intercalate hdown_ne fun q hq => hslash q (List.mem_append_right _ hq)]
    exact List.ne_nil_of_mem (List.mem_filter.mpr ⟨List.mem_reverse.mpr hlast, by simpa using hne⟩)

theorem isAbsolute_append (hp : p ≠ []) (s : Text) : isAbsolute (p ++ s) = isAbsolute p := by
  rw [isAbsolute, List.head?_append_of_ne_nil _ hp, isAbsolute]

theorem steps_eq_way_append (h : steps path ≠ []) : steps path = way path ++ [last path] := by
  rw [way, last, List.getLast?_eq_some_getLast h, Option.getD_some, List.dropLast_append_getLast]

/-- The last part of a path is the name of something in a directory. -/
structure EndsInName (path : Text) : Prop where
  slash : endsInSlash path = false
  here : last path ≠ ['.']
  back : last path ≠ ['.', '.']

end Place

namespace Disk
variable {d e : Disk} {path p : Text}

theorem pass_append_eq (here : Place) (ps qs : List Text) : d.pass here (ps ++ qs) =
    d.pass here ps >>= fun _ => d.pass (ps.foldl Place.step here) qs := by
  induction ps generalizing here with
  | nil => rfl
  | cons part ps ih =>
    rw [List.cons_append, pass, pass]
    split
    · rfl
    · split
      · rfl
      · rfl
      · exact ih (Place.step here part)

theorem pass_append (here : Place) (ps qs : List Text) :
    d.pass here (ps ++ qs) = .ok () ↔
      d.pass here ps = .ok () ∧ d.pass (ps.foldl Place.step here) qs = .ok () := by
  rw [pass_append_eq]
  cases d.pass here ps <;> simp [bind, Except.bind]

theorem pass_singleton_iff (here : Place) (part : Text) : d.pass here [part] = .ok () ↔
    Place.tooLong part = false ∧ d.get? (Place.step here part) = some .directory := by
  rw [pass]
  split
  case isTrue h => simp [h]
  case isFalse h =>
    split
    case h_1 hg => simp [hg]
    case h_2 hg => simp [hg]
    case h_3 hg => simp [hg, pass, h]

theorem reach_eq_ok_iff : d.reach path = .ok () ↔
    Char.ofNat 0 ∉ path ∧ path ≠ [] ∧ Place.pathTooLong path = false ∧
    d.pass (d.start path) (Place.way path) = .ok () ∧ Place.tooLong (Place.last path) = false := by
  unfold reach
  split
  case isTrue h => simp [h]
  case isFalse hnul =>
    split
    case isTrue h => simp [h]
    case isFalse hne =>
      split
      case isTrue h => simp [h]
      case isFalse hlong =>
        split
        case h_1 fault hp => simp [hp]
        case h_2 hp =>
          split
          case isTrue h => simp [h]
          case isFalse hlast => simp_all

theorem look_eq_file_iff {content : ByteArray} : d.look path = .ok (.file content) ↔
    d.reach path = .ok () ∧ d.get? (d.place path) = some (.file content) ∧
      Place.endsInSlash path = false := by
  unfold look
  split
  case h_1 fault h => simp [h]
  case h_2 h =>
    split
    case h_1 hg => simp [hg]
    case h_2 hg => simp [hg]
    case h_3 found hg => cases Place.endsInSlash path <;> simp [h, hg]

theorem look_eq_directory_iff : d.look path = .ok .directory ↔
    d.reach path = .ok () ∧ d.get? (d.place path) = some .directory := by
  unfold look
  split
  case h_1 fault h => simp [h]
  case h_2 h =>
    split
    case h_1 hg => simp [hg]
    case h_2 hg => simp [h, hg]
    case h_3 found hg => cases Place.endsInSlash path <;> simp [hg]

theorem readText_eq_ok_iff {t : Text} : d.readText path = .ok t ↔
    ∃ content, d.look path = .ok (.file content) ∧ decode? content = some t := by
  unfold readText
  split
  case h_1 fault h => simp [h]
  case h_2 h => simp [h]
  case h_3 content h =>
    split
    case h_1 u hu => simp [h, hu]
    case h_2 hu => simp [h, hu]

/-- Whoever has followed a path has found a directory at every path above it. -/
theorem look_of_mem_above (hp : p ∈ Place.above path) (h : d.reach path = .ok ()) :
    d.look p = .ok .directory := by
  obtain ⟨s, rfl, hsteps, hrest⟩ := Place.exists_of_mem_above hp
  obtain ⟨hnul, _, hlong, hpass, _⟩ := reach_eq_ok_iff.mp h
  have hne : p ≠ [] := by
    rintro rfl
    exact hsteps rfl
  have hstart : d.start (p ++ '/' :: s) = d.start p := by
    rw [start, Place.isAbsolute_append hne, start]
  have hlast := Place.steps_eq_way_append hsteps
  have hway : Place.way (p ++ '/' :: s) = Place.way p ++ [Place.last p] ++ Place.way s := by
    rw [← hlast, Place.way, Place.steps_append_slash, List.dropLast_append_of_ne_nil hrest]
    rfl
  rw [hstart, hway, pass_append, pass_append, pass_singleton_iff] at hpass
  obtain ⟨⟨hpass, hfits, hdirectory⟩, _⟩ := hpass
  have hplace :
      Place.step ((Place.way p).foldl Place.step (d.start p)) (Place.last p) = d.place p := by
    rw [place, Place.follow, hlast, List.foldl_append]
    rfl
  have hreach : d.reach p = .ok () := by
    refine reach_eq_ok_iff.mpr ⟨fun hm => hnul (List.mem_append_left _ hm), hne, ?_, hpass, hfits⟩
    simp only [Place.pathTooLong, Place.byteLength_append, decide_eq_false_iff_not] at hlong ⊢
    omega
  exact look_eq_directory_iff.mpr ⟨hreach, hplace ▸ hdirectory⟩

theorem makeDirectories_of_look {above : List Text} (h : ∀ p ∈ above, d.look p = .ok .directory) :
    d.makeDirectories above = (.ok (), d) := by
  cases above with
  | nil => rfl
  | cons p above =>
    have hlook := h p (by simp)
    obtain ⟨hreach, hdirectory⟩ := look_eq_directory_iff.mp hlook
    have hoccupied : d.makeDirectory p = .error .occupied := by
      simp [makeDirectory, hreach, hdirectory]
    have hprobe : d.probe p = .other := by simp [probe, hlook]
    simp [makeDirectories, hoccupied, hprobe]

theorem makeDirectories_above (h : d.reach path = .ok ()) :
    d.makeDirectories (Place.above path) = (.ok (), d) :=
  makeDirectories_of_look fun _ hp => look_of_mem_above hp h

/-! Disks with the same directories are followed alike. -/

theorem pass_of_directories (h : ∀ q, d.get? q = some .directory → e.get? q = some .directory)
    {here : Place} {ps : List Text} (hd : d.pass here ps = .ok ()) : e.pass here ps = .ok () := by
  induction ps generalizing here with
  | nil => rfl
  | cons part ps ih =>
    rw [← List.singleton_append, pass_append, pass_singleton_iff] at hd ⊢
    obtain ⟨⟨hfits, hdirectory⟩, hrest⟩ := hd
    exact ⟨⟨hfits, h _ hdirectory⟩, ih hrest⟩

theorem reach_of_directories (h : ∀ q, d.get? q = some .directory → e.get? q = some .directory)
    (hhere : e.here = d.here) (hd : d.reach path = .ok ()) : e.reach path = .ok () := by
  obtain ⟨hnul, hne, hlong, hpass, hlast⟩ := reach_eq_ok_iff.mp hd
  have hstart : e.start path = d.start path := by rw [start, start, hhere]
  exact reach_eq_ok_iff.mpr ⟨hnul, hne, hlong, hstart ▸ pass_of_directories h hpass, hlast⟩

end Disk
end BuildFile
