import BuildFile.Project
import BuildFile.Proofs.Directive
/-! The lines that declare names, and with them all lines that are read field by field. Every reader
accepts exactly the lines that have the shape it looks for; the shape determines the fields, blanks
after the value of a definition apart, so that no line can be taken in two ways. -/
namespace BuildFile

theorem isParen_of_isBlank {c : Char} (h : isBlank c = true) : isParen c = false := by
  rw [Bool.eq_false_iff]
  intro hc
  obtain rfl | rfl : c = '(' ∨ c = ')' := by simpa [isParen] using hc
  · exact absurd h (by decide)
  · exact absurd h (by decide)

namespace NameLine

/-- The lines that declare a project; arguments without parentheses may follow the name. -/
def projectPattern (name : Text) : Language Char :=
  Call.opening "project" * just name * (1 + gap * unparenthesised) * just [')'] * blanks

/-- The lines that set `key` to a name. -/
def settingPattern (key name : Text) : Language Char :=
  Call.opening "set" * just key * gap * just name * Call.closing

theorem cons_mem_gap_mul_iff {c : Char} {t : Text} : c :: t ∈ gap * unparenthesised ↔
    isBlank c = true ∧ (c :: t).any isParen = false := by
  rw [Language.mem_mul]
  constructor
  · intro h
    obtain ⟨b, ⟨hne, hb⟩, u, hu, ht⟩ := h
    refine ⟨?_, ?_⟩
    · have hhead := congrArg List.head? ht
      rw [List.head?_append_of_ne_nil _ hne] at hhead
      exact hb c (List.mem_of_mem_head? hhead)
    · rw [← ht, List.any_append, Bool.or_eq_false_iff]
      simp only [List.any_eq_false, Bool.not_eq_true]
      exact ⟨fun a ha => isParen_of_isBlank (hb a ha), hu⟩
  · intro h
    obtain ⟨hc, ht⟩ := h
    simp only [List.any_eq_false, Bool.not_eq_true] at ht
    exact ⟨[c], ⟨by simp, by simpa using hc⟩, t, fun a ha => ht a (List.mem_cons_of_mem c ha), rfl⟩

theorem project?_eq_some_iff {line name : Text} :
    project? line = some name ↔ isBareToken name = true ∧ line ∈ projectPattern name := by
  have hrest : Apart isBare ((1 + gap * unparenthesised) * (just [')'] * blanks)) := by
    rw [add_mul, one_mul, mul_assoc]
    exact apart_add (apart_just_mul (by simp) (by simp; decide))
      (apart_gap_mul fun _ => isBare_of_isBlank)
  constructor
  · intro h
    simp only [project?, Option.bind_eq_bind, Option.bind_eq_some_iff, Prod.exists] at h
    obtain ⟨args, hargs, word, rest, hrun, more, hmore, h⟩ := h
    obtain ⟨hmem, rfl⟩ : more ∈ 1 + gap * unparenthesised ∧ word = name := by
      cases more with
      | nil => exact ⟨.inl rfl, Option.some.inj h⟩
      | cons c more =>
        simp only [Option.ite_none_right_eq_some, Bool.and_eq_true, Bool.not_eq_true'] at h
        exact ⟨.inr (cons_mem_gap_mul_iff.mpr h.1), Option.some.inj h.2⟩
    have hclose := Call.mem_mul_close.mpr ⟨more, hmem, hmore⟩
    obtain ⟨hname, hword⟩ := (mem_run_mul hrest).mp ⟨rest, hclose, hrun⟩
    rw [← isBareToken_iff] at hname
    have hline := (Call.mem_opening_mul (by decide) (apart_token_mul hname)).mpr
      ⟨args, hword, hargs⟩
    exact ⟨hname, by simpa only [projectPattern, mul_assoc] using hline⟩
  · intro h
    obtain ⟨hname, hline⟩ := h
    simp only [projectPattern, mul_assoc] at hline
    obtain ⟨args, hword, hargs⟩ :=
      (Call.mem_opening_mul (by decide) (apart_token_mul hname)).mp hline
    obtain ⟨rest, hmem, hrun⟩ := (mem_run_mul hrest).mpr ⟨isBareToken_iff.mp hname, hword⟩
    obtain ⟨more, hmore, hclose⟩ := Call.mem_mul_close.mp hmem
    simp only [project?, Option.bind_eq_bind, hargs, hrun, hclose, Option.bind_some]
    cases more with
    | nil => rfl
    | cons c more =>
      obtain hnil | hmore := hmore
      · cases hnil
      · obtain ⟨hblank, hparen⟩ := cons_mem_gap_mul_iff.mp hmore
        simp [hblank, hparen]

theorem setting?_eq_some_iff {key line name : Text} (hkey : key ≠ [] ∧ hasBlank key = false) :
    setting? key line = some name ↔ isBareToken name = true ∧ line ∈ settingPattern key name := by
  have hset (M : Language Char) : Apart isBlank (just key * M) :=
    apart_just_mul hkey.1 (isBlank_head_of_not_hasBlank hkey.2)
  constructor
  · intro h
    simp only [setting?, Option.bind_eq_bind, Option.bind_eq_some_iff] at h
    obtain ⟨args, hargs, rest, hrest, last, hblank, hlast⟩ := h
    obtain ⟨hname, hmem⟩ := Call.lastToken?_eq_some_iff.mp hlast
    have hgap := (mem_gap_mul (apart_token_mul hname)).mpr ⟨last, hmem, hblank⟩
    have hline := (Call.mem_opening_mul (by decide) (hset _)).mpr
      ⟨args, mem_just_mul.mpr ⟨rest, hgap, hrest⟩, hargs⟩
    exact ⟨hname, by simpa only [settingPattern, mul_assoc] using hline⟩
  · intro h
    obtain ⟨hname, hline⟩ := h
    simp only [settingPattern, mul_assoc] at hline
    obtain ⟨args, hmem, hargs⟩ := (Call.mem_opening_mul (by decide) (hset _)).mp hline
    obtain ⟨rest, hgap, hrest⟩ := mem_just_mul.mp hmem
    obtain ⟨last, hlast, hblank⟩ := (mem_gap_mul (apart_token_mul hname)).mp hgap
    have htoken := Call.lastToken?_eq_some_iff.mpr ⟨hname, hlast⟩
    simp only [setting?, Option.bind_eq_bind, hargs, hrest, hblank, htoken, Option.bind_some]

end NameLine

/-- The readers of lines and the shapes of lines say the same, and with the same fields. -/
theorem read_iff_mem_pattern (line : Text) :
    (∀ d, Definition.read line = some d ↔
      ∃ raw : Definition, raw.Fits ∧ line ∈ raw.pattern ∧ raw.trimmed = d) ∧
    (∀ d, LinkLibrary.read line = some d ↔ d.WellFormed ∧ line ∈ d.pattern) ∧
    (∀ d, Subdirectory.read line = some d ↔ isBareToken d.path = true ∧ line ∈ d.pattern) ∧
    (∀ name, NameLine.project? line = some name ↔
      isBareToken name = true ∧ line ∈ NameLine.projectPattern name) ∧
    (∀ name, NameLine.setting? "PROJ_EXECUTABLE_NAME" line = some name ↔
      isBareToken name = true ∧ line ∈ NameLine.settingPattern "PROJ_EXECUTABLE_NAME" name) ∧
    ∀ name, NameLine.setting? "PROJ_LIBRARY_NAME" line = some name ↔
      isBareToken name = true ∧ line ∈ NameLine.settingPattern "PROJ_LIBRARY_NAME" name :=
  ⟨fun _ => Definition.read_eq_some_iff, fun _ => LinkLibrary.read_eq_some_iff,
    fun _ => Subdirectory.read_eq_some_iff, fun _ => NameLine.project?_eq_some_iff,
    fun _ => NameLine.setting?_eq_some_iff (by decide),
    fun _ => NameLine.setting?_eq_some_iff (by decide)⟩

end BuildFile
