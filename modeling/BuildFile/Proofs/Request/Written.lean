import BuildFile.Apply
import BuildFile.Proofs.Edit
import BuildFile.Proofs.Grammar
import BuildFile.Proofs.Marker
/-! The lines that a request writes. Items are checked in two places, when they are read and when
the request is validated, and the target comes from a line of the document. Together the checks make
every line that an edit can write a plain one: no line feed is in it, and it is not read as a
marker. -/
namespace BuildFile

theorem bind_eq_ok_iff {ε α β : Type} {x : Except ε α} {f : α → Except ε β} {b : β} :
    x >>= f = .ok b ↔ ∃ a, x = .ok a ∧ f a = .ok b := by
  cases x <;> simp [bind, Except.bind]

theorem seq_eq_ok_iff {ε β : Type} {x : Except ε Unit} {y : Except ε β} {b : β} :
    (x >>= fun _ => y) = .ok b ↔ x = .ok () ∧ y = .ok b := by
  cases x <;> simp [bind, Except.bind]

theorem not_newline_mem_of_isBareToken {t : Text} (h : isBareToken t = true) : '\n' ∉ t := by
  intro hm
  simp only [isBareToken, Bool.and_eq_true, List.all_eq_true] at h
  exact absurd (h.2 _ hm) (by decide)

theorem not_newline_mem_of_isIdent {t : Text} (h : isIdent t = true) : '\n' ∉ t := by
  cases t with
  | nil => simp
  | cons c t =>
    simp only [isIdent, Bool.and_eq_true, List.all_eq_true] at h
    intro hm
    cases hm with
    | head => exact absurd h.1 (by decide)
    | tail _ hm => exact absurd (h.2 _ hm) (by decide)

/-! The target. -/

theorem isBareToken_of_setting? {key line name : Text}
    (h : NameLine.setting? key line = some name) : isBareToken name = true := by
  simp only [NameLine.setting?, Option.bind_eq_bind, Option.bind_eq_some_iff] at h
  obtain ⟨_, _, _, _, _, _, hlast⟩ := h
  exact (Call.lastToken?_eq_some_iff.mp hlast).1

theorem exists_line_of_extractName {d : Chunks} {region name : Text} {name? : Text → Option Text}
    (h : extractName d region name? = .ok name) : ∃ line, name? line = some name := by
  unfold extractName at h
  cases hr : d.find? region with
  | none => simp [hr] at h
  | some r =>
    cases hl : r.body.ownLines.findSome? name? with
    | none => simp [hr, hl] at h
    | some w =>
      simp only [hr, hl] at h
      cases h
      obtain ⟨line, _, hline⟩ := List.exists_of_findSome?_eq_some hl
      exact ⟨line, hline⟩

theorem isBareToken_of_targetName {d : Chunks} {kind : ProjectKind} {name : Text}
    (h : targetName d kind = .ok name) : isBareToken name = true := by
  cases kind with
  | rootProject => cases h
  | executable =>
    obtain ⟨line, hline⟩ := exists_line_of_extractName h
    exact isBareToken_of_setting? hline
  | library =>
    obtain ⟨line, hline⟩ := exists_line_of_extractName h
    exact isBareToken_of_setting? hline

/-! Rendered directives. -/

theorem isPlain_cons {c : Char} {t : Text} (hb : isBlank c = false) (hc : c ≠ '#')
    (hn : '\n' ∉ c :: t) : IsPlain (c :: t) := ⟨hn, isMarker_cons_eq_false t hb hc⟩

theorem Definition.isPlain_render {d : Definition} (ht : '\n' ∉ d.target) (hs : '\n' ∉ d.symbol)
    (hv : ∀ v, d.value = some v → '\n' ∉ v) : IsPlain d.render := by
  have hn : '\n' ∉ d.render := by
    have hverb : '\n' ∉ verb := by decide
    have hflag : '\n' ∉ flag := by decide
    have hvis : '\n' ∉ d.visibility.text := by cases d.visibility <;> decide
    cases hd : d.value with
    | none => simp_all [render]
    | some v => simp_all [render]
  exact isPlain_cons (by decide) (by decide) hn

theorem LinkLibrary.isPlain_render {d : LinkLibrary} (ht : '\n' ∉ d.target)
    (hl : '\n' ∉ d.library) : IsPlain d.render := by
  have hn : '\n' ∉ d.render := by
    have hverb : '\n' ∉ verb := by decide
    have hq : '\n' ∉ d.qualifier.text := by cases d.qualifier <;> decide
    simp_all [render]
  exact isPlain_cons (by decide) (by decide) hn

theorem Subdirectory.isPlain_render {d : Subdirectory} (h : '\n' ∉ d.path) : IsPlain d.render := by
  have hn : '\n' ∉ d.render := by
    have hverb : '\n' ∉ verb := by decide
    simp_all [render]
  exact isPlain_cons (by decide) (by decide) hn

/-! Items that are read. -/

/-- The two checks that stand at the end of reading a definition, whatever came before. -/
theorem DefinitionItem.checked_of_ok {visibility : Visibility} {symbol : Text} {value : Option Text}
    {e₁ e₂ : Error} {i : DefinitionItem}
    (h : (if !isIdent symbol then .error e₁
      else if value.any (·.any fun c => isParen c || isLineBreak c) then .error e₂
      else .ok { visibility, symbol, value }) = Except.ok i) :
    isIdent i.symbol = true ∧
      ∀ v, i.value = some v → ∀ c ∈ v, isParen c = false ∧ isLineBreak c = false := by
  split at h
  · cases h
  · split at h
    · cases h
    · cases h
      refine ⟨by simp_all, ?_⟩
      intro v hv c hc
      simp_all

theorem DefinitionItem.checked_of_read {s : Text} {i : DefinitionItem} (h : read s = .ok i) :
    isIdent i.symbol = true ∧
      ∀ v, i.value = some v → ∀ c ∈ v, isParen c = false ∧ isLineBreak c = false := by
  simp only [read] at h
  split at h
  · exact checked_of_ok h
  · exact checked_of_ok h

theorem LinkItem.isBareToken_of_read {s : Text} {i : LinkItem} (h : read s = .ok i) :
    isBareToken i.library = true := by
  simp only [read] at h
  split at h
  · cases h
    assumption
  · cases h

namespace Request

/-- Definitions and libraries of a request come from items that were read. -/
structure Typed (r : Request) : Prop where
  definitions : ∀ i ∈ r.definitions, ∃ s, DefinitionItem.read s = .ok i
  linkLibraries : ∀ i ∈ r.linkLibraries, ∃ s, LinkItem.read s = .ok i

/-! Items that are checked by validation. -/

theorem check_eq_ok_iff {category : Category} {fault? : Text → Option ItemFault}
    {items : List Text} :
    check category fault? items = .ok () ↔ ∀ item ∈ items, fault? item = none := by
  induction items with
  | nil => simp [check]
  | cons item items ih =>
    rw [check]
    cases hf : fault? item with
    | some fault => simp [hf]
    | none => simp [hf, ih]

theorem validate_eq_ok_iff {r : Request} : r.validate = .ok () ↔
    (∀ item ∈ r.sources, lineFault? item = none) ∧ (∀ item ∈ r.headers, lineFault? item = none) ∧
    (∀ item ∈ r.exports, lineFault? item = none) ∧ ∀ item ∈ r.subdirs, pathFault? item = none := by
  simp only [validate, seq_eq_ok_iff, check_eq_ok_iff]

theorem isPlain_trim_of_lineFault? {item : Text} (h : lineFault? item = none) :
    IsPlain (trim item) := by
  unfold lineFault? at h
  split at h
  · cases h
  · split at h
    · cases h
    case isFalse hbreak =>
      split at h
      · cases h
      case isFalse hmarker =>
        refine ⟨?_, by simpa [isMarker_trim] using hmarker⟩
        intro hm
        simp only [List.any_eq_true, not_exists, not_and] at hbreak
        exact hbreak _ (mem_of_mem_trim hm) (by decide)

theorem isBareToken_of_pathFault? {item : Text} (h : pathFault? item = none) :
    isBareToken (trim item) = true := by
  unfold pathFault? at h
  split at h
  · assumption
  · cases h

/-! Everything that a request writes. -/

/-- The lines that a request can write into the region of a category. -/
def written (r : Request) (target : Text) : Category → List Text
  | .sources => r.sources.map trim
  | .headers => r.headers.map trim
  | .exports => r.exports.map trim
  | .definitions => r.definitions.map fun i => Directive.render (i.forTarget target)
  | .subdirs => r.subdirectories.map Directive.render
  | .linkLibraries => r.linkLibraries.map fun i => Directive.render (i.forTarget target)

theorem mem_editLines {action : Action} {items : List Text} {es : List Entry} {e : Entry}
    (h : e ∈ (editLines action items es).1) : e ∈ es ∨ ∃ l ∈ items.map trim, e = .line l := by
  cases action with
  | add => simpa using Edit.mem_addLines h
  | remove => exact .inl (Edit.mem_removeLines h)

theorem mem_editDirectives {δ : Type} [Directive δ] {action : Action} {ds : List δ}
    {es : List Entry} {e : Entry} (h : e ∈ (editDirectives action ds es).1) :
    e ∈ es ∨ ∃ l ∈ ds.map Directive.render, e = .line l := by
  cases action with
  | add => simpa using Edit.mem_upsertAll h
  | remove => exact .inl (Edit.mem_removeAll h)

theorem mem_edit {r : Request} {target : Text} {c : Category} {es : List Entry} {e : Entry}
    (h : e ∈ (r.edit target c es).1) : e ∈ es ∨ ∃ l ∈ r.written target c, e = .line l := by
  cases c with
  | sources => exact mem_editLines h
  | headers => exact mem_editLines h
  | exports => exact mem_editLines h
  | definitions => simpa [written, edit] using mem_editDirectives h
  | subdirs => exact mem_editDirectives h
  | linkLibraries => simpa [written, edit] using mem_editDirectives h

/-- All checks together: whatever a valid request writes for a usable target is a plain line. -/
theorem Typed.isPlain_written {r : Request} {target : Text} (hr : r.Typed)
    (hv : r.validate = .ok ()) (ht : '\n' ∉ target) (c : Category) :
    ∀ l ∈ r.written target c, IsPlain l := by
  obtain ⟨hsources, hheaders, hexports, hsubdirs⟩ := validate_eq_ok_iff.mp hv
  intro l hl
  cases c with
  | sources =>
    obtain ⟨item, hi, rfl⟩ := List.mem_map.mp hl
    exact isPlain_trim_of_lineFault? (hsources item hi)
  | headers =>
    obtain ⟨item, hi, rfl⟩ := List.mem_map.mp hl
    exact isPlain_trim_of_lineFault? (hheaders item hi)
  | exports =>
    obtain ⟨item, hi, rfl⟩ := List.mem_map.mp hl
    exact isPlain_trim_of_lineFault? (hexports item hi)
  | definitions =>
    obtain ⟨i, hi, rfl⟩ := List.mem_map.mp hl
    obtain ⟨s, hs⟩ := hr.definitions i hi
    obtain ⟨hsymbol, hvalue⟩ := DefinitionItem.checked_of_read hs
    refine Definition.isPlain_render ht (not_newline_mem_of_isIdent hsymbol) ?_
    intro v hv hm
    exact absurd (hvalue v hv _ hm).2 (by decide)
  | subdirs =>
    obtain ⟨d, hd, rfl⟩ := List.mem_map.mp hl
    obtain ⟨item, hi, rfl⟩ := List.mem_map.mp hd
    exact Subdirectory.isPlain_render
      (not_newline_mem_of_isBareToken (isBareToken_of_pathFault? (hsubdirs item hi)))
  | linkLibraries =>
    obtain ⟨i, hi, rfl⟩ := List.mem_map.mp hl
    obtain ⟨s, hs⟩ := hr.linkLibraries i hi
    exact LinkLibrary.isPlain_render ht
      (not_newline_mem_of_isBareToken (LinkItem.isBareToken_of_read hs))

end Request
end BuildFile
