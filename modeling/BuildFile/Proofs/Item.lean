import BuildFile.Proofs.Request.ReadsBack
/-! Requested items and the directives they become. Items are read by one grammar and directives by
another: an item that was read makes a directive that is read back from its line, and its line is a
plain one, for every target that a document can declare. Written out in full, an item is read as
itself. -/
namespace BuildFile

theorem isBlank_last_append_cons {c : Char} {t : Text} (hc : isBlank c = false)
    (ht : ∀ b ∈ t.getLast?, isBlank b = false) (front : Text) :
    ∀ b ∈ (front ++ c :: t).getLast?, isBlank b = false := by
  intro b hb
  rw [List.getLast?_append_of_ne_nil front (List.cons_ne_nil c t)] at hb
  cases t with
  | nil =>
    cases hb
    exact hc
  | cons a t => exact ht b (by rwa [List.getLast?_cons_cons] at hb)

/-! A keyword and a colon in front. -/

theorem trimmed_keyword_append {front rest : Text} (hfront : front ≠ [] ∧ hasBlank front = false)
    (hrest : ∀ c ∈ rest.getLast?, isBlank c = false) : Trimmed (front ++ ':' :: rest) := by
  constructor
  · rw [List.head?_append_of_ne_nil _ hfront.1]
    exact isBlank_head_of_not_hasBlank hfront.2
  · exact isBlank_last_append_cons (by decide) hrest front

theorem splitKeyword_append {κ : Type} {read : Text → Option κ} {k : κ} {front : Text} (default : κ)
    (hcolon : ':' ∉ front) (hread : read front = some k) (rest : Text) :
    splitKeyword read default (front ++ ':' :: rest) = (k, rest) := by
  have hcut : cutFirst? ':' (front ++ ':' :: rest) = some (front, rest) :=
    cutFirst?_eq_some_iff.mpr ⟨rfl, hcolon⟩
  simp only [splitKeyword, hcut, hread]

/-! Definitions. -/

namespace DefinitionItem

/-- What holds of the items that are read. -/
structure WellFormed (i : DefinitionItem) : Prop where
  symbol : isIdent i.symbol = true
  value : ∀ v, i.value = some v →
    (∀ c ∈ v, isParen c = false ∧ isLineBreak c = false) ∧ ∀ c ∈ v.getLast?, isBlank c = false

/-- The item in full, `VISIBILITY:SYMBOL[=VALUE]`. -/
def text (i : DefinitionItem) : Text :=
  i.visibility.text ++ ':' :: (i.symbol ++ Definition.valueText i.value)

theorem wellFormed_of_read {s : Text} {i : DefinitionItem} (h : read s = .ok i) : i.WellFormed where
  symbol := (checked_of_read h).1
  value v hv :=
    ⟨(checked_of_read h).2 v hv, not_isBlank_last_of_isSuffix_trim (value_isSuffix_of_read h hv)⟩

variable {i : DefinitionItem}

theorem WellFormed.trimmed_text (h : i.WellFormed) : Trimmed i.text := by
  apply trimmed_keyword_append i.visibility.isWord_text
  obtain ⟨_, hsymbol⟩ := Definition.isIdentRest_of_isIdent h.symbol
  cases hv : i.value with
  | none =>
    intro c hc
    rw [Definition.valueText, List.append_nil] at hc
    by_contra hblank
    have hident := hsymbol c (List.mem_of_mem_getLast? hc)
    rw [isIdentRest_of_isBlank (by simpa using hblank)] at hident
    cases hident
  | some v => exact isBlank_last_append_cons (by decide) (h.value v hv).2 i.symbol

theorem WellFormed.read_text (h : i.WellFormed) : read i.text = .ok i := by
  obtain ⟨hne, hident⟩ := Definition.isIdentRest_of_isIdent h.symbol
  have hsplit : splitKeyword Visibility.read .scopePrivate (trim i.text) =
      (i.visibility, i.symbol ++ Definition.valueText i.value) := by
    rw [h.trimmed_text.trim_eq]
    exact splitKeyword_append _ (by cases i.visibility <;> decide) (by cases i.visibility <;> rfl) _
  have hflag : after? Definition.flag (i.symbol ++ Definition.valueText i.value) = none := by
    rw [Option.eq_none_iff_forall_ne_some]
    intro rest hrest
    have hhead := congrArg List.head? (after?_eq_some_iff.mp hrest)
    rw [List.head?_append_of_ne_nil _ hne] at hhead
    exact absurd (hident '-' (List.mem_of_mem_head? hhead)) (by decide)
  have hequals : '=' ∉ i.symbol := fun hm => absurd (hident '=' hm) (by decide)
  simp only [read, hsplit, hflag, Option.getD_none]
  obtain ⟨visibility, symbol, value⟩ := i
  have hsymbol : isIdent symbol = true := h.symbol
  cases value with
  | none =>
    have hcut : cutFirst? '=' symbol = none := cutFirst?_of_not_mem hequals
    simp [Definition.valueText, hcut, hsymbol]
  | some v =>
    have hcut : cutFirst? '=' (symbol ++ Definition.valueText (some v)) = some (symbol, v) :=
      cutFirst?_eq_some_iff.mpr ⟨rfl, hequals⟩
    have hvalue : (some v).any (·.any fun c => isParen c || isLineBreak c) = false := by
      simpa using (h.value v rfl).1
    simp [hcut, hsymbol, hvalue]

end DefinitionItem

/-! Libraries. -/

namespace LinkItem

/-- The item in full, `qualifier:library`. -/
def text (i : LinkItem) : Text := i.qualifier.text ++ ':' :: i.library

theorem read_text {i : LinkItem} (h : isBareToken i.library = true) : read i.text = .ok i := by
  have hlast : ∀ c ∈ i.library.getLast?, isBlank c = false := by
    intro c hc
    obtain ⟨_, hblank⟩ := hasBlank_of_isBareToken h
    simp only [hasBlank, List.any_eq_false, Bool.not_eq_true] at hblank
    exact hblank c (List.mem_of_mem_getLast? hc)
  have hsplit : splitKeyword Qualifier.read .general (trim i.text) = (i.qualifier, i.library) := by
    rw [text, (trimmed_keyword_append i.qualifier.isWord_text hlast).trim_eq]
    exact splitKeyword_append _ (by cases i.qualifier <;> decide) (by cases i.qualifier <;> rfl) _
  simp [read, hsplit, h]

end LinkItem

/-! Lines. -/

theorem Definition.WellFormed.isPlain_render {d : Definition} (h : d.WellFormed) :
    IsPlain d.render :=
  Definition.isPlain_render (not_newline_mem_of_not_hasBlank h.target.2)
    (not_newline_mem_of_isIdent h.symbol) fun v hv => (h.value v hv).1

theorem LinkLibrary.WellFormed.isPlain_render {d : LinkLibrary} (h : d.WellFormed) :
    IsPlain d.render :=
  LinkLibrary.isPlain_render (not_newline_mem_of_not_hasBlank h.target.2)
    (not_newline_mem_of_isBareToken h.library)

/-- Items that were accepted become directives that are read back and stand on one plain line; and
they are read again from their full text. -/
theorem items_make_directives :
    (∀ s i, DefinitionItem.read s = .ok i → DefinitionItem.read i.text = .ok i ∧
      ∀ d kind target, targetName d kind = .ok target →
        ReadsBack (i.forTarget target) ∧ IsPlain (Directive.render (i.forTarget target))) ∧
    (∀ s i, LinkItem.read s = .ok i → LinkItem.read i.text = .ok i ∧
      ∀ d kind target, targetName d kind = .ok target →
        ReadsBack (i.forTarget target) ∧ IsPlain (Directive.render (i.forTarget target))) ∧
    ∀ r : Request, r.validate = .ok () → ∀ path ∈ r.subdirs,
      ReadsBack (Subdirectory.mk (trim path)) ∧
        IsPlain (Directive.render (Subdirectory.mk (trim path))) := by
  refine ⟨?_, ?_, ?_⟩
  · intro s i h
    refine ⟨(DefinitionItem.wellFormed_of_read h).read_text, ?_⟩
    intro d kind target ht
    have hwell := DefinitionItem.wellFormed_forTarget h (isBareToken_of_targetName ht)
    exact ⟨hwell.readsBack, hwell.isPlain_render⟩
  · intro s i h
    have hlibrary := LinkItem.isBareToken_of_read h
    refine ⟨LinkItem.read_text hlibrary, ?_⟩
    intro d kind target ht
    have hwell : (i.forTarget target).WellFormed :=
      ⟨hasBlank_of_isBareToken (isBareToken_of_targetName ht), hlibrary⟩
    exact ⟨hwell.readsBack, hwell.isPlain_render⟩
  · intro r hv path hpath
    obtain ⟨_, _, _, hsubdirs⟩ := Request.validate_eq_ok_iff.mp hv
    have htoken := Request.isBareToken_of_pathFault? (hsubdirs path hpath)
    exact ⟨Subdirectory.readsBack htoken,
      Subdirectory.isPlain_render (not_newline_mem_of_isBareToken htoken)⟩

/-- A value with a blank, an equals sign and a colon in it, a library with a colon that ends no
keyword, and a path between blanks. -/
theorem items_make_directives_samples :
    (DefinitionItem.read "\tpublic:-DX= a=b:c " = .ok ⟨.scopePublic, "X", some " a=b:c"⟩ ∧
      DefinitionItem.read "PUBLIC:X= a=b:c" = .ok ⟨.scopePublic, "X", some " a=b:c"⟩ ∧
      Definition.read "target_compile_definitions(app PUBLIC -DX= a=b:c)" =
        some ⟨"app", .scopePublic, "X", some " a=b:c"⟩) ∧
    (LinkItem.read " C:/z.lib" = .ok ⟨.general, "C:/z.lib"⟩ ∧
      LinkItem.read "general:C:/z.lib" = .ok ⟨.general, "C:/z.lib"⟩ ∧
      IsPlain "target_link_libraries(app general C:/z.lib)") ∧
    Request.validate { action := .add, subdirs := [" core/a "] } = .ok () ∧
      Subdirectory.read "add_subdirectory(core/a)" = some ⟨"core/a"⟩ := by
  have hdefinition : DefinitionItem.read "\tpublic:-DX= a=b:c " =
      .ok ⟨.scopePublic, "X", some " a=b:c"⟩ := by decide
  have hlink : LinkItem.read " C:/z.lib" = .ok ⟨.general, "C:/z.lib"⟩ := by decide
  have hvalid : Request.validate { action := .add, subdirs := [" core/a "] } = .ok () := by decide
  have htarget :
      targetName (.region "executable-name" (.text "set(PROJ_EXECUTABLE_NAME app)" .nil) .nil)
      .executable = .ok "app" := by decide +kernel
  obtain ⟨hdefinitions, hlinks, hsubdirs⟩ := items_make_directives
  obtain ⟨hagain, hback⟩ := hdefinitions _ _ hdefinition
  obtain ⟨hlinkAgain, hlinkBack⟩ := hlinks _ _ hlink
  exact ⟨⟨hdefinition, hagain, (hback _ _ _ htarget).1⟩,
    ⟨hlink, hlinkAgain, (hlinkBack _ _ _ htarget).2⟩, hvalid,
      (hsubdirs _ hvalid " core/a " (by decide)).1⟩

end BuildFile
