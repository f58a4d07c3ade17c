import BuildFile.Directive
import BuildFile.Proofs.Grammar
/-! Directives and their lines. A line is read as a directive exactly if it carries the fields of
the directive in their places, so that what is read is well-formed; the canonical line of a
well-formed directive is one of its lines and is read as the same directive, with all its fields.
Being about the same thing is an equivalence. -/
namespace BuildFile

class LawfulDirective (δ : Type) [Directive δ] : Prop where
  equivalence : Equivalence fun d e : δ => Directive.same d e = true

/-- Directives that are compared by a key. -/
theorem LawfulDirective.of_key {δ κ : Type} [Directive δ] (key : δ → κ)
    (h : ∀ d e : δ, Directive.same d e = true ↔ key d = key e) : LawfulDirective δ where
  equivalence := {
    refl := fun d => (h d d).mpr rfl
    symm := fun hde => (h _ _).mpr ((h _ _).mp hde).symm
    trans := fun hde hef => (h _ _).mpr (((h _ _).mp hde).trans ((h _ _).mp hef)) }

/-- The canonical line of the directive is read as this directive. -/
def ReadsBack {δ : Type} [Directive δ] (d : δ) : Prop :=
  Directive.read (Directive.render d) = some d

instance {δ : Type} [Directive δ] [DecidableEq δ] (d : δ) : Decidable (ReadsBack d) :=
  inferInstanceAs (Decidable (_ = _))

/-- Keywords that are found under their own texts are found under no other. -/
theorem find?_text_eq_some_iff {κ : Type} {all : List κ} {text : κ → Text} {t : Text} {k : κ}
    (hself : ∀ k, all.find? (text · == text k) = some k) :
    all.find? (text · == t) = some k ↔ t = text k := by
  constructor
  · intro h
    have ht := List.find?_some h
    exact (beq_iff_eq.mp ht).symm
  · rintro rfl
    exact hself k

/-! Compile definitions. -/

theorem Visibility.isWord_text (v : Visibility) : v.text ≠ [] ∧ hasBlank v.text = false := by
  cases v <;> decide

theorem Visibility.ofKeyword?_eq_some_iff {t : Text} {v : Visibility} :
    ofKeyword? t = some v ↔ t = v.text :=
  find?_text_eq_some_iff ofKeyword?_text

namespace Definition

structure WellFormed (d : Definition) : Prop where
  target : d.target ≠ [] ∧ hasBlank d.target = false
  symbol : isIdent d.symbol = true
  value : ∀ v, d.value = some v → '\n' ∉ v ∧ ∀ c ∈ v.getLast?, isBlank c = false

/-- What stands between the symbol and the closing parenthesis. -/
def valueText : Option Text → Text
  | some v => '=' :: v
  | none => []

/-- The fields can stand in their places on a line, where the value may have blanks after it. -/
structure Fits (d : Definition) : Prop where
  target : d.target ≠ [] ∧ hasBlank d.target = false
  symbol : isIdent d.symbol = true
  value : ∀ v, d.value = some v → '\n' ∉ v

/-- The definition without the blanks after its value. -/
def trimmed (d : Definition) : Definition := { d with value := d.value.map trimEnd }

/-- The lines that carry the fields in their places. -/
def pattern (d : Definition) : Language Char :=
  Call.opening verb * just d.target * gap * just d.visibility.text * gap * just flag *
    just d.symbol * just (valueText d.value) * Call.closing

theorem isIdentRest_of_isIdent {t : Text} (h : isIdent t = true) :
    t ≠ [] ∧ ∀ c ∈ t, isIdentRest c = true := by
  cases t with
  | nil => cases h
  | cons c t =>
    simp only [isIdent, isIdentStart, Bool.and_eq_true, Bool.or_eq_true, List.all_eq_true] at h
    refine ⟨by simp, ?_⟩
    intro b hb
    obtain rfl | hb := List.mem_cons.mp hb
    · simp only [isIdentRest, Char.isAlphanum, Bool.or_eq_true]
      exact h.1.imp_left Or.inl
    · exact h.2 b hb

theorem value?_equals_iff {t : Text} {value : Option Text} : value? ('=' :: t) = some value ↔
    ∃ v, '\n' ∉ v ∧ some (trimEnd v) = value ∧ t ∈ just v * Call.closing := by
  simp only [value?, Option.bind_eq_bind, Option.bind_eq_some_iff, Call.mem_mul_closing]
  constructor
  · intro h
    obtain ⟨u, hu, hvalue⟩ := h
    obtain ⟨b, hb, hsplit⟩ := exists_trimEnd_append_blanks u
    split at hvalue
    · cases hvalue
    case isFalse hn =>
      refine ⟨trimEnd u, by simpa using hn, ?_, u, ?_, hu⟩
      · rw [trimEnd_idem]
        exact Option.some.inj hvalue
      · exact Language.mem_mul.mpr ⟨_, rfl, b, hb, hsplit⟩
  · intro h
    obtain ⟨v, hn, rfl, u, hu, hclose⟩ := h
    obtain ⟨v, rfl, b, hb, rfl⟩ := Language.mem_mul.mp hu
    have hkept : '\n' ∉ trimEnd v := fun hm => hn ((trimEnd_isPrefix v).mem hm)
    exact ⟨_, hclose, by simp [trimEnd_append hb, hkept]⟩

theorem apart_value_mul (value : Option Text) :
    Apart isIdentRest (just (valueText value) * Call.closing) := by
  cases value with
  | none =>
    rw [valueText, just_nil, one_mul]
    exact Call.apart_closing (fun _ => isIdentRest_of_isBlank) (by decide)
  | some v => exact apart_just_mul (by simp [valueText]) (by simp [valueText]; decide)

theorem value?_eq_some_iff {t : Text} {value : Option Text} : value? t = some value ↔
    ∃ raw : Option Text, (∀ v, raw = some v → '\n' ∉ v) ∧ raw.map trimEnd = value ∧
      t ∈ just (valueText raw) * Call.closing := by
  have hnone : t ∈ just (valueText none) * Call.closing ↔ t ∈ Call.closing := by
    rw [valueText, just_nil, one_mul]
  -- The first character decides: a value is read only behind an equals sign, and nothing that
  -- closes the call starts with one.
  by_cases hequals : ∃ u, t = '=' :: u
  · obtain ⟨u, rfl⟩ := hequals
    have hsome (v : Text) : '=' :: u ∈ just (valueText (some v)) * Call.closing ↔
        u ∈ just v * Call.closing := by simp [mem_just_mul, valueText, after?]
    have hopen : '=' :: u ∉ Call.closing := by
      have hequals : ∀ c, isBlank c = true → (c == '=') = false := by
        intro c hc
        rw [beq_eq_false_iff_ne]
        rintro rfl
        exact absurd hc (by decide)
      intro hmem
      have hhead := Call.apart_closing hequals (by decide) _ hmem '=' rfl
      exact absurd hhead (by decide)
    simp [value?_equals_iff, Option.exists, hnone, hopen, hsome]
  · have hvalue : value? t = if Call.closes t then some none else none := by
      unfold value?
      split
      case h_1 u => exact absurd ⟨u, rfl⟩ hequals
      case h_2 => rfl
    have hsome (v : Text) : t ∉ just (valueText (some v)) * Call.closing := by
      intro hmem
      obtain ⟨r, _, hr⟩ := mem_just_mul.mp hmem
      exact hequals ⟨v ++ r, after?_eq_some_iff.mp hr⟩
    simp [hvalue, Option.exists, hnone, hsome, Call.closes_iff, and_comm]

theorem read_eq_some_iff {line : Text} {d : Definition} :
    read line = some d ↔ ∃ raw : Definition, raw.Fits ∧ line ∈ raw.pattern ∧ raw.trimmed = d := by
  have hverb : verb ≠ [] ∧ hasBlank verb = false := by decide
  have hflag (M : Language Char) : Apart isBlank (just flag * M) :=
    apart_just_mul (by decide) (fun c hc => by cases hc; decide)
  constructor
  · intro h
    simp only [read, Option.bind_eq_bind, Option.bind_eq_some_iff, Prod.exists,
      Visibility.ofKeyword?_eq_some_iff] at h
    obtain ⟨args, hargs, target, rest, htarget, _, last, hword, visibility, rfl, after, hafter,
      symbol, tail, hsymbol, h⟩ := h
    split at h
    · cases h
    case isFalse hident =>
      obtain ⟨_, hvalue, hd⟩ := Option.bind_eq_some_iff.mp h
      obtain ⟨value, hn, rfl, htail⟩ := value?_eq_some_iff.mp hvalue
      have hrun := (mem_run_mul (apart_value_mul value)).mp ⟨tail, htail, hsymbol⟩
      obtain ⟨ht, hline⟩ := (Call.mem_front_mul hverb visibility.isWord_text (hflag _)).mp
        ⟨args, rest, last, mem_just_mul.mpr ⟨after, hrun.2, hafter⟩, hargs, htarget, hword⟩
      refine ⟨{ target, visibility, symbol, value }, ⟨ht, by simpa using hident, hn⟩, ?_,
        Option.some.inj hd⟩
      simpa only [pattern, mul_assoc] using hline
  · intro h
    obtain ⟨raw, hfits, hline, rfl⟩ := h
    simp only [pattern, mul_assoc] at hline
    obtain ⟨args, rest, last, hlast, hargs, htarget, hword⟩ :=
      (Call.mem_front_mul hverb raw.visibility.isWord_text (hflag _)).mpr ⟨hfits.target, hline⟩
    obtain ⟨after, hrun, hafter⟩ := mem_just_mul.mp hlast
    obtain ⟨tail, htail, hsymbol⟩ := (mem_run_mul (apart_value_mul raw.value)).mpr
      ⟨isIdentRest_of_isIdent hfits.symbol, hrun⟩
    have hvalue := value?_eq_some_iff.mpr ⟨raw.value, hfits.value, rfl, htail⟩
    simp [read, hargs, htarget, hword, Visibility.ofKeyword?_text, hafter, hsymbol, hfits.symbol,
      hvalue, trimmed]

theorem render_mem_pattern (d : Definition) : d.render ∈ d.pattern := by
  have hrender :
      d.render = verb ++ ['('] ++ d.target ++ [' '] ++ d.visibility.text ++ [' '] ++ flag ++
      d.symbol ++ valueText d.value ++ [')'] := by
    cases hv : d.value <;> simp [render, hv, valueText]
  rw [hrender]
  refine Language.append_mem_mul ?_ Call.close_mem_closing
  iterate 3 refine Language.append_mem_mul ?_ (self_mem_just _)
  exact Call.front_mem verb d.target d.visibility.text

theorem Fits.wellFormed_trimmed {d : Definition} (h : d.Fits) : d.trimmed.WellFormed where
  target := h.target
  symbol := h.symbol
  value := by
    intro v hv
    obtain ⟨u, hu, rfl⟩ := Option.map_eq_some_iff.mp hv
    exact ⟨fun hm => h.value u hu ((trimEnd_isPrefix u).mem hm), isBlank_last_trimEnd u⟩

theorem WellFormed.fits {d : Definition} (h : d.WellFormed) : d.Fits :=
  ⟨h.target, h.symbol, fun v hv => (h.value v hv).1⟩

theorem WellFormed.trimmed_eq {d : Definition} (h : d.WellFormed) : d.trimmed = d := by
  have hvalue : d.value.map trimEnd = d.value := by
    cases hv : d.value with
    | none => rfl
    | some v => rw [Option.map_some, trimEnd_eq_self (h.value v hv).2]
  rw [trimmed, hvalue]

theorem wellFormed_of_read {line : Text} {d : Definition} (h : read line = some d) :
    d.WellFormed := by
  obtain ⟨raw, hraw, _, rfl⟩ := read_eq_some_iff.mp h
  exact hraw.wellFormed_trimmed

theorem WellFormed.readsBack {d : Definition} (h : d.WellFormed) : ReadsBack d :=
  read_eq_some_iff.mpr ⟨d, h.fits, d.render_mem_pattern, h.trimmed_eq⟩

instance : LawfulDirective Definition :=
  .of_key (fun d => (d.target, d.visibility, d.symbol)) (by simp [Directive.same, same, and_assoc])

end Definition

/-! Link libraries. -/

theorem Qualifier.isWord_text (q : Qualifier) : q.text ≠ [] ∧ hasBlank q.text = false := by
  cases q <;> decide

theorem Qualifier.ofKeyword?_eq_some_iff {t : Text} {q : Qualifier} :
    ofKeyword? t = some q ↔ t = q.text :=
  find?_text_eq_some_iff ofKeyword?_text

namespace LinkLibrary

structure WellFormed (d : LinkLibrary) : Prop where
  target : d.target ≠ [] ∧ hasBlank d.target = false
  library : isBareToken d.library = true

def pattern (d : LinkLibrary) : Language Char :=
  Call.opening verb * just d.target * gap * just d.qualifier.text * gap * just d.library *
    Call.closing

theorem read_eq_some_iff {line : Text} {d : LinkLibrary} :
    read line = some d ↔ d.WellFormed ∧ line ∈ d.pattern := by
  have hverb : verb ≠ [] ∧ hasBlank verb = false := by decide
  constructor
  · intro h
    simp only [read, Option.bind_eq_bind, Option.bind_eq_some_iff, Prod.exists,
      Qualifier.ofKeyword?_eq_some_iff, Option.some.injEq] at h
    obtain ⟨args, hargs, target, rest, htarget, _, last, hword, qualifier, rfl, library, hlast,
      rfl⟩ := h
    obtain ⟨hl, hmem⟩ := Call.lastToken?_eq_some_iff.mp hlast
    obtain ⟨ht, hline⟩ := (Call.mem_front_mul hverb qualifier.isWord_text (apart_token_mul hl)).mp
      ⟨args, rest, last, hmem, hargs, htarget, hword⟩
    exact ⟨⟨ht, hl⟩, by simpa only [pattern, mul_assoc] using hline⟩
  · intro h
    obtain ⟨hd, hline⟩ := h
    simp only [pattern, mul_assoc] at hline
    obtain ⟨args, rest, last, hmem, hargs, htarget, hword⟩ :=
      (Call.mem_front_mul hverb d.qualifier.isWord_text (apart_token_mul hd.library)).mpr
        ⟨hd.target, hline⟩
    have hlast := Call.lastToken?_eq_some_iff.mpr ⟨hd.library, hmem⟩
    simp [read, hargs, htarget, hword, Qualifier.ofKeyword?_text, hlast]

theorem render_mem_pattern (d : LinkLibrary) : d.render ∈ d.pattern := by
  have hrender : d.render = verb ++ ['('] ++ d.target ++ [' '] ++ d.qualifier.text ++ [' '] ++
      d.library ++ [')'] := by simp [render]
  rw [hrender]
  refine Language.append_mem_mul (Language.append_mem_mul ?_ (self_mem_just _))
    Call.close_mem_closing
  exact Call.front_mem verb d.target d.qualifier.text

theorem WellFormed.readsBack {d : LinkLibrary} (h : d.WellFormed) : ReadsBack d :=
  read_eq_some_iff.mpr ⟨h, d.render_mem_pattern⟩

instance : LawfulDirective LinkLibrary :=
  .of_key (fun d => (d.target, d.qualifier, d.library)) (by simp [Directive.same, same, and_assoc])

end LinkLibrary

/-! Subdirectories. -/

namespace Subdirectory

def pattern (d : Subdirectory) : Language Char :=
  Call.opening verb * just d.path * Call.closing

theorem read_eq_some_iff {line : Text} {d : Subdirectory} :
    read line = some d ↔ isBareToken d.path = true ∧ line ∈ d.pattern := by
  have hverb : verb ≠ [] ∧ hasBlank verb = false := by decide
  simp only [read, Option.bind_eq_bind, Option.bind_eq_some_iff, Call.lastToken?_eq_some_iff,
    Option.some.injEq, pattern, mul_assoc]
  constructor
  · intro h
    obtain ⟨args, hargs, path, ⟨hpath, hmem⟩, rfl⟩ := h
    exact ⟨hpath, (Call.mem_opening_mul hverb (apart_token_mul hpath)).mpr ⟨args, hmem, hargs⟩⟩
  · intro h
    obtain ⟨hpath, hline⟩ := h
    obtain ⟨args, hmem, hargs⟩ := (Call.mem_opening_mul hverb (apart_token_mul hpath)).mp hline
    exact ⟨args, hargs, d.path, ⟨hpath, hmem⟩, rfl⟩

theorem render_mem_pattern (d : Subdirectory) : d.render ∈ d.pattern := by
  have hrender : d.render = verb ++ ['('] ++ d.path ++ [')'] := by simp [render]
  rw [hrender]
  exact Language.append_mem_mul (Language.append_mem_mul (Call.open_mem_opening verb)
    (self_mem_just d.path)) Call.close_mem_closing

theorem readsBack {d : Subdirectory} (h : isBareToken d.path = true) : ReadsBack d :=
  read_eq_some_iff.mpr ⟨h, d.render_mem_pattern⟩

instance : LawfulDirective Subdirectory := .of_key path (by simp [Directive.same, same])

end Subdirectory

/-! Canonical lines. -/

/-- Where only well-formed directives are read, and all of them from their canonical lines, to be
read back is to be well-formed. -/
theorem readsBack_laws {δ : Type} [Directive δ] {wellFormed : δ → Prop}
    (hread : ∀ line (d : δ), Directive.read line = some d → wellFormed d)
    (hback : ∀ d, wellFormed d → ReadsBack d) :
    (∀ line (d : δ), Directive.read line = some d → ReadsBack d) ∧
    ∀ d, ReadsBack d ↔ wellFormed d :=
  ⟨fun line d h => hback d (hread line d h), fun d => ⟨hread _ d, hback d⟩⟩

/-- A directive that was read from a line is read back from its canonical line. Among all directives
these are the well-formed ones. -/
theorem readsBack_iff_wellFormed :
    ((∀ line (d : Definition), Directive.read line = some d → ReadsBack d) ∧
      ∀ d : Definition, ReadsBack d ↔ d.WellFormed) ∧
    ((∀ line (d : LinkLibrary), Directive.read line = some d → ReadsBack d) ∧
      ∀ d : LinkLibrary, ReadsBack d ↔ d.WellFormed) ∧
    (∀ line (d : Subdirectory), Directive.read line = some d → ReadsBack d) ∧
      ∀ d : Subdirectory, ReadsBack d ↔ isBareToken d.path = true := by
  refine ⟨readsBack_laws ?_ ?_, readsBack_laws ?_ ?_, readsBack_laws ?_ ?_⟩
  · exact fun _ _ => Definition.wellFormed_of_read
  · exact fun _ => Definition.WellFormed.readsBack
  · exact fun _ _ h => (LinkLibrary.read_eq_some_iff.mp h).1
  · exact fun _ => LinkLibrary.WellFormed.readsBack
  · exact fun _ _ h => (Subdirectory.read_eq_some_iff.mp h).1
  · exact fun _ => Subdirectory.readsBack

/-- The last parenthesis ends the directive; the others belong to the target and to the value. -/
theorem readsBack_iff_wellFormed_parentheses :
    Definition.read "target_compile_definitions( (a) PUBLIC -DX= f(1) ) " =
      some ⟨"(a)", .scopePublic, "X", some " f(1)"⟩ ∧
    Definition.read "target_compile_definitions((a) PUBLIC -DX= f(1))" =
      some ⟨"(a)", .scopePublic, "X", some " f(1)"⟩ := by
  have hread : Definition.read "target_compile_definitions( (a) PUBLIC -DX= f(1) ) " =
      some ⟨"(a)", .scopePublic, "X", some " f(1)"⟩ := by decide
  exact ⟨hread, readsBack_iff_wellFormed.1.1 _ _ hread⟩

end BuildFile
