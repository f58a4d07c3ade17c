import BuildFile.Proofs.Chunks.Outline
import BuildFile.Proofs.Edit.Lines
import BuildFile.Proofs.Edit.Upsert
/-! What edits leave alone. No edit looks into nested regions or moves them, and lines that do not
name an item of the edit survive with their text and in their order. -/
namespace BuildFile.Edit
open Entry (shell isRegion)

/-! Nested regions. -/

section
variable {β γ ε : Type} {f : List Entry → List Entry × β} {g : List Entry → List Entry × γ}

theorem Shallow.report (hf : Shallow f) (k : β → γ) : Shallow fun es => ((f es).1, k (f es).2) where
  map_shell es := by rw [hf.map_shell]
  filter_isRegion es := hf.filter_isRegion es

theorem Shallow.andThen (hf : Shallow f) (hg : Shallow g) (k : β → γ → ε) :
    Shallow fun es => ((g (f es).1).1, k (f es).2 (g (f es).1).2) where
  map_shell es := by rw [hf.map_shell, hg.map_shell]
  filter_isRegion es := (hg.filter_isRegion (f es).1).trans (hf.filter_isRegion es)

theorem shallow_id (b : β) : Shallow fun es => (es, b) := ⟨fun _ => rfl, fun _ => rfl⟩

end

theorem filter_isRegion_append_line (es : List Entry) (t : Text) :
    (es ++ [Entry.line t]).filter isRegion = es.filter isRegion := by
  rw [List.filter_append, List.filter_cons_of_neg (by simp [isRegion])]
  simp

theorem filter_not_map_shell {p : Entry → Bool} (h : ∀ e, p e.shell = p e) (es : List Entry) :
    ((es.map shell).filter fun e => !p e) = (es.filter fun e => !p e).map shell := by
  rw [List.filter_map]
  congr 1
  apply List.filter_congr
  intro e _
  simp [h e]

/-- Dropping lines drops no region. -/
theorem filter_isRegion_filter {p : Entry → Bool} (h : ∀ e, isRegion e = true → p e = true)
    (es : List Entry) : (es.filter p).filter isRegion = es.filter isRegion := by
  rw [List.filter_filter]
  apply List.filter_congr
  intro e _
  cases he : isRegion e with
  | false => rfl
  | true => rw [h e he]; rfl

theorem reads_shell (t : Text) (e : Entry) : reads t e.shell = reads t e := by cases e <;> rfl

theorem shallow_addLines (items : List Text) : Shallow (addLines items) := by
  induction items with
  | nil => exact shallow_id 0
  | cons item items ih =>
    constructor
    · intro es
      have hany : (es.map shell).any (reads (trim item)) = es.any (reads (trim item)) := by
        rw [List.any_map, show reads (trim item) ∘ shell = reads (trim item) from
          funext (reads_shell (trim item))]
      have hnext : es.map shell ++ [.line (trim item)] =
          (es ++ [Entry.line (trim item)]).map shell := by simp
      rw [addLines, addLines, hany]
      split
      · exact ih.map_shell es
      · rw [hnext, ih.map_shell]
    · intro es
      rw [addLines]
      split
      · exact ih.filter_isRegion es
      · exact (ih.filter_isRegion _).trans (filter_isRegion_append_line es (trim item))

theorem readsAny_shell (items : List Text) (e : Entry) :
    readsAny items e.shell = readsAny items e := by
  simp only [readsAny, reads_shell]

theorem shallow_removeLines (items : List Text) : Shallow (removeLines items) where
  map_shell es := by
    simp [removeLines, filter_not_map_shell (readsAny_shell items)]
  filter_isRegion es := by
    apply filter_isRegion_filter
    intro e he
    cases e with
    | line t => cases he
    | region n body => simp [readsAny, reads]

section
variable {δ : Type} [Directive δ]

theorem names_shell (d : δ) (e : Entry) : names d e.shell = names d e := by cases e <;> rfl

theorem isRegion_of_names {d : δ} {e : Entry} (h : names d e = true) : isRegion e = false := by
  cases e with
  | line t => rfl
  | region n body => cases h

theorem shell_eq_line_iff {e : Entry} {t : Text} : e.shell = .line t ↔ e = .line t := by
  cases e <;> simp [shell]

theorem shallow_upsert (d : δ) : Shallow (upsert d) where
  map_shell es := by
    induction es with
    | nil => rfl
    | cons e es ih =>
      cases h : names d e with
      | false =>
        rw [List.map_cons, upsert_cons_of_not_names (by rwa [names_shell]), ih,
          upsert_cons_of_not_names h]
        rfl
      | true =>
        rw [List.map_cons, upsert_cons_of_names (by rwa [names_shell]), upsert_cons_of_names h,
          filter_not_map_shell (names_shell d)]
        simp [shell_eq_line_iff]
  filter_isRegion es := by
    have hline : isRegion (.line (Directive.render d)) = false := rfl
    induction es with
    | nil => rfl
    | cons e es ih =>
      cases h : names d e with
      | false =>
        rw [upsert_cons_of_not_names h, List.filter_cons, List.filter_cons, ih]
      | true =>
        have hkept : ∀ a, isRegion a = true → (!names d a) = true := by
          intro a ha
          cases hn : names d a with
          | false => rfl
          | true =>
            rw [isRegion_of_names hn] at ha
            cases ha
        simp [upsert_cons_of_names h, hline, isRegion_of_names h, filter_isRegion_filter hkept]

theorem shallow_removeFirst (d : δ) : Shallow (removeFirst d) where
  map_shell es := by
    have hnames : names d ∘ shell = names d := funext (names_shell d)
    simp only [removeFirst, List.eraseP_map, List.any_map, hnames]
  filter_isRegion es := by
    change (es.eraseP (names d)).filter isRegion = _
    induction es with
    | nil => rfl
    | cons e es ih =>
      cases h : names d e with
      | false => rw [List.eraseP_cons_of_neg (by simp [h]), List.filter_cons, List.filter_cons, ih]
      | true =>
        rw [List.eraseP_cons_of_pos h, List.filter_cons_of_neg (by simp [isRegion_of_names h])]

theorem shallow_upsertAll (ds : List δ) : Shallow (upsertAll ds) := by
  induction ds with
  | nil => exact shallow_id ({} : Change)
  | cons d ds ih => exact (shallow_upsert d).andThen ih fun u c => u.change + c

theorem shallow_removeAll (ds : List δ) : Shallow (removeAll ds) := by
  induction ds with
  | nil => exact shallow_id ({} : Change)
  | cons d ds ih => exact (shallow_removeFirst d).andThen ih fun b c => { removed := b.toNat } + c

/-! Lines that are not named. -/

theorem filter_not_names_sublist_upsert (d : δ) (es : List Entry) :
    (es.filter fun e => !names d e).Sublist (upsert d es).1 := by
  induction es with
  | nil => exact List.nil_sublist _
  | cons e es ih =>
    cases h : names d e with
    | false =>
      rw [upsert_cons_of_not_names h, List.filter_cons_of_pos (by simp [h])]
      exact ih.cons_cons e
    | true =>
      rw [upsert_cons_of_names h, List.filter_cons_of_neg (by simp [h])]
      exact List.sublist_cons_self _ _

theorem filter_not_names_sublist_removeFirst (d : δ) (es : List Entry) :
    (es.filter fun e => !names d e).Sublist (removeFirst d es).1 := by
  change List.Sublist _ (es.eraseP (names d))
  induction es with
  | nil => exact List.nil_sublist _
  | cons e es ih =>
    cases h : names d e with
    | false =>
      rw [List.eraseP_cons_of_neg (by simp [h]), List.filter_cons_of_pos (by simp [h])]
      exact ih.cons_cons e
    | true =>
      rw [List.eraseP_cons_of_pos h, List.filter_cons_of_neg (by simp [h])]
      exact List.filter_sublist

/-- One step of a run over directives, for what survives the whole run. -/
theorem sublist_of_step {d : δ} {ds : List δ} {es mid result : List Entry}
    (hstep : (es.filter fun e => !names d e).Sublist mid)
    (hrest : (mid.filter fun e => !ds.any (names · e)).Sublist result) :
    (es.filter fun e => !(d :: ds).any (names · e)).Sublist result := by
  have hfilter : (es.filter fun e => !(d :: ds).any (names · e)) =
      (es.filter fun e => !names d e).filter fun e => !ds.any (names · e) := by
    rw [List.filter_filter]
    apply List.filter_congr
    intro e _
    simp [Bool.and_comm]
  rw [hfilter]
  exact (hstep.filter _).trans hrest

theorem filter_not_names_sublist_upsertAll (ds : List δ) (es : List Entry) :
    (es.filter fun e => !ds.any (names · e)).Sublist (upsertAll ds es).1 := by
  induction ds generalizing es with
  | nil => exact List.filter_sublist
  | cons d ds ih =>
    exact sublist_of_step (filter_not_names_sublist_upsert d es) (ih (upsert d es).1)

theorem filter_not_names_sublist_removeAll (ds : List δ) (es : List Entry) :
    (es.filter fun e => !ds.any (names · e)).Sublist (removeAll ds es).1 := by
  induction ds generalizing es with
  | nil => exact List.filter_sublist
  | cons d ds ih =>
    exact sublist_of_step (filter_not_names_sublist_removeFirst d es) (ih (removeFirst d es).1)

end
end BuildFile.Edit
