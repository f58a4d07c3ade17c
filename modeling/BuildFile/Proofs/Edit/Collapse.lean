import BuildFile.Proofs.Edit.Distinct
/-! What one upsert does. The first line that names the directive becomes its canonical line, the
later ones vanish, and everything else stays where it is; where no line names it, the canonical line
comes last. The report tells the three endings apart. Going through the entries by position,
deleting on the way and rewriting the first line at the end, comes to the same. -/
namespace BuildFile.Edit
variable {δ : Type} [Directive δ] {d : δ} {es : List Entry}

/-! By what is there. -/

theorem exists_first (h : es.any (names d) = true) : ∃ before first after,
    es = before ++ first :: after ∧ (∀ e ∈ before, names d e = false) ∧ names d first = true := by
  obtain ⟨first, hfirst⟩ :=
    Option.isSome_iff_exists.mp (List.find?_isSome.mpr (List.any_eq_true.mp h))
  obtain ⟨hnames, before, after, heq, hbefore⟩ := List.find?_eq_some_iff_append.mp hfirst
  exact ⟨before, first, after, heq, by simpa using hbefore, hnames⟩

theorem upsert_of_absent (h : ∀ e ∈ es, names d e = false) :
    upsert d es = (es ++ [.line (Directive.render d)], .appended) := by
  induction es with
  | nil => rfl
  | cons e es ih =>
    obtain ⟨he, hes⟩ := List.forall_mem_cons.mp h
    rw [upsert_cons_of_not_names he, ih hes]
    rfl

theorem upsert_append_cons {before after : List Entry} {first : Entry}
    (hbefore : ∀ e ∈ before, names d e = false) (hfirst : names d first = true) :
    upsert d (before ++ first :: after) =
      (before ++ .line (Directive.render d) :: after.filter fun e => !names d e,
        if first = .line (Directive.render d) ∧ after.any (names d) = false then .unchanged
        else .replaced) := by
  induction before with
  | nil =>
    have hlength : (after.filter fun e => !names d e).length = after.length ↔
        after.any (names d) = false := by
      rw [List.length_filter_eq_length_iff]
      simp
    simp only [List.nil_append, upsert_cons_of_names hfirst, hlength]
  | cons e before ih =>
    obtain ⟨he, hrest⟩ := List.forall_mem_cons.mp hbefore
    rw [List.cons_append, upsert_cons_of_not_names he, ih hrest, List.cons_append]

/-! By position. -/

/-- Deletes the lines that name `d`, from position `i` on; tells whether there was one. -/
def sweep (d : δ) (i : Nat) (es : List Entry) : List Entry × Bool :=
  if h : i < es.length then
    if names d es[i] then ((sweep d i (es.eraseIdx i)).1, true) else sweep d (i + 1) es
  else (es, false)
termination_by es.length - i
decreasing_by
  · rw [List.length_eraseIdx_of_lt h]
    omega
  · omega

/-- Upserts in place: the later lines are deleted first, and the first one is rewritten only if
there is a reason to. -/
def upsertInPlace (d : δ) (es : List Entry) : List Entry × Upsert :=
  let line := Entry.line (Directive.render d)
  match es.findIdx? (names d) with
  | none => (es ++ [line], .appended)
  | some i =>
    let (kept, dropped) := sweep d (i + 1) es
    if dropped || es[i]? ≠ some line then (kept.set i line, .replaced) else (kept, .unchanged)

/-- What stands before the position is left alone, and of the rest the lines that name `d` are
gone. -/
theorem sweep_eq (d : δ) (i : Nat) (es : List Entry) :
    sweep d i es =
      (es.take i ++ (es.drop i).filter fun e => !names d e, (es.drop i).any (names d)) := by
  fun_induction sweep d i es with
  | case1 i es h hn ih =>
    have htake : (es.eraseIdx i).take i = es.take i :=
      List.take_eraseIdx_eq_take_of_le es i i le_rfl
    have hdrop : (es.eraseIdx i).drop i = es.drop (i + 1) := by
      rw [List.eraseIdx_eq_take_drop_succ, List.drop_append_of_le_length (by simp; omega)]
      simp
    rw [ih, htake, hdrop, List.drop_eq_getElem_cons h, List.filter_cons_of_neg (by simp [hn]),
      List.any_cons, hn, Bool.true_or]
  | case2 i es h hn ih =>
    have hn : names d es[i] = false := by simpa using hn
    rw [ih, List.drop_eq_getElem_cons h, List.filter_cons_of_pos (by simp [hn]), List.any_cons, hn,
      Bool.false_or, List.take_succ_eq_append_getElem h, List.append_assoc, List.singleton_append]
  | case3 i es h =>
    have hle : es.length ≤ i := Nat.le_of_not_lt h
    simp [List.take_of_length_le hle, List.drop_of_length_le hle]

theorem findIdx?_append_cons {before after : List Entry} {first : Entry}
    (hbefore : ∀ e ∈ before, names d e = false) (hfirst : names d first = true) :
    (before ++ first :: after).findIdx? (names d) = some before.length := by
  induction before with
  | nil => simp [List.findIdx?_cons, hfirst]
  | cons e before ih =>
    obtain ⟨he, hrest⟩ := List.forall_mem_cons.mp hbefore
    simp [List.findIdx?_cons, he, ih hrest]

theorem upsertInPlace_eq (d : δ) (es : List Entry) : upsertInPlace d es = upsert d es := by
  cases hany : es.any (names d) with
  | false =>
    have hnone : ∀ e ∈ es, names d e = false := by simpa using hany
    have hidx : es.findIdx? (names d) = none := by simpa [List.findIdx?_eq_none_iff] using hnone
    simp only [upsertInPlace, hidx, upsert_of_absent hnone]
  | true =>
    obtain ⟨before, first, after, rfl, hbefore, hfirst⟩ := exists_first hany
    have htake : (before ++ first :: after).take (before.length + 1) = before ++ [first] := by
      simp [List.take_append]
    have hdrop : (before ++ first :: after).drop (before.length + 1) = after := by
      simp [List.drop_append]
    have hget : (before ++ first :: after)[before.length]? = some first := by simp
    simp only [upsertInPlace, findIdx?_append_cons hbefore hfirst, sweep_eq, htake, hdrop, hget,
      upsert_append_cons hbefore hfirst]
    cases hafter : after.any (names d) with
    | true => simp
    | false =>
      by_cases hline : first = .line (Directive.render d)
      · simp [hline]
      · simp [hline]

section
variable [LawfulDirective δ]

theorem upsert_upsert (hd : ReadsBack d) (es : List Entry) :
    upsert d (upsert d es).1 = ((upsert d es).1, .unchanged) := by
  have hsame : (upsert d (upsert d es).1).1 = (upsert d es).1 := by
    rw [upsert_of_countP_eq_one (countP_upsert_self hd es)]
    refine (List.map_congr_left ?_).trans (List.map_id _)
    intro e he
    obtain rfl | ⟨_, hn⟩ := eq_or_of_mem_upsert he
    · exact ite_self _
    · exact if_neg (by simp [hn])
  exact Prod.ext hsame (upsert_snd_eq_unchanged_iff.mpr hsame)

theorem removeFirst_upsert (hd : ReadsBack d) {k : δ} (hk : Directive.same k d = true)
    (es : List Entry) : removeFirst k (upsert d es).1 = (es.filter fun e => !names d e, true) := by
  have hone := countP_upsert_self hd es
  have hnames : names k = names d := funext (names_congr hk)
  have hany : (upsert d es).1.any (names d) = true := by
    rw [List.any_eq_true, ← List.countP_pos_iff, hone]
    decide
  have hsame : removeFirst k (upsert d es).1 = removeFirst d (upsert d es).1 := by
    simp only [removeFirst, hnames]
  have hkept := filter_upsert (fun _ he => he) (names_line_self hd) es
  rw [hsame]
  exact Prod.ext ((removeFirst_eq_filter hone.le).trans hkept) hany

theorem filter_names_upsert (hd : ReadsBack d) (es : List Entry) :
    (upsert d es).1.filter (names d) = [.line (Directive.render d)] := by
  have hone := countP_upsert_self hd es
  rw [List.countP_eq_length_filter] at hone
  obtain ⟨e, he⟩ := List.length_eq_one_iff.mp hone
  have hline : .line (Directive.render d) ∈ (upsert d es).1.filter (names d) :=
    List.mem_filter.mpr ⟨line_mem_upsert d es, names_line_self hd⟩
  rw [he, List.mem_singleton] at hline
  rw [he, hline]

/-- What an upsert makes of the entries, and what the removal of the same directive leaves of
them. -/
structure Collapses (d : δ) (es : List Entry) : Prop where
  inPlace : upsertInPlace d es = upsert d es
  absent : es.any (names d) = false → upsert d es = (es ++ [.line (Directive.render d)], .appended)
  present : es.any (names d) = true → ∃ before first after, es = before ++ first :: after ∧
    (∀ e ∈ before, names d e = false) ∧ names d first = true ∧ (upsert d es).2 ≠ .appended ∧
    (upsert d es).1 = before ++ .line (Directive.render d) :: after.filter fun e => !names d e
  single : (upsert d es).1.filter (names d) = [.line (Directive.render d)]
  unchanged_iff : (upsert d es).2 = .unchanged ↔ (upsert d es).1 = es
  again : upsert d (upsert d es).1 = ((upsert d es).1, .unchanged)
  removal : ∀ k : δ, Directive.same k d = true →
    removeFirst k (upsert d es).1 = (es.filter fun e => !names d e, true)

theorem collapses (hd : ReadsBack d) (es : List Entry) : Collapses d es where
  inPlace := upsertInPlace_eq d es
  absent h := upsert_of_absent (by simpa using h)
  present h := by
    obtain ⟨before, first, after, rfl, hbefore, hfirst⟩ := exists_first h
    refine ⟨before, first, after, rfl, hbefore, hfirst, ?_, ?_⟩
    · rw [upsert_append_cons hbefore hfirst]
      dsimp only
      split <;> decide
    · rw [upsert_append_cons hbefore hfirst]
  single := filter_names_upsert hd es
  unchanged_iff := upsert_snd_eq_unchanged_iff
  again := upsert_upsert hd es
  removal _ hk := removeFirst_upsert hd hk es

end

/-- Directives of every kind that can be read back collapse to one canonical line. -/
theorem upsert_collapses (es : List Entry) :
    (∀ d : Definition, ReadsBack d → Collapses d es) ∧
    (∀ d : LinkLibrary, ReadsBack d → Collapses d es) ∧
    ∀ d : Subdirectory, ReadsBack d → Collapses d es :=
  ⟨fun _ hd => collapses hd es, fun _ hd => collapses hd es, fun _ hd => collapses hd es⟩

/-- Two spellings of a definition around a region and a comment, and the same symbol for another
scope. -/
def sampleEntries : List Entry :=
  [.line "target_compile_definitions( app PUBLIC -DX=0 )", .region "inner" .nil, .line "# kept",
    .line "target_compile_definitions(app PUBLIC -DX)",
      .line "target_compile_definitions(app PRIVATE -DX)"]

/-- The definition is left once, with its value, and a removal that names another value takes it
away. -/
theorem upsert_collapses_spellings :
    ReadsBack (Definition.mk "app" .scopePublic "X" (some "1")) ∧
    upsert (Definition.mk "app" .scopePublic "X" (some "1")) sampleEntries =
      ([.line "target_compile_definitions(app PUBLIC -DX=1)", .region "inner" .nil, .line "# kept",
        .line "target_compile_definitions(app PRIVATE -DX)"], .replaced) ∧
    removeFirst (Definition.mk "app" .scopePublic "X" none)
        [.line "target_compile_definitions(app PUBLIC -DX=1)", .region "inner" .nil, .line "# kept",
          .line "target_compile_definitions(app PRIVATE -DX)"] =
      ([.region "inner" .nil, .line "# kept", .line "target_compile_definitions(app PRIVATE -DX)"],
        true) := by
  have hback : ReadsBack (Definition.mk "app" .scopePublic "X" (some "1")) := by decide +kernel
  have hupsert : upsert (Definition.mk "app" .scopePublic "X" (some "1")) sampleEntries =
      ([.line "target_compile_definitions(app PUBLIC -DX=1)", .region "inner" .nil, .line "# kept",
        .line "target_compile_definitions(app PRIVATE -DX)"], .replaced) := by decide +kernel
  have hkept :
      (sampleEntries.filter fun e => !names (Definition.mk "app" .scopePublic "X" (some "1")) e) =
      [.region "inner" .nil, .line "# kept",
        .line "target_compile_definitions(app PRIVATE -DX)"] := by
    decide +kernel
  have hremoval :=
    ((upsert_collapses sampleEntries).1 _ hback).removal ⟨"app", .scopePublic, "X", none⟩ rfl
  rw [hupsert, hkept] at hremoval
  exact ⟨hback, hupsert, hremoval⟩

end BuildFile.Edit
