import BuildFile.Proofs.Edit.Distinct
/-! Where upserts leave their lines. Put the requested lines behind the entries, keep of all entries
about one requested directive only the first, and give it the last requested form: that is what the
upserts make. So a directive that was there keeps the place of its first line, one that was not
comes after all entries, in the order of the request, and the entries about nothing that is
requested are as they were. -/
namespace BuildFile.Edit

/-! Keeping the first of each kind. -/

section
variable {α : Type} {r s : α → α → Bool} {l before : List α} {a : α}

/-- Induction for a recursion that goes on with some of the elements after the first. -/
@[elab_as_elim]
theorem filter_induction {motive : List α → Prop} (nil : motive [])
    (cons : ∀ a l, (∀ p : α → Bool, motive (l.filter p)) → motive (a :: l)) (l : List α) :
    motive l := by
  induction hn : l.length using Nat.strongRecOn generalizing l with
  | ind n ih =>
    cases l with
    | nil => exact nil
    | cons a l =>
      refine cons a l fun p => ih _ ?_ _ rfl
      rw [← hn, List.length_cons]
      exact Nat.lt_succ_of_le (List.length_filter_le p l)

theorem eraseDupsBy_sublist (r : α → α → Bool) (l : List α) : (l.eraseDupsBy r).Sublist l := by
  induction l using filter_induction with
  | nil => exact List.Sublist.refl []
  | cons a l ih =>
    rw [List.eraseDupsBy_cons]
    exact ((ih _).trans List.filter_sublist).cons_cons a

theorem eraseDupsBy_congr (h : ∀ a ∈ l, ∀ b ∈ l, r a b = s a b) :
    l.eraseDupsBy r = l.eraseDupsBy s := by
  induction l using filter_induction with
  | nil => rfl
  | cons a l ih =>
    have hfilter : (l.filter fun b => r b a = false) = l.filter fun b => s b a = false :=
      List.filter_congr fun b hb => by rw [h b (List.mem_cons_of_mem a hb) a (by simp)]
    rw [List.eraseDupsBy_cons, List.eraseDupsBy_cons, hfilter, ih]
    intro b hb c hc
    exact h b (List.mem_cons_of_mem a (List.mem_filter.mp hb).1) c
      (List.mem_cons_of_mem a (List.mem_filter.mp hc).1)

/-- What is kept before the first element of a kind does not depend on what comes after. -/
theorem exists_eraseDupsBy_append_cons (h : ∀ b ∈ before, r a b = false) (after : List α) :
    ∃ right, (before ++ a :: after).eraseDupsBy r = before.eraseDupsBy r ++ a :: right := by
  induction before using filter_induction generalizing after with
  | nil => exact ⟨_, by rw [List.nil_append, List.eraseDupsBy_cons]; rfl⟩
  | cons b before ih =>
    obtain ⟨right, hright⟩ := ih (fun c => r c b = false)
      (fun c hc => h c (List.mem_cons_of_mem b (List.mem_filter.mp hc).1))
      (after.filter fun c => r c b = false)
    refine ⟨right, ?_⟩
    rw [List.cons_append, List.eraseDupsBy_cons, List.filter_append,
      List.filter_cons_of_pos (by simpa using h b (by simp)), hright, List.eraseDupsBy_cons]
    rfl

end

variable {δ : Type} [Directive δ] {d k : δ} {ds : List δ} {e : Entry} {es : List Entry}

/-- The canonical line of a directive, as an entry. -/
def lineOf (d : δ) : Entry := .line (Directive.render d)

/-- Whether some directive of the list is named by both entries. -/
def aboutOne (ds : List δ) (a b : Entry) : Bool := ds.any fun d => names d a && names d b

theorem aboutOne_iff {a b : Entry} :
    aboutOne ds a b = true ↔ ∃ d ∈ ds, names d a = true ∧ names d b = true := by
  simp [aboutOne]

theorem aboutOne_cons (d : δ) (ds : List δ) (a b : Entry) :
    aboutOne (d :: ds) a b = (names d a && names d b || aboutOne ds a b) := rfl

theorem upsert_filter {p : Entry → Bool} (hp : ∀ a, names d a = true → p a = true)
    (hline : p (lineOf d) = true) (es : List Entry) :
    (upsert d (es.filter p)).1 = (upsert d es).1.filter p := by
  rw [lineOf] at hline
  induction es with
  | nil => simp [upsert_nil, hline]
  | cons e es ih =>
    cases he : names d e with
    | true =>
      rw [List.filter_cons_of_pos (hp e he), upsert_cons_of_names he, upsert_cons_of_names he,
        List.filter_cons_of_pos hline, List.filter_filter, List.filter_filter]
      simp only [Bool.and_comm]
    | false =>
      rw [upsert_cons_of_not_names he, List.filter_cons]
      cases hpe : p e with
      | true => rw [if_pos rfl, upsert_cons_of_not_names he, List.filter_cons_of_pos hpe, ih]
      | false => rw [if_neg (by simp), List.filter_cons_of_neg (by simp [hpe]), ih]

section
variable [LawfulDirective δ]

/-! The first entry, and then the rest. -/

/-- The first entry keeps its place. The directives that it is about, and the later entries about
them, have nothing more to say. -/
theorem upsertAll_cons_entry (hds : ∀ k ∈ ds, ReadsBack k) (e : Entry) (es : List Entry) :
    (upsertAll ds (e :: es)).1 = settleAll ds e ::
      (upsertAll (ds.filter fun k => !names k e) (es.filter fun a => !aboutOne ds a e)).1 := by
  induction ds generalizing e es with
  | nil =>
    have hall : (es.filter fun a => !aboutOne ([] : List δ) a e) = es :=
      List.filter_eq_self.mpr fun _ _ => rfl
    rw [List.filter_nil, hall]
    rfl
  | cons d ds ih =>
    have hd := hds d (by simp)
    have hrest : ∀ k ∈ ds, ReadsBack k := fun k hk => hds k (List.mem_cons_of_mem d hk)
    change (upsertAll ds (upsert d (e :: es)).1).1 = settleAll ds (settle d e) :: _
    cases he : names d e with
    | true =>
      have hsettle : settle d e = .line (Directive.render d) := if_pos he
      have hsame (k : δ) : names k (.line (Directive.render d)) = names k e := by
        rw [← hsettle, names_settle hd]
      have habout (a : Entry) : aboutOne ds a (.line (Directive.render d)) = aboutOne ds a e := by
        simp only [aboutOne, hsame]
      have hfilter : ((es.filter fun a => !names d a).filter fun a => !aboutOne ds a e) =
          es.filter fun a => !aboutOne (d :: ds) a e := by
        rw [List.filter_filter]
        refine List.filter_congr fun a _ => ?_
        rw [aboutOne_cons, he, Bool.and_true, Bool.not_or, Bool.and_comm]
      rw [upsert_cons_of_names he, ih hrest, hsettle, List.filter_cons_of_neg (by simp [he])]
      simp only [hsame, habout, hfilter]
    | false =>
      have hsettle : settle d e = e := if_neg (by simp [he])
      -- A directive that the first entry is not about shares no line with those that it is about.
      have hother (a : Entry) (ha : names d a = true) : (!aboutOne ds a e) = true := by
        by_contra habout
        obtain ⟨k, _, hka, hke⟩ := aboutOne_iff.mp (by simpa using habout)
        rw [names_of_same (same_of_names ha hka) hke] at he
        cases he
      have hkept := upsert_filter hother (hother _ (names_line_self hd)) es
      rw [upsert_cons_of_not_names he, ih hrest, hsettle, ← hkept,
        List.filter_cons_of_pos (by simp [he])]
      simp only [aboutOne_cons, he, Bool.and_false, Bool.false_or]
      rfl

theorem settleAll_filter {p : δ → Bool} (hds : ∀ k ∈ ds, ReadsBack k)
    (h : ∀ k ∈ ds, p k = false → names k e = false) :
    settleAll (ds.filter p) e = settleAll ds e := by
  induction ds generalizing e with
  | nil => rfl
  | cons d ds ih =>
    have hrest : ∀ k ∈ ds, ReadsBack k := fun k hk => hds k (List.mem_cons_of_mem d hk)
    have hnext : ∀ k ∈ ds, p k = false → names k (settle d e) = false := by
      intro k hk hpk
      rw [names_settle (hds d (by simp))]
      exact h k (List.mem_cons_of_mem d hk) hpk
    cases hp : p d with
    | true =>
      rw [List.filter_cons_of_pos hp]
      exact ih hrest hnext
    | false =>
      have hsettle : settle d e = e := if_neg (by simp [h d (by simp) hp])
      rw [hsettle] at hnext
      rw [List.filter_cons_of_neg (by simp [hp]), ih hrest hnext]
      exact congrArg (settleAll ds) hsettle.symm

theorem aboutOne_lineOf (hds : ∀ k ∈ ds, ReadsBack k) (hk : k ∈ ds) (e : Entry) :
    aboutOne ds (lineOf k) e = names k e := by
  rw [Bool.eq_iff_iff, aboutOne_iff]
  constructor
  · intro h
    obtain ⟨j, _, hjk, hje⟩ := h
    rw [lineOf, names_line_render (hds k hk)] at hjk
    exact names_of_same (LawfulDirective.equivalence.symm hjk) hje
  · exact fun h => ⟨k, hk, names_line_self (hds k hk), h⟩

/-- The entries and requested lines, each about its directives in its last form, the first of each
only. -/
def placed (ds : List δ) (es : List Entry) : List Entry :=
  ((es ++ ds.map lineOf).eraseDupsBy (aboutOne ds)).map (settleAll ds)

/-- The same step for what is placed. -/
theorem placed_cons_entry (hds : ∀ k ∈ ds, ReadsBack k) (e : Entry) (es : List Entry) :
    placed ds (e :: es) = settleAll ds e ::
      placed (ds.filter fun k => !names k e) (es.filter fun a => !aboutOne ds a e) := by
  have hrest : ((es ++ ds.map lineOf).filter fun a => aboutOne ds a e = false) =
      (es.filter fun a => !aboutOne ds a e) ++ (ds.filter fun k => !names k e).map lineOf := by
    rw [List.filter_append, List.filter_map]
    congr 1
    · exact List.filter_congr fun a _ => by cases aboutOne ds a e <;> rfl
    · congr 1
      refine List.filter_congr fun k hk => ?_
      rw [Function.comp_apply, aboutOne_lineOf hds hk]
      cases names k e <;> rfl
  -- None of the entries that are left is about a directive of the first one.
  have hleft :
      ∀ a ∈ (es.filter fun a => !aboutOne ds a e) ++ (ds.filter fun k => !names k e).map lineOf,
      ∀ k ∈ ds, (!names k e) = false → names k a = false := by
    intro a ha k hk hke
    rw [← hrest] at ha
    by_contra hka
    have hnot := (List.mem_filter.mp ha).2
    rw [decide_eq_true_eq, aboutOne_iff.mpr ⟨k, hk, by simpa using hka, by simpa using hke⟩] at hnot
    cases hnot
  have hcongr : ((es.filter fun a => !aboutOne ds a e) ++
        (ds.filter fun k => !names k e).map lineOf).eraseDupsBy (aboutOne ds) =
      ((es.filter fun a => !aboutOne ds a e) ++
        (ds.filter fun k => !names k e).map lineOf).eraseDupsBy
          (aboutOne (ds.filter fun k => !names k e)) := by
    apply eraseDupsBy_congr
    intro a ha b _
    rw [Bool.eq_iff_iff, aboutOne_iff, aboutOne_iff]
    constructor
    · intro h
      obtain ⟨k, hk, hka, hkb⟩ := h
      refine ⟨k, List.mem_filter.mpr ⟨hk, ?_⟩, hka, hkb⟩
      by_contra hke
      rw [hleft a ha k hk (by simpa using hke)] at hka
      cases hka
    · intro h
      obtain ⟨k, hk, hka, hkb⟩ := h
      exact ⟨k, (List.mem_filter.mp hk).1, hka, hkb⟩
  rw [placed, List.cons_append, List.eraseDupsBy_cons, List.map_cons, hrest, hcongr]
  congr 1
  refine List.map_congr_left fun a ha => ?_
  exact (settleAll_filter hds (hleft a ((eraseDupsBy_sublist _ _).mem ha))).symm

/-! All of them. -/

theorem upsertAll_nil_eq_placed (hds : ∀ k ∈ ds, ReadsBack k) :
    (upsertAll ds []).1 = placed ds [] := by
  induction ds using filter_induction with
  | nil => rfl
  | cons d ds ih =>
    have hd := hds d (by simp)
    have hself : names d (lineOf d) = true := names_line_self hd
    -- With its line there at the start, the first directive changes nothing more.
    have hupsert : (upsertAll (d :: ds) []).1 = (upsertAll (d :: ds) [lineOf d]).1 := by
      change (upsertAll ds (upsert d []).1).1 = (upsertAll ds (upsert d [lineOf d]).1).1
      rw [upsert_cons_of_names hself]
      rfl
    have hplaced : placed (d :: ds) [] = placed (d :: ds) [lineOf d] := by
      have habout : aboutOne (d :: ds) (lineOf d) (lineOf d) = true :=
        aboutOne_iff.mpr ⟨d, by simp, hself, hself⟩
      simp only [placed, List.map_cons, List.nil_append, List.cons_append, List.eraseDupsBy_cons]
      rw [List.filter_cons_of_neg (by simp [habout])]
    rw [hupsert, hplaced, upsertAll_cons_entry hds, placed_cons_entry hds,
      List.filter_cons_of_neg (by simp [hself]), List.filter_nil]
    rw [ih _ fun k hk => hds k (List.mem_cons_of_mem d (List.mem_filter.mp hk).1)]

theorem upsertAll_eq_placed (hds : ∀ k ∈ ds, ReadsBack k) (es : List Entry) :
    (upsertAll ds es).1 = placed ds es := by
  induction es using filter_induction generalizing ds with
  | nil => exact upsertAll_nil_eq_placed hds
  | cons e es ih =>
    rw [upsertAll_cons_entry hds, placed_cons_entry hds]
    rw [ih _ fun k hk => hds k (List.mem_filter.mp hk).1]

/-! What this says about one directive. -/

omit [LawfulDirective δ] in
theorem exists_last_same (h : ∃ k ∈ ds, Directive.same k d = true) :
    ∃ pre k post, ds = pre ++ k :: post ∧ Directive.same k d = true ∧
      ∀ j ∈ post, Directive.same j d = false := by
  induction ds with
  | nil =>
    obtain ⟨k, hk, _⟩ := h
    cases hk
  | cons i ds ih =>
    by_cases hlater : ∃ k ∈ ds, Directive.same k d = true
    · obtain ⟨pre, k, post, rfl, hk, hpost⟩ := ih hlater
      exact ⟨i :: pre, k, post, rfl, hk, hpost⟩
    · obtain ⟨k, hk, hs⟩ := h
      obtain rfl | hk := List.mem_cons.mp hk
      · exact ⟨[], k, ds, rfl, hs, by simpa using hlater⟩
      · exact absurd ⟨k, hk, hs⟩ hlater

/-- The last directive about a line gives it its form. -/
theorem settleAll_append_cons {pre post : List δ} (hds : ∀ j ∈ pre ++ k :: post, ReadsBack j)
    (hk : names k e = true) (hpost : ∀ j ∈ post, names j e = false) :
    settleAll (pre ++ k :: post) e = lineOf k := by
  have hpre : ∀ j ∈ pre, ReadsBack j := fun j hj => hds j (List.mem_append_left _ hj)
  have hkback : ReadsBack k := hds k (by simp)
  have hsettle : settle k (settleAll pre e) = lineOf k := by
    rw [settle, names_settleAll hpre, if_pos hk]
    rfl
  have hlater : ∀ j ∈ post, names j (lineOf k) = false := by
    intro j hj
    rw [← hsettle, names_settle hkback, names_settleAll hpre]
    exact hpost j hj
  have hrest : settleAll post (lineOf k) = lineOf k := by
    rw [← settleAll_filter (fun j hj => hds j (by simp [hj])) fun j hj _ => hlater j hj]
    rw [List.filter_false]
    rfl
  calc
    settleAll (pre ++ k :: post) e = settleAll post (settle k (settleAll pre e)) := by
      simp [settleAll]
    _ = lineOf k := by rw [hsettle, hrest]

theorem exists_placed_append_cons (hds : ∀ k ∈ ds, ReadsBack k) {before after : List Entry}
    {first : Entry} (heq : es ++ ds.map lineOf = before ++ first :: after)
    (hbefore : ∀ e ∈ before, names d e = false)
    (hfirst : names d first = true) : ∃ line right, names d line = true ∧
      placed ds es = (before.eraseDupsBy (aboutOne ds)).map (settleAll ds) ++ line :: right := by
  have hnew : ∀ b ∈ before, aboutOne ds first b = false := by
    intro b hb
    by_contra habout
    obtain ⟨k, _, hkfirst, hkb⟩ := aboutOne_iff.mp (by simpa using habout)
    have hd : names d b = true := names_of_same (same_of_names hfirst hkfirst) hkb
    rw [hbefore b hb] at hd
    cases hd
  obtain ⟨right, hright⟩ := exists_eraseDupsBy_append_cons hnew after
  refine ⟨settleAll ds first, right.map (settleAll ds), by rw [names_settleAll hds, hfirst], ?_⟩
  rw [placed, heq, hright, List.map_append, List.map_cons]

/-- What adding directives makes of entries: one line for each, in the last form requested; the
other entries as they were; a line that was there in the place of the first one, a new line after
all entries and after the new lines requested before it. -/
structure Settled (ds : List δ) (es result : List Entry) : Prop where
  single : ∀ d ∈ ds, ∃ pre k post, ds = pre ++ k :: post ∧ Directive.same k d = true ∧
    (∀ j ∈ post, Directive.same j d = false) ∧ result.filter (names d) = [lineOf k]
  others : (result.filter fun e => !ds.any (names · e)) = es.filter fun e => !ds.any (names · e)
  order : result = placed ds es
  present : ∀ d ∈ ds, ∀ before first after, es = before ++ first :: after →
    (∀ e ∈ before, names d e = false) → names d first = true → ∃ line right, names d line = true ∧
      result = (before.eraseDupsBy (aboutOne ds)).map (settleAll ds) ++ line :: right
  absent : ∀ pre d post, ds = pre ++ d :: post → (∀ j ∈ pre, Directive.same j d = false) →
    es.any (names d) = false → ∃ line right, names d line = true ∧
      result = ((es ++ pre.map lineOf).eraseDupsBy (aboutOne ds)).map (settleAll ds) ++
        line :: right

theorem settled_upsertAll (hds : ∀ k ∈ ds, ReadsBack k) (es : List Entry) :
    Settled ds es (upsertAll ds es).1 where
  single d hd := by
    obtain ⟨pre, k, post, rfl, hk, hpost⟩ :=
      exists_last_same ⟨d, hd, LawfulDirective.equivalence.refl d⟩
    refine ⟨pre, k, post, rfl, hk, hpost, ?_⟩
    have hone := countP_upsertAll_of_mem hds hd es
    rw [List.countP_eq_length_filter] at hone
    obtain ⟨e, he⟩ := List.length_eq_one_iff.mp hone
    obtain ⟨hmem, hn⟩ := List.mem_filter.mp (he ▸ List.mem_singleton_self e)
    have hkn : names k e = true := names_of_same (LawfulDirective.equivalence.symm hk) hn
    have hlater : ∀ j ∈ post, names j e = false := by
      intro j hj
      by_contra hje
      have hsame : Directive.same j d = true := same_of_names hn (by simpa using hje)
      rw [hpost j hj] at hsame
      cases hsame
    rw [he, ← settleAll_of_mem_upsertAll hds hmem, settleAll_append_cons hds hkn hlater]
  others := filter_upsertAll hds (fun k hk e he => List.any_eq_true.mpr ⟨k, hk, he⟩) es
  order := upsertAll_eq_placed hds es
  present d _ before first after heq hbefore hfirst := by
    rw [upsertAll_eq_placed hds]
    exact exists_placed_append_cons hds (by rw [heq, List.append_assoc]; rfl) hbefore hfirst
  absent pre d post heq hpre habsent := by
    have hself := hds d (by simp [heq])
    rw [upsertAll_eq_placed hds]
    have hsplit : es ++ ds.map lineOf = (es ++ pre.map lineOf) ++ lineOf d :: post.map lineOf := by
      simp [heq]
    refine exists_placed_append_cons hds hsplit ?_ (names_line_self hself)
    intro e he
    obtain he | he := List.mem_append.mp he
    · simpa using List.any_eq_false.mp habsent e he
    · obtain ⟨j, hj, rfl⟩ := List.mem_map.mp he
      rw [lineOf, names_line_render (hds j (by simp [heq, hj])), hpre j hj]

end
end BuildFile.Edit
