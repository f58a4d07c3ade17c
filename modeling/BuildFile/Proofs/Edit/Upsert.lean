import BuildFile.Edit
import BuildFile.Proofs.Directive
import Mathlib.Data.List.Induction
/-! Upserts of directives, one and many. After some upserts every directive among them is named by
exactly one line, and an entry that is left over would not be changed by going over it again: the
last directive of a kind has the last word. So a second pass over the same directives gives the same
entries, and reports nothing when directives about the same thing are written alike. -/
namespace BuildFile.Edit
variable {δ : Type} [Directive δ] {d k : δ} {e : Entry} {es : List Entry}

/-! One upsert, by recursion on the entries. -/

theorem upsert_nil (d : δ) : upsert d [] = ([.line (Directive.render d)], .appended) := rfl

theorem upsert_cons_of_names (h : names d e = true) (es : List Entry) :
    upsert d (e :: es) = (.line (Directive.render d) :: es.filter fun a => !names d a,
      if e = .line (Directive.render d) ∧ (es.filter fun a => !names d a).length = es.length
      then .unchanged else .replaced) := by
  simp only [upsert, List.dropWhile_cons, List.takeWhile_cons, h, Bool.not_true, Bool.false_eq_true,
    if_false, List.nil_append]
  split
  case isTrue hu =>
    have hkept : (es.filter fun a => !names d a) = es :=
      List.filter_sublist.eq_of_length hu.2
    rw [hkept, hu.1]
  case isFalse => rfl

theorem upsert_cons_of_not_names (h : names d e = false) (es : List Entry) :
    upsert d (e :: es) = (e :: (upsert d es).1, (upsert d es).2) := by
  simp only [upsert, List.dropWhile_cons, List.takeWhile_cons, h, Bool.not_false, if_true]
  cases hdrop : es.dropWhile fun a => !names d a with
  | nil => rfl
  | cons first after =>
    dsimp only
    split <;> rfl

theorem upsert_snd_eq_unchanged_iff : (upsert d es).2 = .unchanged ↔ (upsert d es).1 = es := by
  induction es with
  | nil => simp [upsert_nil]
  | cons e es ih =>
    cases h : names d e with
    | false => simpa [upsert_cons_of_not_names h] using ih
    | true =>
      have hlength : (es.filter fun a => !names d a).length = es.length ↔
          (es.filter fun a => !names d a) = es :=
        ⟨List.filter_sublist.eq_of_length, congrArg List.length⟩
      simp [upsert_cons_of_names h, hlength, eq_comm]

/-- What an upsert leaves of the entries is not named by its directive. -/
theorem eq_or_of_mem_upsert (h : e ∈ (upsert d es).1) :
    e = .line (Directive.render d) ∨ (e ∈ es ∧ names d e = false) := by
  induction es with
  | nil => exact .inl (List.mem_singleton.mp h)
  | cons a es ih =>
    cases ha : names d a with
    | true =>
      rw [upsert_cons_of_names ha, List.mem_cons, List.mem_filter] at h
      obtain h | ⟨hm, hn⟩ := h
      · exact .inl h
      · exact .inr ⟨List.mem_cons_of_mem a hm, by simpa using hn⟩
    | false =>
      rw [upsert_cons_of_not_names ha, List.mem_cons] at h
      obtain rfl | h := h
      · exact .inr ⟨by simp, ha⟩
      · exact (ih h).imp_right fun h => ⟨List.mem_cons_of_mem a h.1, h.2⟩

theorem upsertAll_append (ds ks : List δ) (es : List Entry) :
    (upsertAll (ds ++ ks) es).1 = (upsertAll ks (upsertAll ds es).1).1 := by
  induction ds generalizing es with
  | nil => rfl
  | cons d ds ih => exact ih (upsert d es).1

theorem removeAll_append (ds ks : List δ) (es : List Entry) :
    (removeAll (ds ++ ks) es).1 = (removeAll ks (removeAll ds es).1).1 := by
  induction ds generalizing es with
  | nil => rfl
  | cons d ds ih => exact ih (removeFirst d es).1

theorem Change.isEmpty_iff {c : Change} : c.isEmpty = true ↔ c = {} := by
  cases c
  simp [Change.isEmpty, and_assoc]

theorem Change.add_eq_empty_iff {a b : Change} : a + b = {} ↔ a = {} ∧ b = {} := by
  change Change.mk (a.added + b.added) (a.replaced + b.replaced) (a.removed + b.removed) = {} ↔ _
  cases a
  cases b
  simp only [Change.mk.injEq]
  omega

theorem Upsert.change_eq_empty_iff {u : Upsert} : u.change = {} ↔ u = .unchanged := by
  cases u <;> decide

/-- Upserts report nothing exactly if none of them would change the entries. -/
theorem upsertAll_snd_eq_empty_iff {ds : List δ} :
    (upsertAll ds es).2 = {} ↔ ∀ d ∈ ds, (upsert d es).1 = es := by
  induction ds with
  | nil => simp [upsertAll]
  | cons d ds ih =>
    change (upsert d es).2.change + (upsertAll ds (upsert d es).1).2 = {} ↔ _
    rw [Change.add_eq_empty_iff, Upsert.change_eq_empty_iff, upsert_snd_eq_unchanged_iff,
      List.forall_mem_cons]
    constructor
    · intro h
      obtain ⟨hd, hds⟩ := h
      rw [hd, ih] at hds
      exact ⟨hd, hds⟩
    · intro h
      obtain ⟨hd, hds⟩ := h
      rw [hd, ih]
      exact ⟨rfl, hds⟩

theorem line_mem_upsert (d : δ) (es : List Entry) :
    .line (Directive.render d) ∈ (upsert d es).1 := by
  induction es with
  | nil => simp [upsert_nil]
  | cons e es ih =>
    cases h : names d e with
    | true => simp [upsert_cons_of_names h]
    | false => simp [upsert_cons_of_not_names h, ih]

/-! Which directives name the same lines. -/

theorem names_line_render (hk : ReadsBack k) (d : δ) :
    names d (.line (Directive.render k)) = Directive.same k d := by
  simp only [names, Entry.line?, Option.bind_some,
    show Directive.read (Directive.render k) = some k from hk]

section
variable [LawfulDirective δ]

theorem names_line_self (hd : ReadsBack d) : names d (.line (Directive.render d)) = true := by
  rw [names_line_render hd]
  exact LawfulDirective.equivalence.refl d

theorem same_of_names (hd : names d e = true) (hk : names k e = true) :
    Directive.same k d = true := by
  unfold names at hd hk
  cases hr : (e.line?.bind Directive.read : Option δ) with
  | none => simp [hr] at hd
  | some found =>
    simp only [hr] at hd hk
    exact LawfulDirective.equivalence.trans (LawfulDirective.equivalence.symm hk) hd

theorem names_of_same (h : Directive.same k d = true) (hk : names k e = true) :
    names d e = true := by
  unfold names at hk ⊢
  cases hr : (e.line?.bind Directive.read : Option δ) with
  | none => simp [hr] at hk
  | some found =>
    simp only [hr] at hk ⊢
    exact LawfulDirective.equivalence.trans hk h

theorem names_congr (h : Directive.same k d = true) (e : Entry) : names k e = names d e := by
  rw [Bool.eq_iff_iff]
  exact ⟨names_of_same h, names_of_same (LawfulDirective.equivalence.symm h)⟩

/-! One line for each directive. -/

theorem countP_upsert_self (hd : ReadsBack d) (es : List Entry) :
    (upsert d es).1.countP (names d) = 1 := by
  have hline := names_line_self hd
  induction es with
  | nil => simp [upsert_nil, hline]
  | cons e es ih =>
    cases h : names d e with
    | true => simp [upsert_cons_of_names h, hline, List.countP_filter]
    | false => simpa [upsert_cons_of_not_names h, h] using ih

theorem countP_upsert_of_not_same (hk : ReadsBack k) (h : Directive.same k d = false)
    (es : List Entry) : (upsert k es).1.countP (names d) = es.countP (names d) := by
  have hline : names d (.line (Directive.render k)) = false := by rw [names_line_render hk, h]
  have hother (a : Entry) (ha : names k a = true) : names d a = false := by
    by_contra hd
    rw [same_of_names (by simpa using hd) ha] at h
    cases h
  induction es with
  | nil => simp [upsert_nil, hline]
  | cons e es ih =>
    cases he : names k e with
    | true =>
      have hsub : es.countP (fun a => names d a && !names k a) = es.countP (names d) := by
        apply List.countP_congr
        intro a _
        cases ha : names k a <;> simp [hother a, ha]
      simp [upsert_cons_of_names he, hline, hother e he, List.countP_filter, hsub]
    | false => simp [upsert_cons_of_not_names he, List.countP_cons, ih]

theorem countP_upsert (hk : ReadsBack k) (h : es.countP (names d) = 1) :
    (upsert k es).1.countP (names d) = 1 := by
  cases hs : Directive.same k d with
  | false => rw [countP_upsert_of_not_same hk hs, h]
  | true =>
    rw [show names d = names k from (funext (names_congr hs)).symm]
    exact countP_upsert_self hk es

theorem countP_upsertAll {ds : List δ} (hds : ∀ k ∈ ds, ReadsBack k)
    (h : es.countP (names d) = 1) : (upsertAll ds es).1.countP (names d) = 1 := by
  induction ds generalizing es with
  | nil => exact h
  | cons k ds ih =>
    exact ih (fun j hj => hds j (List.mem_cons_of_mem k hj)) (countP_upsert (hds k (by simp)) h)

theorem countP_upsertAll_of_mem {ds : List δ} (hds : ∀ k ∈ ds, ReadsBack k) (hd : d ∈ ds)
    (es : List Entry) : (upsertAll ds es).1.countP (names d) = 1 := by
  induction ds generalizing es with
  | nil => cases hd
  | cons k ds ih =>
    have hrest : ∀ j ∈ ds, ReadsBack j := fun j hj => hds j (List.mem_cons_of_mem k hj)
    obtain rfl | hd := List.mem_cons.mp hd
    · have hone := countP_upsertAll hrest (countP_upsert_self (hds d (by simp)) es)
      exact hone
    · exact ih hrest hd (upsert k es).1

/-! Going over the entries again. -/

/-- An entry, rewritten if it is a line that names `d`. -/
def settle (d : δ) (e : Entry) : Entry := if names d e then .line (Directive.render d) else e

def settleAll (ds : List δ) (e : Entry) : Entry := ds.foldl (fun e d => settle d e) e

theorem names_settle (hk : ReadsBack k) (d : δ) (e : Entry) : names d (settle k e) = names d e := by
  unfold settle
  split
  case isTrue h =>
    rw [names_line_render hk, Bool.eq_iff_iff]
    exact ⟨fun hs => names_of_same hs h, fun hd => same_of_names hd h⟩
  case isFalse => rfl

theorem names_settleAll {ds : List δ} (hds : ∀ k ∈ ds, ReadsBack k) (d : δ) (e : Entry) :
    names d (settleAll ds e) = names d e := by
  induction ds generalizing e with
  | nil => rfl
  | cons k ds ih =>
    refine (ih (fun j hj => hds j (List.mem_cons_of_mem k hj)) (settle k e)).trans ?_
    exact names_settle (hds k (by simp)) d e

omit [LawfulDirective δ] in
theorem upsert_of_countP_eq_one (h : es.countP (names d) = 1) :
    (upsert d es).1 = es.map (settle d) := by
  induction es with
  | nil => cases h
  | cons e es ih =>
    cases he : names d e with
    | false =>
      rw [List.countP_cons_of_neg (by simp [he])] at h
      simp [upsert_cons_of_not_names he, settle, he, ih h]
    | true =>
      rw [List.countP_cons_of_pos he] at h
      have hnone : ∀ a ∈ es, names d a = false := by
        simpa using List.countP_eq_zero.mp (Nat.succ.inj h)
      have hkept : (es.filter fun a => !names d a) = es :=
        List.filter_eq_self.mpr fun a ha => by simp [hnone a ha]
      have hmap : es.map (settle d) = es :=
        (List.map_congr_left fun a ha => by simp [settle, hnone a ha]).trans (List.map_id es)
      rw [upsert_cons_of_names he, hkept, List.map_cons, hmap, settle, if_pos he]

theorem upsertAll_of_countP_eq_one {ds : List δ} (hds : ∀ k ∈ ds, ReadsBack k)
    (h : ∀ d ∈ ds, es.countP (names d) = 1) : (upsertAll ds es).1 = es.map (settleAll ds) := by
  induction ds generalizing es with
  | nil => exact (List.map_id es).symm
  | cons k ds ih =>
    have hk := hds k (by simp)
    have hstep : ∀ d ∈ ds, (es.map (settle k)).countP (names d) = 1 := by
      intro d hd
      rw [List.countP_map, show names d ∘ settle k = names d from funext (names_settle hk d)]
      exact h d (List.mem_cons_of_mem k hd)
    have hrest := ih (fun j hj => hds j (List.mem_cons_of_mem k hj)) hstep
    change (upsertAll ds (upsert k es).1).1 = _
    rw [upsert_of_countP_eq_one (h k (by simp)), hrest, List.map_map]
    rfl

/-- The entries that upserts leave are the ones that they would leave again. -/
theorem settleAll_of_mem_upsertAll {ds : List δ} (hds : ∀ k ∈ ds, ReadsBack k)
    (h : e ∈ (upsertAll ds es).1) : settleAll ds e = e := by
  -- From the last directive backwards: it decides about the lines that it names.
  induction ds using List.reverseRecOn with
  | nil => rfl
  | append_singleton ds d ih =>
    have hrest : ∀ k ∈ ds, ReadsBack k := fun k hk => hds k (List.mem_append_left [d] hk)
    have hsnoc : settleAll (ds ++ [d]) e = settle d (settleAll ds e) := by simp [settleAll]
    rw [upsertAll_append] at h
    rw [hsnoc]
    obtain rfl | ⟨hm, hn⟩ := eq_or_of_mem_upsert (show e ∈ (upsert d (upsertAll ds es).1).1 from h)
    · rw [settle, names_settleAll hrest, names_line_self (hds d (by simp)), if_pos rfl]
    · rw [ih hrest hm, settle, hn]
      rfl

theorem settleAll_eq_of_names {ds : List δ} (hds : ∀ k ∈ ds, ReadsBack k) (hd : d ∈ ds)
    (h : names d e = true) :
    ∃ k ∈ ds, Directive.same k d = true ∧ settleAll ds e = .line (Directive.render k) := by
  induction ds using List.reverseRecOn with
  | nil => cases hd
  | append_singleton ds j ih =>
    have hrest : ∀ k ∈ ds, ReadsBack k := fun k hk => hds k (List.mem_append_left [j] hk)
    have hsnoc : settleAll (ds ++ [j]) e = settle j (settleAll ds e) := by simp [settleAll]
    rw [hsnoc, settle, names_settleAll hrest]
    cases hj : names j e with
    | true => exact ⟨j, by simp, same_of_names h hj, by simp⟩
    | false =>
      have hne : d ≠ j := fun he => by rw [← he, h] at hj; cases hj
      have hd : d ∈ ds := by simpa [hne] using hd
      obtain ⟨k, hk, hs, he⟩ := ih hrest hd
      exact ⟨k, by simp [hk], hs, by simpa using he⟩

theorem upsertAll_upsertAll {ds : List δ} (hds : ∀ k ∈ ds, ReadsBack k) (es : List Entry) :
    (upsertAll ds (upsertAll ds es).1).1 = (upsertAll ds es).1 := by
  have hone : ∀ d ∈ ds, (upsertAll ds es).1.countP (names d) = 1 :=
    fun d hd => countP_upsertAll_of_mem hds hd es
  rw [upsertAll_of_countP_eq_one hds hone]
  exact (List.map_congr_left fun e he => settleAll_of_mem_upsertAll hds he).trans (List.map_id _)

/-- Directives about the same thing are written alike. -/
def Agree (ds : List δ) : Prop :=
  ∀ d ∈ ds, ∀ k ∈ ds, Directive.same k d = true → Directive.render k = Directive.render d

theorem upsert_upsertAll_of_agree {ds : List δ} (hds : ∀ k ∈ ds, ReadsBack k) (ha : Agree ds)
    (hd : d ∈ ds) (es : List Entry) : (upsert d (upsertAll ds es).1).1 = (upsertAll ds es).1 := by
  rw [upsert_of_countP_eq_one (countP_upsertAll_of_mem hds hd es)]
  refine (List.map_congr_left ?_).trans (List.map_id _)
  intro e he
  change settle d e = e
  cases hn : names d e with
  | false => simp [settle, hn]
  | true =>
    obtain ⟨k, hk, hs, hline⟩ := settleAll_eq_of_names hds hd hn
    rw [settleAll_of_mem_upsertAll hds he] at hline
    rw [settle, if_pos hn, hline, ha d hd k hk hs]

omit [LawfulDirective δ] in
/-- Directives that leave the entries alone have their lines there, one for each thing. -/
theorem agree_of_forall_upsert_eq {ds : List δ} (hds : ∀ k ∈ ds, ReadsBack k)
    (h : ∀ d ∈ ds, (upsert d es).1 = es) : Agree ds := by
  intro d hd k hk hs
  have hmem : Entry.line (Directive.render k) ∈ (upsert d es).1 := by
    have hline := line_mem_upsert k es
    rwa [h k hk, ← h d hd] at hline
  obtain he | ⟨_, hn⟩ := eq_or_of_mem_upsert hmem
  · exact Entry.line.inj he
  · rw [names_line_render (hds k hk), hs] at hn
    cases hn

theorem upsertAll_upsertAll_snd_iff {ds : List δ} (hds : ∀ k ∈ ds, ReadsBack k) (es : List Entry) :
    (upsertAll ds (upsertAll ds es).1).2 = {} ↔ Agree ds := by
  rw [upsertAll_snd_eq_empty_iff]
  exact ⟨agree_of_forall_upsert_eq hds, fun ha d hd => upsert_upsertAll_of_agree hds ha hd es⟩

end
end BuildFile.Edit
