import BuildFile.Proofs.Edit.Lines
import BuildFile.Proofs.Edit.Upsert
/-! Entries without duplicates. No two lines are about the same item exactly if every item is named
by at most one line; additions keep it so, and where it holds, removing the first line that names an
item removes all of them. Right after an addition it holds for the items that were added, so that
removing them leaves the entries that name none of them. -/
namespace BuildFile.Edit
variable {e : Entry} {es : List Entry}

/-- No property of the family is shared by two elements exactly if each belongs to at most one. -/
theorem pairwise_iff_countP_le_one {ι α : Type} {p : ι → α → Bool} {l : List α} :
    (l.Pairwise fun a b => ∀ i, p i a = true → p i b = false) ↔ ∀ i, l.countP (p i) ≤ 1 := by
  induction l with
  | nil => simp
  | cons a l ih =>
    rw [List.pairwise_cons, ih]
    constructor
    · intro h i
      obtain ⟨hhead, hrest⟩ := h
      cases ha : p i a with
      | false => simpa [List.countP_cons, ha] using hrest i
      | true =>
        have hnone : l.countP (p i) = 0 :=
          List.countP_eq_zero.mpr fun b hb => by simp [hhead b hb i ha]
        simp [ha, hnone]
    · intro h
      refine ⟨?_, fun i => le_trans (List.sublist_cons_self a l).countP_le (h i)⟩
      intro b hb i ha
      by_contra hpb
      have hpos : 0 < l.countP (p i) := List.countP_pos_iff.mpr ⟨b, hb, by simpa using hpb⟩
      have hone := h i
      rw [List.countP_cons_of_pos ha] at hone
      omega

/-! Lines. -/

/-- Whether two lines have the same text, blanks at the ends apart. Blank lines are no items. -/
def sameLine (a b : Text) : Bool := !(trim a).isEmpty && trim a == trim b

theorem countP_reads (t : Text) (es : List Entry) :
    es.countP (reads t) = (es.filterMap Entry.line?).countP fun l => trim l == t := by
  rw [List.countP_filterMap]
  congr 1
  funext e
  cases e <;> rfl

theorem pairwise_sameLine_iff :
    ((es.filterMap Entry.line?).Pairwise fun a b => sameLine a b = false) ↔
      ∀ t, t ≠ [] → es.countP (reads t) ≤ 1 := by
  have hshared (a b : Text) : sameLine a b = false ↔
      ∀ t : { t : Text // t ≠ [] }, (trim a == t.val) = true → (trim b == t.val) = false := by
    have hsame : sameLine a b = true ↔ trim a ≠ [] ∧ trim a = trim b := by simp [sameLine]
    constructor
    · intro h t ha
      rw [beq_iff_eq] at ha
      rw [beq_eq_false_iff_ne]
      intro hb
      rw [hsame.mpr ⟨ha ▸ t.property, ha.trans hb.symm⟩] at h
      cases h
    · intro h
      by_contra hab
      obtain ⟨hne, heq⟩ := hsame.mp (by simpa using hab)
      have hb := h ⟨trim a, hne⟩ (by simp)
      simp [heq] at hb
  simp only [hshared, countP_reads]
  rw [pairwise_iff_countP_le_one]
  exact Subtype.forall

theorem countP_reads_addLines {t : Text} {items : List Text} (h : es.countP (reads t) ≤ 1) :
    (addLines items es).1.countP (reads t) ≤ 1 := by
  induction items generalizing es with
  | nil => exact h
  | cons item items ih =>
    rw [addLines]
    split
    · exact ih h
    case isFalse hnew =>
      refine @ih (es ++ [.line (trim item)]) ?_
      rw [List.countP_append, List.countP_singleton, reads, trim_trim]
      split
      case isTrue ht =>
        -- The line is new, so that nothing before it reads the same.
        have hnone : es.countP (reads t) = 0 := by
          rw [List.countP_eq_zero]
          simp only [Bool.or_eq_true, not_or, List.any_eq_true, not_exists, not_and] at hnew
          exact beq_iff_eq.mp ht ▸ hnew.2
        rw [hnone]
      case isFalse => exact h

/-- What is added reads one of the items, so the other entries are the ones that were there. -/
theorem filter_addLines {items all : List Text} (h : ∀ item ∈ items, item ∈ all) (es : List Entry) :
    ((addLines items es).1.filter fun e => !readsAny all e) =
      es.filter fun e => !readsAny all e := by
  induction items generalizing es with
  | nil => rfl
  | cons item items ih =>
    have hrest : ∀ i ∈ items, i ∈ all := fun i hi => h i (List.mem_cons_of_mem item hi)
    rw [addLines]
    split
    · exact ih hrest es
    case isFalse hnew =>
      have hline : readsAny all (.line (trim item)) = true := by
        refine List.any_eq_true.mpr ⟨item, h item (by simp), ?_⟩
        simp only [Bool.or_eq_true, not_or] at hnew
        simp [reads, trim_trim, hnew.1]
      refine (ih hrest (es ++ [.line (trim item)])).trans ?_
      simp [List.filter_append, hline]

theorem removeLines_addLines (items : List Text) (es : List Entry) :
    (removeLines items (addLines items es).1).1 = es.filter fun e => !readsAny items e :=
  filter_addLines (fun _ hi => hi) es

/-! Directives. -/

variable {δ : Type} [Directive δ] {d k : δ} {ds : List δ}

/-- Whether two lines hold directives of a kind that are about the same thing. -/
def sameDirective (δ : Type) [Directive δ] (a b : Text) : Bool :=
  match (Directive.read a : Option δ), (Directive.read b : Option δ) with
  | some d, some k => Directive.same d k
  | _, _ => false

theorem countP_names (d : δ) (es : List Entry) :
    es.countP (names d) = (es.filterMap Entry.line?).countP fun l => names d (.line l) := by
  rw [List.countP_filterMap]
  congr 1
  funext e
  cases e <;> rfl

theorem removeAll_sublist (ds : List δ) (es : List Entry) : (removeAll ds es).1.Sublist es := by
  induction ds generalizing es with
  | nil => exact List.Sublist.refl es
  | cons d ds ih => exact (ih (removeFirst d es).1).trans List.eraseP_sublist

theorem removeFirst_eq_filter (h : es.countP (names d) ≤ 1) :
    (removeFirst d es).1 = es.filter fun e => !names d e := by
  change es.eraseP (names d) = _
  induction es with
  | nil => rfl
  | cons e es ih =>
    cases he : names d e with
    | false =>
      rw [List.countP_cons_of_neg (by simp [he])] at h
      rw [List.eraseP_cons_of_neg (by simp [he]), List.filter_cons_of_pos (by simp [he]), ih h]
    | true =>
      rw [List.countP_cons_of_pos he] at h
      have hnone : es.countP (names d) = 0 := by omega
      rw [List.eraseP_cons_of_pos he, List.filter_cons_of_neg (by simp [he])]
      exact (List.filter_eq_self.mpr (by simpa using List.countP_eq_zero.mp hnone)).symm

/-- Where every directive has at most one line, the removal of first lines is complete. -/
theorem removeAll_eq_filter (h : ∀ d ∈ ds, es.countP (names d) ≤ 1) :
    (removeAll ds es).1 = es.filter fun e => !ds.any (names · e) := by
  induction ds generalizing es with
  | nil => exact (List.filter_eq_self.mpr fun _ _ => rfl).symm
  | cons d ds ih =>
    have hrest : ∀ k ∈ ds, (es.filter fun e => !names d e).countP (names k) ≤ 1 := fun k hk =>
      le_trans List.filter_sublist.countP_le (h k (List.mem_cons_of_mem d hk))
    change (removeAll ds (removeFirst d es).1).1 = _
    rw [removeFirst_eq_filter (h d (by simp)), ih hrest, List.filter_filter]
    apply List.filter_congr
    intro e _
    simp [Bool.and_comm]

/-- An upsert changes only lines with a property that its directive gives to the lines that name
it. -/
theorem filter_upsert {p : Entry → Bool} (hp : ∀ e, names d e = true → p e = true)
    (hline : p (.line (Directive.render d)) = true) (es : List Entry) :
    ((upsert d es).1.filter fun e => !p e) = es.filter fun e => !p e := by
  induction es with
  | nil => simp [upsert_nil, hline]
  | cons e es ih =>
    cases he : names d e with
    | false => rw [upsert_cons_of_not_names he, List.filter_cons, List.filter_cons, ih]
    | true =>
      rw [upsert_cons_of_names he, List.filter_cons_of_neg (by simp [hline]),
        List.filter_cons_of_neg (by simp [hp e he]), List.filter_filter]
      apply List.filter_congr
      intro a _
      cases ha : names d a with
      | false => simp
      | true => simp [hp a ha]

section
variable [LawfulDirective δ]

theorem pairwise_sameDirective_iff :
    ((es.filterMap Entry.line?).Pairwise fun a b => sameDirective δ a b = false) ↔
      ∀ d : δ, es.countP (names d) ≤ 1 := by
  have hshared (a b : Text) : sameDirective δ a b = false ↔
      ∀ d : δ, names d (.line a) = true → names d (.line b) = false := by
    unfold sameDirective
    cases ha : (Directive.read a : Option δ) with
    | none => simp [names, Entry.line?, ha]
    | some x =>
      cases hb : (Directive.read b : Option δ) with
      | none => simp [names, Entry.line?, hb]
      | some y =>
        simp only [names, Entry.line?, Option.bind_some, ha, hb]
        constructor
        · intro hxy d hx
          by_contra hy
          rw [LawfulDirective.equivalence.trans hx
            (LawfulDirective.equivalence.symm (by simpa using hy))] at hxy
          cases hxy
        · intro h
          by_contra hxy
          have hyy := h y (by simpa using hxy)
          rw [LawfulDirective.equivalence.refl y] at hyy
          cases hyy
  simp only [hshared, pairwise_iff_countP_le_one, countP_names]

theorem countP_upsertAll_le (hds : ∀ k ∈ ds, ReadsBack k) (h : es.countP (names d) ≤ 1) :
    (upsertAll ds es).1.countP (names d) ≤ 1 := by
  induction ds generalizing es with
  | nil => exact h
  | cons k ds ih =>
    have hk := hds k (by simp)
    refine @ih (upsert k es).1 (fun j hj => hds j (List.mem_cons_of_mem k hj)) ?_
    cases hs : Directive.same k d with
    | false => rwa [countP_upsert_of_not_same hk hs]
    | true =>
      rw [show names d = names k from (funext (names_congr hs)).symm]
      exact (countP_upsert_self hk es).le

theorem filter_upsertAll {p : Entry → Bool} (hds : ∀ k ∈ ds, ReadsBack k)
    (hp : ∀ k ∈ ds, ∀ e, names k e = true → p e = true) (es : List Entry) :
    ((upsertAll ds es).1.filter fun e => !p e) = es.filter fun e => !p e := by
  induction ds generalizing es with
  | nil => rfl
  | cons k ds ih =>
    have hk := hp k (by simp)
    refine (ih (fun j hj => hds j (List.mem_cons_of_mem k hj))
      (fun j hj => hp j (List.mem_cons_of_mem k hj)) (upsert k es).1).trans ?_
    exact filter_upsert hk (hk _ (names_line_self (hds k (by simp)))) es

theorem removeAll_upsertAll (hds : ∀ k ∈ ds, ReadsBack k) (es : List Entry) :
    (removeAll ds (upsertAll ds es).1).1 = es.filter fun e => !ds.any (names · e) := by
  rw [removeAll_eq_filter fun d hd => (countP_upsertAll_of_mem hds hd es).le]
  exact filter_upsertAll hds (fun k hk e he => List.any_eq_true.mpr ⟨k, hk, he⟩) es

end
end BuildFile.Edit
