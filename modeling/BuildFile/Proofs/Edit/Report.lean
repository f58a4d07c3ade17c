import BuildFile.Proofs.Edit.Distinct
import BuildFile.Proofs.Edit.Lines
/-! What the counters of an edit say. Lines that are added or removed change the number of entries,
so such an edit reports nothing exactly if it leaves the entries alone. Upserts report nothing only
if they leave the entries alone; but two of them can undo each other on one line, and both are
counted. -/
namespace BuildFile.Edit
variable {items : List Text} {es : List Entry}

theorem length_addLines (items : List Text) (es : List Entry) :
    (addLines items es).1.length = es.length + (addLines items es).2 := by
  induction items generalizing es with
  | nil => rfl
  | cons item items ih =>
    rw [addLines]
    split
    · exact ih es
    · have hrest := ih (es ++ [.line (trim item)])
      rw [List.length_append, List.length_singleton] at hrest
      dsimp only
      omega

theorem addLines_snd_eq_zero_iff : (addLines items es).2 = 0 ↔ (addLines items es).1 = es := by
  have hlength := length_addLines items es
  constructor
  · intro h
    exact ((isPrefix_addLines items es).eq_of_length (by omega)).symm
  · intro h
    rw [h] at hlength
    omega

theorem removeLines_snd_eq_zero_iff :
    (removeLines items es).2 = 0 ↔ (removeLines items es).1 = es := by
  have hkept : (removeLines items es).1.Sublist es := List.filter_sublist
  change es.length - (removeLines items es).1.length = 0 ↔ _
  rw [Nat.sub_eq_zero_iff_le]
  exact ⟨hkept.eq_of_length_le, fun h => by rw [h]⟩

variable {δ : Type} [Directive δ] {ds : List δ}

theorem upsertAll_of_forall_upsert_eq (h : ∀ d ∈ ds, (upsert d es).1 = es) :
    (upsertAll ds es).1 = es := by
  induction ds with
  | nil => rfl
  | cons d ds ih =>
    change (upsertAll ds (upsert d es).1).1 = es
    rw [h d (by simp)]
    exact ih fun k hk => h k (List.mem_cons_of_mem d hk)

theorem upsertAll_of_snd_eq_empty (h : (upsertAll ds es).2 = {}) : (upsertAll ds es).1 = es :=
  upsertAll_of_forall_upsert_eq (upsertAll_snd_eq_empty_iff.mp h)

theorem length_removeAll (ds : List δ) (es : List Entry) :
    (removeAll ds es).1.length + (removeAll ds es).2.removed = es.length := by
  induction ds generalizing es with
  | nil => rfl
  | cons d ds ih =>
    have hrest := ih (removeFirst d es).1
    have hfirst : (removeFirst d es).1.length + (removeFirst d es).2.toNat = es.length := by
      cases hany : es.any (names d) with
      | false => simp [removeFirst, hany, List.eraseP_of_forall_not (by simpa using hany)]
      | true =>
        obtain ⟨e, he, hn⟩ := List.any_eq_true.mp hany
        have hpos := List.length_pos_of_mem he
        simp only [removeFirst, hany, List.length_eraseP_of_mem he hn, Bool.toNat_true]
        omega
    change (removeAll ds (removeFirst d es).1).1.length +
      ((removeFirst d es).2.toNat + (removeAll ds (removeFirst d es).1).2.removed) = es.length
    omega

theorem removeAll_snd_eq (ds : List δ) (es : List Entry) :
    (removeAll ds es).2 = { removed := (removeAll ds es).2.removed } := by
  induction ds generalizing es with
  | nil => rfl
  | cons d ds ih =>
    change _ + (removeAll ds (removeFirst d es).1).2 = _
    rw [ih]
    rfl

theorem removeAll_snd_eq_empty_iff : (removeAll ds es).2 = {} ↔ (removeAll ds es).1 = es := by
  have hlength := length_removeAll ds es
  constructor
  · intro h
    rw [h] at hlength
    exact (removeAll_sublist ds es).eq_of_length hlength
  · intro h
    rw [h] at hlength
    rw [removeAll_snd_eq, show (removeAll ds es).2.removed = 0 by omega]

end BuildFile.Edit
