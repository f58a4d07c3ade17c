import BuildFile.Edit
import BuildFile.Text
/-! Where the entries of an edited region come from. An edit keeps entries that were there and
writes lines of its own: the trimmed items, or the rendered directives. Nothing else can appear. -/
namespace BuildFile.Edit
variable {es : List Entry} {e : Entry}

theorem mem_addLines {items : List Text} (h : e ∈ (addLines items es).1) :
    e ∈ es ∨ ∃ item ∈ items, e = .line (trim item) := by
  induction items generalizing es with
  | nil => exact .inl h
  | cons item items ih =>
    rw [addLines] at h
    split at h
    case isTrue =>
      obtain hes | ⟨i, hi, he⟩ := ih h
      · exact .inl hes
      · exact .inr ⟨i, List.mem_cons_of_mem item hi, he⟩
    case isFalse =>
      obtain hes | ⟨i, hi, he⟩ := ih h
      · obtain hes | hnew := List.mem_append.mp hes
        · exact .inl hes
        · exact .inr ⟨item, by simp, List.mem_singleton.mp hnew⟩
      · exact .inr ⟨i, List.mem_cons_of_mem item hi, he⟩

theorem mem_removeLines {items : List Text} (h : e ∈ (removeLines items es).1) : e ∈ es :=
  (List.mem_filter.mp h).1

variable {δ : Type} [Directive δ]

theorem mem_upsert {d : δ} (h : e ∈ (upsert d es).1) : e ∈ es ∨ e = .line (Directive.render d) := by
  unfold upsert at h
  cases hd : es.dropWhile fun e => !names d e with
  | nil =>
    simp only [hd, List.mem_append, List.mem_singleton] at h
    exact h
  | cons first after =>
    have hsub : ∀ x ∈ first :: after, x ∈ es := by
      intro x hx
      exact (List.dropWhile_suffix _).mem (hd ▸ hx)
    simp only [hd] at h
    split at h
    · exact .inl h
    · rw [List.mem_append, List.mem_cons] at h
      obtain h | h | h := h
      · exact .inl ((List.takeWhile_sublist _).mem h)
      · exact .inr h
      · exact .inl (hsub e (List.mem_cons_of_mem first (List.mem_filter.mp h).1))

theorem mem_removeFirst {d : δ} (h : e ∈ (removeFirst d es).1) : e ∈ es := List.mem_of_mem_eraseP h

theorem mem_upsertAll {ds : List δ} (h : e ∈ (upsertAll ds es).1) :
    e ∈ es ∨ ∃ d ∈ ds, e = .line (Directive.render d) := by
  induction ds generalizing es with
  | nil => exact .inl h
  | cons d ds ih =>
    obtain hes | ⟨k, hk, he⟩ := ih h
    · obtain hes | hnew := mem_upsert hes
      · exact .inl hes
      · exact .inr ⟨d, by simp, hnew⟩
    · exact .inr ⟨k, List.mem_cons_of_mem d hk, he⟩

theorem mem_removeAll {ds : List δ} (h : e ∈ (removeAll ds es).1) : e ∈ es := by
  induction ds generalizing es with
  | nil => exact h
  | cons d ds ih => exact mem_removeFirst (ih h)

end BuildFile.Edit
