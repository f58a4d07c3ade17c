import BuildFile.Proofs.Directive
import BuildFile.Proofs.Request.Written
/-! The directives of a request. Reading an item cuts a suffix off the trimmed text, so that its
value cannot end in a blank; with the other checks, the directive that an item becomes is read back
from its line. -/
namespace BuildFile

theorem splitKeyword_isSuffix {κ : Type} (read : Text → Option κ) (default : κ) (t : Text) :
    (splitKeyword read default t).2 <:+ t := by
  unfold splitKeyword
  split
  case h_1 front rest hcut =>
    split
    · exact ⟨front ++ [':'], by simp [eq_append_of_cutFirst? hcut]⟩
    · exact List.suffix_rfl
  case h_2 => exact List.suffix_rfl

theorem getD_after?_isSuffix (head t : Text) : (after? head t).getD t <:+ t := by
  cases h : after? head t with
  | none => exact List.suffix_rfl
  | some rest => exact ⟨head, (after?_eq_some_iff.mp h).symm⟩

theorem not_isBlank_last_of_isSuffix_trim {s v : Text} (h : v <:+ trim s) :
    ∀ c ∈ v.getLast?, isBlank c = false := by
  intro c hc
  obtain ⟨pre, hpre⟩ := h
  apply (trimmed_trim s).2 c
  rw [← hpre, List.getLast?_append, Option.mem_def.mp hc]
  rfl

namespace DefinitionItem

theorem value_eq_of_ok {visibility : Visibility} {symbol : Text} {value : Option Text}
    {e₁ e₂ : Error} {i : DefinitionItem} {a b : Prop} [Decidable a] [Decidable b]
    (h : (if a then .error e₁ else if b then .error e₂ else .ok { visibility, symbol, value }) =
      Except.ok i) : i.value = value := by
  split at h
  · cases h
  · split at h
    · cases h
    · cases h
      rfl

theorem value_isSuffix_of_read {s v : Text} {i : DefinitionItem} (h : read s = .ok i)
    (hv : i.value = some v) : v <:+ trim s := by
  have hrest := (getD_after?_isSuffix Definition.flag
    (splitKeyword Visibility.read .scopePrivate (trim s)).2).trans
    (splitKeyword_isSuffix Visibility.read .scopePrivate (trim s))
  simp only [read] at h
  split at h
  case h_1 symbol value hcut =>
    rw [value_eq_of_ok h] at hv
    cases hv
    refine List.IsSuffix.trans ?_ hrest
    exact ⟨symbol ++ ['='], by simp [eq_append_of_cutFirst? hcut]⟩
  case h_2 =>
    rw [value_eq_of_ok h] at hv
    cases hv

theorem wellFormed_forTarget {s target : Text} {i : DefinitionItem} (h : read s = .ok i)
    (ht : isBareToken target = true) : (i.forTarget target).WellFormed where
  target := hasBlank_of_isBareToken ht
  symbol := (checked_of_read h).1
  value := by
    intro v hv
    refine ⟨?_, not_isBlank_last_of_isSuffix_trim (value_isSuffix_of_read h hv)⟩
    intro hm
    exact absurd ((checked_of_read h).2 v hv _ hm).2 (by decide)

end DefinitionItem

namespace Request
variable {r : Request} {d : Chunks} {kind : ProjectKind} {target : Text}

theorem isBareToken_of_neededTarget {cs : List Category} (h : neededTarget kind d cs = .ok target)
    {c : Category} (hc : c ∈ cs) (hn : c.needsTarget = true) : isBareToken target = true := by
  rw [neededTarget, if_pos (List.any_eq_true.mpr ⟨c, hc, hn⟩)] at h
  exact isBareToken_of_targetName h

theorem Typed.readsBack_definitions (hr : r.Typed) (ht : isBareToken target = true) :
    ∀ k ∈ r.definitions.map (·.forTarget target), ReadsBack k := by
  intro k hk
  obtain ⟨i, hi, rfl⟩ := List.mem_map.mp hk
  obtain ⟨s, hs⟩ := hr.definitions i hi
  exact (DefinitionItem.wellFormed_forTarget hs ht).readsBack

theorem Typed.readsBack_linkLibraries (hr : r.Typed) (ht : isBareToken target = true) :
    ∀ k ∈ r.linkLibraries.map (·.forTarget target), ReadsBack k := by
  intro k hk
  obtain ⟨i, hi, rfl⟩ := List.mem_map.mp hk
  obtain ⟨s, hs⟩ := hr.linkLibraries i hi
  exact LinkLibrary.WellFormed.readsBack ⟨hasBlank_of_isBareToken ht,
    LinkItem.isBareToken_of_read hs⟩

theorem readsBack_subdirectories (hv : r.validate = .ok ()) :
    ∀ k ∈ r.subdirectories, ReadsBack k := by
  intro k hk
  obtain ⟨item, hi, rfl⟩ := List.mem_map.mp hk
  obtain ⟨_, _, _, hsubdirs⟩ := validate_eq_ok_iff.mp hv
  exact Subdirectory.readsBack (isBareToken_of_pathFault? (hsubdirs item hi))

end Request
end BuildFile
