import BuildFile.Category
import BuildFile.Chunks.Basic
/-! Regions laid out flat. A sheet is one region by itself: its name, and the entries that stand
directly in it. An edit goes to the first sheet of a name and to no other, so edits under different
names do not meet: they commute, and each of them sees the entries that were there at the start. -/
namespace BuildFile

structure Sheet where
  name : Text
  entries : List Entry
  deriving DecidableEq

namespace Sheet

/-- Edits the first sheet of a name. -/
def editFirst (n : Text) (f : List Entry → List Entry) : List Sheet → List Sheet
  | [] => []
  | s :: ss => if s.name = n then ⟨s.name, f s.entries⟩ :: ss else s :: editFirst n f ss

/-- The entries of the first sheet of a name; none if there is no such sheet. -/
def entriesOf (n : Text) : List Sheet → List Entry
  | [] => []
  | s :: ss => if s.name = n then s.entries else entriesOf n ss

section
variable {n m : Text} {f g : List Entry → List Entry} {ss ts : List Sheet}

theorem map_name_editFirst : (editFirst n f ss).map name = ss.map name := by
  induction ss with
  | nil => rfl
  | cons s ss ih =>
    rw [editFirst]
    split
    · rfl
    · rw [List.map_cons, List.map_cons, ih]

theorem editFirst_append_of_mem (h : n ∈ ss.map name) :
    editFirst n f (ss ++ ts) = editFirst n f ss ++ ts := by
  induction ss with
  | nil => cases h
  | cons s ss ih =>
    by_cases hs : s.name = n
    · simp [editFirst, hs]
    · have hss : n ∈ ss.map name := (List.mem_cons.mp h).resolve_left (Ne.symm hs)
      simp [editFirst, hs, ih hss]

theorem editFirst_append_of_not_mem (h : n ∉ ss.map name) :
    editFirst n f (ss ++ ts) = ss ++ editFirst n f ts := by
  induction ss with
  | nil => rfl
  | cons s ss ih =>
    rw [List.map_cons, List.mem_cons, not_or] at h
    simp [editFirst, Ne.symm h.1, ih h.2]

theorem entriesOf_append_of_mem (h : n ∈ ss.map name) :
    entriesOf n (ss ++ ts) = entriesOf n ss := by
  induction ss with
  | nil => cases h
  | cons s ss ih =>
    by_cases hs : s.name = n
    · simp [entriesOf, hs]
    · have hss : n ∈ ss.map name := (List.mem_cons.mp h).resolve_left (Ne.symm hs)
      simp [entriesOf, hs, ih hss]

theorem entriesOf_append_of_not_mem (h : n ∉ ss.map name) :
    entriesOf n (ss ++ ts) = entriesOf n ts := by
  induction ss with
  | nil => rfl
  | cons s ss ih =>
    rw [List.map_cons, List.mem_cons, not_or] at h
    simp [entriesOf, Ne.symm h.1, ih h.2]

theorem mem_of_mem_entriesOf {e : Entry} (h : e ∈ entriesOf n ss) : ∃ s ∈ ss, e ∈ s.entries := by
  induction ss with
  | nil => cases h
  | cons s ss ih =>
    rw [entriesOf] at h
    split at h
    · exact ⟨s, by simp, h⟩
    · obtain ⟨t, ht, he⟩ := ih h
      exact ⟨t, List.mem_cons_of_mem s ht, he⟩

theorem editFirst_congr (h : f (entriesOf n ss) = g (entriesOf n ss)) :
    editFirst n f ss = editFirst n g ss := by
  induction ss with
  | nil => rfl
  | cons s ss ih =>
    by_cases hs : s.name = n
    · simp only [entriesOf, hs, if_true] at h
      simp [editFirst, hs, h]
    · simp only [entriesOf, hs, if_false] at h
      simp [editFirst, hs, ih h]

theorem editFirst_id : editFirst n id ss = ss := by
  induction ss with
  | nil => rfl
  | cons s ss ih => simp [editFirst, ih]

theorem editFirst_editFirst : editFirst n f (editFirst n g ss) = editFirst n (f ∘ g) ss := by
  induction ss with
  | nil => rfl
  | cons s ss ih =>
    by_cases hs : s.name = n
    · simp [editFirst, hs]
    · simp [editFirst, hs, ih]

theorem editFirst_comm (h : n ≠ m) :
    editFirst n f (editFirst m g ss) = editFirst m g (editFirst n f ss) := by
  induction ss with
  | nil => rfl
  | cons s ss ih =>
    by_cases hn : s.name = n
    · simp [editFirst, hn, h]
    · by_cases hm : s.name = m
      · simp [editFirst, hm, h.symm]
      · simp [editFirst, hn, hm, ih]

theorem entriesOf_editFirst_of_mem (h : n ∈ ss.map name) :
    entriesOf n (editFirst n f ss) = f (entriesOf n ss) := by
  induction ss with
  | nil => cases h
  | cons s ss ih =>
    by_cases hs : s.name = n
    · simp [editFirst, entriesOf, hs]
    · have hss : n ∈ ss.map name := (List.mem_cons.mp h).resolve_left (Ne.symm hs)
      simp [editFirst, entriesOf, hs, ih hss]

theorem entriesOf_editFirst_of_ne (h : n ≠ m) :
    entriesOf n (editFirst m f ss) = entriesOf n ss := by
  induction ss with
  | nil => rfl
  | cons s ss ih =>
    by_cases hs : s.name = m
    · simp [editFirst, entriesOf, hs, h.symm]
    · simp [editFirst, entriesOf, hs, ih]

theorem getElem?_editFirst (k : Nat) : (editFirst n f ss)[k]? =
    if (ss.map name).idxOf? n = some k then (ss[k]?).map fun s => ⟨s.name, f s.entries⟩
    else ss[k]? := by
  induction ss generalizing k with
  | nil => simp [editFirst]
  | cons s ss ih =>
    by_cases hs : s.name = n
    · cases k <;> simp [editFirst, List.idxOf?_cons, hs]
    · cases k with
      | zero => simp [editFirst, List.idxOf?_cons, hs]
      | succ k => simpa [editFirst, List.idxOf?_cons, hs] using ih k

end

/-! Edits of several categories. Their regions have different names. -/

/-- Edits the sheets of categories, one after the other. -/
def editEach (f : Category → List Entry → List Entry) (cs : List Category) (ss : List Sheet) :
    List Sheet := cs.foldl (fun ss c => editFirst c.region (f c) ss) ss

section
variable {f g : Category → List Entry → List Entry} {cs : List Category} {ss : List Sheet}

theorem map_name_editEach : (editEach f cs ss).map name = ss.map name := by
  induction cs generalizing ss with
  | nil => rfl
  | cons c cs ih => exact (@ih (editFirst c.region (f c) ss)).trans map_name_editFirst

theorem region_ne {c d : Category} (h : c ≠ d) : c.region ≠ d.region :=
  fun he => h (Category.region_injective he)

theorem entriesOf_editEach_of_forall_ne {n : Text} (h : ∀ c ∈ cs, n ≠ c.region) :
    entriesOf n (editEach f cs ss) = entriesOf n ss := by
  induction cs generalizing ss with
  | nil => rfl
  | cons c cs ih =>
    have hrest := @ih (editFirst c.region (f c) ss) fun d hd => h d (List.mem_cons_of_mem c hd)
    exact hrest.trans (entriesOf_editFirst_of_ne (h c (by simp)))

theorem editFirst_editEach {c : Category} (h : c ∉ cs) (k : List Entry → List Entry) :
    editFirst c.region k (editEach f cs ss) = editEach f cs (editFirst c.region k ss) := by
  induction cs generalizing ss with
  | nil => rfl
  | cons d cs ih =>
    rw [List.mem_cons, not_or] at h
    have hrest := @ih (editFirst d.region (f d) ss) h.2
    rw [editFirst_comm (region_ne h.1)] at hrest
    exact hrest

/-- Only what the edits make of the entries at the start matters. -/
theorem editEach_congr (hcs : cs.Nodup)
    (h : ∀ c ∈ cs, f c (entriesOf c.region ss) = g c (entriesOf c.region ss)) :
    editEach f cs ss = editEach g cs ss := by
  induction cs generalizing ss with
  | nil => rfl
  | cons c cs ih =>
    obtain ⟨hc, hnodup⟩ := List.nodup_cons.mp hcs
    have hfirst := editFirst_congr (h c (by simp))
    have hrest : ∀ d ∈ cs, f d (entriesOf d.region (editFirst c.region (g c) ss)) =
        g d (entriesOf d.region (editFirst c.region (g c) ss)) := by
      intro d hd
      have hdc : d ≠ c := fun he => hc (he ▸ hd)
      rw [entriesOf_editFirst_of_ne (region_ne hdc)]
      exact h d (List.mem_cons_of_mem c hd)
    calc
      editEach f (c :: cs) ss = editEach f cs (editFirst c.region (g c) ss) := by
        rw [← hfirst]
        rfl
      _ = editEach g (c :: cs) ss := ih hnodup hrest

theorem editEach_editEach (hcs : cs.Nodup) :
    editEach f cs (editEach g cs ss) = editEach (fun c => f c ∘ g c) cs ss := by
  induction cs generalizing ss with
  | nil => rfl
  | cons c cs ih =>
    obtain ⟨hc, hnodup⟩ := List.nodup_cons.mp hcs
    calc
      editEach f (c :: cs) (editEach g (c :: cs) ss)
          = editEach f cs
            (editFirst c.region (f c) (editEach g cs (editFirst c.region (g c) ss))) := rfl
      _ = editEach f cs (editEach g cs (editFirst c.region (f c ∘ g c) ss)) := by
        rw [editFirst_editEach hc, editFirst_editFirst]
      _ = editEach (fun c => f c ∘ g c) (c :: cs) ss := ih hnodup

/-- Categories whose edit does nothing can be left out. -/
theorem editEach_filter (hcs : cs.Nodup) {p : Category → Bool}
    (h : ∀ c ∈ cs, p c = false → f c (entriesOf c.region ss) = entriesOf c.region ss) :
    editEach f (cs.filter p) ss = editEach f cs ss := by
  induction cs generalizing ss with
  | nil => rfl
  | cons c cs ih =>
    obtain ⟨hc, hnodup⟩ := List.nodup_cons.mp hcs
    have hrest := @ih (editFirst c.region (f c) ss) hnodup (by
      intro d hd hp
      have hdc : d ≠ c := fun he => hc (he ▸ hd)
      rw [entriesOf_editFirst_of_ne (region_ne hdc)]
      exact h d (List.mem_cons_of_mem c hd) hp)
    cases hp : p c with
    | true =>
      rw [List.filter_cons_of_pos hp]
      exact hrest
    | false =>
      have hid : editFirst c.region (f c) ss = ss :=
        (editFirst_congr (g := id) (h c (by simp) hp)).trans editFirst_id
      rw [hid] at hrest
      rw [List.filter_cons_of_neg (by simp [hp]), hrest]
      exact congrArg (editEach f cs) hid.symm

theorem entriesOf_editEach_of_mem (hcs : cs.Nodup) {c : Category} (hc : c ∈ cs)
    (h : c.region ∈ ss.map name) :
    entriesOf c.region (editEach f cs ss) = f c (entriesOf c.region ss) := by
  induction cs generalizing ss with
  | nil => cases hc
  | cons d cs ih =>
    obtain ⟨hd, hnodup⟩ := List.nodup_cons.mp hcs
    obtain rfl | hc := List.mem_cons.mp hc
    · have hrest : ∀ e ∈ cs, c.region ≠ e.region := fun e he => region_ne fun hce => hd (hce ▸ he)
      exact (entriesOf_editEach_of_forall_ne hrest).trans (entriesOf_editFirst_of_mem h)
    · have hcd : c ≠ d := fun he => hd (he ▸ hc)
      have hrest := @ih (editFirst d.region (f d) ss) hnodup hc (by rwa [map_name_editFirst])
      rwa [entriesOf_editFirst_of_ne (region_ne hcd)] at hrest

theorem getElem?_editEach_of_forall_ne {k : Nat}
    (h : ∀ c ∈ cs, (ss.map name).idxOf? c.region ≠ some k) : (editEach f cs ss)[k]? = ss[k]? := by
  induction cs generalizing ss with
  | nil => rfl
  | cons c cs ih =>
    have hrest := @ih (editFirst c.region (f c) ss) (by
      intro d hd
      rw [map_name_editFirst]
      exact h d (List.mem_cons_of_mem c hd))
    rw [getElem?_editFirst, if_neg (h c (by simp))] at hrest
    exact hrest

theorem getElem?_editEach_of_mem (hcs : cs.Nodup) {c : Category} (hc : c ∈ cs) {k : Nat}
    (h : (ss.map name).idxOf? c.region = some k) :
    (editEach f cs ss)[k]? = (ss[k]?).map fun s => ⟨s.name, f c s.entries⟩ := by
  -- No other category has its first sheet at the same place.
  have hother : ∀ d, d ≠ c → (ss.map name).idxOf? d.region ≠ some k := by
    intro d hd hk
    obtain ⟨_, hcn, _⟩ := List.idxOf?_eq_some_iff.mp h
    obtain ⟨_, hdn, _⟩ := List.idxOf?_eq_some_iff.mp hk
    exact region_ne hd (hdn.symm.trans hcn)
  induction cs generalizing ss with
  | nil => cases hc
  | cons d cs ih =>
    obtain ⟨hd, hnodup⟩ := List.nodup_cons.mp hcs
    obtain rfl | hc := List.mem_cons.mp hc
    · have hrest : ∀ e ∈ cs, ((editFirst c.region (f c) ss).map name).idxOf? e.region ≠ some k := by
        intro e he
        rw [map_name_editFirst]
        exact hother e fun hec => hd (hec ▸ he)
      refine (getElem?_editEach_of_forall_ne hrest).trans ?_
      rw [getElem?_editFirst, if_pos h]
    · have hdc : d ≠ c := fun he => hd (he ▸ hc)
      have hrest := @ih (editFirst d.region (f d) ss) hnodup hc (by rwa [map_name_editFirst])
        (by simpa only [map_name_editFirst] using hother)
      rwa [getElem?_editFirst, if_neg (hother d hdc)] at hrest

end
end Sheet
end BuildFile
