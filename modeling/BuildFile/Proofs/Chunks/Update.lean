import BuildFile.Chunks.Basic
import BuildFile.Proofs.Chunks.Normal
/-! Edits below a path. Replacing the body of a region keeps a document tidy when the new body is
tidy: the chunks around it are the same, and a region stays a region. An edit that leaves the
entries of a region alone leaves the document alone, since a body without neighbouring runs of text
is rebuilt as it was. -/
namespace BuildFile.Chunks
variable {β : Type} {c d : Chunks} {b : β} {p : Path}

theorem tidy_text_iff {t : Text} : (text t c).Tidy ↔
    (∀ l ∈ lines t, isMarker l = false) ∧ c.isText = false ∧ c.Tidy :=
  ⟨fun h => ⟨h.wellFormed.1, h.joined.1, h.wellFormed.2, h.joined.2⟩,
    fun ⟨ht, hi, hc⟩ => ⟨⟨ht, hc.wellFormed⟩, hi, hc.joined⟩⟩

theorem tidy_region_iff {n : Text} : (region n c d).Tidy ↔ IsName n ∧ c.Tidy ∧ d.Tidy :=
  ⟨fun h => ⟨h.wellFormed.1, ⟨h.wellFormed.2.1, h.joined.1⟩, h.wellFormed.2.2, h.joined.2⟩,
    fun ⟨hn, hc, hd⟩ => ⟨⟨hn, hc.wellFormed, hd.wellFormed⟩, hc.joined, hd.joined⟩⟩

theorem Tidy.edit {f : List Entry → List Entry × β}
    (hf : ∀ es, (∀ e ∈ es, e.Sound) → ∀ e ∈ (f es).1, e.Sound) (hc : c.Tidy) :
    (c.edit f).1.Tidy := tidy_ofEntries (hf c.entries hc.sound_entries)

theorem isText_update? {f : Chunks → Chunks × β} (h : c.update? f p = some (d, b)) :
    d.isText = c.isText ∧ d ≠ nil := by
  fun_induction Chunks.update? f c p generalizing d b with
  | case2 n body rest new a _ =>
    cases h
    exact ⟨rfl, by simp⟩
  | case5 => cases h
  | case1 | case3 | case4 =>
    -- The change is in the body of the first chunk or in the chunks behind it.
    obtain ⟨r, _, hd⟩ := Option.map_eq_some_iff.mp h
    cases hd
    exact ⟨rfl, by simp⟩

/-- An update keeps the kind of the first chunk, so it joins no neighbouring runs of text. -/
theorem Tidy.update? {f : Chunks → Chunks × β} (hf : ∀ a : Chunks, a.Tidy → (f a).1.Tidy)
    (hc : c.Tidy) (h : c.update? f p = some (d, b)) : d.Tidy := by
  fun_induction Chunks.update? f c p generalizing d b with
  | case1 t rest i p ih =>
    obtain ⟨ht, hi, hrest⟩ := tidy_text_iff.mp hc
    obtain ⟨⟨r, a⟩, hr, hd⟩ := Option.map_eq_some_iff.mp h
    cases hd
    exact tidy_text_iff.mpr ⟨ht, (isText_update? hr).1.trans hi, ih hrest hr⟩
  | case2 n body rest new a hnew =>
    obtain ⟨hn, hbody, hrest⟩ := tidy_region_iff.mp hc
    have hb := hf body hbody
    cases h
    rw [hnew] at hb
    exact tidy_region_iff.mpr ⟨hn, hb, hrest⟩
  | case3 n body rest p hp ih =>
    obtain ⟨hn, hbody, hrest⟩ := tidy_region_iff.mp hc
    obtain ⟨⟨r, a⟩, hr, hd⟩ := Option.map_eq_some_iff.mp h
    cases hd
    exact tidy_region_iff.mpr ⟨hn, ih hbody hr, hrest⟩
  | case4 n body rest i p ih =>
    obtain ⟨hn, hbody, hrest⟩ := tidy_region_iff.mp hc
    obtain ⟨⟨r, a⟩, hr, hd⟩ := Option.map_eq_some_iff.mp h
    cases hd
    exact tidy_region_iff.mpr ⟨hn, hbody, ih hrest hr⟩
  | case5 c p h1 h2 h3 h4 => cases h

theorem Normal.editRegion? {f : List Entry → List Entry × β} {name : Text}
    (hf : ∀ es, (∀ e ∈ es, e.Sound) → ∀ e ∈ (f es).1, e.Sound) (hc : c.Normal)
    (h : c.editRegion? name f = some (d, b)) : d.Normal := by
  obtain ⟨p, _, hp⟩ := Option.bind_eq_some_iff.mp h
  exact ⟨hc.toTidy.update? (fun a ha => ha.edit hf) hp, (isText_update? hp).2⟩

theorem Joined.update?_eq_self {f : Chunks → Chunks × β}
    (hf : ∀ a : Chunks, a.Joined → (f a).2 = b → (f a).1 = a) (hc : c.Joined)
    (h : c.update? f p = some (d, b)) : d = c := by
  fun_induction Chunks.update? f c p generalizing d with
  | case1 t rest i p ih =>
    obtain ⟨⟨r, a⟩, hr, hd⟩ := Option.map_eq_some_iff.mp h
    cases hd
    rw [ih hc.2 hr]
  | case2 n body rest new a hnew =>
    cases h
    have hbody := hf body hc.1 (by rw [hnew])
    rw [hnew] at hbody
    rw [← hbody]
  | case3 n body rest p hp ih =>
    obtain ⟨⟨r, a⟩, hr, hd⟩ := Option.map_eq_some_iff.mp h
    cases hd
    rw [ih hc.1 hr]
  | case4 n body rest i p ih =>
    obtain ⟨⟨r, a⟩, hr, hd⟩ := Option.map_eq_some_iff.mp h
    cases hd
    rw [ih hc.2 hr]
  | case5 => cases h

theorem Joined.editRegion?_eq_self {f : List Entry → List Entry × β} {name : Text}
    (hf : ∀ es, (f es).2 = b → (f es).1 = es) (hc : c.Joined)
    (h : c.editRegion? name f = some (d, b)) : d = c := by
  obtain ⟨p, _, hp⟩ := Option.bind_eq_some_iff.mp h
  refine hc.update?_eq_self (fun a ha hb => ?_) hp
  change ofEntries (f a.entries).1 = a
  rw [hf a.entries hb, ofEntries_entries ha]

end BuildFile.Chunks
