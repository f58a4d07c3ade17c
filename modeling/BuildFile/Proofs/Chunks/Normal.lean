import BuildFile.Chunks.Format
import BuildFile.Proofs.Marker
/-! Well-formed documents and their normal form. A document is well-formed when its names are usable
and none of its lines is a marker; it is normal when, besides, no two runs of text are neighbours
and it is not empty. The line view keeps both: a document whose runs are joined is rebuilt from its
entries, and entries that are sound one by one make a document with these properties. -/
namespace BuildFile
namespace Chunks

/-- Usable names, and no marker among the lines of text, at every depth. -/
def WellFormed : Chunks → Prop
  | nil => True
  | text t rest => (∀ l ∈ lines t, isMarker l = false) ∧ WellFormed rest
  | region n body rest => IsName n ∧ WellFormed body ∧ WellFormed rest

def isText : Chunks → Bool
  | text _ _ => true
  | _ => false

/-- No two runs of text are neighbours, at any depth. -/
def Joined : Chunks → Prop
  | nil => True
  | text _ rest => rest.isText = false ∧ Joined rest
  | region _ body rest => Joined body ∧ Joined rest

/-- No two runs of text are neighbours; the bodies of regions are not looked at. -/
def Spaced : Chunks → Prop
  | nil => True
  | text _ rest => rest.isText = false ∧ Spaced rest
  | region _ _ rest => Spaced rest

/-- Joins neighbouring runs of text at every depth, with a line feed between them. -/
def join : Chunks → Chunks
  | nil => nil
  | text t rest => consLine t (join rest)
  | region n body rest => region n (join body) (join rest)

/-- The normal form of a whole document, which has at least one line. -/
def norm : Chunks → Chunks
  | nil => text [] nil
  | c => join c

instance decidableWellFormed : (c : Chunks) → Decidable c.WellFormed
  | nil => isTrue trivial
  | text _ rest =>
    have := decidableWellFormed rest
    inferInstanceAs (Decidable (_ ∧ _))
  | region _ body rest =>
    have := decidableWellFormed body
    have := decidableWellFormed rest
    inferInstanceAs (Decidable (_ ∧ _ ∧ _))

structure Tidy (c : Chunks) : Prop where
  wellFormed : c.WellFormed
  joined : c.Joined

/-- Documents that can be the result of reading a text. -/
structure Normal (c : Chunks) : Prop extends Tidy c where
  ne_nil : c ≠ nil

theorem consLine_of_isText_eq_false {t : Text} {c : Chunks} (h : c.isText = false) :
    consLine t c = text t c := by
  cases c with
  | nil => rfl
  | text u rest => cases h
  | region n body rest => rfl

theorem consLine_consLine (t u : Text) (c : Chunks) :
    consLine t (consLine u c) = consLine (t ++ '\n' :: u) c := by
  cases c <;> simp [consLine]

theorem entries_consLine (t : Text) (c : Chunks) :
    (consLine t c).entries = (lines t).map .line ++ c.entries := by
  cases c <;> simp [consLine, entries, lines_append]

theorem rows_consLine (t : Text) (c : Chunks) : (consLine t c).rows = lines t ++ c.rows := by
  cases c <;> simp [consLine, rows, lines_append]

theorem WellFormed.consLine {t : Text} {c : Chunks} (ht : ∀ l ∈ lines t, isMarker l = false)
    (hc : c.WellFormed) : (consLine t c).WellFormed := by
  cases c with
  | nil => exact ⟨ht, hc⟩
  | text u rest =>
    refine ⟨?_, hc.2⟩
    intro l hl
    rw [lines_append, List.mem_append] at hl
    exact hl.elim (ht l) (hc.1 l)
  | region n body rest => exact ⟨ht, hc⟩

theorem Joined.consLine {c : Chunks} (t : Text) (hc : c.Joined) : (consLine t c).Joined := by
  cases c with
  | nil => exact ⟨rfl, hc⟩
  | text u rest => exact hc
  | region n body rest => exact ⟨rfl, hc⟩

theorem Joined.spaced {c : Chunks} (h : c.Joined) : c.Spaced := by
  induction c with
  | nil => trivial
  | text t rest ih => exact ⟨h.1, ih h.2⟩
  | region n body rest _ ih => exact ih h.2

theorem joined_join (c : Chunks) : c.join.Joined := by
  induction c with
  | nil => trivial
  | text t rest ih => exact ih.consLine t
  | region n body rest ihb ihr => exact ⟨ihb, ihr⟩

theorem Joined.join_eq {c : Chunks} (h : c.Joined) : c.join = c := by
  induction c with
  | nil => rfl
  | text t rest ih => rw [join, ih h.2, consLine_of_isText_eq_false h.1]
  | region n body rest ihb ihr => rw [join, ihb h.1, ihr h.2]

theorem norm_eq_join {c : Chunks} (h : c ≠ nil) : c.norm = c.join := by
  cases c with
  | nil => exact absurd rfl h
  | text t rest => rfl
  | region n body rest => rfl

theorem norm_eq_self_iff {c : Chunks} : c.norm = c ↔ c.Joined ∧ c ≠ nil := by
  constructor
  · intro h
    have hne : c ≠ nil := by
      intro hc
      subst hc
      cases h
    rw [norm_eq_join hne] at h
    exact ⟨h ▸ joined_join c, hne⟩
  · intro h
    obtain ⟨hj, hne⟩ := h
    rw [norm_eq_join hne, hj.join_eq]

theorem normal_iff {c : Chunks} : c.Normal ↔ c.WellFormed ∧ c.norm = c := by
  rw [norm_eq_self_iff]
  exact ⟨fun h => ⟨h.wellFormed, h.joined, h.ne_nil⟩, fun ⟨hw, hj, hn⟩ => ⟨⟨hw, hj⟩, hn⟩⟩

theorem ofEntries_lines_append {ls : List Text} (h : ls ≠ []) (es : List Entry) :
    ofEntries (ls.map .line ++ es) = consLine (unlines ls) (ofEntries es) := by
  induction ls with
  | nil => exact absurd rfl h
  | cons l ls ih =>
    cases ls with
    | nil =>
      rw [unlines_singleton]
      rfl
    | cons k ks =>
      rw [List.map_cons, List.cons_append, ofEntries, ih (by simp), consLine_consLine,
        unlines_cons (List.cons_ne_nil k ks)]

theorem ofEntries_entries_text (t : Text) (rest : Chunks) :
    ofEntries (text t rest).entries = consLine t (ofEntries rest.entries) := by
  rw [entries, ofEntries_lines_append (lines_ne_nil t), unlines_lines]

theorem Spaced.ofEntries_entries {c : Chunks} (h : c.Spaced) : ofEntries c.entries = c := by
  induction c with
  | nil => rfl
  | text t rest ih => rw [ofEntries_entries_text, ih h.2, consLine_of_isText_eq_false h.1]
  | region n body rest _ ih => rw [entries, ofEntries, ih h]

theorem ofEntries_entries {c : Chunks} (h : c.Joined) : ofEntries c.entries = c :=
  h.spaced.ofEntries_entries

end Chunks

namespace Entry

/-- The printed lines of an entry. -/
def rows : Entry → List Text
  | line t => lines t
  | region n body => (Marker.opening n).text :: (body.rows ++ [(Marker.closing n).text])

def Sound : Entry → Prop
  | line t => IsPlain t
  | region n body => IsName n ∧ body.Tidy

end Entry

namespace Chunks

theorem rows_ofEntries (es : List Entry) : (ofEntries es).rows = es.flatMap Entry.rows := by
  induction es with
  | nil => rfl
  | cons e es ih =>
    cases e with
    | line t => rw [ofEntries, rows_consLine, ih, List.flatMap_cons, Entry.rows]
    | region n body => simp [ofEntries, rows, ih, Entry.rows]

theorem tidy_ofEntries {es : List Entry} (h : ∀ e ∈ es, e.Sound) : (ofEntries es).Tidy := by
  induction es with
  | nil => exact ⟨trivial, trivial⟩
  | cons e es ih =>
    have he := h e (by simp)
    have ht := ih fun d hd => h d (by simp [hd])
    cases e with
    | line t =>
      refine ⟨ht.wellFormed.consLine ?_, ht.joined.consLine t⟩
      intro l hl
      rw [lines_of_not_mem he.1, List.mem_singleton] at hl
      exact hl ▸ he.2
    | region n body =>
      exact ⟨⟨he.1, he.2.wellFormed, ht.wellFormed⟩, he.2.joined, ht.joined⟩

theorem Tidy.sound_entries {c : Chunks} (h : c.Tidy) : ∀ e ∈ c.entries, e.Sound := by
  induction c with
  | nil => simp [entries]
  | text t rest ih =>
    intro e he
    rw [entries, List.mem_append, List.mem_map] at he
    obtain ⟨l, hl, rfl⟩ | he := he
    · exact ⟨not_newline_mem_of_mem_lines hl, h.wellFormed.1 l hl⟩
    · exact ih ⟨h.wellFormed.2, h.joined.2⟩ e he
  | region n body rest _ ih =>
    intro e he
    rw [entries, List.mem_cons] at he
    obtain rfl | he := he
    · exact ⟨h.wellFormed.1, h.wellFormed.2.1, h.joined.1⟩
    · exact ih ⟨h.wellFormed.2.2, h.joined.2⟩ e he

end Chunks
end BuildFile
