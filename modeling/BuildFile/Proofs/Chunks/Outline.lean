import BuildFile.Chunks.Basic
import BuildFile.Proofs.Chunks.Normal
import BuildFile.Proofs.Chunks.Sheet
/-! The outline of a document: its own entries, and a sheet for every region in document order. On a
sheet a nested region is only a name, so an edit in one region is an edit of one sheet, also where
regions are nested in each other. A document whose runs of text are joined is determined by its
outline. -/
namespace BuildFile
namespace Entry

/-- An entry seen from outside: of a region only the name. -/
def shell : Entry → Entry
  | line t => line t
  | region n _ => region n .nil

@[simp] theorem shell_line (t : Text) : (line t).shell = line t := rfl

def isRegion : Entry → Bool
  | line _ => false
  | region _ _ => true

/-- The entries that an entry becomes in a document: a text with line feeds is several lines
there. -/
def cut : Entry → List Entry
  | line t => (lines t).map line
  | region n body => [region n body]

theorem cut_of_not_mem {t : Text} (h : '\n' ∉ t) : (line t).cut = [line t] := by
  rw [cut, lines_of_not_mem h]
  rfl

theorem map_shell_cut (e : Entry) : e.cut.map shell = e.shell.cut := by
  cases e with
  | line t => simp [cut, shell]
  | region n body => rfl

end Entry

open Entry (shell isRegion cut)

theorem map_shell_flatMap_cut (es : List Entry) :
    (es.flatMap cut).map shell = (es.map shell).flatMap cut := by
  rw [List.map_flatMap, List.flatMap_map]
  congr 1
  funext e
  exact e.map_shell_cut

theorem flatMap_cut_eq_self {es : List Entry} (h : ∀ e ∈ es, e.cut = [e]) :
    es.flatMap cut = es := by
  induction es with
  | nil => rfl
  | cons e es ih =>
    rw [List.flatMap_cons, h e (by simp), ih fun d hd => h d (List.mem_cons_of_mem e hd)]
    rfl

namespace Chunks

/-- What stands directly in a sequence: lines, and names of regions. -/
def ownEntries (c : Chunks) : List Entry := c.entries.map shell

/-- All regions in document order. -/
def regions : Chunks → List Region
  | nil => []
  | text _ rest => regions rest
  | region n body rest => ⟨n, body⟩ :: (regions body ++ regions rest)

def sheets (c : Chunks) : List Sheet := c.regions.map fun r => ⟨r.name, r.body.ownEntries⟩

theorem ownEntries_text (t : Text) (rest : Chunks) :
    (text t rest).ownEntries = (lines t).map .line ++ rest.ownEntries := by
  rw [ownEntries, entries, List.map_append, List.map_map]
  rfl

theorem ownEntries_region (n : Text) (body rest : Chunks) :
    (region n body rest).ownEntries = .region n nil :: rest.ownEntries := rfl

theorem sheets_text (t : Text) (rest : Chunks) : (text t rest).sheets = rest.sheets := rfl

theorem sheets_region (n : Text) (body rest : Chunks) :
    (region n body rest).sheets = ⟨n, body.ownEntries⟩ :: (body.sheets ++ rest.sheets) := by
  simp [sheets, regions]

theorem map_name_sheets (c : Chunks) : c.sheets.map Sheet.name = c.names := by
  induction c with
  | nil => rfl
  | text t rest ih => exact ih
  | region n body rest ihb ihr => simp [sheets_region, names, ihb, ihr]

theorem cut_of_mem_ownEntries {c : Chunks} {e : Entry} (h : e ∈ c.ownEntries) : e.cut = [e] := by
  induction c with
  | nil => cases h
  | text t rest ih =>
    rw [ownEntries_text, List.mem_append, List.mem_map] at h
    obtain ⟨l, hl, rfl⟩ | h := h
    · exact Entry.cut_of_not_mem (not_newline_mem_of_mem_lines hl)
    · exact ih h
  | region n body rest _ ih =>
    obtain rfl | h := List.mem_cons.mp h
    · rfl
    · exact ih h

theorem cut_of_mem_sheets {c : Chunks} {s : Sheet} (h : s ∈ c.sheets) :
    ∀ e ∈ s.entries, e.cut = [e] := by
  obtain ⟨r, _, rfl⟩ := List.mem_map.mp h
  exact fun e => cut_of_mem_ownEntries

theorem cut_of_mem_entriesOf {c : Chunks} {n : Text} :
    ∀ e ∈ Sheet.entriesOf n c.sheets, e.cut = [e] := by
  intro e he
  obtain ⟨s, hs, he⟩ := Sheet.mem_of_mem_entriesOf he
  exact cut_of_mem_sheets hs e he

theorem ownLines_eq_filterMap_ownEntries (c : Chunks) :
    c.ownLines = c.ownEntries.filterMap Entry.line? := by
  rw [← filterMap_line?_entries, ownEntries, List.filterMap_map]
  congr 1
  funext e
  cases e <;> rfl

/-! Folding entries back. -/

/-- The sheets of an entry: none of a line, and those of a region from the region itself on. -/
def entrySheets : Entry → List Sheet
  | .line _ => []
  | .region n body => ⟨n, body.ownEntries⟩ :: body.sheets

theorem sheets_consLine (t : Text) (c : Chunks) : (consLine t c).sheets = c.sheets := by
  cases c <;> rfl

theorem sheets_ofEntries (es : List Entry) : (ofEntries es).sheets = es.flatMap entrySheets := by
  induction es with
  | nil => rfl
  | cons e es ih =>
    cases e with
    | line t => rw [ofEntries, sheets_consLine, ih]; rfl
    | region n body => simp [ofEntries, sheets_region, ih, entrySheets]

theorem sheets_eq_flatMap_entries (c : Chunks) : c.sheets = c.entries.flatMap entrySheets := by
  induction c with
  | nil => rfl
  | text t rest ih => simp [sheets_text, entries, List.flatMap_map, entrySheets, ih]
  | region n body rest _ ih => simp [sheets_region, entries, entrySheets, ih]

theorem flatMap_entrySheets_filter (es : List Entry) :
    (es.filter isRegion).flatMap entrySheets = es.flatMap entrySheets := by
  induction es with
  | nil => rfl
  | cons e es ih => cases e <;> simp [List.filter_cons, isRegion, entrySheets, ih]

theorem entries_ofEntries (es : List Entry) : (ofEntries es).entries = es.flatMap cut := by
  induction es with
  | nil => rfl
  | cons e es ih =>
    cases e with
    | line t => simp [ofEntries, entries_consLine, cut, ih]
    | region n body => simp [ofEntries, entries, cut, ih]

end Chunks

/-- An edit of entries that does not look into regions, and keeps all of them in their order. -/
structure Edit.Shallow {β : Type} (f : List Entry → List Entry × β) : Prop where
  map_shell : ∀ es, f (es.map shell) = ((f es).1.map shell, (f es).2)
  filter_isRegion : ∀ es, (f es).1.filter isRegion = es.filter isRegion

namespace Chunks
section
variable {β : Type} {f : List Entry → List Entry × β}

theorem ownEntries_edit (hf : Edit.Shallow f) (c : Chunks) :
    (c.edit f).1.ownEntries = (f c.ownEntries).1.flatMap cut := by
  rw [ownEntries, ownEntries, hf.map_shell]
  change (ofEntries (f c.entries).1).entries.map shell = _
  rw [entries_ofEntries, map_shell_flatMap_cut]

theorem edit_snd (hf : Edit.Shallow f) (c : Chunks) : (c.edit f).2 = (f c.ownEntries).2 := by
  rw [ownEntries, hf.map_shell]
  rfl

theorem sheets_edit (hf : Edit.Shallow f) (c : Chunks) : (c.edit f).1.sheets = c.sheets := by
  change (ofEntries (f c.entries).1).sheets = _
  rw [sheets_ofEntries, ← flatMap_entrySheets_filter, hf.filter_isRegion,
    flatMap_entrySheets_filter, sheets_eq_flatMap_entries]

/-! The first region of a name, by recursion on the document. -/

theorem update?_text (g : Chunks → Chunks × β) (t : Text) (rest : Chunks) (p : Path) :
    (text t rest).update? g (shift p) = (rest.update? g p).map fun (r, b) => (text t r, b) := by
  cases p with
  | nil => cases rest <;> rfl
  | cons i p => rfl

theorem update?_region (g : Chunks → Chunks × β) (n : Text) (body rest : Chunks) (p : Path) :
    (region n body rest).update? g (shift p) =
      (rest.update? g p).map fun (r, b) => (region n body r, b) := by
  cases p with
  | nil => cases rest <;> rfl
  | cons i p => rfl

theorem update?_body {g : Chunks → Chunks × β} {body new : Chunks} {p : Path} {b : β}
    (h : body.update? g p = some (new, b)) (n : Text) (rest : Chunks) :
    (region n body rest).update? g (0 :: p) = some (region n new rest, b) := by
  cases p with
  | nil => cases body <;> cases h
  | cons i p => simp [update?, h]

theorem editRegion?_text (n : Text) (t : Text) (rest : Chunks) :
    (text t rest).editRegion? n f = (rest.editRegion? n f).map fun (r, b) => (text t r, b) := by
  cases hp : locate n rest with
  | none => simp [editRegion?, locate, hp]
  | some p => simp [editRegion?, locate, hp, update?_text]

theorem editRegion?_self (n : Text) (body rest : Chunks) :
    (region n body rest).editRegion? n f =
      some (region n (body.edit f).1 rest, (body.edit f).2) := by
  simp [editRegion?, locate, update?]

theorem editRegion?_body {n m : Text} {body new : Chunks} {b : β} (hm : m ≠ n)
    (h : body.editRegion? n f = some (new, b)) (rest : Chunks) :
    (region m body rest).editRegion? n f = some (region m new rest, b) := by
  obtain ⟨p, hp, hu⟩ := Option.bind_eq_some_iff.mp h
  simp [editRegion?, locate, hm, hp, update?_body hu]

theorem editRegion?_rest {n m : Text} {body : Chunks} (hm : m ≠ n) (h : n ∉ body.names)
    (rest : Chunks) : (region m body rest).editRegion? n f =
      (rest.editRegion? n f).map fun (r, b) => (region m body r, b) := by
  have hbody : locate n body = none := by
    rw [← Option.not_isSome_iff_eq_none]
    exact mt hasRegion_iff.mp h
  cases hp : locate n rest with
  | none => simp [editRegion?, locate, hm, hbody, hp]
  | some p => simp [editRegion?, locate, hm, hbody, hp, update?_region]

/-- A shallow edit of a region that is there succeeds, and on the outline it is an edit of one
sheet. -/
theorem exists_editRegion? (hf : Edit.Shallow f) {n : Text} {c : Chunks} (h : n ∈ c.names) :
    ∃ d, c.editRegion? n f = some (d, (f (Sheet.entriesOf n c.sheets)).2) ∧
      d.ownEntries = c.ownEntries ∧
      d.sheets = Sheet.editFirst n (fun es => (f es).1.flatMap cut) c.sheets := by
  induction c with
  | nil => cases h
  | text t rest ih =>
    obtain ⟨d, he, ho, hs⟩ := ih h
    refine ⟨text t d, by simp [editRegion?_text, he, sheets_text], ?_, hs⟩
    rw [ownEntries_text, ownEntries_text, ho]
  | region m body rest ihb ihr =>
    by_cases hm : m = n
    · subst hm
      refine ⟨region m (body.edit f).1 rest, ?_, rfl, ?_⟩
      · rw [editRegion?_self, edit_snd hf, sheets_region, Sheet.entriesOf, if_pos rfl]
      · rw [sheets_region, sheets_region, sheets_edit hf, ownEntries_edit hf, Sheet.editFirst,
          if_pos rfl]
    · rw [sheets_region, Sheet.entriesOf, if_neg hm]
      by_cases hb : n ∈ body.names
      · obtain ⟨d, he, ho, hs⟩ := ihb hb
        have hmem : n ∈ body.sheets.map Sheet.name := by rwa [map_name_sheets]
        refine ⟨region m d rest, ?_, rfl, ?_⟩
        · rw [editRegion?_body hm he, Sheet.entriesOf_append_of_mem hmem]
        · rw [sheets_region, ho, hs, Sheet.editFirst, if_neg hm, Sheet.editFirst_append_of_mem hmem]
      · have hr : n ∈ rest.names := by simpa [names, Ne.symm hm, hb] using h
        obtain ⟨d, he, ho, hs⟩ := ihr hr
        have hmem : n ∉ body.sheets.map Sheet.name := by rwa [map_name_sheets]
        refine ⟨region m body d, ?_, ?_, ?_⟩
        · rw [editRegion?_rest hm hb, he, Sheet.entriesOf_append_of_not_mem hmem]
          rfl
        · rw [ownEntries_region, ownEntries_region, ho]
        · rw [sheets_region, hs, Sheet.editFirst, if_neg hm, Sheet.editFirst_append_of_not_mem hmem]

end

/-! Looking a region up. -/

theorem get?_text (t : Text) (rest : Chunks) (p : Path) :
    (text t rest).get? (shift p) = rest.get? p := by
  cases p with
  | nil => cases rest <;> rfl
  | cons i p => rfl

theorem get?_region (n : Text) (body rest : Chunks) (p : Path) :
    (region n body rest).get? (shift p) = rest.get? p := by
  cases p with
  | nil => cases rest <;> rfl
  | cons i p => rfl

theorem find?_eq_find?_regions (n : Text) (c : Chunks) :
    c.find? n = c.regions.find? fun r => decide (r.name = n) := by
  induction c with
  | nil => rfl
  | text t rest ih =>
    rw [regions, ← ih]
    cases hp : locate n rest with
    | none => simp [find?, locate, hp]
    | some p => simp [find?, locate, hp, get?_text]
  | region m body rest ihb ihr =>
    by_cases hm : m = n
    · simp [find?, locate, regions, hm, get?]
    · rw [regions, List.find?_cons_of_neg (by simpa using hm), List.find?_append, ← ihb, ← ihr]
      cases hb : locate n body with
      | none =>
        cases hp : locate n rest with
        | none => simp [find?, locate, hm, hb, hp]
        | some p => simp [find?, locate, hm, hb, hp, get?_region]
      | some p =>
        -- The name is in the body, so the lookup there has found a region.
        have hname : n ∈ body.names := hasRegion_iff.mp (by simp [hasRegion, hb])
        obtain ⟨s, hs, hn⟩ := List.mem_map.mp (map_name_sheets body ▸ hname)
        obtain ⟨r, hr, rfl⟩ := List.mem_map.mp hs
        have hsome : (body.regions.find? fun r => decide (r.name = n)).isSome = true :=
          List.find?_isSome.mpr ⟨r, hr, by simpa using hn⟩
        rw [← ihb, find?, hb, Option.bind_some] at hsome
        cases p with
        | nil => cases body <;> cases hsome
        | cons i p =>
          obtain ⟨found, hfound⟩ := Option.isSome_iff_exists.mp hsome
          simp [find?, locate, hm, hb, get?, hfound]

theorem name_of_find? {n : Text} {c : Chunks} {r : Region} (h : c.find? n = some r) :
    r.name = n := by
  rw [find?_eq_find?_regions] at h
  simpa using List.find?_some h

theorem ownEntries_of_find? {n : Text} {c : Chunks} {r : Region} (h : c.find? n = some r) :
    r.body.ownEntries = Sheet.entriesOf n c.sheets := by
  rw [find?_eq_find?_regions] at h
  rw [sheets]
  generalize c.regions = rs at h
  induction rs with
  | nil => cases h
  | cons s rs ih =>
    rw [List.find?_cons] at h
    by_cases hs : s.name = n
    · simp only [hs, decide_true] at h
      cases h
      simp [Sheet.entriesOf, hs]
    · simp only [hs, decide_false] at h
      simpa [Sheet.entriesOf, hs] using ih h

theorem ownLines_of_find? {n : Text} {c : Chunks} {r : Region} (h : c.find? n = some r) :
    r.body.ownLines = (Sheet.entriesOf n c.sheets).filterMap Entry.line? := by
  rw [ownLines_eq_filterMap_ownEntries, ownEntries_of_find? h]

theorem find?_eq_none_iff {n : Text} {c : Chunks} : c.find? n = none ↔ n ∉ c.names := by
  rw [find?_eq_find?_regions, ← map_name_sheets, sheets, List.map_map, List.find?_eq_none]
  simp

/-! A document from its outline. -/

theorem lines_append_inj {ls ms : List Text} {es fs : List Entry}
    (he : ∀ e ∈ es.head?, isRegion e = true) (hf : ∀ e ∈ fs.head?, isRegion e = true)
    (h : ls.map Entry.line ++ es = ms.map Entry.line ++ fs) : ls = ms ∧ es = fs := by
  induction ls generalizing ms with
  | nil =>
    cases ms with
    | nil => exact ⟨rfl, h⟩
    | cons m ms =>
      have hr := he (.line m) (by simp [show es = _ from h])
      cases hr
  | cons l ls ih =>
    cases ms with
    | nil =>
      have hr := hf (.line l) (by simp [← show _ = fs from h])
      cases hr
    | cons m ms =>
      simp only [List.map_cons, List.cons_append, List.cons.injEq, Entry.line.injEq] at h
      obtain ⟨rfl, h⟩ := h
      obtain ⟨rfl, hes⟩ := ih h
      exact ⟨rfl, hes⟩

theorem isRegion_head_of_isText_eq_false {c : Chunks} (h : c.isText = false) :
    ∀ e ∈ c.ownEntries.head?, isRegion e = true := by
  intro e he
  cases c with
  | nil => cases he
  | text t rest => cases h
  | region n body rest =>
    cases he
    rfl

theorem ownEntries_text_ne_region {t n : Text} {body rest other : Chunks} :
    (text t rest).ownEntries ≠ (region n body other).ownEntries := by
  intro h
  cases hl : lines t with
  | nil => exact lines_ne_nil t hl
  | cons l ls => simp [ownEntries_text, ownEntries_region, hl] at h

theorem eq_of_outline_append {c d : Chunks} {ss ts : List Sheet} (hc : c.Joined) (hd : d.Joined)
    (ho : c.ownEntries = d.ownEntries) (hs : c.sheets ++ ss = d.sheets ++ ts) :
    c = d ∧ ss = ts := by
  -- The sheets of a body are followed by those of what comes after it, so the rest has to vary.
  induction c generalizing d ss ts with
  | nil =>
    cases d with
    | nil => exact ⟨rfl, hs⟩
    | text t rest => simp [ownEntries, entries, lines_ne_nil] at ho
    | region n body rest => cases ho
  | text t rest ih =>
    cases d with
    | nil => simp [ownEntries, entries, lines_ne_nil] at ho
    | region n body other => exact absurd ho ownEntries_text_ne_region
    | text u other =>
      rw [ownEntries_text, ownEntries_text] at ho
      obtain ⟨hl, ho⟩ := lines_append_inj (isRegion_head_of_isText_eq_false hc.1)
        (isRegion_head_of_isText_eq_false hd.1) ho
      obtain ⟨rfl, hss⟩ := ih hc.2 hd.2 ho hs
      have htu : t = u := by rw [← unlines_lines t, hl, unlines_lines]
      exact ⟨by rw [htu], hss⟩
  | region n body rest ihb ihr =>
    cases d with
    | nil => cases ho
    | text t other => exact absurd ho.symm ownEntries_text_ne_region
    | region m body' other =>
      rw [ownEntries_region, ownEntries_region, List.cons.injEq, Entry.region.injEq] at ho
      obtain ⟨⟨rfl, _⟩, ho⟩ := ho
      simp only [sheets_region, List.cons_append, List.append_assoc, List.cons.injEq,
        Sheet.mk.injEq] at hs
      obtain ⟨⟨_, hbody⟩, hs⟩ := hs
      obtain ⟨rfl, hrest⟩ := ihb hc.1 hd.1 hbody hs
      obtain ⟨rfl, hss⟩ := ihr hc.2 hd.2 ho hrest
      exact ⟨rfl, hss⟩

/-- Joined documents with the same outline are the same. -/
theorem eq_of_outline {c d : Chunks} (hc : c.Joined) (hd : d.Joined)
    (ho : c.ownEntries = d.ownEntries) (hs : c.sheets = d.sheets) : c = d :=
  (@eq_of_outline_append c d [] [] hc hd ho (by rw [hs])).1

end Chunks
end BuildFile
