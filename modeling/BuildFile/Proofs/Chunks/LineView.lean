import BuildFile.Proofs.Chunks.Outline
/-! The line view loses nothing. Cutting the runs of a document into lines and folding the lines
back prints as before, wherever the document stands; it gives the same chunks back exactly if no two
runs were neighbours, since folding leaves no neighbours behind. In the other direction an entry
comes back as it was exactly if it does not hide several lines in one. -/
namespace BuildFile.Chunks

theorem Spaced.consLine {c : Chunks} (t : Text) (h : c.Spaced) : (consLine t c).Spaced := by
  cases c with
  | nil => exact ⟨rfl, h⟩
  | text u rest => exact h
  | region n body rest => exact ⟨rfl, h⟩

theorem spaced_ofEntries (es : List Entry) : (ofEntries es).Spaced := by
  induction es with
  | nil => trivial
  | cons e es ih =>
    cases e with
    | line t => exact ih.consLine t
    | region n body => exact ih

theorem ofEntries_entries_eq_self_iff {c : Chunks} : ofEntries c.entries = c ↔ c.Spaced := by
  constructor
  · intro h
    have hspaced := spaced_ofEntries c.entries
    rwa [h] at hspaced
  · exact Spaced.ofEntries_entries

/-! Folding in one pass. The lines since the last region are kept, and become one run when the next
region or the end comes. -/

/-- Puts a run of lines in front; no lines are no run, but a single blank line is one. -/
def closeRun (run : List Text) (c : Chunks) : Chunks :=
  if run.isEmpty then c else text (unlines run) c

def foldRuns (run : List Text) : List Entry → Chunks
  | [] => closeRun run nil
  | .line t :: es => foldRuns (run ++ [t]) es
  | .region n body :: es => closeRun run (region n body (foldRuns [] es))

theorem closeRun_ofEntries (run : List Text) (es : List Entry) (h : (ofEntries es).isText = false) :
    closeRun run (ofEntries es) = ofEntries (run.map .line ++ es) := by
  cases run with
  | nil => rfl
  | cons t ts =>
    rw [ofEntries_lines_append (List.cons_ne_nil t ts), consLine_of_isText_eq_false h]
    rfl

theorem foldRuns_eq (run : List Text) (es : List Entry) :
    foldRuns run es = ofEntries (run.map .line ++ es) := by
  induction es generalizing run with
  | nil => exact closeRun_ofEntries run [] rfl
  | cons e es ih =>
    cases e with
    | line t =>
      rw [foldRuns, ih, List.map_append, List.append_assoc]
      rfl
    | region n body =>
      rw [foldRuns, ih]
      exact closeRun_ofEntries run (.region n body :: es) rfl

/-! What is printed. -/

theorem rows_ofEntries_entries (c : Chunks) : (ofEntries c.entries).rows = c.rows := by
  induction c with
  | nil => rfl
  | text t rest ih => rw [ofEntries_entries_text, rows_consLine, ih, rows]
  | region n body rest _ ih => rw [entries, ofEntries, rows, ih, rows]

theorem print_region_congr {c d : Chunks} (h : c.rows = d.rows) (n : Text) (rest : Chunks) :
    (region n c rest).print = (region n d rest).print := by
  rw [print, rows, h, print, rows]

/-! Entries that come back. -/

theorem not_newline_mem_of_line_mem_entries {c : Chunks} {t : Text} (h : .line t ∈ c.entries) :
    '\n' ∉ t := by
  induction c with
  | nil => cases h
  | text u rest ih =>
    obtain hline | hrest := List.mem_append.mp h
    · obtain ⟨l, hl, he⟩ := List.mem_map.mp hline
      cases he
      exact not_newline_mem_of_mem_lines hl
    · exact ih hrest
  | region n body rest _ ih =>
    obtain he | hrest := List.mem_cons.mp h
    · cases he
    · exact ih hrest

theorem entries_ofEntries_eq_self_iff {es : List Entry} :
    (ofEntries es).entries = es ↔ ∀ t, .line t ∈ es → '\n' ∉ t := by
  constructor
  · intro h t ht
    rw [← h] at ht
    exact not_newline_mem_of_line_mem_entries ht
  · intro h
    rw [entries_ofEntries]
    apply flatMap_cut_eq_self
    intro e he
    cases e with
    | line t => exact Entry.cut_of_not_mem (h t he)
    | region n body => rfl

/-- The two directions of the line view. A document that is cut into entries and folded back prints
the same, by itself and as the body of a region in front of anything, and is the same document
exactly if no two runs of text were neighbours. Entries that are folded and cut again are the same
exactly if none of their lines holds a line feed; folding leaves no neighbours, and can be done in
one pass that keeps the open run. The lines among the entries of a region are its own lines. -/
theorem line_view_faithful :
    (∀ c : Chunks, (ofEntries c.entries).print = c.print ∧
      (∀ n rest, (region n (ofEntries c.entries) rest).print = (region n c rest).print) ∧
      (ofEntries c.entries = c ↔ c.Spaced)) ∧
    (∀ es, ((ofEntries es).entries = es ↔ ∀ t, .line t ∈ es → '\n' ∉ t) ∧
      (ofEntries es).Spaced ∧ ofEntries es = foldRuns [] es) ∧
    ∀ r : Region, r.body.entries.filterMap Entry.line? = r.body.ownLines := by
  refine ⟨fun c => ⟨?_, ?_, ofEntries_entries_eq_self_iff⟩, fun es => ⟨?_, ?_, ?_⟩, ?_⟩
  · rw [print, rows_ofEntries_entries, print]
  · exact print_region_congr (rows_ofEntries_entries c)
  · exact entries_ofEntries_eq_self_iff
  · exact spaced_ofEntries es
  · exact (foldRuns_eq [] es).symm
  · exact fun r => filterMap_line?_entries r.body

/-- Two neighbouring runs, the second one blank, and two blank ones within a region. -/
def sampleNeighbours : Chunks := text ['a'] (text [] (region ['r'] (text [] (text [] nil)) nil))

/-- Neighbours are joined, but not those within a region; a line feed in an entry cuts it in two. -/
theorem line_view_faithful_neighbours :
    ofEntries sampleNeighbours.entries =
      text ['a', '\n'] (region ['r'] (text [] (text [] nil)) nil) ∧
    (ofEntries sampleNeighbours.entries).print = sampleNeighbours.print ∧
    ¬ sampleNeighbours.Spaced ∧ (ofEntries [.line ['a', '\n']]).entries ≠ [.line ['a', '\n']] := by
  have hfold : ofEntries sampleNeighbours.entries =
      text ['a', '\n'] (region ['r'] (text [] (text [] nil)) nil) := rfl
  obtain ⟨hdocument, hentries, _⟩ := line_view_faithful
  obtain ⟨hprint, _, hsame⟩ := hdocument sampleNeighbours
  refine ⟨hfold, hprint, mt hsame.mpr ?_, ?_⟩
  · rw [hfold]
    decide
  · intro h
    exact (hentries _).1.mp h ['a', '\n'] (by simp) (by simp)

end BuildFile.Chunks
