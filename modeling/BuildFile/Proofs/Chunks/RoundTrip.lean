import BuildFile.Proofs.Chunks.Descent
import Mathlib.Data.Set.Function
/-! Printing and reading are inverse to each other. Printing what was read gives the text with its
markers in canonical form; reading what was printed gives the normal form of the document. The
normal documents are exactly those that can be read from a text, and the only ones that survive
printing and reading. -/
namespace BuildFile.Chunks

theorem exists_readLines_of_parse {t : Text} {c : Chunks} (h : parse t = .ok c) :
    ∃ es, readLines [] [] 1 (lines t) = .ok es ∧ ofEntries es = c := by
  unfold parse at h
  cases hr : readLines [] [] 1 (lines t) with
  | error e => simp [hr, Except.map] at h
  | ok es =>
    rw [hr] at h
    cases h
    exact ⟨es, rfl, rfl⟩

/-! The rows of what was read. -/

/-- The rows above the current region, from the outermost open region inwards. -/
def rowsAbove : List Level → List Text
  | [] => []
  | level :: outer =>
    rowsAbove outer ++ level.before.reverse.flatMap Entry.rows ++ [(Marker.opening level.name).text]

theorem rows_readLines {opened : List Level} {current es : List Entry} {n : Nat} {ls : List Text}
    (h : readLines opened current n ls = .ok es) (hl : ∀ l ∈ ls, '\n' ∉ l) :
    es.flatMap Entry.rows =
      rowsAbove opened ++ current.reverse.flatMap Entry.rows ++ ls.map Marker.canonicalLine := by
  revert hl
  refine readLines_induction (P := fun opened current ls => (∀ l ∈ ls, '\n' ∉ l) →
    es.flatMap Entry.rows =
      rowsAbove opened ++ current.reverse.flatMap Entry.rows ++ ls.map Marker.canonicalLine) ?_ ?_ h
  · intro _
    simp [rowsAbove]
  · intro line rest opened current outer next hr ih hl
    rw [ih fun l hm => hl l (List.mem_cons_of_mem line hm)]
    cases hr with
    | plain hm =>
      have hline := lines_of_not_mem (hl line (by simp))
      simp [Entry.rows, hline, Marker.canonicalLine_of_plain hm]
    | opening hm hb => simp [rowsAbove, Marker.canonicalLine_of_read hm]
    | closing hm hb =>
      -- The rows of the body move from above the line into the entry of the region.
      simp [rowsAbove, Entry.rows, rows_ofEntries, Marker.canonicalLine_of_read hm]

theorem rows_of_parse {t : Text} {c : Chunks} (h : parse t = .ok c) :
    c.rows = (lines t).map Marker.canonicalLine := by
  obtain ⟨es, hr, rfl⟩ := exists_readLines_of_parse h
  rw [rows_ofEntries, rows_readLines hr fun l => not_newline_mem_of_mem_lines]
  simp [rowsAbove]

/-- Every marker line of the text has its canonical form. -/
def CanonicalMarkers (t : Text) : Prop := ∀ l ∈ lines t, ∀ m, Marker.read l = some m → l = m.text

theorem canonicalMarkers_iff {t : Text} :
    CanonicalMarkers t ↔ (lines t).map Marker.canonicalLine = lines t := by
  have hmap := @List.map_inj_left _ _ (lines t) Marker.canonicalLine id
  rw [List.map_id] at hmap
  rw [hmap]
  exact forall₂_congr fun l _ => Marker.canonicalLine_eq_self_iff.symm

theorem CanonicalMarkers.print_of_parse {t : Text} {c : Chunks} (ht : CanonicalMarkers t)
    (h : parse t = .ok c) : c.print = t := by
  rw [print, rows_of_parse h, canonicalMarkers_iff.mp ht, unlines_lines]

/-- Printing what was read changes nothing but the spelling of markers. -/
theorem print_eq_canonical_text {t : Text} {c : Chunks} (h : parse t = .ok c) :
    c.print = c.write ∧ c.print = unlines ((lines t).map Marker.canonicalLine) ∧
      (CanonicalMarkers t → c.print = t) := by
  refine ⟨print_eq_write c, ?_, fun ht => ht.print_of_parse h⟩
  rw [print, rows_of_parse h]

/-- Blanks around the markers go; the blank line and the carriage return in the region stay. -/
theorem print_eq_canonical_text_spaced :
    parse ("  # --== proj begin a ==--\t\n\nx\r\n# --== proj end a ==--\r\n" : String) =
      .ok (region ['a'] (text ['\n', 'x', '\r'] nil) (text [] nil)) ∧
    print (region ['a'] (text ['\n', 'x', '\r'] nil) (text [] nil)) =
      ("# --== proj begin a ==--\n\nx\r\n# --== proj end a ==--\n" : String) :=
  ⟨rfl, (print_eq_canonical_text
    (t := "  # --== proj begin a ==--\t\n\nx\r\n# --== proj end a ==--\r\n")
    rfl).2.1⟩

/-! What was read is normal. -/

/-- All entries collected so far are sound, inside the current region and around it. -/
structure SoundState (opened : List Level) (current : List Entry) : Prop where
  levels : ∀ level ∈ opened, IsName level.name ∧ ∀ e ∈ level.before, e.Sound
  entries : ∀ e ∈ current, e.Sound

theorem SoundState.step {line : Text} {opened outer : List Level} {current next : List Entry}
    (h : SoundState opened current) (hr : Reads line opened current outer next)
    (hl : '\n' ∉ line) : SoundState outer next := by
  cases hr with
  | plain hm =>
    refine ⟨h.levels, ?_⟩
    intro e he
    obtain rfl | he := List.mem_cons.mp he
    · exact ⟨hl, isMarker_eq_false_iff.mpr hm⟩
    · exact h.entries e he
  | opening hm hb =>
    have hn : IsName _ := ⟨(Marker.read_eq_some_iff.mp hm).2.1, hb⟩
    refine ⟨?_, by simp⟩
    intro level hlevel
    obtain rfl | hlevel := List.mem_cons.mp hlevel
    · exact ⟨hn, h.entries⟩
    · exact h.levels level hlevel
  | @closing level _ _ hm hb =>
    obtain ⟨hn, hbefore⟩ := h.levels level (by simp)
    refine ⟨fun k hk => h.levels k (List.mem_cons_of_mem level hk), ?_⟩
    intro e he
    obtain rfl | he := List.mem_cons.mp he
    · exact ⟨hn, tidy_ofEntries fun d hd => h.entries d (List.mem_reverse.mp hd)⟩
    · exact hbefore e he

theorem SoundState.readLines {opened : List Level} {current es : List Entry} {n : Nat}
    {ls : List Text} (hs : SoundState opened current) (h : readLines opened current n ls = .ok es)
    (hl : ∀ l ∈ ls, '\n' ∉ l) : ∀ e ∈ es, e.Sound := by
  revert hs hl
  refine readLines_induction (P := fun opened current ls => SoundState opened current →
    (∀ l ∈ ls, '\n' ∉ l) → ∀ e ∈ es, e.Sound) ?_ ?_ h
  · intro hs _ e he
    exact hs.entries e (List.mem_reverse.mpr he)
  · intro line rest opened current outer next hr ih hs hl
    exact ih (hs.step hr (hl line (by simp))) fun l hm => hl l (List.mem_cons_of_mem line hm)

theorem normal_of_parse {t : Text} {c : Chunks} (h : parse t = .ok c) : c.Normal := by
  have hrows := rows_of_parse h
  obtain ⟨es, hr, rfl⟩ := exists_readLines_of_parse h
  have hs : SoundState [] [] := ⟨by simp, by simp⟩
  refine ⟨tidy_ofEntries (hs.readLines hr fun l => not_newline_mem_of_mem_lines), ?_⟩
  -- A document without chunks has no rows, but every text has a line.
  intro hnil
  rw [hnil, rows, eq_comm, List.map_eq_nil_iff] at hrows
  exact lines_ne_nil t hrows

/-! Reading what was printed. -/

theorem readLines_plain_append {ls : List Text} (h : ∀ l ∈ ls, isMarker l = false)
    (opened : List Level) (current : List Entry) (n : Nat) (rest : List Text) :
    readLines opened current n (ls ++ rest) =
      readLines opened ((ls.map Entry.line).reverse ++ current) (n + ls.length) rest := by
  induction ls generalizing current n with
  | nil => simp
  | cons l ls ih =>
    have hr : Reads l opened current opened (.line l :: current) :=
      .plain (isMarker_eq_false_iff.mp (h l (by simp)))
    rw [List.cons_append, hr.readLines_eq, ih fun k hk => h k (List.mem_cons_of_mem l hk)]
    simp [Nat.add_comm 1, Nat.add_assoc]

/-- The rows of a document are read as its entries, whatever is open around them. -/
theorem readLines_rows_append {c : Chunks} (h : c.WellFormed) (opened : List Level)
    (current : List Entry) (n : Nat) (rest : List Text) :
    readLines opened current n (c.rows ++ rest) =
      readLines opened (c.join.entries.reverse ++ current) (n + c.rows.length) rest := by
  -- A body is read inside the region that was just opened, so what is open has to vary.
  induction c generalizing opened current n rest with
  | nil => simp [rows, join, entries]
  | text t c ih =>
    rw [rows, List.append_assoc, readLines_plain_append h.1, ih h.2, join, entries_consLine]
    simp [Nat.add_assoc]
  | region name body c ihb ihc =>
    have ho : Reads (Marker.opening name).text opened current (⟨name, current⟩ :: opened) [] :=
      .opening (Marker.read_text h.1) h.1.2
    have hc : Reads (Marker.closing name).text (⟨name, current⟩ :: opened)
        (body.join.entries.reverse ++ []) opened (.region name body.join :: current) := by
      have hbody : ofEntries (body.join.entries.reverse ++ []).reverse = body.join := by
        simpa using ofEntries_entries (joined_join body)
      have hr := @Reads.closing (Marker.closing name).text ⟨name, current⟩ opened
        (body.join.entries.reverse ++ []) (Marker.read_text h.1) h.1.2
      rwa [hbody] at hr
    calc
      readLines opened current n ((region name body c).rows ++ rest)
          = readLines (⟨name, current⟩ :: opened) [] (n + 1)
              (body.rows ++ (Marker.closing name).text :: (c.rows ++ rest)) := by
            simp only [rows, List.cons_append, List.append_assoc]
            exact ho.readLines_eq n _
      _ = readLines opened (.region name body.join :: current) (n + 1 + body.rows.length + 1)
            (c.rows ++ rest) := by
            rw [ihb h.2.1]
            exact hc.readLines_eq _ _
      _ = readLines opened ((region name body c).join.entries.reverse ++ current)
            (n + (region name body c).rows.length) rest := by
            rw [ihc h.2.2]
            simp only [join, entries, rows, List.reverse_cons, List.append_assoc,
              List.length_cons, List.length_append, List.singleton_append]
            congr 1
            omega

theorem not_newline_mem_rows {c : Chunks} (h : c.WellFormed) : ∀ l ∈ c.rows, '\n' ∉ l := by
  induction c with
  | nil => simp [rows]
  | text t c ih =>
    intro l hl
    obtain hl | hl := List.mem_append.mp hl
    · exact not_newline_mem_of_mem_lines hl
    · exact ih h.2 l hl
  | region name body c ihb ihc =>
    have hn := h.1.not_newline_mem
    intro l hl
    simp only [rows, List.mem_cons, List.mem_append] at hl
    obtain rfl | hl | rfl | hl := hl
    · exact Marker.not_newline_mem_text hn
    · exact ihb h.2.1 l hl
    · exact Marker.not_newline_mem_text hn
    · exact ihc h.2.2 l hl

theorem lines_print {c : Chunks} (h : c.WellFormed) (hne : c ≠ nil) : lines c.print = c.rows :=
  lines_unlines (mt rows_eq_nil_iff.mp hne) (not_newline_mem_rows h)

theorem WellFormed.parse_print {c : Chunks} (h : c.WellFormed) : parse c.print = .ok c.norm := by
  by_cases hc : c = nil
  · subst hc
    rfl
  · have hread : readLines [] [] 1 c.rows = .ok c.join.entries := by
      have hr := readLines_rows_append h [] [] 1 []
      simpa [readLines] using hr
    rw [parse, lines_print h hc, hread, norm_eq_join hc]
    exact congrArg Except.ok (ofEntries_entries (joined_join c))

theorem Normal.parse_print {c : Chunks} (h : c.Normal) : parse c.print = .ok c := by
  rw [h.wellFormed.parse_print, (normal_iff.mp h).2]

theorem Normal.canonicalMarkers_print {c : Chunks} (h : c.Normal) : CanonicalMarkers c.print := by
  have hrows := rows_of_parse h.parse_print
  rw [← lines_print h.wellFormed h.ne_nil] at hrows
  exact canonicalMarkers_iff.mpr hrows.symm

/-- Reading what was printed gives the normal form, and what can be read is normal. So printing and
reading are inverse bijections between the normal documents and the readable texts with canonical
markers. -/
theorem print_bijOn_parse :
    (∀ c : Chunks, c.WellFormed → parse c.print = .ok c.norm) ∧
    (∀ t c, parse t = .ok c → c.WellFormed ∧ c.norm = c) ∧
    Set.BijOn print {c | c.WellFormed ∧ c.norm = c}
      {t | CanonicalMarkers t ∧ ∃ c, parse t = .ok c} ∧
    (∀ c : Chunks, c.WellFormed → c.norm = c → parse c.print = .ok c) ∧
    ∀ t c, CanonicalMarkers t → parse t = .ok c → c.print = t := by
  have hback (c : Chunks) (hw : c.WellFormed) (hn : c.norm = c) : parse c.print = .ok c :=
    (normal_iff.mpr ⟨hw, hn⟩).parse_print
  refine ⟨fun c => WellFormed.parse_print, fun t c h => normal_iff.mp (normal_of_parse h),
    ⟨?_, ?_, ?_⟩, hback, fun t c ht => ht.print_of_parse⟩
  · intro c hc
    obtain ⟨hw, hn⟩ := hc
    exact ⟨(normal_iff.mpr ⟨hw, hn⟩).canonicalMarkers_print, c, hback c hw hn⟩
  · intro c hc d hd he
    have hparse := hback c hc.1 hc.2
    rw [he, hback d hd.1 hd.2] at hparse
    cases hparse
    rfl
  · intro t h
    obtain ⟨ht, c, h⟩ := h
    exact ⟨c, normal_iff.mp (normal_of_parse h), ht.print_of_parse h⟩

/-- Three neighbouring runs of text, two of them blank, become one; the empty region stays empty. -/
theorem print_bijOn_parse_neighbours :
    parse (print (text ['a'] (text [] (text [] (region ['r'] nil nil))))) =
      .ok (text ['a', '\n', '\n'] (region ['r'] nil nil)) :=
  print_bijOn_parse.1 (text ['a'] (text [] (text [] (region ['r'] nil nil)))) (by decide)

end BuildFile.Chunks
