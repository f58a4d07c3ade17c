import BuildFile.Proofs.Chunks.Descent
/-! The reader against a stack of names. A text can be read exactly when a machine that only pushes
and pops the names of regions accepts it; otherwise the first line that does not fit decides the
error, and a region that is left open is reported only if every line fits. -/
namespace BuildFile.Chunks

/-- The stack machine, from line number `n` on: it keeps names and no entries. -/
def scan (stack : List Text) (n : Nat) : List Text → Except RegionError Unit
  | [] =>
    match stack with
    | [] => .ok ()
    | name :: _ => .error (.missingClose name)
  | line :: rest =>
    match offence? stack n line with
    | some e => .error e
    | none => scan (nest line stack) (n + 1) rest

/-- The stack after some lines. -/
def nestAll (stack ls : List Text) : List Text := ls.foldl (fun s line => nest line s) stack

/-- Every line fits into the stack that the lines before it leave. -/
def AllFit (stack ls : List Text) : Prop :=
  ∀ pre line post, ls = pre ++ line :: post → Fits (nestAll stack pre) line

theorem readLines_map_eq_scan (opened : List Level) (current : List Entry) (n : Nat)
    (ls : List Text) :
    (readLines opened current n ls).map (fun _ => ()) = scan (opened.map Level.name) n ls := by
  induction ls generalizing opened current n with
  | nil => cases opened <;> rfl
  | cons line rest ih =>
    rw [scan]
    cases ho : offence? (opened.map Level.name) n line with
    | some e =>
      rw [readLines_of_offence ho]
      rfl
    | none =>
      obtain ⟨outer, next, hr⟩ := (offence?_eq_none_iff.mp ho).exists_reads current
      rw [hr.readLines_eq, ih, hr.names_eq]

theorem parse_map_eq_scan (t : Text) : (parse t).map (fun _ => ()) = scan [] 1 (lines t) := by
  rw [← List.map_nil, ← readLines_map_eq_scan [] [] 1 (lines t), parse]
  cases readLines [] [] 1 (lines t) <;> rfl

theorem allFit_nil (stack : List Text) : AllFit stack [] := by
  intro pre line post h
  cases pre <;> cases h

theorem allFit_cons {stack rest : List Text} {line : Text} :
    AllFit stack (line :: rest) ↔ Fits stack line ∧ AllFit (nest line stack) rest := by
  constructor
  · intro h
    refine ⟨h [] line rest rfl, ?_⟩
    intro pre l post hrest
    subst hrest
    exact h (line :: pre) l post rfl
  · intro hfit pre l post h
    obtain ⟨hl, hr⟩ := hfit
    cases pre with
    | nil =>
      cases h
      exact hl
    | cons k pre =>
      cases h
      exact hr pre l post rfl

theorem scan_append {stack pre : List Text} (h : AllFit stack pre) (n : Nat) (rest : List Text) :
    scan stack n (pre ++ rest) = scan (nestAll stack pre) (n + pre.length) rest := by
  induction pre generalizing stack n with
  | nil => rfl
  | cons line pre ih =>
    obtain ⟨hl, hp⟩ := allFit_cons.mp h
    rw [List.cons_append, scan, offence?_eq_none_iff.mpr hl, List.length_cons]
    simpa [nestAll, Nat.add_assoc, Nat.add_comm 1] using ih hp (n + 1)

theorem scan_of_allFit {stack ls : List Text} (h : AllFit stack ls) (n : Nat) :
    scan stack n ls = scan (nestAll stack ls) (n + ls.length) [] := by
  simpa using scan_append h n []

theorem scan_of_offence {stack pre post : List Text} {line : Text} {n : Nat} {e : RegionError}
    (h : AllFit stack pre) (he : offence? (nestAll stack pre) (n + pre.length) line = some e) :
    scan stack n (pre ++ line :: post) = .error e := by
  rw [scan_append h, scan, he]

theorem exists_first_offence {stack ls : List Text} (h : ¬ AllFit stack ls) (n : Nat) :
    ∃ pre line post e, ls = pre ++ line :: post ∧ AllFit stack pre ∧
      offence? (nestAll stack pre) (n + pre.length) line = some e := by
  induction ls generalizing stack n with
  | nil => exact absurd (allFit_nil stack) h
  | cons line rest ih =>
    cases ho : offence? stack n line with
    | some e => exact ⟨[], line, rest, e, rfl, allFit_nil stack, ho⟩
    | none =>
      have hl : Fits stack line := offence?_eq_none_iff.mp ho
      obtain ⟨pre, l, post, e, rfl, hp, he⟩ := ih (fun hr => h (allFit_cons.mpr ⟨hl, hr⟩)) (n + 1)
      refine ⟨line :: pre, l, post, e, rfl, allFit_cons.mpr ⟨hl, hp⟩, ?_⟩
      simpa [nestAll, Nat.add_assoc, Nat.add_comm 1] using he

theorem scan_eq_ok_iff {stack ls : List Text} {n : Nat} :
    scan stack n ls = .ok () ↔ AllFit stack ls ∧ nestAll stack ls = [] := by
  by_cases hfit : AllFit stack ls
  · rw [scan_of_allFit hfit]
    cases nestAll stack ls <;> simp [scan, hfit]
  · obtain ⟨pre, line, post, e, rfl, hp, he⟩ := exists_first_offence hfit n
    rw [scan_of_offence hp he]
    simp [hfit]

/-- The first line that does not fit decides the error, else the innermost region left open. -/
theorem scan_eq_error_iff {stack ls : List Text} {n : Nat} {e : RegionError} :
    scan stack n ls = .error e ↔
      (∃ pre line post, ls = pre ++ line :: post ∧ AllFit stack pre ∧
        offence? (nestAll stack pre) (n + pre.length) line = some e) ∨
      (AllFit stack ls ∧ ∃ name outer, nestAll stack ls = name :: outer ∧
        e = .missingClose name) := by
  constructor
  · intro h
    by_cases hfit : AllFit stack ls
    · rw [scan_of_allFit hfit] at h
      cases hs : nestAll stack ls with
      | nil =>
        rw [hs] at h
        cases h
      | cons name outer =>
        rw [hs] at h
        cases h
        exact .inr ⟨hfit, name, outer, rfl, rfl⟩
    · obtain ⟨pre, line, post, e', rfl, hp, he⟩ := exists_first_offence hfit n
      rw [scan_of_offence hp he] at h
      cases h
      exact .inl ⟨pre, line, post, rfl, hp, he⟩
  · intro h
    obtain ⟨pre, line, post, rfl, hp, he⟩ | ⟨hfit, name, outer, hs, rfl⟩ := h
    · exact scan_of_offence hp he
    · rw [scan_of_allFit hfit, hs]
      rfl

theorem offence?_eq_some_iff {stack : List Text} {n : Nat} {line : Text} {e : RegionError} :
    offence? stack n line = some e ↔ ∃ m, Marker.read line = some m ∧
      ((hasBlank m.name = true ∧ e = .invalidName m.name n) ∨
       (hasBlank m.name = false ∧ ∃ found, m = .closing found ∧ stack.head? ≠ some found ∧
          e = .unexpectedClose found stack.head? n)) := by
  unfold offence?
  cases hm : Marker.read line with
  | none => simp
  | some m =>
    by_cases hb : hasBlank m.name = true
    · simpa [hb] using eq_comm
    · cases m with
      | opening name => simp_all
      | closing name =>
        by_cases hs : stack.head? = some name
        · simp_all
        · simpa [hb, hs] using eq_comm

theorem parse_eq_error_iff_scan {t : Text} {e : RegionError} :
    parse t = .error e ↔ scan [] 1 (lines t) = .error e := by
  rw [← parse_map_eq_scan]
  cases parse t <;> simp [Except.map]

theorem exists_parse_eq_ok_iff_scan {t : Text} :
    (∃ c, parse t = .ok c) ↔ scan [] 1 (lines t) = .ok () := by
  rw [← parse_map_eq_scan]
  cases parse t <;> simp [Except.map]

theorem allFit_iff {stack ls : List Text} :
    AllFit stack ls ↔
      (∀ line ∈ ls, ∀ m, Marker.read line = some m → hasBlank m.name = false) ∧
      ∀ pre line post name, ls = pre ++ line :: post → Marker.read line = some (.closing name) →
        (nestAll stack pre).head? = some name := by
  constructor
  · intro h
    refine ⟨?_, ?_⟩
    · intro line hl m hm
      obtain ⟨pre, post, rfl⟩ := List.append_of_mem hl
      exact (h pre line post rfl m hm).1
    · intro pre line post name hls hm
      exact (h pre line post hls _ hm).2 name rfl
  · intro h pre line post hls m hm
    obtain ⟨hb, hc⟩ := h
    refine ⟨hb line (by simp [hls]) m hm, ?_⟩
    intro name hname
    exact hc pre line post name hls (hname ▸ hm)

/-- The reader, recursive descent and the stack machine agree. A text can be read if no name has a
blank, every closing marker names the top of the stack, and the stack is empty at the end. Otherwise
the first offending line decides the error; if none offends, the innermost open region does. -/
theorem parse_verdict (t : Text) :
    parse t = descend t ∧
    (parse t).map (fun _ => ()) = scan [] 1 (lines t) ∧
    ((∃ c, parse t = .ok c) ↔
      (∀ line ∈ lines t, ∀ m, Marker.read line = some m → hasBlank m.name = false) ∧
      (∀ pre line post name, lines t = pre ++ line :: post →
        Marker.read line = some (.closing name) → (nestAll [] pre).head? = some name) ∧
      nestAll [] (lines t) = []) ∧
    ∀ e, parse t = .error e ↔
      (∃ pre line post m, lines t = pre ++ line :: post ∧ AllFit [] pre ∧
        Marker.read line = some m ∧
        ((hasBlank m.name = true ∧ e = .invalidName m.name (pre.length + 1)) ∨
         (hasBlank m.name = false ∧ ∃ found, m = .closing found ∧
          (nestAll [] pre).head? ≠ some found ∧
          e = .unexpectedClose found (nestAll [] pre).head? (pre.length + 1)))) ∨
      (AllFit [] (lines t) ∧
        ∃ name outer, nestAll [] (lines t) = name :: outer ∧ e = .missingClose name) := by
  refine ⟨parse_eq_descend t, parse_map_eq_scan t, ?_, ?_⟩
  · rw [exists_parse_eq_ok_iff_scan, scan_eq_ok_iff, allFit_iff, and_assoc]
  · intro e
    rw [parse_eq_error_iff_scan, scan_eq_error_iff]
    simp only [offence?_eq_some_iff, Nat.add_comm 1, exists_and_left]

end BuildFile.Chunks
