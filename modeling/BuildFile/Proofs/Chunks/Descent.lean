import BuildFile.Proofs.Chunks.Reader
/-! Reading and writing by recursion on the regions. One call reads the entries of one region and
leaves the lines behind its closing marker to its caller; the reader with an explicit stack does the
same, since its stack holds what the pending calls still have to do. One call writes the chunks of
one region, and decides about every line feed by itself; the printer joins all rows at once. -/
namespace BuildFile.Chunks

/-- What one level takes off the front of some lines: its entries, and the rest with its line
number. -/
structure Taken (ls : List Text) where
  entries : List Entry
  next : Nat
  left : List Text
  length_left_le : left.length ≤ ls.length

def Taken.cons {ls ms : List Text} (e : Entry) (t : Taken ms) (h : ms.length ≤ ls.length) :
    Taken ls where
  entries := e :: t.entries
  next := t.next
  left := t.left
  length_left_le := t.length_left_le.trans h

/-- Reads the lines from number `n` on, up to the closing marker of the region `opened`, or up to
the end outside all regions. -/
def readLevel (opened : Option Text) (n : Nat) (ls : List Text) : Except RegionError (Taken ls) :=
  match ls with
  | [] =>
    match opened with
    | none => .ok ⟨[], n, [], Nat.le_refl 0⟩
    | some name => .error (.missingClose name)
  | line :: rest =>
    match Marker.read line with
    | none => do
      let after ← readLevel opened (n + 1) rest
      return after.cons (.line line) (Nat.le_succ _)
    | some m =>
      if hasBlank m.name then .error (.invalidName m.name n)
      else match m with
        | .opening name => do
          let body ← readLevel (some name) (n + 1) rest
          let after ← readLevel opened body.next body.left
          return after.cons (.region name (ofEntries body.entries))
            (body.length_left_le.trans (Nat.le_succ _))
        | .closing name =>
          if opened = some name then .ok ⟨[], n + 1, rest, Nat.le_succ _⟩
          else .error (.unexpectedClose name opened n)
termination_by ls.length
decreasing_by
  · simp
  · simp
  · have := body.length_left_le
    simp only [List.length_cons]
    omega

def descend (t : Text) : Except RegionError Chunks :=
  (readLevel none 1 (lines t)).map fun taken => ofEntries taken.entries

/-- What the stack makes of a level that is done: the pending region is closed and its outer level
goes on. -/
def resume {ls : List Text} (opened : List Level) (current : List Entry) (t : Taken ls) :
    Except RegionError (List Entry) :=
  match opened with
  | [] => .ok (current.reverse ++ t.entries)
  | level :: outer =>
    readLines outer (.region level.name (ofEntries (current.reverse ++ t.entries)) :: level.before)
      t.next t.left

theorem resume_cons {ls ms : List Text} (opened : List Level) (current : List Entry) (e : Entry)
    (t : Taken ms) (h : ms.length ≤ ls.length) :
    resume opened current (t.cons e h) = resume opened (e :: current) t := by
  cases opened <;> simp [resume, Taken.cons]

theorem readLevel_plain {line : Text} (h : Marker.read line = none) (opened : Option Text) (n : Nat)
    (rest : List Text) : readLevel opened n (line :: rest) =
      readLevel opened (n + 1) rest >>= fun after =>
        .ok (after.cons (.line line) (Nat.le_succ _)) := by
  rw [readLevel.eq_def]
  simp only [h]
  rfl

theorem readLevel_opening {line name : Text} (h : Marker.read line = some (.opening name))
    (hb : hasBlank name = false) (opened : Option Text) (n : Nat) (rest : List Text) :
    readLevel opened n (line :: rest) =
      readLevel (some name) (n + 1) rest >>= fun body =>
        readLevel opened body.next body.left >>= fun after =>
          .ok (after.cons (.region name (ofEntries body.entries))
            (body.length_left_le.trans (Nat.le_succ _))) := by
  rw [readLevel.eq_def]
  simp only [h, Marker.name, hb]
  rfl

theorem readLevel_closing {line name : Text} (h : Marker.read line = some (.closing name))
    (hb : hasBlank name = false) (n : Nat) (rest : List Text) :
    readLevel (some name) n (line :: rest) = .ok ⟨[], n + 1, rest, Nat.le_succ _⟩ := by
  rw [readLevel.eq_def]
  simp [h, Marker.name, hb]

theorem readLevel_of_offence {stack : List Text} {n : Nat} {line : Text} {e : RegionError}
    (h : offence? stack n line = some e) (rest : List Text) :
    readLevel stack.head? n (line :: rest) = .error e := by
  rw [readLevel.eq_def]
  unfold offence? at h
  cases hm : Marker.read line with
  | none => simp [hm] at h
  | some m =>
    by_cases hb : hasBlank m.name = true
    · simp_all
    · cases m with
      | opening name => simp [hm, hb] at h
      | closing name =>
        by_cases hs : stack.head? = some name
        · simp [hm, hb, hs] at h
        · simp_all

theorem readLines_eq_readLevel (opened : List Level) (current : List Entry) (n : Nat)
    (ls : List Text) :
    readLines opened current n ls =
      readLevel (opened.map Level.name).head? n ls >>= resume opened current := by
  -- On the number of lines: what a region leaves behind is shorter, but no part of the list.
  induction h : ls.length using Nat.strong_induction_on generalizing opened current n ls with
  | _ size ih =>
  cases ls with
  | nil =>
    rw [readLevel.eq_def]
    cases opened <;> simp [readLines, resume, bind, Except.bind]
  | cons line rest =>
    have hrest : rest.length < size := by simp [← h]
    cases ho : offence? (opened.map Level.name) n line with
    | some e =>
      rw [readLines_of_offence ho, readLevel_of_offence ho]
      rfl
    | none =>
      obtain ⟨outer, next, hr⟩ := (offence?_eq_none_iff.mp ho).exists_reads current
      rw [hr.readLines_eq]
      cases hr with
      | plain hm =>
        rw [readLevel_plain hm, ih _ hrest _ _ _ _ rfl, bind_assoc]
        congr 1
        funext after
        exact (resume_cons opened current (.line line) after _).symm
      | @opening _ _ name hm hb =>
        rw [readLevel_opening hm hb, ih _ hrest _ _ _ _ rfl, bind_assoc]
        congr 1
        funext body
        have hleft : body.left.length < size := lt_of_le_of_lt body.length_left_le hrest
        rw [bind_assoc]
        refine (ih _ hleft _ _ _ _ rfl).trans ?_
        congr 1
        funext after
        exact (resume_cons opened current _ after _).symm
      | @closing level _ _ hm hb =>
        have hl := readLevel_closing hm hb n rest
        rw [List.map_cons, List.head?_cons, hl]
        simp [resume, bind, Except.bind]

theorem parse_eq_descend (t : Text) : parse t = descend t := by
  have hr := readLines_eq_readLevel [] [] 1 (lines t)
  rw [parse, hr, descend]
  cases hl : readLevel none 1 (lines t) with
  | error e => simp [hl, bind, Except.bind, Except.map]
  | ok taken => simp [hl, resume, bind, Except.bind, Except.map]

/-- Writes chunk by chunk: a line feed stands between neighbours, and behind the body of a region if
it has chunks, also where these chunks are written as nothing. -/
def write : Chunks → Text
  | nil => []
  | text t rest => t ++ if rest = nil then [] else '\n' :: write rest
  | region n body rest =>
    (Marker.opening n).text ++ '\n' :: ((if body = nil then [] else write body ++ ['\n']) ++
      ((Marker.closing n).text ++ if rest = nil then [] else '\n' :: write rest))

theorem print_eq_write (c : Chunks) : c.print = c.write := by
  induction c with
  | nil => rfl
  | text t rest ih =>
    by_cases hr : rest = nil
    · simp [hr, write, print_text_nil]
    · have hrows : rest.rows ≠ [] := mt rows_eq_nil_iff.mp hr
      rw [print, rows, unlines_append (lines_ne_nil t) hrows, unlines_lines, write, if_neg hr, ← ih]
      rfl
  | region n body rest ihb ihr =>
    have hclose : unlines ((Marker.closing n).text :: rest.rows) =
        (Marker.closing n).text ++ if rest = nil then [] else '\n' :: write rest := by
      by_cases hr : rest = nil
      · simp [hr, rows]
      · rw [if_neg hr, ← ihr, print, unlines_cons (mt rows_eq_nil_iff.mp hr)]
    have hbody : unlines (body.rows ++ (Marker.closing n).text :: rest.rows) =
        (if body = nil then [] else write body ++ ['\n']) ++
          unlines ((Marker.closing n).text :: rest.rows) := by
      by_cases hb : body = nil
      · simp [hb, rows]
      · rw [if_neg hb, ← ihb, unlines_append (mt rows_eq_nil_iff.mp hb) (by simp)]
        simp [print]
    rw [print, rows, unlines_cons (by simp), write, hbody, hclose]

end BuildFile.Chunks
