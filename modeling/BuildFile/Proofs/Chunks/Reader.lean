import BuildFile.Chunks.Format
import BuildFile.Proofs.Chunks.Normal
/-! One line of the reader. A line either does not fit into the open regions, which decides the
error, or it takes the reader from one state to the next by one of three rules. Everything that is
shown about whole documents follows from these rules and from the induction along a successful
run. -/
namespace BuildFile.Chunks

/-- The names of the open regions after a line, innermost first. -/
def nest (line : Text) (stack : List Text) : List Text :=
  match Marker.read line with
  | none => stack
  | some (.opening name) => name :: stack
  | some (.closing _) => stack.tail

/-- What is wrong with a line, number `n`, inside the open regions `stack`. -/
def offence? (stack : List Text) (n : Nat) (line : Text) : Option RegionError :=
  match Marker.read line with
  | none => none
  | some m =>
    if hasBlank m.name then some (.invalidName m.name n)
    else match m with
      | .opening _ => none
      | .closing name =>
        if stack.head? = some name then none
        else some (.unexpectedClose name stack.head? n)

/-- A line fits if it is plain, or a marker with a usable name that closes only the innermost
region. -/
def Fits (stack : List Text) (line : Text) : Prop :=
  ∀ m, Marker.read line = some m →
    hasBlank m.name = false ∧ ∀ name, m = .closing name → stack.head? = some name

theorem offence?_eq_none_iff {stack : List Text} {n : Nat} {line : Text} :
    offence? stack n line = none ↔ Fits stack line := by
  unfold offence? Fits
  cases hm : Marker.read line with
  | none => simp
  | some m =>
    by_cases hb : hasBlank m.name = true
    · simp [hb]
    · cases m with
      | opening name => simp_all
      | closing name => simp_all

/-- What a line that fits does to the open regions and to the entries of the innermost one. -/
inductive Reads (line : Text) : List Level → List Entry → List Level → List Entry → Prop
  | plain {opened : List Level} {current : List Entry} (h : Marker.read line = none) :
    Reads line opened current opened (.line line :: current)
  | opening {opened : List Level} {current : List Entry} {name : Text}
    (h : Marker.read line = some (.opening name)) (hb : hasBlank name = false) :
    Reads line opened current (⟨name, current⟩ :: opened) []
  | closing {level : Level} {outer : List Level} {current : List Entry}
    (h : Marker.read line = some (.closing level.name)) (hb : hasBlank level.name = false) :
    Reads line (level :: outer) current outer
      (.region level.name (ofEntries current.reverse) :: level.before)

section
variable {line : Text} {opened outer : List Level} {current next : List Entry}

theorem Reads.readLines_eq (h : Reads line opened current outer next) (n : Nat) (rest : List Text) :
    readLines opened current n (line :: rest) = readLines outer next (n + 1) rest := by
  cases h with
  | plain h => simp [readLines, h]
  | opening h hb => simp [readLines, h, hb, Marker.name]
  | closing h hb => simp [readLines, h, hb, Marker.name]

theorem Reads.names_eq (h : Reads line opened current outer next) :
    outer.map Level.name = nest line (opened.map Level.name) := by
  cases h with
  | plain h => simp [nest, h]
  | opening h hb => simp [nest, h]
  | closing h hb => simp [nest, h]

theorem readLines_of_offence {n : Nat} {e : RegionError}
    (h : offence? (opened.map Level.name) n line = some e) (rest : List Text) :
    readLines opened current n (line :: rest) = .error e := by
  unfold offence? at h
  cases hm : Marker.read line with
  | none => simp [hm] at h
  | some m =>
    by_cases hb : hasBlank m.name = true
    · simp_all [readLines]
    · cases m with
      | opening name => simp [hm, hb] at h
      | closing name =>
        cases opened with
        | nil => simp_all [readLines]
        | cons level outer =>
          by_cases hn : level.name = name
          · simp [hm, hb, hn] at h
          · simp_all [readLines]

theorem Fits.exists_reads (h : Fits (opened.map Level.name) line) (current : List Entry) :
    ∃ outer next, Reads line opened current outer next := by
  cases hm : Marker.read line with
  | none => exact ⟨_, _, .plain hm⟩
  | some m =>
    obtain ⟨hb, hc⟩ := h m hm
    cases m with
    | opening name => exact ⟨_, _, .opening hm hb⟩
    | closing name =>
      have htop := hc name rfl
      cases opened with
      | nil => cases htop
      | cons level outer =>
        cases htop
        exact ⟨_, _, .closing hm hb⟩

end

/-- Induction along a successful run, from its end to its start. -/
theorem readLines_induction {P : List Level → List Entry → List Text → Prop} {es : List Entry}
    (done : P [] es.reverse [])
    (step : ∀ {line rest opened current outer next}, Reads line opened current outer next →
      P outer next rest → P opened current (line :: rest))
    {opened : List Level} {current : List Entry} {n : Nat} {ls : List Text}
    (h : readLines opened current n ls = .ok es) : P opened current ls := by
  induction ls generalizing opened current n with
  | nil =>
    cases opened with
    | nil =>
      cases h
      simpa using done
    | cons level outer => cases h
  | cons line rest ih =>
    cases ho : offence? (opened.map Level.name) n line with
    | some e =>
      rw [readLines_of_offence ho] at h
      cases h
    | none =>
      obtain ⟨outer, next, hr⟩ := (offence?_eq_none_iff.mp ho).exists_reads current
      rw [hr.readLines_eq] at h
      exact step hr (ih h)

end BuildFile.Chunks
