import BuildFile.Chunks.Basic
import BuildFile.Error
/-! Documents as text: marker lines around the regions, printing, and reading. -/
namespace BuildFile

/-! Marker lines open and close a region. A marker is a comment of fixed wording around the region's
name; blanks around the whole line do not matter, and text after it makes it a plain line. -/

inductive Marker where
  | opening (name : Text)
  | closing (name : Text)
  deriving DecidableEq

namespace Marker

def openingHead : Text := "# --== proj begin "
def closingHead : Text := "# --== proj end "
def tail : Text := " ==--"

def name : Marker → Text
  | opening n | closing n => n

def text : Marker → Text
  | opening n => openingHead ++ n ++ tail
  | closing n => closingHead ++ n ++ tail

def between? (head t : Text) : Option Text := do
  let rest ← after? head t
  let n ← before? tail rest
  if n.isEmpty || n.contains '\n' then none else some n

/-- Reads a line as a marker. Blanks in the name are taken along, so that they can be reported. -/
def read (line : Text) : Option Marker :=
  match between? openingHead (trim line) with
  | some n => some (opening n)
  | none => (between? closingHead (trim line)).map closing

theorem between?_eq_some_iff {head t n : Text} :
    between? head t = some n ↔ t = head ++ n ++ tail ∧ n ≠ [] ∧ '\n' ∉ n := by
  simp only [between?, Option.bind_eq_bind, Option.bind_eq_some_iff, after?_eq_some_iff,
    before?_eq_some_iff]
  constructor
  · rintro ⟨r, rfl, m, rfl, h⟩
    split at h
    · cases h
    · cases h
      simp_all
  · rintro ⟨rfl, hn, hl⟩
    exact ⟨n ++ tail, by simp, n, rfl, by simp_all⟩

end Marker

def isMarker (line : Text) : Bool := (Marker.read line).isSome

namespace Chunks

/-! Printing a document: every region stands between its canonical marker lines, and all lines are
joined by single line feeds. A region without chunks has no line between its markers, one with a
single empty run of text has one empty line there. -/

def rows : Chunks → List Text
  | nil => []
  | text t rest => lines t ++ rows rest
  | region n body rest =>
    (Marker.opening n).text :: (rows body ++ (Marker.closing n).text :: rows rest)

def print (c : Chunks) : Text := unlines (rows c)

theorem rows_eq_nil_iff {c : Chunks} : c.rows = [] ↔ c = nil := by
  cases c with
  | nil => simp [rows]
  | text t rest => simp [rows, lines_ne_nil]
  | region n body rest => simp [rows]

theorem print_text_nil (t : Text) : print (text t nil) = t := by
  simp [print, rows, unlines_lines]

/-! Reading a document, line by line. The reader keeps the entries of the region it is in and, for
every open region around it, the entries that came before; a closing marker must name the innermost
open region. The first line that does not fit decides the error. -/

/-- An open region: its name, and the entries before it in the region around, latest first. -/
structure Level where
  name : Text
  before : List Entry

/-- Reads the lines from number `n` on, inside the open regions `opened` (innermost first) and after
the entries `current` (latest first). -/
def readLines (opened : List Level) (current : List Entry) (n : Nat) :
    List Text → Except RegionError (List Entry)
  | [] =>
    match opened with
    | [] => .ok current.reverse
    | level :: _ => .error (.missingClose level.name)
  | line :: rest =>
    match Marker.read line with
    | none => readLines opened (.line line :: current) (n + 1) rest
    | some m =>
      if hasBlank m.name then .error (.invalidName m.name n)
      else match m with
        | .opening name => readLines (⟨name, current⟩ :: opened) [] (n + 1) rest
        | .closing name =>
          match opened with
          | [] => .error (.unexpectedClose name none n)
          | level :: outer =>
            if level.name = name then
              readLines outer (.region name (ofEntries current.reverse) :: level.before)
                (n + 1) rest
            else .error (.unexpectedClose name (some level.name) n)

def parse (t : Text) : Except RegionError Chunks :=
  (readLines [] [] 1 (lines t)).map ofEntries

end Chunks
end BuildFile
