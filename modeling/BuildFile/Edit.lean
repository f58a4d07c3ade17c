import BuildFile.Chunks.Basic
import BuildFile.Directive
/-! Edits on the entries of a region. Nested regions stay where they are, and lines that are not the
subject of an edit keep their exact text. -/
namespace BuildFile.Edit

def reads (item : Text) (e : Entry) : Bool :=
  match e with
  | .line t => trim t == item
  | .region _ _ => false

/-- Appends the trimmed items that are neither blank nor present; reports how many. -/
def addLines : List Text → List Entry → List Entry × Nat
  | [], es => (es, 0)
  | item :: items, es =>
    if (trim item).isEmpty || es.any (reads (trim item)) then addLines items es
    else
      let (es, n) := addLines items (es ++ [.line (trim item)])
      (es, n + 1)

def readsAny (items : List Text) (e : Entry) : Bool :=
  items.any fun item => !(trim item).isEmpty && reads (trim item) e

def removeLines (items : List Text) (es : List Entry) : List Entry × Nat :=
  let kept := es.filter fun e => !readsAny items e
  (kept, es.length - kept.length)

variable {δ : Type} [Directive δ]

/-- Whether an entry is a line with a directive that is the same as `d`. -/
def names (d : δ) (e : Entry) : Bool :=
  match e.line?.bind Directive.read with
  | some found => Directive.same found d
  | none => false

inductive Upsert where
  | unchanged | replaced | appended
  deriving DecidableEq

/-- Makes `d` the only line that names it: in the place of the first one, or at the end. -/
def upsert (d : δ) (es : List Entry) : List Entry × Upsert :=
  let line := Directive.render d
  match es.dropWhile fun e => !names d e with
  | [] => (es ++ [.line line], .appended)
  | first :: after =>
    let kept := after.filter fun e => !names d e
    if first = .line line ∧ kept.length = after.length then (es, .unchanged)
    else ((es.takeWhile fun e => !names d e) ++ .line line :: kept, .replaced)

def removeFirst (d : δ) (es : List Entry) : List Entry × Bool :=
  (es.eraseP (names d), es.any (names d))

structure Change where
  added : Nat := 0
  replaced : Nat := 0
  removed : Nat := 0
  deriving DecidableEq

def Change.isEmpty (c : Change) : Bool := c.added == 0 && c.replaced == 0 && c.removed == 0

instance : Add Change :=
  ⟨fun a b => ⟨a.added + b.added, a.replaced + b.replaced, a.removed + b.removed⟩⟩

def Upsert.change : Upsert → Change
  | unchanged => {}
  | replaced => { replaced := 1 }
  | appended => { added := 1 }

def upsertAll : List δ → List Entry → List Entry × Change
  | [], es => (es, {})
  | d :: ds, es =>
    let (es, u) := upsert d es
    let (es, c) := upsertAll ds es
    (es, u.change + c)

def removeAll : List δ → List Entry → List Entry × Change
  | [], es => (es, {})
  | d :: ds, es =>
    let (es, found) := removeFirst d es
    let (es, c) := removeAll ds es
    (es, { removed := found.toNat } + c)

end BuildFile.Edit
