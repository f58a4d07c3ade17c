import BuildFile.Text
/-! A document is a sequence of chunks: runs of plain text and named regions, which hold chunks
again. The line view of a sequence (its entries) splits every run of text into lines and keeps each
region as one entry; edits are made there, and folding entries back joins neighbouring lines into
one run. -/
namespace BuildFile

inductive Chunks where
  | nil
  | text (t : Text) (rest : Chunks)
  | region (name : Text) (body rest : Chunks)
  deriving DecidableEq, Inhabited

structure Region where
  name : Text
  body : Chunks
  deriving DecidableEq

inductive Entry where
  | line (t : Text)
  | region (name : Text) (body : Chunks)
  deriving DecidableEq

def Entry.line? : Entry → Option Text
  | line t => some t
  | region _ _ => none

namespace Chunks

def names : Chunks → List Text
  | nil => []
  | text _ rest => names rest
  | region n body rest => n :: (names body ++ names rest)

def entries : Chunks → List Entry
  | nil => []
  | text t rest => (lines t).map .line ++ entries rest
  | region n body rest => .region n body :: entries rest

def consLine (t : Text) : Chunks → Chunks
  | text u rest => text (t ++ '\n' :: u) rest
  | c => text t c

def ofEntries : List Entry → Chunks
  | [] => nil
  | .line t :: es => consLine t (ofEntries es)
  | .region n body :: es => region n body (ofEntries es)

def ownLines : Chunks → List Text
  | nil => []
  | text t rest => lines t ++ ownLines rest
  | region _ _ rest => ownLines rest

theorem filterMap_line?_entries (c : Chunks) : c.entries.filterMap Entry.line? = c.ownLines := by
  induction c with
  | nil => rfl
  | text t rest ih =>
    have hl : ((lines t).map Entry.line).filterMap Entry.line? = lines t := by
      rw [List.filterMap_map]
      exact List.filterMap_some
    rw [entries, ownLines, List.filterMap_append, hl, ih]
  | region n body rest _ ih =>
    rw [entries, List.filterMap_cons]
    exact ih

def edit {β : Type} (f : List Entry → List Entry × β) (c : Chunks) : Chunks × β :=
  let (es, r) := f c.entries
  (ofEntries es, r)

end Chunks

/-! Paths into a document: the index of a chunk at every depth, down to a region. `locate` gives the
path of the first region of a name in document order; `get?` and `update?` follow a path, and fail
where it does not lead to a region. -/

abbrev Path := List Nat

namespace Chunks

def shift : Path → Path
  | [] => []
  | i :: p => (i + 1) :: p

def locate (name : Text) : Chunks → Option Path
  | nil => none
  | text _ rest => (locate name rest).map shift
  | region n body rest =>
    if n = name then some [0]
    else match locate name body with
      | some p => some (0 :: p)
      | none => (locate name rest).map shift

def get? : Chunks → Path → Option Region
  | text _ rest, (i + 1) :: p => get? rest (i :: p)
  | region n body _, [0] => some ⟨n, body⟩
  | region _ body _, 0 :: p => get? body p
  | region _ _ rest, (i + 1) :: p => get? rest (i :: p)
  | _, _ => none

def update? {β : Type} (f : Chunks → Chunks × β) : Chunks → Path → Option (Chunks × β)
  | text t rest, (i + 1) :: p => (update? f rest (i :: p)).map fun (r, b) => (text t r, b)
  | region n body rest, [0] => let (new, b) := f body; some (region n new rest, b)
  | region n body rest, 0 :: p => (update? f body p).map fun (r, b) => (region n r rest, b)
  | region n body rest, (i + 1) :: p =>
    (update? f rest (i :: p)).map fun (r, b) => (region n body r, b)
  | _, _ => none

def hasRegion (name : Text) (c : Chunks) : Bool := (locate name c).isSome

def find? (name : Text) (c : Chunks) : Option Region := (locate name c).bind c.get?

def editRegion? {β : Type} (name : Text) (f : List Entry → List Entry × β) (c : Chunks) :
    Option (Chunks × β) :=
  (locate name c).bind (update? (edit f) c)

theorem hasRegion_iff {name : Text} {c : Chunks} : c.hasRegion name ↔ name ∈ c.names := by
  induction c with
  | nil => simp [hasRegion, locate, names]
  | text t rest ih => simpa [hasRegion, locate, names] using ih
  | region n body rest ihb ihr =>
    simp only [hasRegion, locate, names] at *
    by_cases hn : n = name
    · simp [hn]
    · have hn' : name ≠ n := Ne.symm hn
      simp only [hn, if_false, List.mem_cons, hn', false_or, List.mem_append, ← ihb, ← ihr]
      cases h : locate name body <;> simp

end Chunks

end BuildFile
