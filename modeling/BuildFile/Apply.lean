import BuildFile.Edit
import BuildFile.Project
import BuildFile.Request
/-! Applying a request to a document. Every check comes before the first edit; the document that
stands at the end is given in any case, so that what a failure leaves behind can be seen. -/
namespace BuildFile

open Edit (Change)

structure Outcome where
  kind : Option ProjectKind := none
  changes : List (Category × Change) := []
  deriving DecidableEq

def Outcome.changed (o : Outcome) : Bool := o.changes.any fun (_, c) => !c.isEmpty

namespace Request

def editLines (action : Action) (items : List Text) (es : List Entry) : List Entry × Change :=
  match action with
  | .add => let (es, n) := Edit.addLines items es; (es, { added := n })
  | .remove => let (es, n) := Edit.removeLines items es; (es, { removed := n })

def editDirectives {δ : Type} [Directive δ] (action : Action) (items : List δ) (es : List Entry) :
    List Entry × Change :=
  match action with
  | .add => Edit.upsertAll items es
  | .remove => Edit.removeAll items es

def edit (r : Request) (target : Text) : Category → List Entry → List Entry × Change
  | .sources => editLines r.action r.sources
  | .headers => editLines r.action r.headers
  | .exports => editLines r.action r.exports
  | .definitions => editDirectives r.action (r.definitions.map (·.forTarget target))
  | .subdirs => editDirectives r.action r.subdirectories
  | .linkLibraries => editDirectives r.action (r.linkLibraries.map (·.forTarget target))

def checkCategories (kind : ProjectKind) (d : Chunks) : List Category → Except Error Unit
  | [] => .ok ()
  | c :: cs =>
    if !kind.allows c then .error (.unsupportedCategory c kind)
    else if !d.hasRegion c.region then .error (.region (.notFound c.region))
    else checkCategories kind d cs

def neededTarget (kind : ProjectKind) (d : Chunks) (cs : List Category) : Except Error Text :=
  if cs.any Category.needsTarget then targetName d kind else .ok []

def prepare (r : Request) (d : Chunks) : Except Error (ProjectKind × Text) := do
  r.validate
  let kind ← detectKind d
  checkCategories kind d r.categories
  let target ← neededTarget kind d r.categories
  return (kind, target)

/-- Edits category after category, each in the first region of its name at that time. -/
def editAll (r : Request) (target : Text) :
    List Category → Chunks → Except Error (List (Category × Change)) × Chunks
  | [], d => (.ok [], d)
  | c :: cs, d =>
    match d.editRegion? c.region (r.edit target c) with
    | none => (.error (.region (.notFound c.region)), d)
    | some (d, change) =>
      match editAll r target cs d with
      | (.ok changes, d) => (.ok ((c, change) :: changes), d)
      | (.error e, d) => (.error e, d)

/-- Applies a request; an empty one does not look at the document. -/
def apply (r : Request) (d : Chunks) : Except Error Outcome × Chunks :=
  if r.isEmpty then (.ok {}, d)
  else match r.prepare d with
    | .error e => (.error e, d)
    | .ok (kind, target) =>
      match r.editAll target r.categories d with
      | (.ok changes, d) => (.ok { kind := some kind, changes }, d)
      | (.error e, d) => (.error e, d)

end Request
end BuildFile
