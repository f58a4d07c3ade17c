import BuildFile.Chunks.Basic
import BuildFile.Directive
import BuildFile.Error
/-! What a document says about its project: the kind, and the names of the project and of the build
target, each declared by a line of a fixed shape in a region of its own. -/
namespace BuildFile

def detectKind (d : Chunks) : Except Error ProjectKind :=
  match ProjectKind.all.filter fun k => d.hasRegion k.marker with
  | [k] => .ok k
  | [] => .error .missingKind
  | found => .error (.conflictingKinds found)

namespace NameLine

/-- A project declaration: the name, then nothing or a blank and arguments without parentheses. -/
def project? (line : Text) : Option Text := do
  let args ← Call.arguments? "project" line
  let (name, rest) ← run? isBare args
  let more ← Call.beforeClose? rest
  match more with
  | [] => some name
  | c :: _ => if isBlank c && !more.any isParen then some name else none

def setting? (key line : Text) : Option Text := do
  let args ← Call.arguments? "set" line
  let rest ← after? key args
  let rest ← blanks? rest
  Call.lastToken? rest

end NameLine

/-- The name that the first fitting line of a region declares. -/
def extractName (d : Chunks) (region : Text) (name? : Text → Option Text) : Except Error Text :=
  match d.find? region with
  | none => .error (.region (.notFound region))
  | some r =>
    match r.body.ownLines.findSome? name? with
    | some name => .ok name
    | none => .error (.nameExtraction region)

def projectName (d : Chunks) : Except Error Text := extractName d "project-name" NameLine.project?

def targetName (d : Chunks) : ProjectKind → Except Error Text
  | .rootProject => .error (.nameExtraction ProjectKind.rootProject.marker)
  | .executable => extractName d "executable-name" (NameLine.setting? "PROJ_EXECUTABLE_NAME")
  | .library => extractName d "library-name" (NameLine.setting? "PROJ_LIBRARY_NAME")

structure RegionSummary where
  category : Category
  region : Text
  lines : List Text
  deriving DecidableEq

structure Summary where
  kind : ProjectKind
  projectName : Option Text
  targetName : Option Text
  regions : List RegionSummary
  deriving DecidableEq

def summarizeRegion? (d : Chunks) (c : Category) : Option RegionSummary :=
  (d.find? c.region).map fun r =>
    { category := c, region := r.name, lines := (r.body.ownLines.map trim).filter (!·.isEmpty) }

def summarize (d : Chunks) : Except Error Summary := do
  let kind ← detectKind d
  return {
    kind
    projectName := (projectName d).toOption
    targetName := (targetName d kind).toOption
    regions := Category.all.filterMap (summarizeRegion? d) }

end BuildFile
