import BuildFile.Chunks.Format
import BuildFile.Directive
/-! Requests: items to add to or remove from the categories. Definitions and libraries are read when
a request is built; the other items are checked by `validate`, in the order of the categories. -/
namespace BuildFile

/-! Requested items that become directives once the target is known. An item may start with a
keyword and a colon; a front that is no keyword belongs to the item. -/

def splitKeyword {κ : Type} (read : Text → Option κ) (default : κ) (t : Text) : κ × Text :=
  match cutFirst? ':' t with
  | some (front, rest) =>
    match read front with
    | some k => (k, rest)
    | none => (default, t)
  | none => (default, t)

/-- A definition as requested, `[VISIBILITY:]SYMBOL[=VALUE]`. -/
structure DefinitionItem where
  visibility : Visibility
  symbol : Text
  value : Option Text
  deriving DecidableEq

namespace DefinitionItem

def read (s : Text) : Except Error DefinitionItem :=
  let (visibility, rest) := splitKeyword Visibility.read .scopePrivate (trim s)
  let rest := (after? Definition.flag rest).getD rest
  let (symbol, value) :=
    match cutFirst? '=' rest with
    | some (symbol, value) => (symbol, some value)
    | none => (rest, none)
  if !isIdent symbol then .error (.invalidItem .definitions s .symbol)
  else if value.any (·.any fun c => isParen c || isLineBreak c) then
    .error (.invalidItem .definitions s .value)
  else .ok { visibility, symbol, value }

def forTarget (target : Text) (i : DefinitionItem) : Definition :=
  { target, visibility := i.visibility, symbol := i.symbol, value := i.value }

end DefinitionItem

/-- A library as requested, `[qualifier:]library`. -/
structure LinkItem where
  qualifier : Qualifier
  library : Text
  deriving DecidableEq

namespace LinkItem

def read (s : Text) : Except Error LinkItem :=
  let (qualifier, library) := splitKeyword Qualifier.read .general (trim s)
  if isBareToken library then .ok { qualifier, library }
  else .error (.invalidItem .linkLibraries s .library)

def forTarget (target : Text) (i : LinkItem) : LinkLibrary :=
  { target, qualifier := i.qualifier, library := i.library }

end LinkItem

inductive Action where
  | add | remove
  deriving DecidableEq

structure Items where
  sources : List Text := []
  headers : List Text := []
  exports : List Text := []
  definitions : List Text := []
  subdirs : List Text := []
  linkLibraries : List Text := []
  deriving DecidableEq

def Items.push (is : Items) (t : Text) : Category → Items
  | .sources => { is with sources := is.sources ++ [t] }
  | .headers => { is with headers := is.headers ++ [t] }
  | .exports => { is with exports := is.exports ++ [t] }
  | .definitions => { is with definitions := is.definitions ++ [t] }
  | .subdirs => { is with subdirs := is.subdirs ++ [t] }
  | .linkLibraries => { is with linkLibraries := is.linkLibraries ++ [t] }

structure Request where
  action : Action
  sources : List Text := []
  headers : List Text := []
  exports : List Text := []
  definitions : List DefinitionItem := []
  subdirs : List Text := []
  linkLibraries : List LinkItem := []
  deriving DecidableEq

namespace Request

def ofItems (action : Action) (items : Items) : Except Error Request := do
  let definitions ← items.definitions.mapM DefinitionItem.read
  let linkLibraries ← items.linkLibraries.mapM LinkItem.read
  return {
    action, definitions, linkLibraries
    sources := items.sources, headers := items.headers
    exports := items.exports, subdirs := items.subdirs }

def count (r : Request) : Category → Nat
  | .sources => r.sources.length
  | .headers => r.headers.length
  | .exports => r.exports.length
  | .definitions => r.definitions.length
  | .subdirs => r.subdirs.length
  | .linkLibraries => r.linkLibraries.length

def categories (r : Request) : List Category := Category.all.filter (0 < r.count ·)

def isEmpty (r : Request) : Bool := r.categories.isEmpty

def lineFault? (item : Text) : Option ItemFault :=
  if (trim item).isEmpty then some .blank
  else if item.any isLineBreak then some .lineBreak
  else if isMarker item then some .marker
  else none

def pathFault? (item : Text) : Option ItemFault :=
  if isBareToken (trim item) then none else some .path

def check (category : Category) (fault? : Text → Option ItemFault) : List Text → Except Error Unit
  | [] => .ok ()
  | item :: rest =>
    match fault? item with
    | some fault => .error (.invalidItem category item fault)
    | none => check category fault? rest

def validate (r : Request) : Except Error Unit := do
  check .sources lineFault? r.sources
  check .headers lineFault? r.headers
  check .exports lineFault? r.exports
  check .subdirs pathFault? r.subdirs

def subdirectories (r : Request) : List Subdirectory := r.subdirs.map fun p => ⟨trim p⟩

end Request

end BuildFile
