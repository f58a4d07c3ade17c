import BuildFile.Category
/-! Why reading a document, a request or a file operation fails, and how it is said. -/
namespace BuildFile

inductive RegionError where
  | unexpectedClose (found : Text) (expected : Option Text) (line : Nat)
  | missingClose (expected : Text)
  | invalidName (name : Text) (line : Nat)
  | notFound (name : Text)
  deriving DecidableEq

namespace RegionError

def message : RegionError → Text
  | unexpectedClose found expected line =>
    List.flatten ["unexpected region close marker '", found, "' at line ", decimal line,
      " (expected '", expected.getD "<no open region>", "')"]
  | missingClose expected =>
    List.flatten ["missing region close marker (expected '", expected, "')"]
  | invalidName name line =>
    List.flatten ["invalid region name '", name, "' at line ", decimal line,
      ": names must not contain whitespace"]
  | notFound name => List.flatten ["region not found: ", name]

def isStructural : RegionError → Bool
  | notFound _ => false
  | _ => true

end RegionError

inductive ItemFault where
  | symbol | value | library | blank | lineBreak | marker | path
  deriving DecidableEq

def ItemFault.message : ItemFault → Text
  | symbol => "symbol must be a C identifier"
  | value => "value must not contain parentheses or line breaks"
  | library => "library must be a single token without parentheses"
  | blank => "item is blank"
  | lineBreak => "item must be a single line"
  | marker => "item would be read as a region marker"
  | path => "path must be a single token without parentheses"

inductive Fault where
  | missing | busy | occupied | notDirectory | isDirectory | nameTooLong | nulInName | notText
  deriving DecidableEq

def Fault.message : Fault → Text
  | missing => "No such file or directory (os error 2)"
  | busy => "Device or resource busy (os error 16)"
  | occupied => "File exists (os error 17)"
  | notDirectory => "Not a directory (os error 20)"
  | isDirectory => "Is a directory (os error 21)"
  | nameTooLong => "File name too long (os error 36)"
  | nulInName => "file name contained an unexpected NUL byte"
  | notText => "stream did not contain valid UTF-8"

structure DiskError where
  path : Text
  fault : Fault
  deriving DecidableEq

def DiskError.message (e : DiskError) : Text :=
  List.flatten ["I/O error at ", e.path, ": ", e.fault.message]

inductive Error where
  | region (e : RegionError)
  | disk (e : DiskError)
  | nameExtraction (region : Text)
  | missingKind
  | conflictingKinds (found : List ProjectKind)
  | unsupportedCategory (category : Category) (kind : ProjectKind)
  | invalidItem (category : Category) (item : Text) (fault : ItemFault)
  | notAFile (path : Text)
  | overwriteRefused (path : Text)
  | confirmationFailed (path reason : Text)
  deriving DecidableEq

namespace Error

def markers (kinds : List ProjectKind) : Text :=
  List.intercalate ", " (kinds.map ProjectKind.marker)

def message : Error → Text
  | region e => e.message
  | disk e => e.message
  | nameExtraction r => List.flatten ["Corrupted or missing name in region '", r, "'"]
  | missingKind =>
    List.flatten ["No project type region found (expected one of: ", markers ProjectKind.all, ")"]
  | conflictingKinds found => List.flatten ["Conflicting project type regions: ", markers found]
  | unsupportedCategory c k =>
    List.flatten ["Cannot change ", c.text, " in a ", k.text, " project"]
  | invalidItem c item fault =>
    List.flatten ["Invalid ", c.text, " item '", item, "': ", fault.message]
  | notAFile path => List.flatten [path, " already exists and is not a file"]
  | overwriteRefused path => List.flatten ["Will not overwrite ", path]
  | confirmationFailed path reason =>
    List.flatten ["Overwrite confirmation failed for ", path, ": ", reason]

def isNotFound : Error → Bool
  | region (.notFound _) => true
  | _ => false

def isStructural : Error → Bool
  | region e => e.isStructural
  | _ => false

def isInvalidKind : Error → Bool
  | missingKind | conflictingKinds _ | unsupportedCategory _ _ => true
  | _ => false

end Error

end BuildFile
