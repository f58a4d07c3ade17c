import BuildFile.Text
/-! Paths as they are given, and the places they lead to. A path is text with slashes between its
parts; a place is the list of names from the root of the disk down. Where a path leads is read off
its text, part by part; whether it can be followed that far is for the disk to say. -/
namespace BuildFile

abbrev Place := List Text

namespace Place

def parts (path : Text) : List Text := List.splitOn '/' path

def isAbsolute (path : Text) : Bool := path.head? == some '/'

/-- Goes one part on from a place; above the root there is only the root. -/
def step (here : Place) (part : Text) : Place :=
  if part = ['.'] then here
  else if part = ['.', '.'] then here.dropLast
  else here ++ [part]

def steps (path : Text) : List Text := (parts path).filter (· ≠ [])

def way (path : Text) : List Text := (steps path).dropLast

def last (path : Text) : Text := (steps path).getLast?.getD ['.']

def endsInSlash (path : Text) : Bool := path.getLast? == some '/'

def follow (here : Place) (path : Text) : Place := (steps path).foldl step here

/-- Whether a part at the end of a path can be left out: nothing between slashes, or a `.` that
something stands before. The parts before it are given in reverse. -/
def isIdle (path part : Text) (before : List Text) : Bool :=
  part = [] || part = ['.'] && (!before.isEmpty || isAbsolute path)

/-- The parts of a path and of each path above it, each in reverse, without what can be left out. -/
def chain (path : Text) : List Text → List (List Text)
  | [] => []
  | part :: before =>
    if isIdle path part before then chain path before else (part :: before) :: chain path before

def root (path : Text) : Text := if isAbsolute path then ['/'] else []

def lineage (path : Text) : List (List Text) :=
  chain path (parts (path.drop (root path).length)).reverse

/-- All paths above a path, the nearest first. -/
def above (path : Text) : List Text :=
  (lineage path).tail.map fun up => root path ++ List.intercalate ['/'] up.reverse

def parent? (path : Text) : Option Text :=
  if (lineage path).isEmpty then none else some ((above path).head?.getD (root path))

def fileName? (path : Text) : Option Text :=
  match lineage path with
  | (last :: _) :: _ => if last = ['.'] ∨ last = ['.', '.'] then none else some last
  | _ => none

def within (directory name : Text) : Text :=
  if directory = [] ∨ endsInSlash directory then directory ++ name else directory ++ '/' :: name

def beside (path name : Text) : Text :=
  match fileName? path with
  | some _ => within ((parent? path).getD []) name
  | none => within path name

def label (path : Text) : Text := (fileName? path).getD path

def byteLength : Text → Nat
  | [] => 0
  | c :: t => c.utf8Size + byteLength t

def tooLong (name : Text) : Bool := 255 < byteLength name

def pathTooLong (path : Text) : Bool := 4095 < byteLength path

end Place
end BuildFile
