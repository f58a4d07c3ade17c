import BuildFile.Disk.Basic
/-! Writing a file so that it is never seen half written: missing directories are made, the content
goes to a new file beside the target, and that file takes the target's place. If the last step fails
the temporary file is removed; directories that were made stay. -/
namespace BuildFile.Disk

def makeDirectory (path : Text) (d : Disk) : Except Fault Disk :=
  match d.reach path with
  | .error fault => .error fault
  | .ok () =>
    if (d.get? (d.place path)).isSome then .error .occupied
    else .ok (d.put (d.place path) .directory)

/-- Makes the first of these directories. When something on the way is missing, the directories that
follow are made first; a directory that is already there is as good as a new one. -/
def makeDirectories : List Text → Disk → Except Fault Unit × Disk
  | [], d => (.ok (), d)
  | path :: above, d =>
    match d.makeDirectory path with
    | .ok d => (.ok (), d)
    | .error .missing =>
      match makeDirectories above d with
      | (.error fault, d) => (.error fault, d)
      | (.ok (), d) =>
        match d.makeDirectory path with
        | .ok d => (.ok (), d)
        | .error fault => (if d.probe path = .other then .ok () else .error fault, d)
    | .error fault => (if d.probe path = .other then .ok () else .error fault, d)

def fill (path : Text) (content : ByteArray) (d : Disk) : Except Fault Disk :=
  match d.reach path with
  | .error fault => .error fault
  | .ok () =>
    if Place.endsInSlash path then .error .isDirectory
    else match d.get? (d.place path) with
      | some .directory => .error .isDirectory
      | _ => .ok (d.put (d.place path) (.file content))

def moveTo (source : Place) (content : ByteArray) (path : Text) (d : Disk) : Except Fault Disk :=
  match d.reach path with
  | .error fault => .error fault
  | .ok () =>
    if Place.last path = ['.'] ∨ Place.last path = ['.', '.'] then .error .busy
    else if Place.endsInSlash path then .error .notDirectory
    else match d.get? (d.place path) with
      | some .directory => .error .isDirectory
      | _ => .ok ((d.remove source).put (d.place path) (.file content))

def temporaryName (tag path : Text) : Text :=
  List.flatten [".", (Place.fileName? path).getD [], ".", tag, ".tmp"]

def temporary (tag path : Text) : Text := Place.beside path (temporaryName tag path)

/-- Writes the content of a file. An error names the directory, the temporary file or the target,
whichever it arose at. -/
def write (tag path : Text) (content : ByteArray) (d : Disk) : Except DiskError Unit × Disk :=
  match makeDirectories (Place.above path) d with
  | (.error fault, d) => (.error ⟨(Place.parent? path).getD [], fault⟩, d)
  | (.ok (), d) =>
    match d.fill (temporary tag path) content with
    | .error fault => (.error ⟨temporary tag path, fault⟩, d)
    | .ok filled =>
      match filled.moveTo (filled.place (temporary tag path)) content path with
      | .error fault => (.error ⟨path, fault⟩, filled.remove (filled.place (temporary tag path)))
      | .ok d => (.ok (), d)

def writeText (tag path t : Text) (d : Disk) : Except DiskError Unit × Disk :=
  d.write tag path (encode t)

end BuildFile.Disk
