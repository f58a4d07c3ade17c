import BuildFile.CommandLine.Run
/-! The command line program. It loads what stands on the way to the files that the arguments name,
runs the command on that disk, and brings the changes back: new directories first, then the build
file, which is written beside its place and moved there. -/
namespace BuildFile.CommandLine

def Invocation.files (i : Invocation) : List Text :=
  match i.command with
  | .banner | .answer _ => []
  | .create _ template _ _ _ => [template, i.buildFile]
  | .edit .. | .show _ => [i.buildFile]

def onTheWay (here : Place) : List Text → List Place
  | [] => []
  | part :: rest => Place.step here part :: onTheWay (Place.step here part) rest

def location (p : Place) : String := String.ofList ('/' :: List.intercalate ['/'] p)

def nodeAt? (p : Place) : IO (Option Node) := do
  let found := (← IO.currentDir) / location p
  if ← found.isDir then return some .directory
  try return some (.file (← IO.FS.readBinFile found))
  catch _ => return none

def load (d : Disk) (path : Text) : IO Disk :=
  (onTheWay (d.start path) (Place.steps path)).foldlM (fun d p => do
    match ← nodeAt? p with
    | some n => return d.put p n
    | none => return d) d

def save (path tag : Text) (before after : Disk) : IO Unit :=
  (onTheWay (after.start path) (Place.steps path)).forM fun p => do
    if after.get? p ≠ before.get? p then
      match after.get? p with
      | some .directory => IO.FS.createDirAll (location p)
      | some (.file content) =>
        let temporary := location (after.place (Disk.temporary tag path))
        IO.FS.writeBinFile temporary content
        IO.FS.rename temporary (location p)
      | none => return

end BuildFile.CommandLine

open BuildFile BuildFile.CommandLine in
def main (args : List String) : IO UInt32 := do
  let args := args.map String.toList
  let environment := (← IO.getEnv "PROJ_CMAKELISTS").map String.toList
  let colour := (← IO.getEnv "CLICOLOR_FORCE").any (· ≠ "0")
  let tag := decimal (← IO.monoNanosNow)
  let files := ((parse? environment args).map Invocation.files).getD []
  let here := Place.steps (← IO.currentDir).toString.toList
  let before ← files.foldlM load { here }
  let (response, after) := run { colour, environment, tag } args before
  if let some path := files.getLast? then save path tag before after
  IO.print (String.ofList response.out)
  IO.eprint (String.ofList response.err)
  return response.exit.toUInt32
