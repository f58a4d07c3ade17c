import BuildFile.Apply
import BuildFile.Chunks.Format
import BuildFile.Diff.Unified
import BuildFile.Disk.Write
/-! Whole-file operations: a build file is read once, changed in memory, and written at most once. A
dry run writes nothing and gives the diff instead. Each operation gives its result and the disk it
leaves. -/
namespace BuildFile

structure Report where
  path : Text
  outcome : Outcome := {}
  written : Bool := false
  diff : Option Text := none
  deriving DecidableEq

def parseDocument (t : Text) : Except Error Chunks := (Chunks.parse t).mapError .region

def Request.revise (r : Request) (t : Text) : Except Error (Outcome × Text) :=
  match parseDocument t with
  | .error e => .error e
  | .ok d =>
    match r.apply d with
    | (.error e, _) => .error e
    | (.ok outcome, d) => .ok (outcome, d.print)

namespace FileFlow

def commit (tag : Text) (report : Report) (t : Text) (d : Disk) : Except Error Report × Disk :=
  match d.writeText tag report.path t with
  | (.error e, d) => (.error (.disk e), d)
  | (.ok (), d) => (.ok { report with written := true }, d)

def revision (r : Request) (path : Text) (d : Disk) : Except Error (Text × Outcome × Text) := do
  r.validate
  let old ← (d.readText path).mapError .disk
  let (outcome, new) ← r.revise old
  return (old, outcome, new)

/-- Applies a request to a build file. An empty request does not read it, and a request that changes
nothing does not write it. -/
def edit (tag path : Text) (r : Request) (dryRun : Bool) (d : Disk) : Except Error Report × Disk :=
  if r.isEmpty then (.ok { path }, d)
  else match revision r path d with
    | .error e => (.error e, d)
    | .ok (old, outcome, new) =>
      if !outcome.changed then (.ok { path, outcome }, d)
      else if dryRun then
        (.ok { path, outcome, diff := some (Diff.unified old new (Place.label path)) }, d)
      else commit tag { path, outcome } new d

/-- Who decides about replacing a file: nobody is asked, or the reply is a decision or a failure. -/
inductive Confirm where
  | assumeYes
  | ask (reply : Text → Except Text Bool)

structure Creation where
  result : Except Error Report
  disk : Disk
  asked : List Text := []

def occupied (path : Text) (d : Disk) : Except Error Bool :=
  match d.probe path with
  | .other => .error (.notAFile path)
  | .file => .ok true
  | .missing => .ok false

def planned (path seed : Text) (r : Request) (d : Disk) : Except Error (Bool × Outcome × Text) := do
  r.validate
  let occupied ← occupied path d
  let (outcome, new) ← r.revise seed
  return (occupied, outcome, new)

def replaced (path : Text) (occupied : Bool) (d : Disk) : Except Error Text :=
  if occupied then (d.readText path).mapError .disk else .ok []

/-- Creates a build file from a seed and a request. An existing file is replaced only on a yes. -/
def create (tag path seed : Text) (r : Request) (dryRun : Bool) (confirm : Confirm) (d : Disk) :
    Creation :=
  match planned path seed r d with
  | .error e => { result := .error e, disk := d }
  | .ok (occupied, outcome, new) =>
    let write (asked : List Text) : Creation :=
      let (result, disk) := commit tag { path, outcome } new d
      { result, disk, asked }
    if dryRun then
      match replaced path occupied d with
      | .error e => { result := .error e, disk := d }
      | .ok old =>
        let diff := Diff.unified old new (Place.label path)
        { result := .ok { path, outcome, diff := some diff }, disk := d }
    else if !occupied then write []
    else match confirm with
      | .assumeYes => write []
      | .ask reply =>
        match reply path with
        | .error reason =>
          { result := .error (.confirmationFailed path reason), disk := d, asked := [path] }
        | .ok false => { result := .error (.overwriteRefused path), disk := d, asked := [path] }
        | .ok true => write [path]

def inspect (path : Text) (d : Disk) : Except Error Summary := do
  let t ← (d.readText path).mapError .disk
  let doc ← parseDocument t
  summarize doc

end FileFlow
end BuildFile
