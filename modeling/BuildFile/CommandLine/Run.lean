import BuildFile.CommandLine.Arguments
import BuildFile.CommandLine.Output
/-! Running a command line against a disk: what is printed, with which exit code, and the disk that
is left. Usage errors end with code 2 and failures with code 1; nothing is printed before all work
is done. -/
namespace BuildFile.CommandLine

def Verb.about : Verb → Text
  | add => "Add items to managed regions"
  | remove => "Remove items from managed regions"
  | new => "Create a build file from a seed template"
  | «show» => "Show the project type, names, and managed items"

def Topic.about : Topic → Text
  | program => "proj - Keep the managed regions of a CMakeLists.txt in shape"
  | command v => v.about
  | help => "Print this message or the help of the given subcommand(s)"

def Topic.usage : Topic → Text
  | program => "Usage: proj [OPTIONS] [COMMAND]"
  | command .add => "Usage: proj add [OPTIONS]"
  | command .remove => "Usage: proj remove [OPTIONS]"
  | command .new => "Usage: proj new [OPTIONS] --template <FILE> <KIND>"
  | command .show => "Usage: proj show [OPTIONS]"
  | help => "Usage: proj help [COMMAND]..."

structure Setting where
  colour : Bool := false
  /-- The build file named in the environment. -/
  environment : Option Text := none
  /-- Part of the names of temporary files. -/
  tag : Text
  /-- The pages of help, each with a short and a long form. -/
  help : Topic → Bool → Text := fun topic _ => printed [topic.about, [], topic.usage]

structure Response where
  exit : Nat
  out : Text := []
  err : Text := []
  deriving DecidableEq

inductive Failure where
  | error (e : Error)
  | templateKind (template : Text) (declared expected : ProjectKind)

def Failure.message : Failure → Text
  | error e => e.message
  | templateKind template declared expected =>
    List.flatten ["template ", template, " declares a ", declared.text, " project, not ",
      expected.text]

/-- A request from the command line, checked before any file is touched. -/
def request (action : Action) (items : Items) : Except Error Request := do
  let r ← Request.ofItems action items
  r.validate
  return r

def noTerminal : FileFlow.Confirm := .ask fun _ => .error "IO error: not a terminal"

def runEdit (s : Setting) (path : Text) (action : Action) (items : Items) (dryRun : Bool)
    (d : Disk) : Except Failure Text × Disk :=
  match request action items with
  | .error e => (.error (.error e), d)
  | .ok r =>
    if r.isEmpty then (.ok (printed [unchanged s.colour "Nothing to do"]), d)
    else match FileFlow.edit s.tag path r dryRun d with
      | (.error e, d) => (.error (.error e), d)
      | (.ok report, d) => (.ok (reportText s.colour report), d)

def seed (template : Text) (expected : ProjectKind) (d : Disk) : Except Failure Text := do
  let t ← (d.readText template).mapError fun e => .error (.disk e)
  let doc ← (parseDocument t).mapError .error
  let declared ← (detectKind doc).mapError .error
  if declared = expected then return t else throw (.templateKind template declared expected)

def runCreate (s : Setting) (path : Text) (kind : ProjectKind) (template : Text) (yes : Bool)
    (items : Items) (dryRun : Bool) (d : Disk) : Except Failure Text × Disk :=
  match seed template kind d with
  | .error e => (.error e, d)
  | .ok t =>
    match request .add items with
    | .error e => (.error (.error e), d)
    | .ok r =>
      let confirm := if yes then .assumeYes else noTerminal
      let made := FileFlow.create s.tag path t r dryRun confirm d
      match made.result with
      | .error e => (.error (.error e), made.disk)
      | .ok report => (.ok (reportText s.colour report), made.disk)

def runShow (s : Setting) (path : Text) (json : Bool) (d : Disk) : Except Failure Text × Disk :=
  match FileFlow.inspect path d with
  | .error e => (.error (.error e), d)
  | .ok summary =>
    (.ok (if json then printed [Json.summary summary] else summaryText s.colour summary), d)

def runCommand (s : Setting) (path : Text) (d : Disk) : Command → Except Failure Text × Disk
  | .banner => (.ok (banner s.colour), d)
  | .answer .version => (.ok (printed ["proj 0.1.0"]), d)
  | .answer (.help topic long) => (.ok (s.help topic long), d)
  | .edit action items dryRun => runEdit s path action items dryRun d
  | .create kind template yes items dryRun => runCreate s path kind template yes items dryRun d
  | .show json => runShow s path json d

def run (s : Setting) (args : List Text) (d : Disk) : Response × Disk :=
  match parse? s.environment args with
  | none => ({ exit := 2 }, d)
  | some i =>
    match runCommand s i.buildFile d i.command with
    | (.ok out, d) => ({ exit := 0, out }, d)
    | (.error e, d) =>
      let err := printed [List.flatten [paint s.colour .boldRed "error", ": ", e.message]]
      ({ exit := 1, err }, d)

end BuildFile.CommandLine
