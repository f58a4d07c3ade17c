import BuildFile.Request
import BuildFile.Category
/-! Reading the command line. Arguments are taken in order: options of the program, then a command,
then options of that command. A usage error is told by giving nothing. Options that take a value
take the next argument, and item groups take all that follow up to the next option; an option is an
argument that starts with `-` and is longer than that. After `--` there are no options. Whoever asks
for the version or for help is answered at once, whatever else is missing. -/
namespace BuildFile.CommandLine

inductive Verb where
  | add | remove | new | show
  deriving DecidableEq

def Verb.ofText? (t : Text) : Option Verb :=
  [("add".toList, Verb.add), ("remove".toList, remove), ("new".toList, new),
    ("show".toList, .show)].lookup t

inductive Topic where
  | program
  | command (v : Verb)
  | help
  deriving DecidableEq

namespace Topic

def ofVerb : Option Verb → Topic
  | none => program
  | some v => command v

/-- Where the words after `help` lead; commands have no commands of their own. -/
def ofWords? : List Text → Option Topic
  | [] => some program
  | [w] => if w = "help".toList then some help else (Verb.ofText? w).map command
  | _ => none

end Topic

inductive Inquiry where
  | version
  | help (topic : Topic) (long : Bool)
  deriving DecidableEq

inductive Opt where
  | verbose | version | buildFile | dryRun | json | yes | template
  | help (long : Bool)
  | items (c : Category)
  deriving DecidableEq

namespace Opt

def ofLong? (t : Text) : Option Opt :=
  ([("verbose".toList, verbose), ("version".toList, version), ("help".toList, help true),
    ("cmakelists".toList, buildFile), ("dry-run".toList, dryRun), ("json".toList, json),
    ("yes".toList, yes), ("template".toList, template)] ++
      Category.all.map fun c => (c.text, items c)).lookup t

def ofShort? : Char → Option Opt
  | 'v' => some verbose
  | 'V' => some version
  | 'h' => some (help false)
  | 'y' => some yes
  | 't' => some template
  | _ => none

def takesValue : Opt → Bool
  | buildFile | template | items _ => true
  | _ => false

def isKnown : Option Verb → Opt → Bool
  | _, verbose | _, buildFile | _, help _ => true
  | none, o => o = version
  | some .show, o => o = json
  | some .new, yes | some .new, template => true
  | some _, dryRun | some _, items _ => true
  | _, _ => false

def inquiry? (verb : Option Verb) : Opt → Option Inquiry
  | version => some .version
  | help long => some (.help (.ofVerb verb) long)
  | _ => none

end Opt

structure Given where
  verbose : Bool := false
  dryRun : Bool := false
  json : Bool := false
  yes : Bool := false
  buildFile : Option Text := none
  template : Option Text := none
  kind : Option ProjectKind := none
  items : Items := {}

namespace Given

def flag? (g : Given) : Opt → Option Given
  | .verbose => if g.verbose then none else some { g with verbose := true }
  | .dryRun => if g.dryRun then none else some { g with dryRun := true }
  | .json => if g.json then none else some { g with json := true }
  | .yes => if g.yes then none else some { g with yes := true }
  | _ => none

/-- Gives a value to an option. A file must be named, and once only; items add up. -/
def value? (g : Given) (v : Text) : Opt → Option Given
  | .buildFile =>
    if g.buildFile.isSome || v.isEmpty then none else some { g with buildFile := some v }
  | .template => if g.template.isSome || v.isEmpty then none else some { g with template := some v }
  | .items c => some { g with items := g.items.push v c }
  | _ => none

end Given

inductive Await where
  | nothing
  | value (o : Opt)
  | more (c : Category)
  deriving DecidableEq

/-- The state of reading: the command and what was given before it, once there is one, then what was
given since. -/
structure Scan where
  verb : Option Verb := none
  outer : Given := {}
  given : Given := {}
  await : Await := .nothing

inductive Step where
  | next (s : Scan)
  | answer (i : Inquiry)

def Step.answered? : Step → Option Step
  | next _ => none
  | answer i => some (answer i)

namespace Scan

def positional? (s : Scan) (w : Text) : Option Scan :=
  match s.verb with
  | none => (Verb.ofText? w).map fun v => { verb := some v, outer := s.given }
  | some .new =>
    if s.given.kind.isSome then none
    else (ProjectKind.ofText? w).map fun k => { s with given := { s.given with kind := some k } }
  | some _ => none

def word? (s : Scan) (w : Text) : Option Scan :=
  match s.await with
  | .nothing => s.positional? w
  | .value o => do
    let given ← s.given.value? w o
    return { s with given, await := match o with
      | .items c => .more c
      | _ => .nothing }
  | .more c => do
    let given ← s.given.value? w (.items c)
    return { s with given }

def option? (s : Scan) (o : Opt) (attached : Option Text) : Option Step :=
  if !o.isKnown s.verb then none
  else match attached with
    | some v => (s.given.value? v o).map fun given => .next { s with given, await := .nothing }
    | none =>
      match o.inquiry? s.verb with
      | some i => some (.answer i)
      | none =>
        if o.takesValue then some (.next { s with await := .value o })
        else (s.given.flag? o).map fun given => .next { s with given, await := .nothing }

def long? (s : Scan) (t : Text) : Option Step :=
  match cutFirst? '=' t with
  | some (name, v) => (Opt.ofLong? name).bind fun o => s.option? o (some v)
  | none => (Opt.ofLong? t).bind fun o => s.option? o none

/-- A cluster of short options; one that takes a value takes the rest of the cluster. -/
def shorts? (s : Scan) : Text → Option Step
  | [] => some (.next s)
  | c :: rest => do
    let o ← Opt.ofShort? c
    if o.takesValue && !rest.isEmpty then
      s.option? o (some ((after? ['='] rest).getD rest))
    else match ← s.option? o none with
      | .answer i => some (.answer i)
      | .next s => s.shorts? rest

def trailing? (s : Scan) : List Text → Option Scan
  | [] => some s
  | w :: ws => if s.verb.isNone then none else (s.positional? w).bind (·.trailing? ws)

end Scan

def isOption : Text → Bool
  | '-' :: _ :: _ => true
  | _ => false

def scan? (s : Scan) : List Text → Option Step
  | [] =>
    match s.await with
    | .value _ => none
    | _ => some (.next s)
  | arg :: args =>
    match arg with
    | '-' :: c :: rest =>
      match s.await with
      | .value _ => none
      | _ =>
        let s := { s with await := .nothing }
        if arg = ['-', '-'] then (s.trailing? args).map .next
        else match if c = '-' then s.long? rest else s.shorts? (c :: rest) with
          | none => none
          | some (.answer i) => some (.answer i)
          | some (.next s) => scan? s args
    | w =>
      if s.verb = none ∧ s.await = .nothing ∧ w = "help".toList then
        (Topic.ofWords? args).map fun topic => .answer (.help topic true)
      else match s.word? w with
        | some s => scan? s args
        | none =>
          -- A build file right before the command is looked at only once the command was read, so
          -- that one which is refused does not keep the command from giving an answer.
          if s.verb = none ∧ s.await = .value .buildFile ∧ args.head?.any (!isOption ·) then
            (scan? { s with await := .nothing } args).bind Step.answered?
          else none

inductive Command where
  | banner
  | answer (i : Inquiry)
  | edit (action : Action) (items : Items) (dryRun : Bool)
  | create (kind : ProjectKind) (template : Text) (yes : Bool) (items : Items) (dryRun : Bool)
  | show (json : Bool)
  deriving DecidableEq

structure Invocation where
  buildFile : Text
  command : Command
  deriving DecidableEq

/-- The build file to work on: as given after or before the command, or in the environment, or the
default. An empty one in the environment is an error wherever it would be looked at. -/
def buildFile? (environment : Option Text) (s : Scan) : Option Text :=
  let complete := s.given.buildFile.isSome && (s.verb.isNone || s.outer.buildFile.isSome)
  if environment = some [] && !complete then none
  else some ((s.given.buildFile <|> s.outer.buildFile <|> environment).getD "CMakeLists.txt")

def command? (s : Scan) : Option Command :=
  let g := s.given
  match s.verb with
  | none => some .banner
  | some .add => some (.edit .add g.items g.dryRun)
  | some .remove => some (.edit .remove g.items g.dryRun)
  | some .show => some (.show g.json)
  | some .new => do
    let kind ← g.kind
    let template ← g.template
    return .create kind template g.yes g.items g.dryRun

def parse? (environment : Option Text) (args : List Text) : Option Invocation := do
  match ← scan? {} args with
  | .answer i => return { buildFile := [], command := .answer i }
  | .next s =>
    let buildFile ← buildFile? environment s
    let command ← command? s
    return { buildFile, command }

end BuildFile.CommandLine
