import BuildFile.Text
/-! Directives are build commands written on a line of their own. A kind of directive is read from a
line, rendered to its canonical line, and compared by identity, which leaves out what an edit may
change. All kinds have the shape of a call: a verb, then arguments in parentheses, blanks allowed
between. -/
namespace BuildFile

class Directive (δ : Type) where
  read : Text → Option δ
  render : δ → Text
  /-- Whether two directives are about the same thing. -/
  same : δ → δ → Bool

namespace Call

def arguments? (verb line : Text) : Option Text := do
  let rest ← after? verb (skipBlanks line)
  let rest ← after? ['('] (skipBlanks rest)
  some (skipBlanks rest)

def word? (t : Text) : Option (Text × Text) := do
  let (w, rest) ← run? (fun c => !isBlank c) t
  let rest ← blanks? rest
  some (w, rest)

def closes (t : Text) : Bool := trim t == [')']

def beforeClose? (t : Text) : Option Text := before? [')'] (trimEnd t)

def lastToken? (t : Text) : Option Text := do
  let (w, rest) ← run? isBare t
  if closes rest then some w else none

end Call

/-! Compile definitions: a symbol, with or without a value, given to a target under a visibility.
Two definitions are the same when target, visibility and symbol agree; the value may differ. -/

inductive Visibility where
  | scopePublic | scopePrivate | scopeInterface
  deriving DecidableEq

namespace Visibility

def text : Visibility → Text
  | scopePublic => "PUBLIC"
  | scopePrivate => "PRIVATE"
  | scopeInterface => "INTERFACE"

def ofKeyword? (t : Text) : Option Visibility :=
  [scopePublic, scopePrivate, scopeInterface].find? (·.text == t)

def read (t : Text) : Option Visibility := ofKeyword? (t.map Char.toUpper)

def unknown (t : Text) : Text := List.flatten ["unknown visibility '", t, "'"]

theorem ofKeyword?_text (v : Visibility) : ofKeyword? v.text = some v := by cases v <;> rfl

end Visibility

structure Definition where
  target : Text
  visibility : Visibility
  symbol : Text
  value : Option Text
  deriving DecidableEq

namespace Definition

def verb : Text := "target_compile_definitions"
def flag : Text := "-D"

/-- What follows the symbol: nothing, or `=` and a value that keeps inner and leading blanks. -/
def value? : Text → Option (Option Text)
  | '=' :: t => do
    let v := trimEnd (← Call.beforeClose? t)
    if v.contains '\n' then none else some (some v)
  | t => if Call.closes t then some none else none

def read (line : Text) : Option Definition := do
  let args ← Call.arguments? verb line
  let (target, args) ← Call.word? args
  let (keyword, args) ← Call.word? args
  let visibility ← Visibility.ofKeyword? keyword
  let args ← after? flag args
  let (symbol, args) ← run? isIdentRest args
  if !isIdent symbol then none else
  let value ← value? args
  some { target, visibility, symbol, value }

def render (d : Definition) : Text :=
  List.flatten [verb, "(", d.target, " ", d.visibility.text, " ", flag, d.symbol,
    match d.value with
    | some v => '=' :: v
    | none => [],
    ")"]

def same (d e : Definition) : Bool :=
  d.target == e.target && d.visibility == e.visibility && d.symbol == e.symbol

instance : Directive Definition := ⟨read, render, same⟩

end Definition

/-! Link libraries: a library linked to a target in some build configurations. -/

inductive Qualifier where
  | debug | optimized | general
  deriving DecidableEq

namespace Qualifier

def text : Qualifier → Text
  | debug => "debug"
  | optimized => "optimized"
  | general => "general"

def ofKeyword? (t : Text) : Option Qualifier :=
  [debug, optimized, general].find? (·.text == t)

def read (t : Text) : Option Qualifier := ofKeyword? (t.map Char.toLower)

def unknown (t : Text) : Text := List.flatten ["unknown link qualifier '", t, "'"]

theorem ofKeyword?_text (q : Qualifier) : ofKeyword? q.text = some q := by cases q <;> rfl

end Qualifier

structure LinkLibrary where
  target : Text
  qualifier : Qualifier
  library : Text
  deriving DecidableEq

namespace LinkLibrary

def verb : Text := "target_link_libraries"

def read (line : Text) : Option LinkLibrary := do
  let args ← Call.arguments? verb line
  let (target, args) ← Call.word? args
  let (keyword, args) ← Call.word? args
  let qualifier ← Qualifier.ofKeyword? keyword
  let library ← Call.lastToken? args
  some { target, qualifier, library }

def render (d : LinkLibrary) : Text :=
  List.flatten [verb, "(", d.target, " ", d.qualifier.text, " ", d.library, ")"]

def same (d e : LinkLibrary) : Bool :=
  d.target == e.target && d.qualifier == e.qualifier && d.library == e.library

instance : Directive LinkLibrary := ⟨read, render, same⟩

end LinkLibrary

/-! Subdirectories that the build descends into. -/

structure Subdirectory where
  path : Text
  deriving DecidableEq

namespace Subdirectory

def verb : Text := "add_subdirectory"

def read (line : Text) : Option Subdirectory := do
  let args ← Call.arguments? verb line
  let path ← Call.lastToken? args
  some { path }

def render (d : Subdirectory) : Text := List.flatten [verb, "(", d.path, ")"]

def same (d e : Subdirectory) : Bool := d.path == e.path

instance : Directive Subdirectory := ⟨read, render, same⟩

end Subdirectory

end BuildFile
