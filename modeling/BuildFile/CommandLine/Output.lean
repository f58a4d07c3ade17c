import BuildFile.FileFlow
/-! What is printed: styled lines about an outcome, a diff or a summary, or a summary as JSON. -/
namespace BuildFile.CommandLine

/-! Styled pieces of output. A style is a list of display attributes; without colour it shows
nothing. -/

inductive Style where
  | bold | dimmed | red | green | yellow | cyan | boldRed | boldGreen | boldCyan
  deriving DecidableEq

def Style.codes : Style → Text
  | bold => "1"
  | dimmed => "2"
  | red => "31"
  | green => "32"
  | yellow => "33"
  | cyan => "36"
  | boldRed => "1;31"
  | boldGreen => "1;32"
  | boldCyan => "1;36"

def paint (colour : Bool) (style : Style) (t : Text) : Text :=
  if colour then List.flatten ["\x1b[", style.codes, "m", t, "\x1b[0m"] else t

def printed (ls : List Text) : Text := ls.flatMap (· ++ ['\n'])

def banner (colour : Bool) : Text :=
  printed [
    List.flatten [paint colour .boldGreen "proj", " CMake region editor"],
    [],
    List.flatten ["Run ", paint colour .cyan "proj --help", " for available commands."]]

def changeLine? (colour : Bool) : Category × Edit.Change → Option Text
  | (category, change) =>
    let part (n : Nat) (style : Style) (verb : Text) : Option Text :=
      if n = 0 then none else some (paint colour style (List.flatten [decimal n, " ", verb]))
    let parts := [part change.added .green "added", part change.replaced .yellow "replaced",
      part change.removed .red "removed"].filterMap id
    if change.isEmpty then none
    else some (List.flatten ["  ", paint colour .bold category.text, ": ",
      List.intercalate ", " parts])

def unchanged (colour : Bool) (t : Text) : Text := List.flatten [paint colour .dimmed "=", " ", t]

/-- A dry run shows its diff, and any other run its changes and whether the file was written. -/
def reportText (colour : Bool) (r : Report) : Text :=
  match r.diff with
  | some [] => printed [unchanged colour "No changes"]
  | some diff => diff
  | none =>
    let last :=
      if r.written then List.flatten [paint colour .boldGreen "OK", " Updated ", r.path]
      else unchanged colour (List.flatten [r.path, " is up to date"])
    printed (r.outcome.changes.filterMap (changeLine? colour) ++ [last])

def labelled (colour : Bool) (name value : Text) : Text :=
  List.flatten [paint colour .bold (List.flatten [name, ":"]), " ", value]

def regionLines (colour : Bool) (r : RegionSummary) : List Text :=
  [[], paint colour .boldCyan r.category.text] ++
    (if r.lines.isEmpty then [List.flatten ["  ", paint colour .dimmed "(empty)"]]
     else r.lines.map fun l => List.flatten ["  ", l])

def summaryText (colour : Bool) (s : Summary) : Text :=
  printed (labelled colour "Type" s.kind.text ::
    ((s.projectName.map (labelled colour "Project")).toList ++
     (s.targetName.map (labelled colour "Target")).toList ++
     s.regions.flatMap (regionLines colour)))

/-! A summary as JSON for scripts: indented by two spaces, one field or element a line. -/

namespace Json

def hexDigit (n : Nat) : Char := (Nat.digitChar n)

def escape (c : Char) : Text :=
  match c with
  | '"' => "\\\""
  | '\\' => "\\\\"
  | '\n' => "\\n"
  | '\r' => "\\r"
  | '\t' => "\\t"
  | '\x08' => "\\b"
  | '\x0c' => "\\f"
  | _ =>
    if c.toNat < 0x20 then "\\u00".toList ++ [hexDigit (c.toNat / 16), hexDigit (c.toNat % 16)]
    else [c]

def quoted (t : Text) : Text := '"' :: t.flatMap escape ++ ['"']

def optional : Option Text → Text
  | some t => quoted t
  | none => "null"

def newline (depth : Nat) : Text := '\n' :: List.replicate (2 * depth) ' '

def enclosed (opening closing : Char) (depth : Nat) (elements : List Text) : Text :=
  if elements.isEmpty then [opening, closing]
  else
    let inner := elements.map fun e => newline (depth + 1) ++ e
    opening :: List.intercalate "," inner ++ newline depth ++ [closing]

def list (depth : Nat) (elements : List Text) : Text := enclosed '[' ']' depth elements

def object (depth : Nat) (fields : List (Text × Text)) : Text :=
  enclosed '\x7b' '\x7d' depth (fields.map fun (k, v) => List.flatten [quoted k, ": ", v])

def region (depth : Nat) (r : RegionSummary) : Text :=
  object depth [("category", quoted r.category.text), ("region", quoted r.region),
    ("lines", list (depth + 1) (r.lines.map quoted))]

def summary (s : Summary) : Text :=
  object 0 [("project_type", quoted s.kind.text), ("project_name", optional s.projectName),
    ("target_name", optional s.targetName), ("regions", list 1 (s.regions.map (region 2)))]

end Json

end BuildFile.CommandLine
