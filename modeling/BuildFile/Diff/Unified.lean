import BuildFile.Diff.Compact
import BuildFile.Text
/-! The text of a unified diff. Neighbouring runs are gathered into blocks of kept or changed lines;
changes with few kept lines between them share a hunk, and a hunk shows a fixed number of kept lines
around its changes. -/
namespace BuildFile.Diff

/-- Kept or changed lines: `oldSize` old lines from index `old`, `newSize` new lines from index
`new`. -/
structure Block where
  kept : Bool
  old : Nat
  oldSize : Nat
  new : Nat
  newSize : Nat
  deriving DecidableEq

namespace Block

def ofKept (r : Run) : Block := ⟨true, r.old, r.size, r.new, r.size⟩

def ofChange : Option Run → Option Run → List Block
  | some d, some i => [⟨false, d.old, d.size, i.new, i.size⟩]
  | some d, none => [⟨false, d.old, d.size, d.new, 0⟩]
  | none, some i => [⟨false, i.old, 0, i.new, i.size⟩]
  | none, none => []

def part (x : Block) (k n : Nat) : Block := ⟨x.kept, x.old + k, n, x.new + k, n⟩

end Block

def gather : Option Run → Run → Run
  | none, r => r
  | some g, r => { g with size := g.size + r.size }

/-- Gathers runs into blocks, after the kept run or the deletion and insertion gathered so far. -/
def gatherBlocks (kept deleted inserted : Option Run) : List Run → List Block
  | [] => (kept.map Block.ofKept).toList ++ Block.ofChange deleted inserted
  | r :: rs =>
    match r.tag with
    | .keep => Block.ofChange deleted inserted ++ gatherBlocks (some (gather kept r)) none none rs
    | .delete =>
      (kept.map Block.ofKept).toList ++ gatherBlocks none (some (gather deleted r)) inserted rs
    | .insert =>
      (kept.map Block.ofKept).toList ++ gatherBlocks none deleted (some (gather inserted r)) rs

def blocks (a b : List Text) : List Block :=
  gatherBlocks none none none (compact a b (script 0 0 a b))

def radius : Nat := 3

def cutStart : List Block → List Block
  | x :: xs =>
    if x.kept then x.part (x.oldSize - radius) (min x.oldSize radius) :: xs else x :: xs
  | [] => []

def cutEnd : List Block → List Block
  | [] => []
  | [x] => if x.kept then [x.part 0 (min x.oldSize radius)] else [x]
  | x :: xs => x :: cutEnd xs

def isIdle : List Block → Bool
  | [] => true
  | [x] => x.kept
  | _ => false

/-- Divides blocks into hunks at long kept runs; `current` is the hunk so far, latest block
first. -/
def hunks (current : List Block) : List Block → List (List Block)
  | [] => if isIdle current then [] else [current.reverse]
  | x :: xs =>
    if x.kept && 2 * radius < x.oldSize then
      (x.part 0 radius :: current).reverse :: hunks [x.part (x.oldSize - radius) radius] xs
    else hunks (x :: current) xs

/-- A range of lines in a hunk header: the number of its first line and its length unless that is
one. An empty range has the number of the line before. -/
def range (start stop : Nat) : Text :=
  match stop - start with
  | 0 => List.flatten [decimal start, ",0"]
  | 1 => decimal (start + 1)
  | n => List.flatten [decimal (start + 1), ",", decimal n]

def header : List Block → Text
  | [] => []
  | first :: rest =>
    let last := rest.getLastD first
    List.flatten ["@@ -", range first.old (last.old + last.oldSize), " +",
      range first.new (last.new + last.newSize), " @@\n"]

def row (sign : Char) (line : Text) : Text :=
  sign :: line ++ (if line.getLast?.any isLineBreak then [] else "\n\\ No newline at end of file\n")

def Block.text (a b : List Text) (x : Block) : Text :=
  if x.kept then (slice a x.old x.oldSize).flatMap (row ' ')
  else (slice a x.old x.oldSize).flatMap (row '-') ++ (slice b x.new x.newSize).flatMap (row '+')

def hunkText (a b : List Text) (hunk : List Block) : Text :=
  header hunk ++ hunk.flatMap (Block.text a b)

def unified (old new label : Text) : Text :=
  if old = new then []
  else
    let a := tokens old
    let b := tokens new
    match hunks [] (cutEnd (cutStart (blocks a b))) with
    | [] => []
    | hs => List.flatten ["--- a/", label, "\n+++ b/", label, "\n", hs.flatMap (hunkText a b)]

end BuildFile.Diff
