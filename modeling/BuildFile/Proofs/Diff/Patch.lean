import BuildFile.Diff.Unified
/-! What a unified diff says. A hunk is read as its two stated ranges and its listed lines; hunks
patch one list of lines into another if putting the new lines of each in the place of its old lines,
and leaving all else as it is, makes the second out of the first. -/
namespace BuildFile.Diff

def Tag.sign : Tag → Char
  | .keep => ' '
  | .delete => '-'
  | .insert => '+'

/-- The lines among rows that have another sign. -/
def without (t : Tag) (rows : List (Tag × Text)) : List Text := (rows.filter (·.1 ≠ t)).map Prod.snd

theorem without_append (t : Tag) (xs ys : List (Tag × Text)) :
    without t (xs ++ ys) = without t xs ++ without t ys := by
  simp [without]

theorem without_map (t u : Tag) (l : List Text) :
    without t (l.map (u, ·)) = if u = t then [] else l := by
  split
  case isTrue h => simp [without, h]
  case isFalse h => simp [without, h, List.filter_map, Function.comp_def]

/-- A hunk as it is read: its header states that it is about the old lines from index `oldFrom` up
to `oldTo`, and likewise about new ones. -/
structure Hunk where
  oldFrom : Nat
  oldTo : Nat
  newFrom : Nat
  newTo : Nat
  rows : List (Tag × Text)
  deriving DecidableEq

namespace Hunk

def signs (h : Hunk) : List Tag := h.rows.map Prod.fst

/-- The listed lines of the old text: all but the inserted ones. -/
def oldLines (h : Hunk) : List Text := without .insert h.rows

/-- The listed lines of the new text: all but the deleted ones. -/
def newLines (h : Hunk) : List Text := without .delete h.rows

/-- How a hunk is written. -/
def text (h : Hunk) : Text :=
  List.flatten ["@@ -", range h.oldFrom h.oldTo, " +", range h.newFrom h.newTo, " @@\n",
    h.rows.flatMap fun (t, line) => row t.sign line]

/-- The changes before the first kept line. -/
def front (h : Hunk) : List Tag := h.signs.takeWhile (· ≠ .keep)

/-- The changes after the last kept line, latest first. -/
def back (h : Hunk) : List Tag := h.signs.reverse.takeWhile (· ≠ .keep)

/-- A hunk has a change, and few kept lines before the first and after the last one. -/
structure Framed (h : Hunk) : Prop where
  changed : ∃ t ∈ h.signs, t ≠ .keep
  before : (h.signs.takeWhile (· = .keep)).length ≤ radius
  after : (h.signs.reverse.takeWhile (· = .keep)).length ≤ radius

/-- The header is right about a hunk that stands after `i` old and `j` new lines. -/
structure Exact (i j : Nat) (h : Hunk) : Prop where
  oldFrom : h.oldFrom = i
  newFrom : h.newFrom = j
  oldTo : h.oldTo = i + h.oldLines.length
  newTo : h.newTo = j + h.newLines.length

/-- Changes of one kind, and at least one. -/
def Only (t : Tag) (signs : List Tag) : Prop := signs ≠ [] ∧ ∀ u ∈ signs, u = t

/-- The header is right about a hunk that stands after `i` old and `j` new lines, but for an end at
which it has changes of one kind only. What it says there of the other side is right as well, unless
the diff is `mixed`. -/
structure Placed (mixed : Prop) (i j : Nat) (h : Hunk) : Prop where
  oldFrom (hfront : ¬ (mixed ∧ Only .insert h.front)) : h.oldFrom = i
  newFrom (hfront : ¬ (mixed ∧ Only .delete h.front)) : h.newFrom = j
  oldTo (hback : ¬ (mixed ∧ Only .insert h.back)) : h.oldTo = i + h.oldLines.length
  newTo (hback : ¬ (mixed ∧ Only .delete h.back)) : h.newTo = j + h.newLines.length

/-- What is true of a hunk of a diff between `n` old and `m` new lines. It has changes outside its
kept lines only at an edge of the texts, so only there its header can be wrong. -/
structure Stands (mixed : Prop) (n m i j : Nat) (h : Hunk) :
    Prop extends h.Placed mixed i j, h.Framed where
  opens (hfront : h.front ≠ []) : i = 0 ∧ j = 0
  closes (hback : h.back ≠ []) : i + h.oldLines.length = n ∧ j + h.newLines.length = m

theorem only_reverse_iff {t : Tag} {l : List Tag} : Only t l.reverse ↔ Only t l := by
  simp [Only]

end Hunk

/-- A diff that has both deletions and insertions. -/
def Mixed (hs : List Hunk) : Prop := (∃ h ∈ hs, .delete ∈ h.signs) ∧ ∃ h ∈ hs, .insert ∈ h.signs

/-- Hunks in order, from index `i` of the old and `j` of the new lines on, that make the second list
of lines out of the first. Between them is what both lists have. -/
inductive Patches (P : Nat → Nat → Hunk → Prop) :
    Nat → Nat → List Hunk → List Text → List Text → Prop
  | done (i j : Nat) (rest : List Text) : Patches P i j [] rest rest
  | hunk {i j : Nat} {h : Hunk} {hs : List Hunk} {old new : List Text} (gap : List Text)
    (hplace : P (i + gap.length) (j + gap.length) h)
    (hrest : Patches P (i + gap.length + h.oldLines.length) (j + gap.length + h.newLines.length)
      hs old new) :
    Patches P i j (h :: hs) (gap ++ h.oldLines ++ old) (gap ++ h.newLines ++ new)

theorem Patches.eq_of_nil {P : Nat → Nat → Hunk → Prop} {i j : Nat} {a b : List Text}
    (h : Patches P i j [] a b) : a = b := by
  cases h
  rfl

def heading (label : Text) : Text := List.flatten ["--- a/", label, "\n+++ b/", label, "\n"]

/-- A text is a unified diff between two others. It is empty if they are equal; otherwise it is made
of hunks that make the lines of the second out of those of the first. -/
structure Shows (old new label diff : Text) : Prop where
  eq_nil_iff : diff = [] ↔ old = new
  hunks (hne : old ≠ new) : ∃ hs, diff = heading label ++ hs.flatMap Hunk.text ∧
    Patches (Hunk.Stands (Mixed hs) (tokens old).length (tokens new).length) 0 0 hs (tokens old)
      (tokens new)

end BuildFile.Diff
