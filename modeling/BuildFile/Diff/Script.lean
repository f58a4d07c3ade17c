import BuildFile.Diff.Middle
/-! Edit scripts: runs of kept, deleted and inserted lines that lead from the old lines to the new
ones. A script is found by cutting common fronts and ends, and splitting what is left at a middle
point. -/
namespace BuildFile.Diff

inductive Tag where
  | keep | delete | insert
  deriving DecidableEq

/-- A run of `size` lines, from index `old` of the old lines and index `new` of the new ones. A
deletion covers old lines only and an insertion new lines only. -/
structure Run where
  tag : Tag
  old : Nat
  new : Nat
  size : Nat
  deriving DecidableEq

def keepRun (old new size : Nat) : List Run := if size = 0 then [] else [⟨.keep, old, new, size⟩]

def replaceRuns (old new n m : Nat) : List Run :=
  (if n = 0 then [] else [⟨.delete, old, new, n⟩]) ++
  (if m = 0 then [] else [⟨.insert, old, new, m⟩])

def isProper (n m : Nat) : Nat × Nat → Bool
  | (x, y) => x ≤ n && y ≤ m && 0 < x + y && x + y < n + m

def split? (a b : List Text) : Option (Nat × Nat) :=
  if a.isEmpty || b.isEmpty then none else (middle? a b).filter (isProper a.length b.length)

theorem isProper_of_split? {a b : List Text} {x y : Nat} (h : split? a b = some (x, y)) :
    x ≤ a.length ∧ y ≤ b.length ∧ 0 < x + y ∧ x + y < a.length + b.length := by
  unfold split? at h
  split at h
  · cases h
  · have := (Option.filter_eq_some_iff.1 h).2
    simpa [isProper, and_assoc] using this

def core (a : List Text) (p s : Nat) : List Text := slice a p (a.length - p - s)

theorem length_core_le (a : List Text) (p s : Nat) : (core a p s).length ≤ a.length := by
  simp [core, slice]; omega

/-- The script from `a` to `b`, which stand at index `i` of all old and `j` of all new lines. -/
def script (i j : Nat) (a b : List Text) : List Run :=
  let p := commonHead a b
  let s := commonTail (a.drop p) (b.drop p)
  let a' := core a p s
  let b' := core b p s
  let changed :=
    match _h : split? a' b' with
    | some (x, y) =>
      script (i + p) (j + p) (a'.take x) (b'.take y) ++
      script (i + p + x) (j + p + y) (a'.drop x) (b'.drop y)
    | none => replaceRuns (i + p) (j + p) a'.length b'.length
  keepRun i j p ++ changed ++ keepRun (i + p + a'.length) (j + p + b'.length) s
termination_by a.length + b.length
decreasing_by
  all_goals
    have hp := isProper_of_split? _h
    have ha : a'.length ≤ a.length := length_core_le ..
    have hb : b'.length ≤ b.length := length_core_le ..
    simp only [List.length_take, List.length_drop]
    simp only [a', b', p, s] at hp ha hb
    omega

end BuildFile.Diff
