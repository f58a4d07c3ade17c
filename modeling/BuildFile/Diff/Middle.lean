import BuildFile.Text
/-! Lines as a diff compares them: each keeps its line break, which is a line feed, a carriage
return or both in this order. Only the last line may lack one, and no line is empty. -/
namespace BuildFile.Diff

def tokens : Text → List Text
  | [] => []
  | '\r' :: '\n' :: rest => ['\r', '\n'] :: tokens rest
  | c :: rest =>
    if isLineBreak c then [c] :: tokens rest
    else match tokens rest with
      | [] => [[c]]
      | t :: ts => (c :: t) :: ts

theorem flatten_tokens (t : Text) : (tokens t).flatten = t := by
  fun_induction tokens t with
  | case1 => rfl
  | case2 rest ih => simp [ih]
  | case3 c rest _ _ ih => simp [ih]
  | case4 c rest _ _ h ih => simpa [h] using ih
  | case5 c rest _ _ t ts h ih => simpa [h] using ih

def commonHead : List Text → List Text → Nat
  | x :: xs, y :: ys => if x = y then commonHead xs ys + 1 else 0
  | _, _ => 0

def commonTail (a b : List Text) : Nat := commonHead a.reverse b.reverse

theorem take_commonHead (a b : List Text) : a.take (commonHead a b) = b.take (commonHead a b) := by
  fun_induction commonHead a b with
  | case1 xs y ys ih => simp [ih]
  | case2 => simp
  | case3 => simp

theorem commonHead_le (a b : List Text) :
    commonHead a b ≤ a.length ∧ commonHead a b ≤ b.length := by
  fun_induction commonHead a b with
  | case1 xs y ys ih => simp; omega
  | case2 => simp
  | case3 => simp

def slice {α : Type} (l : List α) (i n : Nat) : List α := (l.drop i).take n

/-! Where to split a comparison in two. Paths through the grid of old and new lines are followed
from both ends at once; depth `d` allows `d` deletions and insertions from each end. A diagonal `k`
holds the points with `k` more old than new lines behind them, and the furthest point on a diagonal
is given by the number of old lines behind it. Where a forward and a backward path meet, the
comparison is split. -/

/-- Furthest points at one depth `d`, on the diagonals `d`, `d - 2`, …, `-d` in this order. -/
abbrev Front := List Nat

/-- Starting points that lie between neighbouring diagonals: a step right from the lower one, unless
the upper one is further. -/
def inner : Nat → Front → List Nat
  | v, [] => [v]
  | v, w :: front => (if w < v then v else w + 1) :: inner w front

def starts : Front → List Nat
  | [] => [0]
  | v :: front => (v + 1) :: inner v front

/-- A path at some depth: its diagonal, where it starts, and how far equal lines carry it. -/
structure Reach where
  diagonal : Int
  start : Nat
  stop : Nat

def commonFrom (a b : Array Text) (x y : Nat) : Nat :=
  if h : x < a.size ∧ y < b.size then
    if a[x] = b[y] then commonFrom a b (x + 1) (y + 1) + 1 else 0
  else 0
termination_by a.size - x

def follow (a b : Array Text) (k : Int) (x : Nat) : Reach :=
  let y := (x : Int) - k
  let advance := if 0 ≤ y then commonFrom a b x y.toNat else 0
  ⟨k, x, x + advance⟩

def reaches (a b : Array Text) (d : Nat) (front : Front) : List Reach :=
  (starts front).zipIdx.map fun (x, i) => follow a b ((d : Int) - 2 * i) x

def furthest (d : Int) (front : Array Nat) (k : Int) : Nat := front.getD ((d - k) / 2).toNat 0

/-- The first path that overlaps one from the other end, whose front has depth `d`. Of `n` old and
`m` new lines, the other end counts diagonals from `n - m` down. -/
def meeting? (n : Nat) (delta d : Int) (other : Array Nat) (paths : List Reach) : Option Reach :=
  paths.find? fun r =>
    (r.diagonal - delta).natAbs ≤ d && n ≤ r.stop + furthest d other (delta - r.diagonal)

/-- Deepens the search from both ends, at most `rounds` times; the lines are also given in
reverse. -/
def search (a b ra rb : Array Text) (delta : Int) : Nat → Nat → Front → Front → Option (Nat × Nat)
  | 0, _, _, _ => none
  | rounds + 1, d, fore, back =>
    let paths := reaches a b d fore
    match if delta % 2 = 1 then meeting? a.size delta (d - 1) back.toArray paths else none with
    | some r => some (r.start, (r.start - r.diagonal).toNat)
    | none =>
      let fore := paths.map Reach.stop
      let paths := reaches ra rb d back
      match if delta % 2 = 1 then none else meeting? a.size delta d fore.toArray paths with
      | some r => some (a.size - r.stop, (b.size - (r.stop - r.diagonal)).toNat)
      | none => search a b ra rb delta rounds (d + 1) fore (paths.map Reach.stop)

def middle? (a b : List Text) : Option (Nat × Nat) :=
  search a.toArray b.toArray a.reverse.toArray b.reverse.toArray (a.length - b.length)
    ((a.length + b.length + 1) / 2 + 1) 0 [] []

end BuildFile.Diff
