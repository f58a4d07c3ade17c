import BuildFile.Diff.Script
/-! Moving changes together. Every deletion, and then every insertion, is moved up and then down
through the script as far as it goes: it trades places with a run of the other kind of change, joins
one of its own kind, and an insertion slides along kept lines that read like its own end or front. A
deletion does not slide. Indices of the side that a run does not cover are left as they are. -/
namespace BuildFile.Diff

/-- A script opened at one run: what comes before, nearest first, the run, and what comes after. -/
structure Spot where
  above : List Run
  run : Run
  below : List Run

def weight : List Run → Nat
  | [] => 0
  | r :: rs => r.size + 1 + weight rs

def slackUp (a b : List Text) (r kept : Run) : Nat :=
  if r.tag = .insert then commonTail (slice a kept.old kept.size) (slice b r.new r.size) else 0

def slackDown (a b : List Text) (r kept : Run) : Nat :=
  if r.tag = .insert then commonHead (slice a kept.old kept.size) (slice b r.new r.size) else 0

theorem slackUp_le (a b : List Text) (r kept : Run) : slackUp a b r kept ≤ kept.size := by
  unfold slackUp commonTail slice
  split
  · have := (commonHead_le ((a.drop kept.old).take kept.size).reverse
      ((b.drop r.new).take r.size).reverse).1
    simp at this
    omega
  · omega

theorem slackDown_le (a b : List Text) (r kept : Run) : slackDown a b r kept ≤ kept.size := by
  unfold slackDown slice
  split
  · have := (commonHead_le ((a.drop kept.old).take kept.size) ((b.drop r.new).take r.size)).1
    simp at this
    omega
  · omega

def keepBelow (r kept : Run) (s : Nat) : List Run → List Run
  | next :: below =>
    if next.tag = .keep then ⟨.keep, next.old - s, next.new - s, next.size + s⟩ :: below
    else ⟨.keep, kept.old + kept.size - s, r.new + r.size - s, s⟩ :: next :: below
  | [] => [⟨.keep, kept.old + kept.size - s, r.new + r.size - s, s⟩]

def keepAbove (r kept : Run) (s : Nat) : List Run → List Run
  | last :: above =>
    if last.tag = .keep then { last with size := last.size + s } :: above
    else ⟨.keep, kept.old, r.new, s⟩ :: last :: above
  | [] => [⟨.keep, kept.old, r.new, s⟩]

def consRun (r : Run) (rs : List Run) : List Run := if r.size = 0 then rs else r :: rs

theorem weight_consRun_le (r : Run) (rs : List Run) :
    weight (consRun r rs) ≤ r.size + 1 + weight rs := by
  unfold consRun
  split <;> simp [weight]

def moveUp (a b : List Text) (above : List Run) (r : Run) (below : List Run) : Spot :=
  match above with
  | [] => ⟨[], r, below⟩
  | q :: above =>
    if q.tag = .keep then
      let s := slackUp a b r q
      if s = 0 then
        if q.size = 0 then moveUp a b above r below else ⟨q :: above, r, below⟩
      else
        moveUp a b (consRun { q with size := q.size - s } above)
          { r with old := r.old - s, new := r.new - s } (keepBelow r q s below)
    else if q.tag = r.tag then moveUp a b above { q with size := q.size + r.size } below
    else moveUp a b above r (q :: below)
termination_by weight above
decreasing_by
  · simp [weight]
  · have h1 := weight_consRun_le { q with size := q.size - s } above
    have h2 := slackUp_le a b r q
    have h3 : 0 < s := by omega
    simp only [weight] at h1 ⊢
    simp only [s] at h1 h3
    omega
  · simp [weight]
  · simp [weight]

def moveDown (a b : List Text) (above : List Run) (r : Run) (below : List Run) : Spot :=
  match below with
  | [] => ⟨above, r, []⟩
  | q :: below =>
    if q.tag = .keep then
      let s := slackDown a b r q
      if s = 0 then
        if q.size = 0 then moveDown a b above r below else ⟨above, r, q :: below⟩
      else
        moveDown a b (keepAbove r q s above) { r with old := r.old + s, new := r.new + s }
          (consRun { q with old := q.old + s, new := q.new + s, size := q.size - s } below)
    else if q.tag = r.tag then moveDown a b above { r with size := r.size + q.size } below
    else moveDown a b (q :: above) r below
termination_by weight below
decreasing_by
  · simp [weight]
  · have h1 := weight_consRun_le
      { q with old := q.old + s, new := q.new + s, size := q.size - s } below
    have h2 := slackDown_le a b r q
    have h3 : 0 < s := by omega
    simp only [weight] at h1 ⊢
    simp only [s] at h1 h3
    omega
  · simp [weight]
  · simp [weight]

def move (a b : List Text) (above : List Run) (r : Run) (below : List Run) : Spot :=
  let up := moveUp a b above r below
  moveDown a b up.above up.run up.below

def nextSpot? (tag : Tag) (above : List Run) : List Run → Option Spot
  | [] => none
  | r :: below => if r.tag = tag then some ⟨above, r, below⟩ else nextSpot? tag (r :: above) below

def sweep (a b : List Text) (tag : Tag) : Nat → List Run → List Run → List Run
  | 0, above, below => above.reverse ++ below
  | n + 1, above, below =>
    match nextSpot? tag above below with
    | none => above.reverse ++ below
    | some spot =>
      let spot := move a b spot.above spot.run spot.below
      sweep a b tag n (spot.run :: spot.above) spot.below

/-- Moves every run with the tag. A run that moves takes none of its tag along to below, so there
are never more to come than there were. -/
def sweepAll (a b : List Text) (tag : Tag) (rs : List Run) : List Run :=
  sweep a b tag (rs.countP (·.tag = tag)) [] rs

def compact (a b : List Text) (rs : List Run) : List Run :=
  sweepAll a b .insert (sweepAll a b .delete rs)

end BuildFile.Diff
