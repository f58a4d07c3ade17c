import BuildFile.Proofs.Diff.Blocks
/-! Blocks divided into hunks. What a diff leaves out between its hunks are lines that both texts
have. A hunk shows at least one change; it begins and ends with few kept lines, or at an edge of the
texts with none. -/
namespace BuildFile.Diff
variable {a b : List Text} {single edge : Prop} {p q s : Nat × Nat} {x : Block}
  {bs xs current : List Block}

/-- Lines that both texts have, from one point to another. -/
def Gap (a b : List Text) (p q : Nat × Nat) : Prop :=
  ∃ n, slice a p.1 n = slice b p.2 n ∧ q = (p.1 + n, p.2 + n)

theorem Gap.refl (p : Nat × Nat) : Gap a b p p := ⟨0, by simp [slice], rfl⟩

theorem Gap.trans (hpq : Gap a b p q) (hqs : Gap a b q s) : Gap a b p s := by
  obtain ⟨m, hm, rfl⟩ := hpq
  obtain ⟨n, hn, rfl⟩ := hqs
  exact ⟨m + n, by rw [slice_add, slice_add, hm, hn], by simp only [Nat.add_assoc]⟩

/-- At an end of a hunk there are few kept lines, or none if it is an edge of the texts. -/
def ShortAt (edge : Prop) (x : Option Block) : Prop :=
  ∀ y ∈ x, (y.kept = true → y.oldSize ≤ radius) ∧ (y.kept = false → edge)

/-- The blocks of a hunk, which may begin and end at the edges of the texts. -/
structure IsHunk (opens closes : Prop) (h : List Block) : Prop where
  alternating : Alternating h
  first : ShortAt opens h.head?
  last : ShortAt closes h.getLast?
  changed : ∃ x ∈ h, x.kept = false

/-- A hunk leads from where the one before ends, over a gap and through its blocks. -/
def HunkCovers (a b : List Text) (single : Prop) (p : Nat × Nat) (h : List Block) (q : Nat × Nat) :
    Prop :=
  ∃ s, Gap a b p s ∧ Path (Block.Covers a b single) s h q ∧
    IsHunk (s = (0, 0)) (q = (a.length, b.length)) h

@[simp]
theorem kept_part (x : Block) (k n : Nat) : (x.part k n).kept = x.kept := rfl

theorem slice_part {i j k n m : Nat} (hsame : slice a i m = slice b j m) (hkn : k + n ≤ m) :
    slice a (i + k) n = slice b (j + k) n := by
  rw [← drop_slice, ← drop_slice, ← take_slice hkn, hsame, take_slice hkn]

section Parts
variable {k n : Nat} (hx : x.kept = true) (h : x.Covers a b single p q)
include hx h

theorem Block.Covers.end_eq : q = (p.1 + x.oldSize, p.2 + x.oldSize) := by
  cases h with
  | kept => rfl
  | changed => cases hx

theorem Block.Covers.part (hn : 0 < n) (hkn : k + n ≤ x.oldSize) :
    (x.part k n).Covers a b single (p.1 + k, p.2 + k) (p.1 + k + n, p.2 + k + n) := by
  cases h with
  | kept _ hsame => exact .kept hn (slice_part hsame hkn)
  | changed => cases hx

theorem Block.Covers.gap (hkn : k + n ≤ x.oldSize) :
    Gap a b (p.1 + k, p.2 + k) (p.1 + k + n, p.2 + k + n) := by
  cases h with
  | kept _ hsame => exact ⟨n, slice_part hsame hkn, rfl⟩
  | changed => cases hx

theorem Block.Covers.size_pos : 0 < x.oldSize := by
  cases h with
  | kept hsize => exact hsize
  | changed => cases hx

end Parts

theorem shortAt_part {k n : Nat} (hx : x.kept = true) (hn : n ≤ radius) :
    ShortAt edge (some (x.part k n)) := by
  rintro _ ⟨⟩
  exact ⟨fun _ => hn, fun h => absurd (hx.symm.trans h) (by decide)⟩

theorem shortAt_changed (hx : x.kept ≠ true) (hedge : edge) : ShortAt edge (some x) := by
  rintro _ ⟨⟩
  exact ⟨fun h => absurd h hx, fun _ => hedge⟩

/-- What is cut from the start is common to both texts. -/
theorem path_cutStart (h : Path (Block.Covers a b single) p bs q) :
    ∃ s, Gap a b p s ∧ Path (Block.Covers a b single) s (cutStart bs) q ∧
      ShortAt (s = p) (cutStart bs).head? := by
  cases h with
  | nil => exact ⟨p, .refl p, .nil p, nofun⟩
  | @cons _ t _ x xs hx hxs =>
    simp only [cutStart]
    split
    case isTrue hkept =>
      have hpos := hx.size_pos hkept
      have hlen : x.oldSize - radius + min x.oldSize radius = x.oldSize := by omega
      have hgap := hx.gap hkept (k := 0) (n := x.oldSize - radius) (by omega)
      have hpart := hx.part hkept (k := x.oldSize - radius) (n := min x.oldSize radius)
        (by simp [radius]; omega) hlen.le
      refine ⟨_, by simpa using hgap, .cons hpart ?_, shortAt_part hkept (min_le_right ..)⟩
      rw [Nat.add_assoc, Nat.add_assoc, hlen, ← hx.end_eq hkept]
      exact hxs
    case isFalse hkept => exact ⟨p, .refl p, .cons hx hxs, shortAt_changed hkept rfl⟩

theorem map_kept_cutStart (bs : List Block) : (cutStart bs).map Block.kept = bs.map Block.kept := by
  unfold cutStart
  split
  · split
    · rfl
    · rfl
  · rfl

theorem map_kept_cutEnd (bs : List Block) : (cutEnd bs).map Block.kept = bs.map Block.kept := by
  fun_induction cutEnd bs with
  | case1 => rfl
  | case2 => rfl
  | case3 => rfl
  | case4 x xs _ ih => simp [ih]

/-- What is cut from the end is common to both texts. -/
theorem path_cutEnd (h : Path (Block.Covers a b single) p bs q) :
    ∃ s, Path (Block.Covers a b single) p (cutEnd bs) s ∧ Gap a b s q ∧
      ShortAt (s = q) (cutEnd bs).getLast? := by
  fun_induction cutEnd bs generalizing p with
  | case1 => exact ⟨q, h, .refl q, nofun⟩
  | case2 x hkept =>
    obtain ⟨t, hx, hnil⟩ := Path.cons_iff.mp h
    obtain rfl := Path.nil_iff.mp hnil
    have hpos := hx.size_pos hkept
    have hpart := hx.part hkept (k := 0) (n := min x.oldSize radius) (by simp [radius]; omega)
      (by omega)
    have hgap := hx.gap hkept (k := min x.oldSize radius) (n := x.oldSize - min x.oldSize radius)
      (by omega)
    have hlen : min x.oldSize radius + (x.oldSize - min x.oldSize radius) = x.oldSize := by omega
    rw [Nat.add_assoc, Nat.add_assoc, hlen, ← hx.end_eq hkept] at hgap
    exact ⟨_, .cons hpart (.nil _), by simpa using hgap, shortAt_part hkept (min_le_right ..)⟩
  | case3 x hkept => exact ⟨q, h, .refl q, shortAt_changed hkept rfl⟩
  | case4 x xs hxs ih =>
    obtain ⟨t, hx, hrest⟩ := Path.cons_iff.mp h
    obtain ⟨s, hs, hgap, hlast⟩ := ih hrest
    refine ⟨s, .cons hx hs, hgap, ?_⟩
    cases hcut : cutEnd xs with
    | nil =>
      have hnil := map_kept_cutEnd xs
      rw [hcut] at hnil
      exact absurd (List.map_eq_nil_iff.mp hnil.symm) hxs
    | cons y ys =>
      rw [List.getLast?_cons_cons, ← hcut]
      exact hlast

theorem shortAt_head?_cutEnd (h : ShortAt edge bs.head?) : ShortAt edge (cutEnd bs).head? := by
  unfold cutEnd
  split
  · exact h
  · split
    case isTrue hkept => exact shortAt_part hkept (min_le_right ..)
    case isFalse => exact h
  · exact h

/-- The changed blocks. -/
def changes (bs : List Block) : List Block := bs.filter (!·.kept)

theorem changes_cutStart (bs : List Block) : changes (cutStart bs) = changes bs := by
  unfold cutStart
  split
  · split
    case isTrue hkept => simp [changes, hkept]
    case isFalse => rfl
  · rfl

theorem changes_cutEnd (bs : List Block) : changes (cutEnd bs) = changes bs := by
  fun_induction cutEnd bs with
  | case1 => rfl
  | case2 x hkept => simp [changes, hkept]
  | case3 => rfl
  | case4 x xs _ ih =>
    simp only [changes, List.filter_cons] at ih ⊢
    rw [ih]

theorem isIdle_iff : isIdle current = true ↔ current = [] ∨ ∃ x, current = [x] ∧ x.kept = true := by
  unfold isIdle
  split
  · simp
  · simp
  case h_3 hnil hone =>
    simp only [Bool.false_eq_true, false_iff, not_or, not_exists, not_and]
    exact ⟨hnil, fun x hx => absurd hx (hone x)⟩

/-- Every change is shown, and once. -/
theorem changes_hunks (current xs : List Block) :
    changes (hunks current xs).flatten = changes (current.reverse ++ xs) := by
  fun_induction hunks current xs with
  | case1 current hidle =>
    obtain rfl | ⟨x, rfl, hx⟩ := isIdle_iff.mp hidle
    · rfl
    · simp [changes, hx]
  | case2 current hidle => simp
  | case3 current x xs hx ih =>
    have hkept : x.kept = true := by simp_all
    simp_all [changes]
  | case4 current x xs hx ih => simpa using ih

theorem changed_of_not_isIdle (halt : Alternating current.reverse) (h : isIdle current = false) :
    ∃ x ∈ current.reverse, x.kept = false := by
  match current with
  | [] => cases h
  | [x] => exact ⟨x, by simp, h⟩
  | x :: y :: ys =>
    have hne : y.kept ≠ x.kept := by
      simp only [Alternating, List.map_reverse, List.isChain_reverse, List.map_cons,
        List.isChain_cons_cons] at halt
      exact halt.1
    cases hx : x.kept with
    | false => exact ⟨x, by simp, hx⟩
    | true => exact ⟨y, by simp, by simpa [hx] using hne⟩

/-- A hunk that ends in a long kept block shows a change before it. -/
theorem exists_changed (halt : Alternating (current.reverse ++ x :: xs)) (hx : x.kept = true)
    (hlong : 2 * radius < x.oldSize) (hfirst : ShortAt edge (current.reverse ++ x :: xs).head?) :
    ∃ y ∈ current, y.kept = false := by
  cases current with
  | nil =>
    have hshort := (hfirst x rfl).1 hx
    omega
  | cons y ys =>
    refine ⟨y, by simp, ?_⟩
    have halt : Alternating (ys.reverse ++ y :: x :: xs) := by simpa using halt
    simp only [Alternating, List.map_append, List.map_cons, List.isChain_append_cons_cons] at halt
    simpa [hx] using halt.2.1

theorem alternating_split (h : Alternating (current ++ x :: xs)) :
    Alternating (current ++ [x]) ∧ Alternating (x :: xs) := by
  simp only [Alternating, List.map_append, List.map_cons] at h ⊢
  exact List.isChain_split.mp h

/-- A long kept block ends a hunk with its first lines, and begins the next with its last lines. -/
theorem isHunk_close (halt : Alternating (current.reverse ++ x :: xs)) (hx : x.kept = true)
    (hlong : 2 * radius < x.oldSize) {opens : Prop}
    (hfirst : ShortAt opens (current.reverse ++ x :: xs).head?)
    (closes : Prop) : IsHunk opens closes (x.part 0 radius :: current).reverse where
  alternating := by
    simpa [Alternating] using (alternating_split halt).1
  first := by
    rw [List.reverse_cons]
    cases hcurrent : current.reverse with
    | nil => exact shortAt_part hx le_rfl
    | cons y ys =>
      rw [hcurrent] at hfirst
      exact hfirst
  last := by
    rw [List.reverse_cons, List.getLast?_concat]
    exact shortAt_part hx le_rfl
  changed := by
    obtain ⟨y, hy, hchanged⟩ := exists_changed halt hx hlong hfirst
    exact ⟨y, by simp [hy], hchanged⟩

/-- Hunks lead to the end of the texts, over gaps that both have. -/
theorem path_hunks (hgap : Gap a b p s) {t : Nat × Nat}
    (hcurrent : Path (Block.Covers a b single) s current.reverse t)
    (hxs : Path (Block.Covers a b single) t xs q) (halt : Alternating (current.reverse ++ xs))
    (hfirst : ShortAt (s = (0, 0)) (current.reverse ++ xs).head?)
    (hlast : ShortAt (q = (a.length, b.length)) (current.reverse ++ xs).getLast?) :
    ∃ t, Path (HunkCovers a b single) p (hunks current xs) t ∧ Gap a b t q := by
  fun_induction hunks current xs generalizing p s t with
  | case1 current hidle =>
    obtain rfl := Path.nil_iff.mp hxs
    refine ⟨p, .nil p, hgap.trans ?_⟩
    obtain rfl | ⟨x, rfl, hx⟩ := isIdle_iff.mp hidle
    · obtain rfl := Path.nil_iff.mp hcurrent
      exact .refl _
    · obtain ⟨u, hcovers, hnil⟩ := Path.cons_iff.mp hcurrent
      obtain rfl := Path.nil_iff.mp hnil
      rw [hcovers.end_eq hx]
      simpa using hcovers.gap hx (k := 0) (n := x.oldSize) (by simp)
  | case2 current hidle =>
    obtain rfl := Path.nil_iff.mp hxs
    rw [List.append_nil] at halt hfirst hlast
    have hchanged := changed_of_not_isIdle halt (by simpa using hidle)
    exact ⟨t, .cons ⟨s, hgap, hcurrent, halt, hfirst, hlast, hchanged⟩ (.nil t), .refl t⟩
  | case3 current x xs hx ih =>
    obtain ⟨hkept, hlong⟩ : x.kept = true ∧ 2 * radius < x.oldSize := by simpa using hx
    obtain ⟨u, hcovers, hrest⟩ := Path.cons_iff.mp hxs
    have hhead := hcovers.part hkept (k := 0) (n := radius) (by decide) (by omega)
    have hmiddle := hcovers.gap hkept (k := radius) (n := x.oldSize - 2 * radius) (by omega)
    have htail := hcovers.part hkept (k := x.oldSize - radius) (n := radius) (by decide) (by omega)
    have hlen : radius + (x.oldSize - 2 * radius) = x.oldSize - radius := by omega
    have hend : x.oldSize - radius + radius = x.oldSize := by omega
    rw [Nat.add_assoc, Nat.add_assoc, hlen] at hmiddle
    rw [Nat.add_assoc, Nat.add_assoc, hend, ← hcovers.end_eq hkept] at htail
    have hhunk : HunkCovers a b single p (x.part 0 radius :: current).reverse
        (t.1 + radius, t.2 + radius) := by
      refine ⟨s, hgap, ?_, isHunk_close halt hkept hlong hfirst _⟩
      rw [List.reverse_cons]
      exact hcurrent.append (.cons hhead (.nil _))
    have hlast :
        ShortAt (q = (a.length, b.length)) (x.part (x.oldSize - radius) radius :: xs).getLast? := by
      cases xs with
      | nil => exact shortAt_part hkept le_rfl
      | cons y ys =>
        rw [List.getLast?_append_cons, List.getLast?_cons_cons] at hlast
        rw [List.getLast?_cons_cons]
        exact hlast
    obtain ⟨v, hpath, hlastGap⟩ :=
      ih hmiddle (.cons htail (.nil _)) hrest (alternating_split halt).2
        (shortAt_part hkept le_rfl) hlast
    exact ⟨v, .cons hhunk hpath, hlastGap⟩
  | case4 current x xs hx ih =>
    obtain ⟨u, hcovers, hrest⟩ := Path.cons_iff.mp hxs
    refine ih hgap (t := u) ?_ hrest ?_ ?_ ?_
    · rw [List.reverse_cons]
      exact hcurrent.append (.cons hcovers (.nil u))
    · simpa using halt
    · simpa using hfirst
    · simpa using hlast

/-- The hunks that a diff of two lists of lines shows. -/
def shownHunks (a b : List Text) : List (List Block) := hunks [] (cutEnd (cutStart (blocks a b)))

/-- The kinds of change in a script are those in its hunks. -/
theorem mem_signs_shownHunks {t : Tag} (ht : t ≠ .keep) (h : t ∈ (blocks a b).flatMap Block.signs) :
    t ∈ (shownHunks a b).flatten.flatMap Block.signs := by
  have hchanges : changes (shownHunks a b).flatten = changes (blocks a b) := by
    rw [shownHunks, changes_hunks, List.reverse_nil, List.nil_append, changes_cutEnd,
      changes_cutStart]
  obtain ⟨x, hx, hmem⟩ := List.mem_flatMap.mp h
  have hchanged : x.kept = false := by
    cases hkept : x.kept with
    | false => rfl
    | true => simp [Block.signs, hkept, ht] at hmem
  have hshown : x ∈ changes (shownHunks a b).flatten :=
    hchanges ▸ List.mem_filter.mpr ⟨hx, by simp [hchanged]⟩
  exact List.mem_flatMap.mpr ⟨x, (List.mem_filter.mp hshown).1, hmem⟩

/-- The hunks of a diff lead through both texts. Indices on the other side of a change are right if
all changes that are shown are of a single kind. -/
theorem path_shownHunks (hsingle : single → .delete ∉ (shownHunks a b).flatten.flatMap Block.signs ∨
      .insert ∉ (shownHunks a b).flatten.flatMap Block.signs) :
    ∃ t, Path (HunkCovers a b single) (0, 0) (shownHunks a b) t ∧
      Gap a b t (a.length, b.length) := by
  have hblocks : Path (Block.Covers a b single) (0, 0) (blocks a b) (a.length, b.length) := by
    refine path_blocks fun hs => (hsingle hs).imp ?_ ?_
    · exact fun hshown hmem => hshown (mem_signs_shownHunks (by decide) hmem)
    · exact fun hshown hmem => hshown (mem_signs_shownHunks (by decide) hmem)
  obtain ⟨s, hbefore, hcut, hfirst⟩ := path_cutStart hblocks
  obtain ⟨e, hcut, hafter, hlast⟩ := path_cutEnd hcut
  have halt : Alternating (cutEnd (cutStart (blocks a b))) := by
    rw [Alternating, map_kept_cutEnd, map_kept_cutStart]
    exact alternating_blocks a b
  have hnone : Path (Block.Covers a b single) s ([] : List Block).reverse s := .nil s
  obtain ⟨t, hpath, hgap⟩ := path_hunks hbefore hnone hcut halt (shortAt_head?_cutEnd hfirst) hlast
  exact ⟨t, hpath, hgap.trans hafter⟩

end BuildFile.Diff
