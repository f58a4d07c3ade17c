import BuildFile.Proofs.Diff.Hunks
import BuildFile.Proofs.Diff.Patch
/-! Reading a unified diff. The blocks of a hunk list the lines that stand between the points where
the hunk begins and ends, and its header is read off its first and its last block. So the hunks of a
diff make the lines of the new text out of those of the old one. -/
namespace BuildFile.Diff

/-- The lines of a block under their signs. -/
def Block.rows (a b : List Text) (x : Block) : List (Tag × Text) :=
  if x.kept then (slice a x.old x.oldSize).map (.keep, ·)
  else (slice a x.old x.oldSize).map (.delete, ·) ++ (slice b x.new x.newSize).map (.insert, ·)

/-- A hunk of blocks, as it is read. -/
def Hunk.ofBlocks (a b : List Text) (bs : List Block) : Hunk where
  oldFrom := (bs.head?.map Block.old).getD 0
  oldTo := (bs.getLast?.map fun x => x.old + x.oldSize).getD 0
  newFrom := (bs.head?.map Block.new).getD 0
  newTo := (bs.getLast?.map fun x => x.new + x.newSize).getD 0
  rows := bs.flatMap (Block.rows a b)

variable {a b : List Text} {single mixed opens closes edge : Prop} {p q s : Nat × Nat} {x : Block}
  {bs xs : List Block}

theorem text_eq_rows (a b : List Text) (x : Block) :
    x.text a b = (x.rows a b).flatMap fun (t, line) => row t.sign line := by
  unfold Block.text Block.rows
  split
  · simp [List.flatMap_map, Tag.sign]
  · simp [List.flatMap_map, Tag.sign]

theorem hunkText_eq (hbs : bs ≠ []) : hunkText a b bs = (Hunk.ofBlocks a b bs).text := by
  obtain ⟨x, xs, rfl⟩ := List.exists_cons_of_ne_nil hbs
  have hlast : (x :: xs).getLast? = some (xs.getLastD x) := by
    rw [List.getLast?_cons, List.getLastD_eq_getLast?]
  have hrows : (x :: xs).flatMap (Block.text a b) =
      ((x :: xs).flatMap (Block.rows a b)).flatMap fun (t, line) => row t.sign line := by
    rw [List.flatMap_assoc, funext (text_eq_rows a b)]
  rw [hunkText, hrows, Hunk.text, Hunk.ofBlocks, hlast]
  exact List.flatten_concat.symm

theorem Block.Covers.le (h : x.Covers a b single p q) : p ≤ q := by
  cases h <;> simp

/-- The points between which a block leads, by its sizes. -/
theorem Block.Covers.sizes (h : x.Covers a b single p q) :
    q.1 = p.1 + x.oldSize ∧ q.2 = p.2 + x.newSize ∧ (0 < x.oldSize ∨ 0 < x.newSize) ∧
      (x.kept = true → x.newSize = x.oldSize) := by
  cases h with
  | kept hsize => exact ⟨rfl, rfl, .inl hsize, fun _ => rfl⟩
  | changed hsize => exact ⟨rfl, rfl, hsize, nofun⟩

theorem slice_eq_of_pos {l : List Text} {i j n : Nat} (h : 0 < n → i = j) :
    slice l i n = slice l j n := by
  obtain rfl | hn := Nat.eq_zero_or_pos n
  · simp [slice]
  · rw [h hn]

/-- A block lists the lines where it stands, also if its index on one side is off. -/
theorem Block.Covers.rows_eq (h : x.Covers a b single p q) : x.rows a b =
    if x.kept then (slice a p.1 x.oldSize).map (.keep, ·)
    else (slice a p.1 x.oldSize).map (.delete, ·) ++ (slice b p.2 x.newSize).map (.insert, ·) := by
  cases h with
  | kept => rfl
  | changed _ hold hnew =>
    simp only [Block.rows, slice_eq_of_pos fun hm => hold (.inl hm),
      slice_eq_of_pos fun hn => hnew (.inl hn)]

theorem map_fst_rows (t : Tag) (l : List Text) :
    (l.map (t, ·)).map Prod.fst = .replicate l.length t := by
  simp [Function.comp_def, List.map_const']

theorem length_slice_of_le {l : List Text} {i n : Nat} (h : i + n ≤ l.length) :
    (slice l i n).length = n := by
  rw [length_slice]
  omega

theorem Block.Covers.signs_rows (h : x.Covers a b single p q) (hend : q ≤ (a.length, b.length)) :
    (x.rows a b).map Prod.fst = x.signs := by
  obtain ⟨hold, hnew, -⟩ := h.sizes
  have ha : (slice a p.1 x.oldSize).length = x.oldSize := length_slice_of_le (hold ▸ hend.1)
  have hb : (slice b p.2 x.newSize).length = x.newSize := length_slice_of_le (hnew ▸ hend.2)
  rw [h.rows_eq, Block.signs]
  split
  · rw [map_fst_rows, ha]
  · rw [List.map_append, map_fst_rows, map_fst_rows, ha, hb]

theorem Block.Covers.without_rows (h : x.Covers a b single p q) :
    without .insert (x.rows a b) = slice a p.1 x.oldSize ∧
      without .delete (x.rows a b) = slice b p.2 x.newSize := by
  rw [h.rows_eq]
  cases h with
  | kept _ hsame => simp [without_map, hsame]
  | changed => simp [without_map, without_append]

theorem signs_ofBlocks (h : Path (Block.Covers a b single) s bs q)
    (hend : q ≤ (a.length, b.length)) : (Hunk.ofBlocks a b bs).signs = bs.flatMap Block.signs := by
  unfold Hunk.signs Hunk.ofBlocks
  induction h with
  | nil => rfl
  | cons hx hxs ih =>
    have hrest := (hxs.le Block.Covers.le).trans hend
    simp only [List.flatMap_cons, List.map_append, hx.signs_rows hrest, ih hend]

/-- The lines that a hunk lists are those of both texts between the points where it begins and
ends. -/
theorem lines_ofBlocks (h : Path (Block.Covers a b single) s bs q) :
    (Hunk.ofBlocks a b bs).oldLines = slice a s.1 (q.1 - s.1) ∧
      (Hunk.ofBlocks a b bs).newLines = slice b s.2 (q.2 - s.2) := by
  unfold Hunk.oldLines Hunk.newLines Hunk.ofBlocks
  induction h with
  | nil => simp [without, slice]
  | @cons s t u x xs hx hxs ih =>
    obtain ⟨hold, hnew, -⟩ := hx.sizes
    obtain ⟨hxold, hxnew⟩ := hx.without_rows
    have hle : t ≤ u := hxs.le Block.Covers.le
    have hsplit₁ : u.1 - s.1 = x.oldSize + (u.1 - t.1) := by have := hle.1; omega
    have hsplit₂ : u.2 - s.2 = x.newSize + (u.2 - t.2) := by have := hle.2; omega
    simp only [List.flatMap_cons, without_append, hxold, hxnew, ih.1, ih.2, hsplit₁, hsplit₂,
      slice_add, hold, hnew, and_self]

/-- Whether a line is kept, for all lines of a block. -/
theorem mem_signs {t : Tag} (ht : t ∈ x.signs) : decide (t = .keep) = x.kept := by
  unfold Block.signs at ht
  split at ht
  case isTrue hx => simp_all
  case isFalse hx =>
    obtain h | h := List.mem_append.mp ht
    · simp_all
    · simp_all

theorem Block.Covers.signs_ne_nil (h : x.Covers a b single p q) : x.signs ≠ [] := by
  obtain ⟨-, -, hsize, hkept⟩ := h.sizes
  unfold Block.signs
  split
  case isTrue hx =>
    rw [hkept hx] at hsize
    simp
    omega
  case isFalse =>
    simp
    omega

theorem signs_ne_nil_of_path (h : Path (Block.Covers a b single) s bs q) :
    ∀ x ∈ bs, x.signs ≠ [] := by
  intro x hx
  obtain ⟨_, _, _, hcovers, -⟩ := h.exists_step hx
  exact hcovers.signs_ne_nil

/-- As kept and changed blocks take turns, the lines of the first kind are those of the first
block. -/
theorem takeWhile_flatMap {f : Block → List Tag}
    (hkind : ∀ y, ∀ t ∈ f y, decide (t = .keep) = y.kept)
    (hne : ∀ y ∈ x :: xs, f y ≠ []) (halt : Alternating (x :: xs)) (k : Bool) :
    ((x :: xs).flatMap f).takeWhile (fun t => decide (t = .keep) == k) =
      if x.kept = k then f x else [] := by
  -- The lines of a block of the other kind stop it at once.
  have hstop : ∀ y ∈ x :: xs, ∀ rest, y.kept ≠ k →
      (f y ++ rest).takeWhile (fun t => decide (t = .keep) == k) = [] := by
    intro y hy rest hyk
    obtain ⟨t, ts, hts⟩ := List.exists_cons_of_ne_nil (hne y hy)
    have ht := hkind y t (by simp [hts])
    simp [hts, ht, hyk]
  rw [List.flatMap_cons]
  split
  case isTrue hx =>
    rw [List.takeWhile_append_of_pos (fun t ht => by simp [hkind x t ht, hx])]
    cases xs with
    | nil => simp
    | cons y ys =>
      have hyx : x.kept ≠ y.kept := (List.isChain_cons_cons.mp halt).1
      rw [List.flatMap_cons, hstop y (by simp) _ (hx ▸ hyx.symm), List.append_nil]
  case isFalse hx => exact hstop x (by simp) _ hx

theorem takeWhile_signs (hpath : Path (Block.Covers a b single) s (x :: xs) q)
    (halt : Alternating (x :: xs))
    (k : Bool) : ((x :: xs).flatMap Block.signs).takeWhile (fun t => decide (t = .keep) == k) =
      if x.kept = k then x.signs else [] :=
  takeWhile_flatMap (fun _ _ => mem_signs) (signs_ne_nil_of_path hpath) halt k

theorem takeWhile_signs_reverse (hpath : Path (Block.Covers a b single) s (xs ++ [x]) q)
    (halt : Alternating (xs ++ [x])) (k : Bool) :
    ((xs ++ [x]).flatMap Block.signs).reverse.takeWhile (fun t => decide (t = .keep) == k) =
      if x.kept = k then x.signs.reverse else [] := by
  have hne := signs_ne_nil_of_path hpath
  have halt : Alternating (x :: xs.reverse) := by
    rw [Alternating, ← List.isChain_reverse]
    simpa [Alternating, ne_comm] using halt
  have h :=
    takeWhile_flatMap (f := fun y => y.signs.reverse)
      (fun _ t ht => mem_signs (List.mem_reverse.mp ht))
    (by simpa [or_comm] using hne) halt k
  rw [← h, List.reverse_flatMap]
  simp [Function.comp_def]

theorem IsHunk.exists_first (h : IsHunk opens closes bs) : ∃ x xs, bs = x :: xs := by
  obtain ⟨x, hx, -⟩ := h.changed
  exact List.exists_cons_of_ne_nil (List.ne_nil_of_mem hx)

theorem IsHunk.exists_last (h : IsHunk opens closes bs) : ∃ xs x, bs = xs ++ [x] := by
  obtain ⟨x, xs, rfl⟩ := h.exists_first
  exact ⟨_, _, (List.dropLast_append_getLast (List.cons_ne_nil x xs)).symm⟩

/-- Of the kept lines of a block at the end of a hunk there are few. -/
theorem length_signs_le (h : ShortAt edge (some x)) :
    (if x.kept = true then x.signs else []).length ≤ radius := by
  split
  case isTrue hx => simpa [Block.signs, hx] using (h x rfl).1 hx
  case isFalse => simp

theorem framed_ofBlocks (hpath : Path (Block.Covers a b single) s bs q)
    (hend : q ≤ (a.length, b.length))
    (hhunk : IsHunk opens closes bs) : (Hunk.ofBlocks a b bs).Framed where
  changed := by
    obtain ⟨x, hx, hchanged⟩ := hhunk.changed
    obtain ⟨t, ht⟩ := List.exists_mem_of_ne_nil _ (signs_ne_nil_of_path hpath x hx)
    rw [signs_ofBlocks hpath hend]
    exact ⟨t, List.mem_flatMap.mpr ⟨x, hx, ht⟩, by simpa [hchanged] using mem_signs ht⟩
  before := by
    obtain ⟨x, xs, rfl⟩ := hhunk.exists_first
    have hlines := takeWhile_signs hpath hhunk.alternating true
    simp only [beq_true] at hlines
    rw [signs_ofBlocks hpath hend, hlines]
    exact length_signs_le hhunk.first
  after := by
    obtain ⟨xs, x, rfl⟩ := hhunk.exists_last
    have hlines := takeWhile_signs_reverse hpath hhunk.alternating true
    simp only [beq_true] at hlines
    rw [signs_ofBlocks hpath hend, hlines]
    have hlast := hhunk.last
    rw [List.getLast?_concat] at hlast
    simpa [apply_ite List.length] using length_signs_le hlast

/-- A block at an end of a hunk is known to have lines on a side, if the changes at that end are not
all on the other side. -/
theorem Block.Covers.has_lines (h : x.Covers a b single p q) {t : Tag} {n : Nat}
    (hother : x.kept = false → n = 0 → ∀ u ∈ x.signs, u = t)
    (honly : ¬ (mixed ∧ Hunk.Only t (if x.kept = false then x.signs else []))) :
    x.kept = true ∨ 0 < n ∨ ¬ mixed := by
  by_contra! hnone
  obtain ⟨hkept, hzero, hmixed⟩ := hnone
  have hkept : x.kept = false := by simpa using hkept
  refine honly ⟨hmixed, ?_⟩
  rw [if_pos hkept]
  exact ⟨h.signs_ne_nil, hother hkept (Nat.le_zero.mp hzero)⟩

theorem signs_eq_insert (hx : x.kept = false) (hold : x.oldSize = 0) :
    ∀ u ∈ x.signs, u = .insert := by
  simp [Block.signs, hx, hold]

theorem signs_eq_delete (hx : x.kept = false) (hnew : x.newSize = 0) :
    ∀ u ∈ x.signs, u = .delete := by
  simp [Block.signs, hx, hnew]

/-- An index of a block is right if the changes at that end of the hunk are not all on the other
side. -/
theorem Block.Covers.index_eq (h : x.Covers a b (¬ mixed) p q) :
    (¬ (mixed ∧ Hunk.Only .insert (if x.kept = false then x.signs else [])) → x.old = p.1) ∧
      (¬ (mixed ∧ Hunk.Only .delete (if x.kept = false then x.signs else [])) → x.new = p.2) := by
  refine ⟨fun honly => ?_, fun honly => ?_⟩
  · have hlines := h.has_lines signs_eq_insert honly
    cases h with
    | kept => rfl
    | changed _ hold _ => exact hold (by simpa using hlines)
  · have hlines := h.has_lines signs_eq_delete honly
    cases h with
    | kept => rfl
    | changed _ _ hnew => exact hnew (by simpa using hlines)

theorem front_ofBlocks (hpath : Path (Block.Covers a b single) s (x :: xs) q)
    (hend : q ≤ (a.length, b.length)) (halt : Alternating (x :: xs)) :
    (Hunk.ofBlocks a b (x :: xs)).front = if x.kept = false then x.signs else [] := by
  rw [← takeWhile_signs hpath halt false, Hunk.front, signs_ofBlocks hpath hend]
  simp only [ne_eq, decide_not, beq_false]

theorem back_ofBlocks (hpath : Path (Block.Covers a b single) s (xs ++ [x]) q)
    (hend : q ≤ (a.length, b.length)) (halt : Alternating (xs ++ [x])) :
    (Hunk.ofBlocks a b (xs ++ [x])).back = (if x.kept = false then x.signs else []).reverse := by
  rw [apply_ite List.reverse, List.reverse_nil, ← takeWhile_signs_reverse hpath halt false,
    Hunk.back, signs_ofBlocks hpath hend]
  simp only [ne_eq, decide_not, beq_false]

theorem start_ofBlocks (hpath : Path (Block.Covers a b (¬ mixed)) s bs q)
    (hend : q ≤ (a.length, b.length)) (hhunk : IsHunk opens closes bs) :
    (¬ (mixed ∧ Hunk.Only .insert (Hunk.ofBlocks a b bs).front) →
      (Hunk.ofBlocks a b bs).oldFrom = s.1) ∧
      (¬ (mixed ∧ Hunk.Only .delete (Hunk.ofBlocks a b bs).front) →
        (Hunk.ofBlocks a b bs).newFrom = s.2) := by
  obtain ⟨x, xs, rfl⟩ := hhunk.exists_first
  rw [front_ofBlocks hpath hend hhunk.alternating]
  obtain ⟨t, hx, -⟩ := Path.cons_iff.mp hpath
  exact hx.index_eq

theorem stop_ofBlocks (hpath : Path (Block.Covers a b (¬ mixed)) s bs q)
    (hend : q ≤ (a.length, b.length)) (hhunk : IsHunk opens closes bs) :
    (¬ (mixed ∧ Hunk.Only .insert (Hunk.ofBlocks a b bs).back) →
      (Hunk.ofBlocks a b bs).oldTo = q.1) ∧
      (¬ (mixed ∧ Hunk.Only .delete (Hunk.ofBlocks a b bs).back) →
        (Hunk.ofBlocks a b bs).newTo = q.2) := by
  obtain ⟨xs, x, rfl⟩ := hhunk.exists_last
  rw [back_ofBlocks hpath hend hhunk.alternating]
  simp only [Hunk.only_reverse_iff]
  obtain ⟨t, -, hlast⟩ := Path.append_iff.mp hpath
  obtain ⟨u, hx, hnil⟩ := Path.cons_iff.mp hlast
  obtain rfl := Path.nil_iff.mp hnil
  obtain ⟨hold, hnew, -⟩ := hx.sizes
  have hoff : (Hunk.ofBlocks a b (xs ++ [x])).oldTo = x.old + x.oldSize ∧
      (Hunk.ofBlocks a b (xs ++ [x])).newTo = x.new + x.newSize := by
    simp [Hunk.ofBlocks]
  rw [hold, hnew, hoff.1, hoff.2]
  exact ⟨fun h => by rw [hx.index_eq.1 h], fun h => by rw [hx.index_eq.2 h]⟩

theorem length_lines_ofBlocks (hpath : Path (Block.Covers a b single) s bs q)
    (hend : q ≤ (a.length, b.length)) : s.1 + (Hunk.ofBlocks a b bs).oldLines.length = q.1 ∧
      s.2 + (Hunk.ofBlocks a b bs).newLines.length = q.2 := by
  obtain ⟨hold, hnew⟩ := lines_ofBlocks hpath
  obtain ⟨hle₁, hle₂⟩ : s ≤ q := hpath.le Block.Covers.le
  obtain ⟨hend₁, hend₂⟩ := hend
  rw [← Nat.add_sub_cancel' hle₁] at hend₁
  rw [← Nat.add_sub_cancel' hle₂] at hend₂
  rw [hold, hnew, length_slice_of_le hend₁, length_slice_of_le hend₂]
  exact ⟨Nat.add_sub_cancel' hle₁, Nat.add_sub_cancel' hle₂⟩

theorem placed_ofBlocks (hpath : Path (Block.Covers a b (¬ mixed)) s bs q)
    (hend : q ≤ (a.length, b.length))
    (hhunk : IsHunk opens closes bs) : (Hunk.ofBlocks a b bs).Placed mixed s.1 s.2 := by
  obtain ⟨holdFrom, hnewFrom⟩ := start_ofBlocks hpath hend hhunk
  obtain ⟨holdTo, hnewTo⟩ := stop_ofBlocks hpath hend hhunk
  obtain ⟨hold, hnew⟩ := length_lines_ofBlocks hpath hend
  exact ⟨holdFrom, hnewFrom, fun h => (holdTo h).trans hold.symm,
    fun h => (hnewTo h).trans hnew.symm⟩

theorem stands_ofBlocks (hpath : Path (Block.Covers a b (¬ mixed)) s bs q)
    (hend : q ≤ (a.length, b.length)) (hhunk : IsHunk (s = (0, 0)) (q = (a.length, b.length)) bs) :
    (Hunk.ofBlocks a b bs).Stands mixed a.length b.length s.1 s.2 where
  toPlaced := placed_ofBlocks hpath hend hhunk
  toFramed := framed_ofBlocks hpath hend hhunk
  opens hfront := by
    obtain ⟨x, xs, rfl⟩ := hhunk.exists_first
    rw [front_ofBlocks hpath hend hhunk.alternating] at hfront
    have hchanged : x.kept = false := by
      by_contra hkept
      exact hfront (if_neg hkept)
    simp [(hhunk.first x rfl).2 hchanged]
  closes hback := by
    obtain ⟨hold, hnew⟩ := length_lines_ofBlocks hpath hend
    obtain ⟨xs, x, rfl⟩ := hhunk.exists_last
    rw [back_ofBlocks hpath hend hhunk.alternating, ne_eq, List.reverse_eq_nil_iff] at hback
    have hchanged : x.kept = false := by
      by_contra hkept
      exact hback (if_neg hkept)
    have hq := (hhunk.last x (List.getLast?_concat ..)).2 hchanged
    rw [hold, hnew, hq]
    exact ⟨rfl, rfl⟩

theorem Gap.le (h : Gap a b p q) : p ≤ q := by
  obtain ⟨n, -, rfl⟩ := h
  exact ⟨Nat.le_add_right .., Nat.le_add_right ..⟩

theorem HunkCovers.le {h : List Block} (hcovers : HunkCovers a b single p h q) : p ≤ q := by
  obtain ⟨s, hgap, hpath, -⟩ := hcovers
  exact hgap.le.trans (hpath.le Block.Covers.le)

theorem drop_eq_slice_append (l : List Text) (i n : Nat) :
    l.drop i = slice l i n ++ l.drop (i + n) := by
  rw [slice, ← List.drop_drop, List.take_append_drop]

/-- Hunks that lead through two texts make the second out of the first. -/
theorem patches_ofBlocks {hs : List (List Block)} {t : Nat × Nat}
    (hpath : Path (HunkCovers a b (¬ mixed)) p hs t) (hgap : Gap a b t (a.length, b.length)) :
    Patches (Hunk.Stands mixed a.length b.length) p.1 p.2 (hs.map (Hunk.ofBlocks a b)) (a.drop p.1)
      (b.drop p.2) := by
  induction hpath with
  | nil t =>
    obtain ⟨n, hsame, hend⟩ := hgap
    obtain ⟨hold, hnew⟩ := Prod.mk.inj hend
    have hrest : a.drop t.1 = b.drop t.2 := by
      rw [drop_eq_slice_append a t.1 n, drop_eq_slice_append b t.2 n, hsame, ← hold, ← hnew]
      simp
    rw [hrest]
    exact .done ..
  | @cons p q t h hs hh hrest ih =>
    have hend : q ≤ (a.length, b.length) := (hrest.le HunkCovers.le).trans hgap.le
    obtain ⟨s, ⟨n, hsame, rfl⟩, hblocks, hhunk⟩ := hh
    obtain ⟨hle₁, hle₂⟩ := hblocks.le Block.Covers.le
    obtain ⟨hold, hnew⟩ := lines_ofBlocks hblocks
    obtain ⟨holdLength, hnewLength⟩ := length_lines_ofBlocks hblocks hend
    have hlength : (slice a p.1 n).length = n := length_slice_of_le (hle₁.trans hend.1)
    have ha : a.drop p.1 = slice a p.1 n ++ (Hunk.ofBlocks a b h).oldLines ++ a.drop q.1 := by
      rw [drop_eq_slice_append a p.1 n, drop_eq_slice_append a (p.1 + n) (q.1 - (p.1 + n)),
        Nat.add_sub_cancel' hle₁, hold, List.append_assoc]
    have hb : b.drop p.2 = slice a p.1 n ++ (Hunk.ofBlocks a b h).newLines ++ b.drop q.2 := by
      rw [drop_eq_slice_append b p.2 n, drop_eq_slice_append b (p.2 + n) (q.2 - (p.2 + n)),
        Nat.add_sub_cancel' hle₂, hnew, List.append_assoc, hsame]
    rw [List.map_cons, ha, hb]
    refine .hunk _ ?_ ?_
    · rw [hlength]
      exact stands_ofBlocks hblocks hend hhunk
    · rw [hlength, holdLength, hnewLength]
      exact ih hgap

/-- The hunks of a diff, as they are read. -/
def readHunks (a b : List Text) : List Hunk := (shownHunks a b).map (Hunk.ofBlocks a b)

/-- A diff that is not mixed has no deletion or no insertion. -/
theorem not_mem_signs_of_not_mixed (h : ¬ Mixed (readHunks a b)) :
    .delete ∉ (shownHunks a b).flatten.flatMap Block.signs ∨
      .insert ∉ (shownHunks a b).flatten.flatMap Block.signs := by
  obtain ⟨t, hpath, hgap⟩ : ∃ t, Path (HunkCovers a b False) (0, 0) (shownHunks a b) t ∧
      Gap a b t (a.length, b.length) := path_shownHunks nofun
  have hsigns : ∀ h ∈ shownHunks a b, (Hunk.ofBlocks a b h).signs = h.flatMap Block.signs := by
    intro h hh
    obtain ⟨_, _, _, ⟨_, -, hblocks, -⟩, hrest⟩ := hpath.exists_step hh
    exact signs_ofBlocks hblocks ((hrest.le HunkCovers.le).trans hgap.le)
  have hread : ∀ u, u ∈ (shownHunks a b).flatten.flatMap Block.signs → ∃ h ∈ readHunks a b,
      u ∈ h.signs := by
    intro u hu
    simp only [List.mem_flatMap, List.mem_flatten] at hu
    obtain ⟨x, ⟨h, hh, hx⟩, hu⟩ := hu
    exact ⟨_, List.mem_map_of_mem hh, hsigns h hh ▸ List.mem_flatMap.mpr ⟨x, hx, hu⟩⟩
  by_contra! hboth
  exact h ⟨hread _ hboth.1, hread _ hboth.2⟩

theorem patches_readHunks (a b : List Text) :
    Patches (Hunk.Stands (Mixed (readHunks a b)) a.length b.length) 0 0 (readHunks a b) a b := by
  obtain ⟨t, hpath, hgap⟩ := path_shownHunks (a := a) (b := b) not_mem_signs_of_not_mixed
  exact patches_ofBlocks hpath hgap

theorem flatMap_hunkText (a b : List Text) :
    (shownHunks a b).flatMap (hunkText a b) = (readHunks a b).flatMap Hunk.text := by
  obtain ⟨t, hpath, -⟩ := path_shownHunks (a := a) (b := b) not_mem_signs_of_not_mixed
  have htext : ∀ h ∈ shownHunks a b, hunkText a b h = (Hunk.ofBlocks a b h).text := by
    intro h hh
    obtain ⟨_, _, _, ⟨_, -, -, hhunk⟩, -⟩ := hpath.exists_step hh
    obtain ⟨x, xs, rfl⟩ := hhunk.exists_first
    exact hunkText_eq (List.cons_ne_nil x xs)
  rw [readHunks, List.flatMap_map]
  exact congrArg List.flatten (List.map_congr_left htext)

theorem readHunks_ne_nil {old new : Text} (h : old ≠ new) :
    readHunks (tokens old) (tokens new) ≠ [] := by
  intro hnil
  have hpatches := patches_readHunks (tokens old) (tokens new)
  rw [hnil] at hpatches
  have hflatten := congrArg List.flatten hpatches.eq_of_nil
  rw [flatten_tokens, flatten_tokens] at hflatten
  exact h hflatten

theorem unified_of_ne {old new : Text} (h : old ≠ new) (label : Text) :
    unified old new label = heading label ++
      (readHunks (tokens old) (tokens new)).flatMap Hunk.text := by
  have hne : shownHunks (tokens old) (tokens new) ≠ [] :=
    fun hnil => readHunks_ne_nil h (by rw [readHunks, hnil]; rfl)
  rw [← flatMap_hunkText, unified, if_neg h]
  dsimp only
  split
  case h_1 hnil => exact absurd hnil hne
  case h_2 =>
    symm
    exact List.flatten_concat.symm

theorem shows_unified (old new label : Text) : Shows old new label (unified old new label) where
  eq_nil_iff := by
    constructor
    · intro hnil
      by_contra hne
      rw [unified_of_ne hne] at hnil
      cases (List.append_eq_nil_iff.mp hnil).1
    · intro heq
      exact if_pos heq
  hunks hne := ⟨_, unified_of_ne hne label, patches_readHunks _ _⟩

end BuildFile.Diff
