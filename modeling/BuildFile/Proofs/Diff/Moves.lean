import BuildFile.Diff.Compact
import BuildFile.Proofs.Diff.Path
/-! Moving changes together does not change where a script leads. Every move is made of a few
exchanges of neighbouring runs, each of which can stand for what it takes the place of; so the
script that comes out leads from the old lines to the new ones, and has the kinds of change that it
had. -/
namespace BuildFile.Diff
variable {a b : List Text} {only : Option Tag} {p q : Nat × Nat} {r k : Run}
  {xs ys zs rs above below : List Run}

theorem Run.Covers.le (h : r.Covers a b only p q) : p ≤ q := by
  cases h <;> simp

/-- Runs that can take the place of others: they lead to every point of the two texts to which these
lead, and every kind of change is still there. -/
structure Replaces (a b : List Text) (ys xs : List Run) : Prop where
  leads {only : Option Tag} {p q : Nat × Nat} (hend : q ≤ (a.length, b.length))
    (h : Leads a b only p xs q) : Leads a b only p ys q
  kinds {t : Tag} (ht : t ≠ .keep) (h : t ∈ xs.map Run.tag) : t ∈ ys.map Run.tag

namespace Replaces

theorem refl (xs : List Run) : Replaces a b xs xs := ⟨fun _ h => h, fun _ h => h⟩

theorem trans (hzs : Replaces a b zs ys) (hys : Replaces a b ys xs) : Replaces a b zs xs :=
  ⟨fun hend h => hzs.leads hend (hys.leads hend h), fun ht h => hzs.kinds ht (hys.kinds ht h)⟩

/-- An exchange inside a script. -/
theorem within (h : Replaces a b ys xs) (before after : List Run) :
    Replaces a b (before ++ ys ++ after) (before ++ xs ++ after) where
  leads hend hpath := by
    obtain ⟨t, hpath, hafter⟩ := Path.append_iff.mp hpath
    obtain ⟨s, hbefore, hxs⟩ := Path.append_iff.mp hpath
    exact (hbefore.append (h.leads ((hafter.le Run.Covers.le).trans hend) hxs)).append hafter
  kinds ht hmem := by
    simp only [List.map_append, List.mem_append] at hmem ⊢
    obtain (hmem | hmem) | hmem := hmem
    · exact .inl (.inl hmem)
    · exact .inl (.inr (h.kinds ht hmem))
    · exact .inr hmem

theorem append_left (h : Replaces a b ys xs) (before : List Run) :
    Replaces a b (before ++ ys) (before ++ xs) := by
  simpa using h.within before []

end Replaces

/-- Neighbouring runs of one kind are one run. -/
theorem replaces_join (htag : k.tag = r.tag) :
    Replaces a b [{ k with size := k.size + r.size }] [k, r] where
  leads _ h := by
    simp only [Path.cons_iff, Path.nil_iff, exists_eq_right] at h ⊢
    obtain ⟨t, hk, hr⟩ := h
    cases hk with
    | keep hsize hsame =>
      cases hr with
      | keep hsize' hsame' =>
        rw [Nat.add_assoc, Nat.add_assoc]
        exact .keep (by simp; omega) (by rw [slice_add, slice_add, hsame, hsame'])
      | delete => cases htag
      | insert => cases htag
    | delete hsize honly =>
      cases hr with
      | delete hsize' honly' =>
        rw [Nat.add_assoc]
        exact .delete (by simp; omega) honly
      | keep => cases htag
      | insert => cases htag
    | insert hsize honly =>
      cases hr with
      | insert hsize' honly' =>
        rw [Nat.add_assoc]
        exact .insert (by simp; omega) honly
      | keep => cases htag
      | delete => cases htag
  kinds _ h := by simpa [htag] using h

/-- Beside a deletion and an insertion nothing is promised. -/
theorem only_eq_none {P Q : Prop} (hdelete : ∀ t ∈ only, t = .delete ∧ P)
    (hinsert : ∀ t ∈ only, t = .insert ∧ Q) : only = none := by
  cases only with
  | none => rfl
  | some t => cases (hdelete t rfl).1.symm.trans (hinsert t rfl).1

/-- There is no run of no lines to begin with. -/
theorem replaces_empty (hk : k.tag = .keep) (hsize : k.size = 0) : Replaces a b [] [k] where
  leads _ h := by
    simp only [Path.cons_iff, Path.nil_iff, exists_eq_right] at h
    cases h with
    | keep hpos => exact absurd hsize hpos.ne'
    | delete => cases hk
    | insert => cases hk
  kinds ht h := by simp [hk, ht] at h

/-- A deletion and an insertion side by side can trade places. -/
theorem replaces_trade (hk : k.tag ≠ .keep) (hr : r.tag ≠ .keep) (htag : k.tag ≠ r.tag) :
    Replaces a b [r, k] [k, r] where
  leads _ h := by
    simp only [Path.cons_iff, Path.nil_iff, exists_eq_right] at h ⊢
    obtain ⟨t, hkc, hrc⟩ := h
    cases hkc with
    | keep => cases hk rfl
    | delete hsize honly =>
      cases hrc with
      | keep => cases hr rfl
      | delete => cases htag rfl
      | insert hsize' honly' =>
        obtain rfl := only_eq_none honly honly'
        exact ⟨_, .insert hsize' (by simp), .delete hsize (by simp)⟩
    | insert hsize honly =>
      cases hrc with
      | keep => cases hr rfl
      | insert => cases htag rfl
      | delete hsize' honly' =>
        obtain rfl := only_eq_none honly' honly
        exact ⟨_, .delete hsize' (by simp), .insert hsize (by simp)⟩
  kinds _ h := by simpa [or_comm] using h

theorem leads_consRun {i j m : Nat} (hsame : slice a i m = slice b j m)
    (h : Leads a b only (i + m, j + m) rs q) :
    Leads a b only (i, j) (consRun ⟨.keep, i, j, m⟩ rs) q := by
  unfold consRun
  split
  case isTrue hm =>
    obtain rfl : m = 0 := hm
    exact h
  case isFalse hm => exact .cons (.keep (Nat.pos_of_ne_zero hm) hsame) h

/-- Lines that a kept run and an insertion have in common at their ends are the same in both
texts. -/
theorem slice_commonTail {i j m n s : Nat} (hs : s = commonTail (slice a i m) (slice b j n))
    (hm : i + m ≤ a.length) (hn : j + n ≤ b.length) :
    s ≤ m ∧ s ≤ n ∧ slice a (i + (m - s)) s = slice b (j + (n - s)) s := by
  have hle := commonTail_le (slice a i m) (slice b j n)
  have hdrop := drop_commonTail (slice a i m) (slice b j n)
  rw [← hs, length_slice, length_slice, Nat.min_eq_left (by omega),
    Nat.min_eq_left (by omega)] at hle hdrop
  obtain ⟨hsm, hsn⟩ := hle
  obtain ⟨u, rfl⟩ := Nat.exists_eq_add_of_le' hsm
  obtain ⟨v, rfl⟩ := Nat.exists_eq_add_of_le' hsn
  simp only [Nat.add_sub_cancel, drop_slice] at hdrop ⊢
  exact ⟨hsm, hsn, hdrop⟩

theorem slice_commonHead {i j m n s : Nat} (hs : s = commonHead (slice a i m) (slice b j n)) :
    s ≤ m ∧ s ≤ n ∧ slice a i s = slice b j s := by
  have hle := commonHead_le (slice a i m) (slice b j n)
  rw [← hs, length_slice, length_slice] at hle
  have hsm : s ≤ m := by omega
  have hsn : s ≤ n := by omega
  have htake := take_commonHead (slice a i m) (slice b j n)
  rw [← hs, take_slice hsm, take_slice hsn] at htake
  exact ⟨hsm, hsn, htake⟩

theorem tag_eq_of_slackUp (h : slackUp a b r k ≠ 0) : r.tag = .insert := by
  by_contra hr
  exact h (if_neg hr)

theorem tag_eq_of_slackDown (h : slackDown a b r k ≠ 0) : r.tag = .insert := by
  by_contra hr
  exact h (if_neg hr)

theorem kinds_consRun {t : Tag} (ht : t ≠ .keep) (hk : k.tag = .keep) :
    t ∈ (consRun k rs).map Run.tag ↔ t ∈ rs.map Run.tag := by
  unfold consRun
  split
  · rfl
  · simp [hk, ht]

/-- An insertion slides up over kept lines that read like its own end. -/
theorem replaces_slideUp (hk : k.tag = .keep) {s : Nat} (hs : s = slackUp a b r k) (hpos : s ≠ 0) :
    Replaces a b
      (consRun { k with size := k.size - s } [{ r with old := r.old - s, new := r.new - s },
        ⟨.keep, k.old + k.size - s, r.new + r.size - s, s⟩])
      [k, r] where
  leads hend h := by
    have hr : r.tag = .insert := tag_eq_of_slackUp (hs ▸ hpos)
    simp only [Path.cons_iff, Path.nil_iff, exists_eq_right] at h
    obtain ⟨t, hkc, hrc⟩ := h
    cases hkc with
    | delete => cases hk
    | insert => cases hk
    | @keep i j m hsize hsame =>
      cases hrc with
      | keep => cases hr
      | delete => cases hr
      | @insert _ _ old n hsize' honly =>
        have hs : s = commonTail (slice a i m) (slice b (j + m) n) := hs
        obtain ⟨hsm, hsn, htail⟩ := slice_commonTail hs hend.1 hend.2
        obtain ⟨u, rfl⟩ := Nat.exists_eq_add_of_le' hsm
        have hfront : slice a i u = slice b j u := by
          rw [← take_slice (Nat.le_add_right u s), hsame, take_slice (Nat.le_add_right u s)]
        rw [Nat.add_sub_cancel, show j + (u + s) + (n - s) = j + u + n by omega] at htail
        dsimp only
        rw [Nat.add_sub_cancel, show i + (u + s) - s = i + u by omega,
          show j + (u + s) - s = j + u by omega,
          show j + (u + s) + n - s = j + u + n by omega, ← Nat.add_assoc i,
          show j + (u + s) + n = j + u + n + s by omega]
        refine leads_consRun hfront (.cons (.insert hsize' fun t ht => ?_)
          (.cons (.keep (Nat.pos_of_ne_zero hpos) htail) (.nil _)))
        obtain ⟨rfl, rfl⟩ := honly t ht
        exact ⟨rfl, by omega⟩
  kinds ht h := by
    have hr : r.tag = .insert := tag_eq_of_slackUp (hs ▸ hpos)
    refine (kinds_consRun ht (by exact hk)).mpr ?_
    simpa [hk, ht] using h

/-- An insertion slides down over kept lines that read like its own front. -/
theorem replaces_slideDown (hk : k.tag = .keep) {s : Nat} (hs : s = slackDown a b r k)
    (hpos : s ≠ 0) : Replaces a b
      (⟨.keep, k.old, r.new, s⟩ :: { r with old := r.old + s, new := r.new + s } ::
        consRun { k with old := k.old + s, new := k.new + s, size := k.size - s } [])
      [r, k] where
  leads hend h := by
    have hr : r.tag = .insert := tag_eq_of_slackDown (hs ▸ hpos)
    simp only [Path.cons_iff, Path.nil_iff, exists_eq_right] at h
    obtain ⟨t, hrc, hkc⟩ := h
    cases hrc with
    | keep => cases hr
    | delete => cases hr
    | @insert i j old n hsize' honly =>
      cases hkc with
      | delete => cases hk
      | insert => cases hk
      | @keep _ _ m hsize hsame =>
        have hs : s = commonHead (slice a i m) (slice b j n) := hs
        obtain ⟨hsm, hsn, hhead⟩ := slice_commonHead hs
        obtain ⟨u, rfl⟩ := Nat.exists_eq_add_of_le hsm
        have hend : slice a (i + s) u = slice b (j + n + s) u := by
          rw [← drop_slice, hsame, drop_slice]
        dsimp only
        rw [Nat.add_sub_cancel_left, ← Nat.add_assoc i, ← Nat.add_assoc (j + n)]
        refine .cons (.keep (Nat.pos_of_ne_zero hpos) hhead)
          (.cons (.insert hsize' fun t ht => ?_) ?_)
        · obtain ⟨rfl, rfl⟩ := honly t ht
          exact ⟨rfl, rfl⟩
        · rw [show j + s + n = j + n + s by omega]
          exact leads_consRun hend (.nil _)
  kinds ht h := by
    simp only [List.map_cons, List.mem_cons]
    rw [kinds_consRun ht (by exact hk)]
    simpa [hk, ht] using h

/-- Kept lines above a kept run join it, counted from its side. -/
theorem replaces_joinBelow (hr : r.tag = .keep) (i j s : Nat) :
    Replaces a b [⟨.keep, r.old - s, r.new - s, r.size + s⟩] [⟨.keep, i, j, s⟩, r] where
  leads hend h := by
    have hjoin := (replaces_join hr.symm).leads hend h
    simp only [Path.cons_iff, Path.nil_iff, exists_eq_right] at h
    obtain ⟨t, hkc, hrc⟩ := h
    cases hkc with
    | keep =>
      cases hrc with
      | delete => cases hr
      | insert => cases hr
      | keep => simpa [Nat.add_comm] using hjoin
  kinds ht h := by simp [hr, ht] at h

/-- Kept lines that were slid over join the kept run below, if there is one. -/
theorem replaces_keepBelow (a b : List Text) (r k : Run) (s : Nat) (below : List Run) :
    Replaces a b (keepBelow r k s below)
      (⟨.keep, k.old + k.size - s, r.new + r.size - s, s⟩ :: below) := by
  unfold keepBelow
  split
  case h_1 next below =>
    split
    case isTrue hnext => exact (replaces_joinBelow hnext _ _ s).within [] below
    case isFalse => exact .refl _
  case h_2 => exact .refl _

/-- Kept lines that were slid over join the kept run above, if there is one. -/
theorem replaces_keepAbove (a b : List Text) (r k : Run) (s : Nat) (above rest : List Run) :
    Replaces a b ((keepAbove r k s above).reverse ++ rest)
      (above.reverse ++ ⟨.keep, k.old, r.new, s⟩ :: rest) := by
  unfold keepAbove
  split
  case h_1 last above =>
    split
    case isTrue hlast =>
      simpa using (replaces_join (r := ⟨.keep, k.old, r.new, s⟩) hlast).within above.reverse rest
    case isFalse => simpa using Replaces.refl _
  case h_2 => exact .refl _

/-- The script that a spot opens. -/
def Spot.runs (spot : Spot) : List Run := spot.above.reverse ++ spot.run :: spot.below

theorem reverse_consRun_append (k : Run) (above rs : List Run) :
    (consRun k above).reverse ++ rs = above.reverse ++ consRun k rs := by
  unfold consRun
  split
  · rfl
  · simp

theorem consRun_append (k : Run) (xs ys : List Run) :
    consRun k (xs ++ ys) = consRun k xs ++ ys := by
  unfold consRun
  split
  · rfl
  · rfl

/-- A run moves up by a chain of exchanges with its upper neighbour, and stays of its kind. -/
theorem replaces_moveUp (hr : r.tag ≠ .keep) :
    (moveUp a b above r below).run.tag = r.tag ∧
      Replaces a b (moveUp a b above r below).runs (above.reverse ++ r :: below) := by
  fun_induction moveUp a b above r below with
  | case1 r below => exact ⟨rfl, .refl _⟩
  | case2 r below k above hk s hs hzero ih =>
    obtain ⟨htag, ih⟩ := ih hr
    refine ⟨htag, ih.trans ?_⟩
    simpa using (replaces_empty hk hzero).within above.reverse (r :: below)
  | case3 r below k above hk s hs hsome => exact ⟨rfl, .refl _⟩
  | case4 r below k above hk s hs ih =>
    obtain ⟨htag, ih⟩ := ih hr
    refine ⟨htag, ih.trans ?_⟩
    have hslide := (replaces_slideUp hk rfl hs).within above.reverse below
    rw [reverse_consRun_append, ← List.singleton_append, consRun_append, ← List.append_assoc]
    refine ((replaces_keepBelow a b r k s below).append_left _).trans ?_
    simpa [← consRun_append] using hslide
  | case5 r below k above hk htag ih =>
    obtain ⟨htag', ih⟩ := ih hk
    refine ⟨htag'.trans htag, ih.trans ?_⟩
    simpa using (replaces_join htag).within above.reverse below
  | case6 r below k above hk htag ih =>
    obtain ⟨htag', ih⟩ := ih hr
    refine ⟨htag', ih.trans ?_⟩
    simpa using (replaces_trade hk hr htag).within above.reverse below

theorem replaces_moveDown (hr : r.tag ≠ .keep) :
    (moveDown a b above r below).run.tag = r.tag ∧
      Replaces a b (moveDown a b above r below).runs (above.reverse ++ r :: below) := by
  fun_induction moveDown a b above r below with
  | case1 above r => exact ⟨rfl, .refl _⟩
  | case2 above r k below hk s hs hzero ih =>
    obtain ⟨htag, ih⟩ := ih hr
    refine ⟨htag, ih.trans ?_⟩
    simpa using (replaces_empty hk hzero).within (above.reverse ++ [r]) below
  | case3 above r k below hk s hs hsome => exact ⟨rfl, .refl _⟩
  | case4 above r k below hk s hs ih =>
    obtain ⟨htag, ih⟩ := ih hr
    refine ⟨htag, ih.trans ((replaces_keepAbove a b r k s above _).trans ?_)⟩
    have hslide := (replaces_slideDown hk rfl hs).within above.reverse below
    simpa [← consRun_append] using hslide
  | case5 above r k below hk htag ih =>
    obtain ⟨htag', ih⟩ := ih hr
    refine ⟨htag', ih.trans ?_⟩
    simpa using (replaces_join (Eq.symm htag)).within above.reverse below
  | case6 above r k below hk htag ih =>
    obtain ⟨htag', ih⟩ := ih hr
    refine ⟨htag', ih.trans ?_⟩
    simpa using (replaces_trade hr hk (Ne.symm htag)).within above.reverse below

theorem replaces_move (hr : r.tag ≠ .keep) :
    Replaces a b (move a b above r below).runs (above.reverse ++ r :: below) := by
  obtain ⟨htag, hup⟩ := replaces_moveUp hr
  exact (replaces_moveDown (htag.symm ▸ hr)).2.trans hup

theorem of_nextSpot? {tag : Tag} {spot : Spot} (h : nextSpot? tag above below = some spot) :
    spot.run.tag = tag ∧ spot.runs = above.reverse ++ below := by
  fun_induction nextSpot? tag above below with
  | case1 => cases h
  | case2 above r below htag =>
    cases h
    exact ⟨htag, rfl⟩
  | case3 above r below htag ih =>
    obtain ⟨htag, hruns⟩ := ih h
    exact ⟨htag, by simpa using hruns⟩

theorem replaces_sweep {tag : Tag} (htag : tag ≠ .keep) (n : Nat) (above below : List Run) :
    Replaces a b (sweep a b tag n above below) (above.reverse ++ below) := by
  fun_induction sweep a b tag n above below with
  | case1 => exact .refl _
  | case2 => exact .refl _
  | case3 n above below spot hspot moved ih =>
    obtain ⟨hrun, hruns⟩ := of_nextSpot? hspot
    have hmove : Replaces a b moved.runs spot.runs := replaces_move (hrun ▸ htag)
    rw [← hruns]
    refine ih.trans ?_
    simpa [Spot.runs] using hmove

theorem replaces_compact (a b : List Text) (rs : List Run) : Replaces a b (compact a b rs) rs :=
  (replaces_sweep (by decide) _ [] _).trans (replaces_sweep (by decide) _ [] rs)

/-- The script of two texts leads from their start to their end, after all moves as before. -/
theorem leads_compact (honly : Sole only (compact a b (script 0 0 a b))) :
    Leads a b only (0, 0) (compact a b (script 0 0 a b)) (a.length, b.length) := by
  have hreplaces := replaces_compact a b (script 0 0 a b)
  have hsole : Sole only (script 0 0 a b) := by
    intro t ht r hr
    by_contra! hother
    obtain ⟨r', hr', htag⟩ := List.mem_map.mp (hreplaces.kinds hother.1 (List.mem_map_of_mem hr))
    obtain hkeep | hsame := honly t ht r' hr'
    · exact hother.1 (htag ▸ hkeep)
    · exact hother.2 (htag ▸ hsame)
  have hscript : Leads a b only (0, 0) (script 0 0 a b) (0 + a.length, 0 + b.length) :=
    leads_script List.prefix_rfl List.prefix_rfl hsole
  simp only [Nat.zero_add] at hscript
  exact hreplaces.leads le_rfl hscript

end BuildFile.Diff
