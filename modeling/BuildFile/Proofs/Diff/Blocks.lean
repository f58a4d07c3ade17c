import BuildFile.Diff.Unified
import BuildFile.Proofs.Diff.Moves
import Mathlib.Data.List.Chain
/-! Scripts gathered into blocks. Kept and changed blocks take turns; they lead where the runs lead
from which they were gathered, and no line is lost on the way. -/
namespace BuildFile.Diff

/-- Nothing but runs of one kind. -/
def OfKind (t : Tag) (d : Option Run) : Prop := ∀ r ∈ d, r.tag = t

/-- How runs are gathered. There is either a kept run so far, or a change; the next run joins it if
it is of that kind, and otherwise closes it. -/
inductive Gathers : Option Run → Option Run → Option Run → List Run → List Block → Prop
  | endKept {g : Run} (hg : g.tag = .keep) : Gathers (some g) none none [] [Block.ofKept g]
  | endChange {d i : Option Run} (hd : OfKind .delete d) (hi : OfKind .insert i) :
    Gathers none d i [] (Block.ofChange d i)
  | keep {g r : Run} {rs : List Run} {bs : List Block} (hg : g.tag = .keep) (hr : r.tag = .keep)
    (h : Gathers (some (gather (some g) r)) none none rs bs) :
    Gathers (some g) none none (r :: rs) bs
  | delete {d i : Option Run} {r : Run} {rs : List Run} {bs : List Block} (hd : OfKind .delete d)
    (hi : OfKind .insert i) (hr : r.tag = .delete) (h : Gathers none (some (gather d r)) i rs bs) :
    Gathers none d i (r :: rs) bs
  | insert {d i : Option Run} {r : Run} {rs : List Run} {bs : List Block} (hd : OfKind .delete d)
    (hi : OfKind .insert i) (hr : r.tag = .insert) (h : Gathers none d (some (gather i r)) rs bs) :
    Gathers none d i (r :: rs) bs
  | closeByDelete {g r : Run} {rs : List Run} {bs : List Block} (hg : g.tag = .keep)
    (hr : r.tag = .delete) (h : Gathers none (some r) none rs bs) :
    Gathers (some g) none none (r :: rs) (Block.ofKept g :: bs)
  | closeByInsert {g r : Run} {rs : List Run} {bs : List Block} (hg : g.tag = .keep)
    (hr : r.tag = .insert) (h : Gathers none none (some r) rs bs) :
    Gathers (some g) none none (r :: rs) (Block.ofKept g :: bs)
  | closeByKeep {d i : Option Run} {r : Run} {rs : List Run} {bs : List Block}
    (hd : OfKind .delete d)
    (hi : OfKind .insert i) (hr : r.tag = .keep) (h : Gathers (some r) none none rs bs) :
    Gathers none d i (r :: rs) (Block.ofChange d i ++ bs)

variable {a b : List Text} {only : Option Tag} {single : Prop} {p q : Nat × Nat} {r g : Run}
  {rs : List Run} {bs : List Block} {kept d i : Option Run}

theorem ofKind_some {t : Tag} (hr : r.tag = t) : OfKind t (some r) := by
  rintro _ ⟨⟩
  exact hr

theorem ofKind_gather {t : Tag} (hd : OfKind t d) (hr : r.tag = t) :
    OfKind t (some (gather d r)) := by
  cases d with
  | none => exact ofKind_some hr
  | some k => exact ofKind_some (hd k rfl)

theorem gathers_gatherBlocks (rs : List Run) :
    (∀ g, g.tag = .keep → Gathers (some g) none none rs (gatherBlocks (some g) none none rs)) ∧
    ∀ d i, OfKind .delete d → OfKind .insert i →
      Gathers none d i rs (gatherBlocks none d i rs) := by
  induction rs with
  | nil => exact ⟨fun g hg => .endKept hg, fun _ _ hd hi => .endChange hd hi⟩
  | cons r rs ih =>
    cases htag : r.tag with
    | keep =>
      simp only [gatherBlocks, htag]
      exact ⟨fun g hg => .keep hg htag (ih.1 _ hg),
        fun d i hd hi => .closeByKeep hd hi htag (ih.1 r htag)⟩
    | delete =>
      simp only [gatherBlocks, htag]
      exact ⟨fun g hg => .closeByDelete hg htag (ih.2 _ _ (ofKind_some htag) nofun),
        fun d i hd hi => .delete hd hi htag (ih.2 _ _ (ofKind_gather hd htag) hi)⟩
    | insert =>
      simp only [gatherBlocks, htag]
      exact ⟨fun g hg => .closeByInsert hg htag (ih.2 _ _ nofun (ofKind_some htag)),
        fun d i hd hi => .insert hd hi htag (ih.2 _ _ hd (ofKind_gather hi htag))⟩

/-- How a block leads from one point to another. A side on which a block changes nothing has no say
in its index there, unless all changes are of a single kind. -/
inductive Block.Covers (a b : List Text) (single : Prop) : Nat × Nat → Block → Nat × Nat → Prop
  | kept {i j n : Nat} (hsize : 0 < n) (hsame : slice a i n = slice b j n) :
    Covers a b single (i, j) ⟨true, i, n, j, n⟩ (i + n, j + n)
  | changed {i j old m new n : Nat} (hsize : 0 < m ∨ 0 < n) (hold : 0 < m ∨ single → old = i)
    (hnew : 0 < n ∨ single → new = j) :
    Covers a b single (i, j) ⟨false, old, m, new, n⟩ (i + m, j + n)

theorem Run.Covers.ofKept (hg : g.tag = .keep) (h : g.Covers a b only p q) :
    (Block.ofKept g).Covers a b single p q := by
  cases h with
  | keep hsize hsame => exact .kept hsize hsame
  | delete => cases hg
  | insert => cases hg

theorem path_ofChange (hsingle : single → ∃ t, t ∈ only) (hd : OfKind .delete d)
    (hi : OfKind .insert i) (h : Leads a b only p (d.toList ++ i.toList) q) :
    Path (Block.Covers a b single) p (Block.ofChange d i) q := by
  obtain ⟨t, hdeleted, hinserted⟩ := Path.append_iff.mp h
  cases d with
  | none =>
    obtain rfl := Path.nil_iff.mp hdeleted
    cases i with
    | none => exact Path.nil_iff.mpr (Path.nil_iff.mp hinserted)
    | some r =>
      simp only [Option.toList_some, Path.cons_iff, Path.nil_iff, exists_eq_right] at hinserted
      have htag := hi r rfl
      cases hinserted with
      | keep => cases htag
      | delete => cases htag
      | insert hsize honly =>
        refine .cons (.changed (.inr hsize) ?_ fun _ => rfl) (.nil _)
        rintro (hzero | h)
        · exact absurd hzero (Nat.lt_irrefl 0)
        · obtain ⟨t, ht⟩ := hsingle h
          exact (honly t ht).2
  | some r =>
    simp only [Option.toList_some, Path.cons_iff, Path.nil_iff, exists_eq_right] at hdeleted
    have htag := hd r rfl
    cases hdeleted with
    | keep => cases htag
    | insert => cases htag
    | delete hsize honly =>
      cases i with
      | none =>
        obtain rfl := Path.nil_iff.mp hinserted
        refine .cons (.changed (.inl hsize) (fun _ => rfl) ?_) (.nil _)
        rintro (hzero | h)
        · exact absurd hzero (Nat.lt_irrefl 0)
        · obtain ⟨t, ht⟩ := hsingle h
          exact (honly t ht).2
      | some r =>
        simp only [Option.toList_some, Path.cons_iff, Path.nil_iff, exists_eq_right] at hinserted
        have htag := hi r rfl
        cases hinserted with
        | keep => cases htag
        | delete => cases htag
        | insert => exact .cons (.changed (.inl hsize) (fun _ => rfl) fun _ => rfl) (.nil _)

theorem replaces_gather (a b : List Text) (hd : OfKind r.tag d) :
    Replaces a b [gather d r] (d.toList ++ [r]) := by
  cases d with
  | none => exact .refl _
  | some k => exact replaces_join (hd k rfl)

/-- A deletion that comes after an insertion is gathered with the deletions before. -/
theorem replaces_gather_delete (a b : List Text) (hd : OfKind .delete d) (hi : OfKind .insert i)
    (hr : r.tag = .delete) :
    Replaces a b (gather d r :: i.toList) (d.toList ++ (i.toList ++ [r])) := by
  have hjoin := replaces_gather a b (hr ▸ hd)
  cases i with
  | none => exact hjoin
  | some k =>
    have hk := hi k rfl
    have htrade : Replaces a b [r, k] [k, r] :=
      replaces_trade (by simp [hk]) (by simp [hr]) (by simp [hk, hr])
    refine .trans ?_ (htrade.append_left _)
    simpa using hjoin.within [] [k]

/-- Blocks lead where the runs lead from which they are gathered. -/
theorem Gathers.path (h : Gathers kept d i rs bs) (hsingle : single → ∃ t, t ∈ only)
    (hend : q ≤ (a.length, b.length))
    (hleads : Leads a b only p (kept.toList ++ (d.toList ++ (i.toList ++ rs))) q) :
    Path (Block.Covers a b single) p bs q := by
  induction h generalizing p with
  | endKept hg =>
    obtain ⟨t, hcovers, hrest⟩ := Path.cons_iff.mp hleads
    exact .cons (hcovers.ofKept hg) (by simpa using hrest)
  | endChange hd hi => exact path_ofChange hsingle hd hi (by simpa using hleads)
  | @keep g r rs bs hg hr _ ih =>
    exact ih (((replaces_join (hg.trans hr.symm)).within [] rs).leads hend hleads)
  | @delete d i r rs _ hd hi hr _ ih =>
    have hreplaces := (replaces_gather_delete a b hd hi hr).within [] rs
    exact ih (hreplaces.leads hend (by simpa using hleads))
  | @insert d i r rs _ _ hi hr _ ih =>
    have hreplaces := (replaces_gather a b (hr ▸ hi)).within d.toList rs
    exact ih (by simpa using hreplaces.leads hend (by simpa using hleads))
  | closeByDelete hg _ _ ih =>
    obtain ⟨t, hcovers, hrest⟩ := Path.cons_iff.mp hleads
    exact .cons (hcovers.ofKept hg) (ih hrest)
  | closeByInsert hg _ _ ih =>
    obtain ⟨t, hcovers, hrest⟩ := Path.cons_iff.mp hleads
    exact .cons (hcovers.ofKept hg) (ih hrest)
  | @closeByKeep d i r rs _ hd hi _ _ ih =>
    have hleads : Leads a b only p (d.toList ++ i.toList ++ r :: rs) q := by simpa using hleads
    obtain ⟨t, hchange, hrest⟩ := Path.append_iff.mp hleads
    exact (path_ofChange hsingle hd hi hchange).append (ih hrest)

/-- Kept and changed blocks take turns. -/
def Alternating (bs : List Block) : Prop := (bs.map Block.kept).IsChain (· ≠ ·)

/-- The first block is of the kind that is gathered so far. -/
theorem Gathers.alternating (h : Gathers kept d i rs bs) : Alternating bs ∧
    (kept.isSome → (bs.map Block.kept).head? = some true) ∧
    (d.isSome ∨ i.isSome → (bs.map Block.kept).head? = some false) := by
  unfold Alternating
  induction h with
  | endKept => simp [Block.ofKept]
  | @endChange d i => cases d <;> cases i <;> simp [Block.ofChange]
  | keep _ _ _ ih => exact ⟨ih.1, fun _ => ih.2.1 rfl, by simp⟩
  | delete _ _ _ _ ih => exact ⟨ih.1, by simp, fun _ => ih.2.2 (.inl rfl)⟩
  | insert _ _ _ _ ih => exact ⟨ih.1, by simp, fun _ => ih.2.2 (.inr rfl)⟩
  | closeByDelete _ _ _ ih =>
    obtain ⟨hchain, -, hhead⟩ := ih
    simp [Block.ofKept, List.isChain_cons, hchain, hhead (.inl rfl)]
  | closeByInsert _ _ _ ih =>
    obtain ⟨hchain, -, hhead⟩ := ih
    simp [Block.ofKept, List.isChain_cons, hchain, hhead (.inr rfl)]
  | @closeByKeep d i _ _ _ _ _ _ _ ih =>
    obtain ⟨hchain, hhead, -⟩ := ih
    cases d <;> cases i <;> simp [Block.ofChange, List.isChain_cons, hchain, hhead rfl]

/-- The signs of the lines of a run, and of a block. -/
def Run.signs (r : Run) : List Tag := .replicate r.size r.tag

def Block.signs (x : Block) : List Tag :=
  if x.kept then .replicate x.oldSize .keep else .replicate x.oldSize .delete ++
    .replicate x.newSize .insert

theorem signs_ofKept (hg : g.tag = .keep) : (Block.ofKept g).signs = g.signs := by
  simp [Block.ofKept, Block.signs, Run.signs, hg]

theorem signs_ofChange (hd : OfKind .delete d) (hi : OfKind .insert i) :
    (Block.ofChange d i).flatMap Block.signs =
      d.toList.flatMap Run.signs ++ i.toList.flatMap Run.signs := by
  cases d <;> cases i <;> simp_all [OfKind, Block.ofChange, Block.signs, Run.signs]

theorem signs_gather (hd : OfKind r.tag d) :
    (gather d r).signs = d.toList.flatMap Run.signs ++ r.signs := by
  cases d with
  | none => simp [gather]
  | some k => simp [gather, Run.signs, hd k rfl, List.replicate_append_replicate]

/-- Gathering may change the order of lines, and loses none. -/
theorem Gathers.perm_signs (h : Gathers kept d i rs bs) :
    (bs.flatMap Block.signs).Perm (kept.toList.flatMap Run.signs ++ (d.toList.flatMap Run.signs ++
      (i.toList.flatMap Run.signs ++ rs.flatMap Run.signs))) := by
  induction h with
  | endKept hg => simp [signs_ofKept hg]
  | endChange hd hi => simp [signs_ofChange hd hi]
  | @keep g r _ _ hg hr _ ih =>
    have hgather := signs_gather (ofKind_some (hg.trans hr.symm))
    simpa [hgather] using ih
  | @delete d i r _ _ hd _ hr _ ih =>
    rw [Option.toList_some, List.flatMap_singleton, signs_gather (hr ▸ hd), List.append_assoc] at ih
    refine ih.trans (.append_left _ (.append_left _ ?_))
    rw [List.flatMap_cons, ← List.append_assoc, ← List.append_assoc]
    exact .append_right _ List.perm_append_comm
  | @insert d i r _ _ _ hi hr _ ih =>
    simpa [signs_gather (hr ▸ hi)] using ih
  | closeByDelete hg _ _ ih => simpa [signs_ofKept hg, List.perm_append_left_iff] using ih
  | closeByInsert hg _ _ ih => simpa [signs_ofKept hg, List.perm_append_left_iff] using ih
  | closeByKeep hd hi _ _ ih => simpa [signs_ofChange hd hi, List.perm_append_left_iff] using ih

theorem Run.Covers.size_pos (h : r.Covers a b only p q) : 0 < r.size := by
  cases h <;> assumption

theorem gathers_blocks (a b : List Text) :
    Gathers none none none (compact a b (script 0 0 a b)) (blocks a b) :=
  (gathers_gatherBlocks _).2 none none nofun nofun

theorem alternating_blocks (a b : List Text) : Alternating (blocks a b) :=
  (gathers_blocks a b).alternating.1

theorem mem_signs_blocks (hr : r ∈ compact a b (script 0 0 a b)) :
    r.tag ∈ (blocks a b).flatMap Block.signs := by
  obtain ⟨_, _, _, hcovers, -⟩ := (leads_compact (sole_none _)).exists_step hr
  have hsize := hcovers.size_pos
  have hperm := (gathers_blocks a b).perm_signs
  simp only [Option.toList_none, List.flatMap_nil, List.nil_append] at hperm
  refine hperm.mem_iff.mpr (List.mem_flatMap.mpr ⟨r, hr, ?_⟩)
  simp [Run.signs, hsize.ne']

/-- If no line of a kind is changed, all changes are of the other kind. -/
theorem exists_sole (h : .delete ∉ (blocks a b).flatMap Block.signs ∨
    .insert ∉ (blocks a b).flatMap Block.signs) :
    ∃ t, Sole (some t) (compact a b (script 0 0 a b)) := by
  obtain hdelete | hinsert := h
  · refine ⟨.insert, ?_⟩
    rintro _ ⟨⟩ r hr
    have hmem := mem_signs_blocks hr
    cases htag : r.tag with
    | keep => exact .inl rfl
    | insert => exact .inr rfl
    | delete => exact absurd (htag ▸ hmem) hdelete
  · refine ⟨.delete, ?_⟩
    rintro _ ⟨⟩ r hr
    have hmem := mem_signs_blocks hr
    cases htag : r.tag with
    | keep => exact .inl rfl
    | delete => exact .inr rfl
    | insert => exact absurd (htag ▸ hmem) hinsert

/-- The blocks of two texts lead from their start to their end. -/
theorem path_blocks (hsingle : single →
      .delete ∉ (blocks a b).flatMap Block.signs ∨ .insert ∉ (blocks a b).flatMap Block.signs) :
    Path (Block.Covers a b single) (0, 0) (blocks a b) (a.length, b.length) := by
  by_cases hs : single
  · obtain ⟨t, ht⟩ := exists_sole (hsingle hs)
    exact (gathers_blocks a b).path (fun _ => ⟨t, rfl⟩) le_rfl (leads_compact ht)
  · exact (gathers_blocks a b).path (fun h => absurd h hs) le_rfl (leads_compact (sole_none _))

end BuildFile.Diff
