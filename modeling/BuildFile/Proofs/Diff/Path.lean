import BuildFile.Diff.Script
import Mathlib.Data.List.Infix
/-! Edit scripts as paths. A point `(i, j)` stands behind `i` old and `j` new lines, and a run leads
from one point to another: kept lines go on along both sides, deleted lines along the old and
inserted lines along the new one. The script of two lists of lines is a path from their start to
their end, wherever the search for a middle point cuts it. -/
namespace BuildFile.Diff

/-- The labels of a walk, step by step, from one point to another. -/
inductive Path {σ α : Type} (step : σ → α → σ → Prop) : σ → List α → σ → Prop
  | nil (s : σ) : Path step s [] s
  | cons {s t u : σ} {x : α} {xs : List α} (hstep : step s x t) (hrest : Path step t xs u) :
    Path step s (x :: xs) u

namespace Path
variable {σ α : Type} {step : σ → α → σ → Prop} {s t u : σ} {x : α} {xs ys zs : List α}

@[simp]
theorem nil_iff : Path step s [] t ↔ s = t :=
  ⟨fun h => by cases h; rfl, fun h => h ▸ .nil s⟩

@[simp]
theorem cons_iff : Path step s (x :: xs) u ↔ ∃ t, step s x t ∧ Path step t xs u :=
  ⟨fun h => by cases h with | cons hstep hrest => exact ⟨_, hstep, hrest⟩,
    fun ⟨_, hstep, hrest⟩ => .cons hstep hrest⟩

theorem append_iff : Path step s (xs ++ ys) u ↔ ∃ t, Path step s xs t ∧ Path step t ys u := by
  induction xs generalizing s with
  | nil => simp
  | cons x xs ih =>
    simp only [List.cons_append, cons_iff, ih]
    constructor
    · rintro ⟨t, hstep, w, hxs, hys⟩
      exact ⟨w, ⟨t, hstep, hxs⟩, hys⟩
    · rintro ⟨w, ⟨t, hstep, hxs⟩, hys⟩
      exact ⟨t, hstep, w, hxs, hys⟩

theorem append (hxs : Path step s xs t) (hys : Path step t ys u) : Path step s (xs ++ ys) u :=
  append_iff.mpr ⟨t, hxs, hys⟩

/-- Every label is that of a step, from where the walk goes on to its end. -/
theorem exists_step (h : Path step s xs u) (hx : x ∈ xs) :
    ∃ v w ys, step v x w ∧ Path step w ys u := by
  obtain ⟨before, after, rfl⟩ := List.append_of_mem hx
  obtain ⟨v, -, hafter⟩ := append_iff.mp h
  obtain ⟨w, hstep, hrest⟩ := cons_iff.mp hafter
  exact ⟨v, w, after, hstep, hrest⟩

theorem le [Preorder σ] (hstep : ∀ {s x t}, step s x t → s ≤ t) (h : Path step s xs t) : s ≤ t := by
  induction h with
  | nil => exact le_rfl
  | cons hx _ ih => exact (hstep hx).trans ih

end Path

section Slices
variable {α : Type} {l x : List α} {i m n : Nat}

@[simp]
theorem length_slice : (slice l i n).length = min n (l.length - i) := by
  simp [slice]

theorem slice_add : slice l i (m + n) = slice l i m ++ slice l (i + m) n := by
  simp [slice, List.take_add, List.drop_drop]

theorem take_slice (h : m ≤ n) : (slice l i n).take m = slice l i m := by
  simp [slice, List.take_take, h]

theorem drop_slice : (slice l i (m + n)).drop m = slice l (i + m) n := by
  simp [slice, List.drop_take, List.drop_drop]

/-- Lines that stand at an index of a list are a slice of it there. -/
theorem slice_of_isPrefix (h : x <+: l.drop i) (hn : n ≤ x.length) : slice l i n = x.take n := by
  obtain ⟨rest, hrest⟩ := h
  rw [slice, ← hrest, List.take_append_of_le_length hn]

theorem drop_isPrefix (h : x <+: l.drop i) (n : Nat) : x.drop n <+: l.drop (i + n) := by
  rw [← List.drop_drop]
  exact h.drop n

end Slices

theorem commonTail_le (a b : List Text) :
    commonTail a b ≤ a.length ∧ commonTail a b ≤ b.length := by
  have h := commonHead_le a.reverse b.reverse
  simpa [commonTail] using h

theorem drop_commonTail (a b : List Text) :
    a.drop (a.length - commonTail a b) = b.drop (b.length - commonTail a b) := by
  have h := congrArg List.reverse (take_commonHead a.reverse b.reverse)
  simpa [commonTail, List.take_reverse] using h

/-- How a run leads from one point to another. A deletion that passes an insertion keeps its index
on the new side, and an insertion its index on the old side, so these are right only in a script
with changes of a single kind; such a script is followed with `only = some kind`. -/
inductive Run.Covers (a b : List Text) (only : Option Tag) : Nat × Nat → Run → Nat × Nat → Prop
  | keep {i j n : Nat} (hsize : 0 < n) (hsame : slice a i n = slice b j n) :
    Covers a b only (i, j) ⟨.keep, i, j, n⟩ (i + n, j + n)
  | delete {i j new n : Nat} (hsize : 0 < n) (honly : ∀ t ∈ only, t = .delete ∧ new = j) :
    Covers a b only (i, j) ⟨.delete, i, new, n⟩ (i + n, j)
  | insert {i j old n : Nat} (hsize : 0 < n) (honly : ∀ t ∈ only, t = .insert ∧ old = i) :
    Covers a b only (i, j) ⟨.insert, old, j, n⟩ (i, j + n)

/-- Runs that lead from one point to another. -/
abbrev Leads (a b : List Text) (only : Option Tag) : Nat × Nat → List Run → Nat × Nat → Prop :=
  Path (Run.Covers a b only)

section Scripts
variable {a b : List Text} {only : Option Tag} {i j n m : Nat}

theorem leads_keepRun (hsame : slice a i n = slice b j n) :
    Leads a b only (i, j) (keepRun i j n) (i + n, j + n) := by
  unfold keepRun
  split
  case isTrue h => simp [h]
  case isFalse h => exact .cons (.keep (Nat.pos_of_ne_zero h) hsame) (.nil _)

/-- The kind of change that is promised is the only one there is. -/
def Sole (only : Option Tag) (rs : List Run) : Prop :=
  ∀ t ∈ only, ∀ r ∈ rs, r.tag = .keep ∨ r.tag = t

theorem sole_none (rs : List Run) : Sole none rs := nofun

theorem sole_append_iff {rs ss : List Run} :
    Sole only (rs ++ ss) ↔ Sole only rs ∧ Sole only ss := by
  simp only [Sole, List.mem_append]
  grind

theorem leads_replaceRuns (h : Sole only (replaceRuns i j n m)) :
    Leads a b only (i, j) (replaceRuns i j n m) (i + n, j + m) := by
  have hdelete : 0 < n → ∀ t ∈ only, t = .delete := by
    intro hn t ht
    have := h t ht ⟨.delete, i, j, n⟩ (by simp [replaceRuns, hn.ne'])
    simpa [eq_comm] using this
  have hinsert : 0 < m → ∀ t ∈ only, t = .insert := by
    intro hm t ht
    have := h t ht ⟨.insert, i, j, m⟩ (by simp [replaceRuns, hm.ne'])
    simpa [eq_comm] using this
  unfold replaceRuns
  refine Path.append (t := (i + n, j)) ?_ ?_
  · split
    case isTrue hn => simp [hn]
    case isFalse hn =>
      have hn := Nat.pos_of_ne_zero hn
      exact .cons (.delete hn fun t ht => ⟨hdelete hn t ht, rfl⟩) (.nil _)
  · split
    case isTrue hm => simp [hm]
    case isFalse hm =>
      have hm := Nat.pos_of_ne_zero hm
      refine .cons (.insert hm fun t ht => ⟨hinsert hm t ht, ?_⟩) (.nil _)
      -- Lines are deleted before only if no kind is promised.
      obtain rfl | hn := Nat.eq_zero_or_pos n
      · rfl
      · cases (hdelete hn t ht).symm.trans (hinsert hm t ht)

theorem length_core {x : List Text} {p s : Nat} : (core x p s).length = x.length - p - s := by
  simp [core]

theorem core_isPrefix {x : List Text} (h : x <+: a.drop i) (p s : Nat) :
    core x p s <+: a.drop (i + p) :=
  (List.take_prefix ..).trans (drop_isPrefix h p)

/-- Around whatever leads through the lines that are left, the common front and end are kept. -/
theorem leads_of_core {x y : List Text} {p s : Nat} {changed : List Run} (hx : x <+: a.drop i)
    (hy : y <+: b.drop j) (hp : p = commonHead x y) (hs : s = commonTail (x.drop p) (y.drop p))
    (hchanged : Leads a b only (i + p, j + p) changed
      (i + p + (core x p s).length, j + p + (core y p s).length)) :
    Leads a b only (i, j)
      (keepRun i j p ++ changed ++
        keepRun (i + p + (core x p s).length) (j + p + (core y p s).length) s)
      (i + x.length, j + y.length) := by
  have hfront := commonHead_le x y
  have hend := commonTail_le (x.drop p) (y.drop p)
  rw [← hp] at hfront
  rw [← hs, List.length_drop, List.length_drop] at hend
  have hhead : slice a i p = slice b j p := by
    rw [slice_of_isPrefix hx hfront.1, slice_of_isPrefix hy hfront.2, hp, take_commonHead]
  have htail :
      slice a (i + p + (core x p s).length) s = slice b (j + p + (core y p s).length) s := by
    have hdrop := drop_commonTail (x.drop p) (y.drop p)
    rw [← hs, List.length_drop, List.length_drop] at hdrop
    rw [length_core, length_core,
      slice_of_isPrefix (drop_isPrefix (drop_isPrefix hx p) _) (by simp; omega),
      slice_of_isPrefix (drop_isPrefix (drop_isPrefix hy p) _) (by simp; omega), hdrop]
  have hx' : i + x.length = i + p + (core x p s).length + s := by
    rw [length_core]
    omega
  have hy' : j + y.length = j + p + (core y p s).length + s := by
    rw [length_core]
    omega
  rw [hx', hy']
  exact ((leads_keepRun hhead).append hchanged).append (leads_keepRun htail)

theorem leads_script {x y : List Text} (hx : x <+: a.drop i) (hy : y <+: b.drop j)
    (honly : Sole only (script i j x y)) :
    Leads a b only (i, j) (script i j x y) (i + x.length, j + y.length) := by
  induction i, j, x, y using script.induct with
  | case1 i j x y p s x' y' ih₁ ih₂ =>
    have hx' : x' <+: a.drop (i + p) := core_isPrefix hx p s
    have hy' : y' <+: b.drop (j + p) := core_isPrefix hy p s
    rw [script] at honly ⊢
    simp only [sole_append_iff] at honly
    obtain ⟨⟨-, honly⟩, -⟩ := honly
    refine leads_of_core hx hy rfl rfl ?_
    split at honly
    case h_1 u v hsplit =>
      have hproper := isProper_of_split? hsplit
      have hu : u ≤ x'.length := hproper.1
      have hv : v ≤ y'.length := hproper.2.1
      obtain ⟨honly₁, honly₂⟩ := sole_append_iff.mp honly
      have h₁ :=
        ih₁ u v hsplit ((List.take_prefix ..).trans hx') ((List.take_prefix ..).trans hy') honly₁
      have h₂ := ih₂ u v hsplit (drop_isPrefix hx' u) (drop_isPrefix hy' v) honly₂
      rw [List.length_take_of_le hu, List.length_take_of_le hv] at h₁
      rw [List.length_drop, List.length_drop, Nat.add_assoc (i + p), Nat.add_assoc (j + p),
        Nat.add_sub_cancel' hu, Nat.add_sub_cancel' hv] at h₂
      exact h₁.append h₂
    case h_2 => exact leads_replaceRuns honly

end Scripts
end BuildFile.Diff
