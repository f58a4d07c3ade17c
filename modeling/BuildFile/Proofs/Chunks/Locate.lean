import BuildFile.Proofs.Chunks.Outline
import BuildFile.Proofs.Chunks.Update
/-! Where a lookup leads. The path it gives is the least of all paths to a region of the name, in
the order in which a path comes before its extensions and siblings are compared by index. Replacing
the body of the region at a path changes that region and what the regions around it hold, and no
other lookup by path. -/
namespace BuildFile.Chunks
variable {β : Type} {f : Chunks → Chunks × β} {name n t : Text} {c d body rest : Chunks}
  {p q : Path} {r : Region} {b : β}

/-! The search with one stack of indices. -/

/-- Goes through the chunks from index `i` on. The index of a region is pushed before it is looked
at, and popped when neither its name nor its body is the one searched for. -/
def search (name : Text) (i : Nat) (stack : List Nat) : Chunks → Bool × List Nat
  | nil => (false, stack)
  | text _ rest => search name (i + 1) stack rest
  | region n body rest =>
    if n = name then (true, stack ++ [i])
    else match search name 0 (stack ++ [i]) body with
      | (true, found) => (true, found)
      | (false, left) => search name (i + 1) left.dropLast rest

/-- The path of a chunk that stands behind `i` others. -/
def skip (i : Nat) : Path → Path
  | [] => []
  | k :: p => (i + k) :: p

theorem skip_zero (p : Path) : skip 0 p = p := by
  cases p with
  | nil => rfl
  | cons k p => simp [skip]

theorem skip_shift (i : Nat) (p : Path) : skip i (shift p) = skip (i + 1) p := by
  cases p with
  | nil => rfl
  | cons k p =>
    simp only [shift, skip, List.cons.injEq, and_true]
    omega

/-- A search that fails leaves the stack as it was; one that succeeds has put the path on top of
it. -/
theorem search_eq (name : Text) (i : Nat) (stack : List Nat) (c : Chunks) :
    c.search name i stack =
      match c.locate name with
      | some p => (true, stack ++ skip i p)
      | none => (false, stack) := by
  induction c generalizing i stack with
  | nil => rfl
  | text t rest ih =>
    rw [search, ih, locate]
    cases rest.locate name with
    | none => rfl
    | some p => simp [skip_shift]
  | region n body rest ihb ihr =>
    by_cases hn : n = name
    · simp [search, locate, hn, skip]
    · cases hb : body.locate name with
      | some p =>
        simp [search, locate, hn, ihb, hb, skip_zero, show skip i (0 :: p) = i :: p from rfl]
      | none =>
        cases hr : rest.locate name with
        | none => simp [search, locate, hn, ihb, ihr, hb, hr]
        | some p => simp [search, locate, hn, ihb, ihr, hb, hr, skip_shift]

theorem locate_eq_search (name : Text) (c : Chunks) :
    c.locate name = if (c.search name 0 []).1 then some (c.search name 0 []).2 else none := by
  rw [search_eq]
  cases c.locate name with
  | none => rfl
  | some p => simp [skip_zero]

/-! The least path. -/

theorem get?_nil (c : Chunks) : c.get? [] = none := by cases c <;> rfl

theorem exists_of_get?_text (h : (text t rest).get? q = some r) :
    ∃ q', q = shift q' ∧ rest.get? q' = some r := by
  cases q with
  | nil => cases h
  | cons i q =>
    cases i with
    | zero => cases h
    | succ i => exact ⟨i :: q, rfl, h⟩

theorem cases_of_get?_region (h : (region n body rest).get? q = some r) :
    (q = [0] ∧ r = ⟨n, body⟩) ∨ (∃ q', q = 0 :: q' ∧ body.get? q' = some r) ∨
      ∃ q', q = shift q' ∧ rest.get? q' = some r := by
  cases q with
  | nil => cases h
  | cons i q =>
    cases i with
    | succ i => exact .inr (.inr ⟨i :: q, rfl, h⟩)
    | zero =>
      cases q with
      | nil => exact .inl ⟨rfl, (Option.some.inj h).symm⟩
      | cons k q => exact .inr (.inl ⟨k :: q, rfl, h⟩)

theorem name_mem_of_get? (h : c.get? p = some r) : r.name ∈ c.names := by
  induction c generalizing p with
  | nil => cases h
  | text t rest ih =>
    obtain ⟨q, _, hq⟩ := exists_of_get?_text h
    exact ih hq
  | region n body rest ihb ihr =>
    obtain ⟨_, rfl⟩ | ⟨q, _, hq⟩ | ⟨q, _, hq⟩ := cases_of_get?_region h
    · exact List.mem_cons_self
    · exact List.mem_cons_of_mem n (List.mem_append_left _ (ihb hq))
    · exact List.mem_cons_of_mem n (List.mem_append_right _ (ihr hq))

theorem locate_eq_none_iff : c.locate name = none ↔ name ∉ c.names := by
  rw [← hasRegion_iff, hasRegion, Option.not_isSome_iff_eq_none]

theorem exists_get?_of_locate (h : c.locate name = some p) :
    ∃ body, c.get? p = some ⟨name, body⟩ := by
  have hfind : c.find? name = c.get? p := by rw [find?, h, Option.bind_some]
  have hmem : name ∈ c.names := hasRegion_iff.mp (by simp [hasRegion, h])
  cases hget : c.get? p with
  | none => exact absurd hmem (find?_eq_none_iff.mp (hfind.trans hget))
  | some r =>
    have hname := name_of_find? (hfind.trans hget)
    exact ⟨r.body, by rw [← hname]⟩

theorem lex_shift (h : p = q ∨ List.Lex (· < ·) p q) :
    shift p = shift q ∨ List.Lex (· < ·) (shift p) (shift q) := by
  obtain rfl | h := h
  · exact .inl rfl
  · right
    cases h with
    | nil => exact .nil
    | rel h => exact .rel (Nat.succ_lt_succ h)
    | cons h => exact .cons h

theorem lex_cons_shift (h : rest.get? q = some r) (p : Path) :
    List.Lex (· < ·) (0 :: p) (shift q) := by
  cases q with
  | nil =>
    rw [get?_nil] at h
    cases h
  | cons i q => exact .rel (Nat.succ_pos i)

theorem locate_le (h : c.locate name = some p) (hget : c.get? q = some r) (hr : r.name = name) :
    p = q ∨ List.Lex (· < ·) p q := by
  induction c generalizing p q with
  | nil => cases h
  | text t rest ih =>
    obtain ⟨p, hp, rfl⟩ := Option.map_eq_some_iff.mp h
    obtain ⟨q, rfl, hq⟩ := exists_of_get?_text hget
    exact lex_shift (ih hp hq)
  | region n body rest ihb ihr =>
    rw [locate] at h
    by_cases hn : n = name
    · rw [if_pos hn] at h
      obtain rfl := Option.some.inj h
      obtain ⟨rfl, _⟩ | ⟨q, rfl, hq⟩ | ⟨q, rfl, hq⟩ := cases_of_get?_region hget
      · exact .inl rfl
      · cases q with
        | nil => exact .inl rfl
        | cons i q => exact .inr (.cons .nil)
      · exact .inr (lex_cons_shift hq [])
    · rw [if_neg hn] at h
      cases hb : body.locate name with
      | some p' =>
        simp only [hb] at h
        obtain rfl := Option.some.inj h
        obtain ⟨_, rfl⟩ | ⟨q, rfl, hq⟩ | ⟨q, rfl, hq⟩ := cases_of_get?_region hget
        · exact absurd hr hn
        · exact (ihb hb hq).imp (congrArg _) .cons
        · exact .inr (lex_cons_shift hq p')
      | none =>
        simp only [hb] at h
        obtain ⟨p, hp, rfl⟩ := Option.map_eq_some_iff.mp h
        obtain ⟨_, rfl⟩ | ⟨q, rfl, hq⟩ | ⟨q, rfl, hq⟩ := cases_of_get?_region hget
        · exact absurd hr hn
        · exact absurd (hr ▸ name_mem_of_get? hq) (locate_eq_none_iff.mp hb)
        · exact lex_shift (ihr hp hq)

/-! Replacing a body. -/

theorem exists_update? (f : Chunks → Chunks × β) (h : c.get? p = some r) :
    ∃ d, c.update? f p = some (d, (f r.body).2) ∧ d.get? p = some ⟨r.name, (f r.body).1⟩ := by
  induction c generalizing p with
  | nil => cases h
  | text t rest ih =>
    obtain ⟨q, rfl, hq⟩ := exists_of_get?_text h
    obtain ⟨d, hd, hget⟩ := ih hq
    exact ⟨text t d, by rw [update?_text, hd]; rfl, by rw [get?_text, hget]⟩
  | region n body rest ihb ihr =>
    obtain ⟨rfl, rfl⟩ | ⟨q, rfl, hq⟩ | ⟨q, rfl, hq⟩ := cases_of_get?_region h
    · exact ⟨region n (f body).1 rest, rfl, rfl⟩
    · obtain ⟨d, hd, hget⟩ := ihb hq
      refine ⟨region n d rest, update?_body hd n rest, ?_⟩
      cases q with
      | nil =>
        rw [get?_nil] at hq
        cases hq
      | cons i q => exact hget
    · obtain ⟨d, hd, hget⟩ := ihr hq
      exact ⟨region n body d, by rw [update?_region, hd]; rfl, by rw [get?_region, hget]⟩

/-- Paths that part from the one followed lead where they led before. -/
theorem get?_update?_of_apart (h : c.update? f p = some (d, b)) (hqp : ¬ q <+: p)
    (hpq : ¬ p <+: q) : d.get? q = c.get? q := by
  have hq : q ≠ [] := fun he => hqp (he ▸ List.nil_prefix)
  obtain ⟨k, q, rfl⟩ := List.exists_cons_of_ne_nil hq
  fun_induction update? f c p generalizing d k q with
  | case1 t rest i p ih =>
    obtain ⟨⟨r, a⟩, hr, hd⟩ := Option.map_eq_some_iff.mp h
    cases hd
    cases k with
    | zero => rfl
    | succ k => exact ih hr k q (by simpa using hqp) (by simpa using hpq) (by simp)
  | case2 n body rest new a hnew =>
    cases h
    cases k with
    | zero => exact absurd ⟨q, rfl⟩ hpq
    | succ k => rfl
  | case3 n body rest p hp ih =>
    obtain ⟨⟨r, a⟩, hr, hd⟩ := Option.map_eq_some_iff.mp h
    cases hd
    cases k with
    | succ k => rfl
    | zero =>
      cases q with
      | nil => exact absurd ⟨p, rfl⟩ hqp
      | cons k q => exact ih hr k q (by simpa using hqp) (by simpa using hpq) (by simp)
  | case4 n body rest i p ih =>
    obtain ⟨⟨r, a⟩, hr, hd⟩ := Option.map_eq_some_iff.mp h
    cases hd
    cases k with
    | zero => cases q <;> rfl
    | succ k => exact ih hr k q (by simpa using hqp) (by simpa using hpq) (by simp)
  | case5 => cases h

/-- A region around the one that is replaced keeps its name, and holds the replacement. -/
theorem get?_update?_of_above {s : Path} (h : c.update? f (q ++ s) = some (d, b)) (hq : q ≠ [])
    (hs : s ≠ []) : ∃ n body new, c.get? q = some ⟨n, body⟩ ∧ body.update? f s = some (new, b) ∧
      d.get? q = some ⟨n, new⟩ := by
  obtain ⟨k, q, rfl⟩ := List.exists_cons_of_ne_nil hq
  clear hq
  generalize hp : k :: q ++ s = p at h
  fun_induction update? f c p generalizing d k q with
  | case1 t rest i p ih =>
    obtain ⟨⟨r, a⟩, hr, hd⟩ := Option.map_eq_some_iff.mp h
    cases hd
    obtain ⟨rfl, rfl⟩ := List.cons.inj hp
    exact ih i q rfl hr
  | case2 n body rest new a hnew =>
    obtain ⟨_, hnil⟩ := List.cons.inj hp
    exact absurd (List.append_eq_nil_iff.mp hnil).2 hs
  | case3 n body rest p hne ih =>
    obtain ⟨⟨r, a⟩, hr, hd⟩ := Option.map_eq_some_iff.mp h
    cases hd
    obtain ⟨rfl, rfl⟩ := List.cons.inj hp
    cases q with
    | nil => exact ⟨n, body, r, rfl, hr, rfl⟩
    | cons k q => exact ih k q rfl hr
  | case4 n body rest i p ih =>
    obtain ⟨⟨r, a⟩, hr, hd⟩ := Option.map_eq_some_iff.mp h
    cases hd
    obtain ⟨rfl, rfl⟩ := List.cons.inj hp
    exact ih i q rfl hr
  | case5 => cases h

/-- A lookup gives the first path, in document order, that leads to a region of the name, and
nothing exactly if there is none. What a replacement at that path changes is the region there and,
in the regions around it, the part that holds it. -/
theorem locate_first (name : Text) (c : Chunks) :
    (c.locate name = if (c.search name 0 []).1 then some (c.search name 0 []).2 else none) ∧
    (c.locate name = none ↔ name ∉ c.names) ∧
    ∀ p, c.locate name = some p →
      (∃ body, c.get? p = some ⟨name, body⟩) ∧
      (∀ q body, c.get? q = some ⟨name, body⟩ → p = q ∨ List.Lex (· < ·) p q) ∧
      ∀ new : Chunks, ∃ d, c.update? (fun _ => (new, ())) p = some (d, ()) ∧
        d.get? p = some ⟨name, new⟩ ∧
        (∀ q, q = [] ∨ ¬ q <+: p → ¬ p <+: q → d.get? q = c.get? q) ∧
        ∀ q s, q ≠ [] → s ≠ [] → q ++ s = p →
          ∃ n body inner, c.get? q = some ⟨n, body⟩ ∧
            body.update? (fun _ => (new, ())) s = some (inner, ()) ∧
              d.get? q = some ⟨n, inner⟩ := by
  refine ⟨locate_eq_search name c, locate_eq_none_iff, ?_⟩
  intro p hp
  obtain ⟨body, hbody⟩ := exists_get?_of_locate hp
  refine ⟨⟨body, hbody⟩, fun q _ hq => locate_le hp hq rfl, ?_⟩
  intro new
  obtain ⟨d, hd, hget⟩ := exists_update? (fun _ => (new, ())) hbody
  refine ⟨d, hd, hget, ?_, ?_⟩
  · intro q hq hpq
    obtain rfl | hqp := hq
    · rw [get?_nil, get?_nil]
    · exact get?_update?_of_apart hd hqp hpq
  · rintro q s hq hs rfl
    exact get?_update?_of_above hd hq hs

/-- Two regions of one name: the first one is inside another region, the second one stands behind
that. -/
def sampleTwins (first : Chunks) : Chunks :=
  .text "head" (.region "outer" (.text "a" (.region "inner" first .nil))
    (.region "inner" (.text "second" .nil) .nil))

/-- The inner region comes first although its path is longer, and its twin is left alone. -/
theorem locate_first_nested :
    (sampleTwins .nil).locate "inner" = some [1, 1] ∧
    (∀ q body, (sampleTwins .nil).get? q = some ⟨"inner", body⟩ →
      [1, 1] = q ∨ List.Lex (· < ·) [1, 1] q) ∧
    (sampleTwins (.text "first" .nil)).get? [1, 1] = some ⟨"inner", .text "first" .nil⟩ ∧
    (sampleTwins (.text "first" .nil)).get? [2] = (sampleTwins .nil).get? [2] := by
  have hlocate : (sampleTwins .nil).locate "inner" = some [1, 1] := by decide
  obtain ⟨_, _, hfirst⟩ := locate_first "inner" (sampleTwins .nil)
  obtain ⟨_, hleast, hreplace⟩ := hfirst _ hlocate
  obtain ⟨d, hd, hget, hapart, _⟩ := hreplace (.text "first" .nil)
  have hnew : (sampleTwins .nil).update? (fun _ => (.text "first" .nil, ())) [1, 1] =
      some (sampleTwins (.text "first" .nil), ()) := rfl
  obtain rfl := (Prod.mk.inj (Option.some.inj (hnew.symm.trans hd))).1
  exact ⟨hlocate, hleast, hget, hapart [2] (.inr (by decide)) (by decide)⟩

end BuildFile.Chunks
