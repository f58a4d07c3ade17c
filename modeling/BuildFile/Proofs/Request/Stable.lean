import BuildFile.Proofs.Chunks.RoundTrip
import BuildFile.Proofs.Chunks.Update
import BuildFile.Proofs.Request.Written
/-! Runs of requests. Every document that is reached from a text by applying requests, whether they
succeed or fail, is normal: the written text can be read, and gives back the same document. -/
namespace BuildFile.Request

theorem prepare_eq_ok_iff {r : Request} {d : Chunks} {kind : ProjectKind} {target : Text} :
    r.prepare d = .ok (kind, target) ↔
      r.validate = .ok () ∧ detectKind d = .ok kind ∧
      checkCategories kind d r.categories = .ok () ∧
      neededTarget kind d r.categories = .ok target := by
  simp only [prepare, bind_eq_ok_iff]
  constructor
  · intro h
    obtain ⟨_, hv, k, hk, _, hc, t, ht, he⟩ := h
    cases he
    exact ⟨hv, hk, hc, ht⟩
  · intro h
    obtain ⟨hv, hk, hc, ht⟩ := h
    exact ⟨(), hv, kind, hk, (), hc, target, ht, rfl⟩

theorem not_newline_mem_of_neededTarget {kind : ProjectKind} {d : Chunks} {cs : List Category}
    {target : Text} (h : neededTarget kind d cs = .ok target) : '\n' ∉ target := by
  unfold neededTarget at h
  split at h
  · exact not_newline_mem_of_isBareToken (isBareToken_of_targetName h)
  · cases h
    simp

section
variable {r : Request} {target : Text} (hw : ∀ c, ∀ l ∈ r.written target c, IsPlain l)
include hw

theorem sound_edit (c : Category) (es : List Entry) (h : ∀ e ∈ es, e.Sound) :
    ∀ e ∈ (r.edit target c es).1, e.Sound := by
  intro e he
  obtain hes | ⟨l, hl, rfl⟩ := mem_edit he
  · exact h e hes
  · exact hw c l hl

theorem normal_editAll (cs : List Category) {d : Chunks} (hd : d.Normal) :
    (r.editAll target cs d).2.Normal := by
  induction cs generalizing d with
  | nil => exact hd
  | cons c cs ih =>
    cases he : d.editRegion? c.region (r.edit target c) with
    | none => simpa [editAll, he] using hd
    | some edited =>
      have hnext := ih (hd.editRegion? (sound_edit hw c) he)
      cases hrest : r.editAll target cs edited.1 with
      | mk result final =>
        rw [hrest] at hnext
        cases result <;> simpa [editAll, he, hrest] using hnext

end

/-- One step: a request keeps the document normal, also when it fails. -/
theorem Typed.normal_apply {r : Request} {d : Chunks} (hr : r.Typed) (hd : d.Normal) :
    (r.apply d).2.Normal := by
  unfold apply
  split
  · exact hd
  · cases hp : r.prepare d with
    | error e => exact hd
    | ok found =>
      obtain ⟨kind, target⟩ := found
      obtain ⟨hv, _, _, ht⟩ := prepare_eq_ok_iff.mp hp
      have hw := hr.isPlain_written hv (not_newline_mem_of_neededTarget ht)
      have hfinal := normal_editAll hw r.categories hd
      cases hall : r.editAll target r.categories d with
      | mk result final =>
        rw [hall] at hfinal
        cases result <;> simpa [hall] using hfinal

/-- The document after requests that are applied one after another. -/
def run (rs : List Request) (d : Chunks) : Chunks := rs.foldl (fun d r => (r.apply d).2) d

theorem normal_run {rs : List Request} {d : Chunks} (hrs : ∀ r ∈ rs, r.Typed) (hd : d.Normal) :
    (run rs d).Normal := by
  induction rs generalizing d with
  | nil => exact hd
  | cons r rs ih =>
    have hstep := (hrs r (by simp)).normal_apply hd
    exact ih (fun q hq => hrs q (List.mem_cons_of_mem r hq)) hstep

/-- At every point of a run, the document can be written and read back unchanged. -/
theorem parse_print_run {t : Text} {d : Chunks} {rs : List Request} (h : Chunks.parse t = .ok d)
    (hrs : ∀ r ∈ rs, r.Typed) (k : Nat) :
    Chunks.parse (run (rs.take k) d).print = .ok (run (rs.take k) d) := by
  have htake : ∀ r ∈ rs.take k, r.Typed := fun r hr => hrs r (List.mem_of_mem_take hr)
  exact (normal_run htake (Chunks.normal_of_parse h)).parse_print

/-- A small executable with some definitions. -/
def sampleExecutable (definitions : Chunks) : Chunks :=
  .region "type-executable" .nil (.region "executable-name"
    (.text "set(PROJ_EXECUTABLE_NAME app)" .nil) (.region "definitions" definitions .nil))

set_option maxRecDepth 2000 in
/-- A refused request, then one that writes a definition into an empty region. -/
theorem parse_print_run_executable :
    Chunks.parse (sampleExecutable .nil).print = .ok (sampleExecutable .nil) ∧
    run (List.take 2 [{ action := .add, exports := ["x.h"] },
      { action := .add, definitions := [⟨.scopePublic, "X", some "1"⟩] }]) (sampleExecutable .nil) =
      sampleExecutable (.text "target_compile_definitions(app PUBLIC -DX=1)" .nil) ∧
    Chunks.parse
      (sampleExecutable (.text "target_compile_definitions(app PUBLIC -DX=1)" .nil)).print =
      .ok (sampleExecutable (.text "target_compile_definitions(app PUBLIC -DX=1)" .nil)) := by
  have hparse : Chunks.parse (sampleExecutable .nil).print = .ok (sampleExecutable .nil) := rfl
  have hrun : run (List.take 2 [{ action := .add, exports := ["x.h"] },
      { action := .add, definitions := [⟨.scopePublic, "X", some "1"⟩] }]) (sampleExecutable .nil) =
      sampleExecutable (.text "target_compile_definitions(app PUBLIC -DX=1)" .nil) := by
    decide +kernel
  refine ⟨hparse, hrun, ?_⟩
  rw [← hrun]
  refine parse_print_run hparse ?_ 2
  intro r hr
  simp only [List.mem_cons, List.not_mem_nil, or_false] at hr
  obtain rfl | rfl := hr
  · exact ⟨by simp, by simp⟩
  · refine ⟨?_, by simp⟩
    intro i hi
    cases List.mem_singleton.mp hi
    exact ⟨"PUBLIC:X=1", rfl⟩

end BuildFile.Request
