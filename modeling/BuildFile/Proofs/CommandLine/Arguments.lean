import BuildFile.CommandLine.Arguments
import BuildFile.Proofs.Request.ReadsBack
/-! Reading the command line, seen from the text of the arguments. What a run does to the disk
depends on three things: the command, the build file, and whether a dry run or help is asked for.
Each of them can be told from the arguments without the state of the reader. One argument at a time,
the reader does what the text says; so it does for all of them. -/
namespace BuildFile.CommandLine

/-! What the arguments say. -/

def fileOption : Text := "--cmakelists"
def dryRunOption : Text := "--dry-run"
def helpOption : Text := "--help"

theorem fileOption_eq : fileOption = '-' :: '-' :: "cmakelists".toList := by decide

theorem dryRunOption_eq : dryRunOption = '-' :: '-' :: "dry-run".toList := by decide

theorem helpOption_eq : helpOption = '-' :: '-' :: "help".toList := by decide

/-- The build file in an argument of the form `--cmakelists=FILE`. -/
def attachedFile? (arg : Text) : Option Text := after? (fileOption ++ ['=']) arg

/-- The build file that is named last, with its option or as the argument after it. -/
def namedFile? : List Text → Option Text
  | [] => none
  | [arg] => attachedFile? arg
  | arg :: next :: args =>
    if arg = fileOption then (namedFile? args).or (some next)
    else (namedFile? (next :: args)).or (attachedFile? arg)

/-- The first argument that is neither an option nor the build file after its option. -/
def commandWord? : List Text → Option Text
  | [] => none
  | [arg] => if isOption arg then none else some arg
  | arg :: next :: args =>
    if arg = fileOption then commandWord? args
    else if isOption arg then commandWord? (next :: args)
    else some arg

/-- The build file that a command line selects. -/
def selectedFile (environment : Option Text) (args : List Text) : Text :=
  ((namedFile? args).or environment).getD "CMakeLists.txt"

theorem namedFile?_cons_of_ne {arg : Text} (h : arg ≠ fileOption) (args : List Text) :
    namedFile? (arg :: args) = (namedFile? args).or (attachedFile? arg) := by
  cases args with
  | nil => rfl
  | cons next args => rw [namedFile?, if_neg h]

theorem namedFile?_fileOption (next : Text) (args : List Text) :
    namedFile? (fileOption :: next :: args) = (namedFile? args).or (some next) := by
  rw [namedFile?, if_pos rfl]

theorem commandWord?_cons_of_isOption {arg : Text} (h : arg ≠ fileOption)
    (hoption : isOption arg = true) (args : List Text) :
    commandWord? (arg :: args) = commandWord? args := by
  cases args with
  | nil => simp [commandWord?, hoption]
  | cons next args => rw [commandWord?, if_neg h, if_pos hoption]

theorem commandWord?_cons_of_not_isOption {arg : Text} (h : isOption arg = false)
    (args : List Text) : commandWord? (arg :: args) = some arg := by
  have hne : arg ≠ fileOption := by
    rintro rfl
    cases h
  cases args with
  | nil => simp [commandWord?, h]
  | cons next args => simp [commandWord?, h, hne]

theorem commandWord?_fileOption (next : Text) (args : List Text) :
    commandWord? (fileOption :: next :: args) = commandWord? args := by
  rw [commandWord?, if_pos rfl]

theorem attachedFile?_eq_some_iff {arg v : Text} :
    attachedFile? arg = some v ↔ arg = fileOption ++ '=' :: v := by
  rw [attachedFile?, after?_eq_some_iff, List.append_assoc]
  rfl

theorem attachedFile?_eq_none {arg : Text} (h : ∀ v, arg ≠ fileOption ++ '=' :: v) :
    attachedFile? arg = none := by
  rw [Option.eq_none_iff_forall_ne_some]
  intro v hv
  exact h v (attachedFile?_eq_some_iff.mp hv)

theorem attached_ne {option : Text} (h : '=' ∉ option) (v : Text) :
    fileOption ++ '=' :: v ≠ option := by
  rintro rfl
  simp at h

theorem attachedFile?_long {t v : Text} :
    attachedFile? ('-' :: '-' :: t) = some v ↔ cutFirst? '=' t = some ("cmakelists".toList, v) := by
  rw [attachedFile?_eq_some_iff, fileOption_eq, List.cons_append, List.cons_append, List.cons.injEq,
    List.cons.injEq]
  constructor
  · intro ht
    obtain ⟨_, _, rfl⟩ := ht
    simp [cutFirst?]
  · intro hcut
    exact ⟨rfl, rfl, eq_append_of_cutFirst? hcut⟩

/-- An argument that says nothing about the build file or a dry run, and asks for no help. -/
structure Silent (arg : Text) : Prop where
  attached : attachedFile? arg = none
  file : arg ≠ fileOption
  dryRun : arg ≠ dryRunOption
  help : arg ≠ helpOption

theorem silent_of_not_isOption {arg : Text} (h : isOption arg = false) : Silent arg := by
  have hne {option : Text} (hoption : isOption option = true) : arg ≠ option := by
    rintro rfl
    rw [h] at hoption
    cases hoption
  exact ⟨attachedFile?_eq_none fun _ => hne rfl, hne rfl, hne rfl, hne rfl⟩

theorem silent_short {c : Char} (hc : c ≠ '-') (rest : Text) : Silent ('-' :: c :: rest) := by
  have hne (t : Text) : '-' :: c :: rest ≠ '-' :: '-' :: t := by
    intro he
    exact hc (List.cons.inj (List.cons.inj he).2).1
  exact ⟨attachedFile?_eq_none fun _ => hne _, hne _, hne _, hne _⟩

/-! Names of options. -/

theorem mem_of_lookup {α β : Type} [BEq α] [LawfulBEq α] {l : List (α × β)} {a : α} {b : β}
    (h : l.lookup a = some b) : (a, b) ∈ l := by
  obtain ⟨before, after, rfl, _⟩ := List.lookup_eq_some_iff.mp h
  simp

theorem eq_of_ofLong?_buildFile {t : Text} (h : Opt.ofLong? t = some .buildFile) :
    t = "cmakelists".toList := by
  simpa [Category.all] using mem_of_lookup h

theorem eq_of_ofLong?_dryRun {t : Text} (h : Opt.ofLong? t = some .dryRun) :
    t = "dry-run".toList := by
  simpa [Category.all] using mem_of_lookup h

theorem silent_attached {t name v : Text} {o : Opt} (hcut : cutFirst? '=' t = some (name, v))
    (hname : Opt.ofLong? name = some o) (hfile : o ≠ .buildFile) : Silent ('-' :: '-' :: t) := by
  have hne (w : Text) (hw : '=' ∉ w) : '-' :: '-' :: t ≠ w := by
    rintro rfl
    simp [eq_append_of_cutFirst? hcut] at hw
  refine ⟨?_, hne _ (by decide), hne _ (by decide), hne _ (by decide)⟩
  rw [Option.eq_none_iff_forall_ne_some]
  intro u hu
  rw [attachedFile?_long, hcut] at hu
  cases hu
  exact hfile (Option.some.inj (hname.symm.trans (by decide)))

theorem silent_bare {t : Text} {o : Opt} (hcut : cutFirst? '=' t = none)
    (hname : Opt.ofLong? t = some o) (hfile : o ≠ .buildFile) (hdry : o ≠ .dryRun)
    (hhelp : o ≠ .help true) : Silent ('-' :: '-' :: t) := by
  have hne {u : Text} {p : Opt} (hu : Opt.ofLong? u = some p) (hp : o ≠ p) :
      '-' :: '-' :: t ≠ '-' :: '-' :: u := by
    intro he
    obtain rfl := (List.cons.inj (List.cons.inj he).2).2
    exact hp (Option.some.inj (hname.symm.trans hu))
  refine ⟨?_, fileOption_eq ▸ hne (by decide) hfile, dryRunOption_eq ▸ hne (by decide) hdry,
    helpOption_eq ▸ hne (by decide) hhelp⟩
  rw [Option.eq_none_iff_forall_ne_some]
  intro u hu
  rw [attachedFile?_long, hcut] at hu
  cases hu

theorem not_isOption_of_ofText? {w : Text} {k : ProjectKind} (h : ProjectKind.ofText? w = some k) :
    isOption w = false := by
  have hw := List.find?_some h
  rw [beq_iff_eq] at hw
  subst hw
  cases k <;> rfl

/-! One argument. -/

theorem Given.value?_eq_some {g g' : Given} {v : Text} {o : Opt} (h : g.value? v o = some g') :
    o = .buildFile ∧ g' = { g with buildFile := some v } ∨
      o ≠ .buildFile ∧ o ≠ .dryRun ∧ g'.buildFile = g.buildFile ∧ g'.dryRun = g.dryRun := by
  cases o with
  | buildFile =>
    rw [value?] at h
    split at h
    · cases h
    · cases h
      exact .inl ⟨rfl, rfl⟩
  | template =>
    rw [value?] at h
    split at h
    · cases h
    · cases h
      exact .inr ⟨nofun, nofun, rfl, rfl⟩
  | items c =>
    cases h
    exact .inr ⟨nofun, nofun, rfl, rfl⟩
  | verbose | version | help _ | dryRun | json | yes => cases h

theorem Given.flag?_eq_some {g g' : Given} {o : Opt} (h : g.flag? o = some g') :
    o = .dryRun ∧ g' = { g with dryRun := true } ∨
      o ≠ .buildFile ∧ o ≠ .dryRun ∧ g'.buildFile = g.buildFile ∧ g'.dryRun = g.dryRun := by
  cases o with
  | dryRun =>
    rw [flag?] at h
    split at h
    · cases h
    · cases h
      exact .inl ⟨rfl, rfl⟩
  | verbose | json | yes =>
    rw [flag?] at h
    split at h
    · cases h
    · cases h
      exact .inr ⟨nofun, nofun, rfl, rfl⟩
  | version | help _ | buildFile | template | items c => cases h

namespace Scan
variable {s s₁ s₂ s' : Scan} {arg : Text} {args : List Text} {o : Opt}

/-- The build file that was given so far. -/
def file? (s : Scan) : Option Text := s.given.buildFile.or s.outer.buildFile

/-- Until there is a command, no build file was given before it, and nothing but one is waited
for. -/
structure Fresh (s : Scan) : Prop where
  outer : s.verb = none → s.outer.buildFile = none
  await : s.verb = none → s.await = .nothing ∨ s.await = .value .buildFile

theorem Fresh.verb_ne_none (hs : s.Fresh) (hnothing : s.await ≠ .nothing)
    (hfile : s.await ≠ .value .buildFile) : s.verb ≠ none :=
  fun hverb => (hs.await hverb).elim hnothing hfile

/-- Nothing was said about the command, the build file or a dry run. -/
structure Idle (s s₁ : Scan) : Prop where
  verb : s₁.verb = s.verb
  outer : s₁.outer = s.outer
  file : s₁.given.buildFile = s.given.buildFile
  dryRun : s₁.given.dryRun = s.given.dryRun
  await : s₁.await ≠ .value .buildFile
  before : s.verb = none → s₁.await = .nothing

theorem Idle.trans (h : Idle s s₁) (h' : Idle s₁ s₂) : Idle s s₂ where
  verb := h'.verb.trans h.verb
  outer := h'.outer.trans h.outer
  file := h'.file.trans h.file
  dryRun := h'.dryRun.trans h.dryRun
  await := h'.await
  before hs := h'.before (h.verb.trans hs)

theorem Idle.self (h : Idle s s₁) : Idle s₁ s₁ :=
  ⟨rfl, rfl, rfl, rfl, h.await, fun hs => h.before (h.verb.symm.trans hs)⟩

/-- What one argument can do. -/
inductive Takes (s : Scan) : Text → Scan → Prop
  | command {w : Text} {v : Verb} (hw : isOption w = false) (hawait : s.await = .nothing)
    (hverb : s.verb = none) (houter : s.outer.buildFile = none) (hv : Verb.ofText? w = some v) :
    Takes s w { verb := some v, outer := s.given }
  | awaited {w : Text} (hw : isOption w = false) (hawait : s.await = .value .buildFile) :
    Takes s w { s with given := { s.given with buildFile := some w }, await := .nothing }
  | announced (hawait : s.await ≠ .value .buildFile) :
    Takes s fileOption { s with await := .value .buildFile }
  | attached (v : Text) (hawait : s.await ≠ .value .buildFile) :
    Takes s (fileOption ++ '=' :: v)
      { s with given := { s.given with buildFile := some v }, await := .nothing }
  | dryRun (hawait : s.await ≠ .value .buildFile) (hverb : s.verb ≠ none) :
    Takes s dryRunOption { s with given := { s.given with dryRun := true }, await := .nothing }
  | other {arg : Text} {s₁ : Scan} (hawait : s.await ≠ .value .buildFile) (hsilent : Silent arg)
    (hcommand : s.verb = none → isOption arg = true) (hidle : Idle s s₁) : Takes s arg s₁

theorem Takes.fresh (h : Takes s arg s₁) (hs : s.Fresh) : s₁.Fresh := by
  cases h with
  | command => exact ⟨nofun, nofun⟩
  | awaited => exact ⟨hs.outer, fun _ => .inl rfl⟩
  | announced => exact ⟨hs.outer, fun _ => .inr rfl⟩
  | attached => exact ⟨hs.outer, fun _ => .inl rfl⟩
  | dryRun => exact ⟨hs.outer, fun _ => .inl rfl⟩
  | other _ _ _ hidle =>
    refine ⟨fun hv => ?_, fun hv => .inl (hidle.before (hidle.verb.symm.trans hv))⟩
    rw [hidle.outer]
    exact hs.outer (hidle.verb.symm.trans hv)

theorem positional?_eq_some {w : Text} (h : s.positional? w = some s₁) :
    s.verb = none ∧ (∃ v, Verb.ofText? w = some v ∧ s₁ = { verb := some v, outer := s.given }) ∨
    s.verb ≠ none ∧ ∃ k, ProjectKind.ofText? w = some k ∧
      s₁ = { s with given := { s.given with kind := some k } } := by
  unfold positional? at h
  split at h
  case h_1 hverb =>
    obtain ⟨v, hv, he⟩ := Option.map_eq_some_iff.mp h
    exact .inl ⟨hverb, v, hv, he.symm⟩
  case h_2 hverb =>
    split at h
    · cases h
    · obtain ⟨k, hk, he⟩ := Option.map_eq_some_iff.mp h
      exact .inr ⟨by simp [hverb], k, hk, he.symm⟩
  · cases h

/-- The kind of a new project. -/
theorem takes_kind {w : Text} {k : ProjectKind} (hverb : s.verb ≠ none)
    (hawait : s.await = .nothing) (h : ProjectKind.ofText? w = some k) :
    Takes s w { s with given := { s.given with kind := some k } } := by
  have hsilent := silent_of_not_isOption (not_isOption_of_ofText? h)
  exact .other (by simp [hawait]) hsilent (fun hs => absurd hs hverb)
    ⟨rfl, rfl, rfl, rfl, by simp [hawait], fun _ => hawait⟩

theorem takes_word (hs : s.Fresh) (hw : isOption arg = false) (h : s.word? arg = some s₁) :
    Takes s arg s₁ := by
  have hsilent := silent_of_not_isOption hw
  unfold word? at h
  split at h
  case h_1 hawait =>
    obtain ⟨hverb, v, hv, rfl⟩ | ⟨hverb, k, hk, rfl⟩ := positional?_eq_some h
    · exact .command hw hawait hverb (hs.outer hverb) hv
    · exact takes_kind hverb hawait hk
  case h_2 o hawait =>
    obtain ⟨g, hg, he⟩ := Option.bind_eq_some_iff.mp h
    cases he
    obtain ⟨rfl, rfl⟩ | ⟨ho, _, hbuild, hdryRun⟩ := Given.value?_eq_some hg
    · exact .awaited hw hawait
    · have hverb := hs.verb_ne_none (by simp [hawait]) (by simp [hawait, ho])
      refine .other (by simp [hawait, ho]) hsilent (fun hv => absurd hv hverb)
        ⟨rfl, rfl, hbuild, hdryRun, ?_, fun hv => absurd hv hverb⟩
      dsimp only
      split <;> nofun
  case h_3 c hawait =>
    obtain ⟨g, hg, he⟩ := Option.bind_eq_some_iff.mp h
    cases he
    have hverb := hs.verb_ne_none (by simp [hawait]) (by simp [hawait])
    obtain ⟨hitems, _⟩ | ⟨_, _, hbuild, hdryRun⟩ := Given.value?_eq_some hg
    · cases hitems
    · exact .other (by simp [hawait]) hsilent (fun hv => absurd hv hverb)
        ⟨rfl, rfl, hbuild, hdryRun, by simp [hawait], fun hv => absurd hv hverb⟩

/-! Options. -/

theorem option?_eq_next {v? : Option Text} (h : s.option? o v? = some (.next s₁)) :
    o.isKnown s.verb = true ∧ (v? = none → o.inquiry? s.verb = none) ∧
    ((∃ v g, v? = some v ∧ s.given.value? v o = some g ∧
      s₁ = { s with given := g, await := .nothing }) ∨
      v? = none ∧ o.takesValue = true ∧ s₁ = { s with await := .value o } ∨
      ∃ g, v? = none ∧ s.given.flag? o = some g ∧
        s₁ = { s with given := g, await := .nothing }) := by
  unfold option? at h
  split at h
  · cases h
  case isFalse hknown =>
    refine ⟨by simpa using hknown, ?_⟩
    split at h
    case h_1 v =>
      obtain ⟨g, hg, he⟩ := Option.map_eq_some_iff.mp h
      cases he
      exact ⟨nofun, .inl ⟨v, g, rfl, hg, rfl⟩⟩
    case h_2 =>
      split at h
      · cases h
      case h_2 hinquiry =>
        refine ⟨fun _ => hinquiry, ?_⟩
        split at h
        case isTrue hvalue =>
          cases h
          exact .inr (.inl ⟨rfl, hvalue, rfl⟩)
        case isFalse =>
          obtain ⟨g, hg, he⟩ := Option.map_eq_some_iff.mp h
          cases he
          exact .inr (.inr ⟨g, rfl, hg, rfl⟩)

theorem idle_of_option? {v? : Option Text} (hfile : o ≠ .buildFile) (hdry : o ≠ .dryRun)
    (h : s.option? o v? = some (.next s₁)) : Idle s s₁ := by
  obtain ⟨hknown, _, ⟨v, g, _, hg, rfl⟩ | ⟨_, hvalue, rfl⟩ | ⟨g, _, hg, rfl⟩⟩ := option?_eq_next h
  · obtain ⟨ho, _⟩ | ⟨_, _, hbuild, hdryRun⟩ := Given.value?_eq_some hg
    · exact absurd ho hfile
    · exact ⟨rfl, rfl, hbuild, hdryRun, nofun, fun _ => rfl⟩
  · refine ⟨rfl, rfl, rfl, rfl, by simpa using hfile, fun hs => ?_⟩
    -- Before the command, the build file is the only option with a value.
    rw [hs] at hknown
    cases o <;> simp_all [Opt.isKnown, Opt.takesValue]
  · obtain ⟨ho, _⟩ | ⟨_, _, hbuild, hdryRun⟩ := Given.flag?_eq_some hg
    · exact absurd ho hdry
    · exact ⟨rfl, rfl, hbuild, hdryRun, nofun, fun _ => rfl⟩

theorem idle_of_shorts? {cs : Text} (hs : Idle s s) (h : s.shorts? cs = some (.next s₁)) :
    Idle s s₁ := by
  induction cs generalizing s with
  | nil =>
    cases h
    exact hs
  | cons c rest ih =>
    obtain ⟨o, ho, h⟩ := Option.bind_eq_some_iff.mp h
    have hshort : o ≠ .buildFile ∧ o ≠ .dryRun := by
      unfold Opt.ofShort? at ho
      split at ho <;> cases ho <;> exact ⟨nofun, nofun⟩
    split at h
    · exact idle_of_option? hshort.1 hshort.2 h
    · obtain ⟨step, hstep, h⟩ := Option.bind_eq_some_iff.mp h
      cases step with
      | answer i => cases h
      | next s₂ =>
        have hidle := idle_of_option? hshort.1 hshort.2 hstep
        exact hidle.trans (ih hidle.self h)

theorem idle_rest (s : Scan) : Idle s { s with await := .nothing } :=
  ⟨rfl, rfl, rfl, rfl, nofun, fun _ => rfl⟩

theorem takes_shorts {c : Char} {rest : Text} (hc : c ≠ '-') (hawait : s.await ≠ .value .buildFile)
    (h : { s with await := .nothing }.shorts? (c :: rest) = some (.next s₁)) :
    Takes s ('-' :: c :: rest) s₁ :=
  .other hawait (silent_short hc rest) (fun _ => rfl)
    ((idle_rest s).trans (idle_of_shorts? (idle_rest s).self h))

theorem takes_attached {t name v : Text} (hcut : cutFirst? '=' t = some (name, v))
    (hname : Opt.ofLong? name = some o) (hawait : s.await ≠ .value .buildFile)
    (h : { s with await := .nothing }.option? o (some v) = some (.next s₁)) :
    Takes s ('-' :: '-' :: t) s₁ := by
  obtain ⟨_, _, ⟨_, g, ⟨⟩, hg, rfl⟩ | ⟨⟨⟩, _⟩ | ⟨_, ⟨⟩, _⟩⟩ := option?_eq_next h
  obtain ⟨rfl, rfl⟩ | ⟨hfile, hdry, _⟩ := Given.value?_eq_some hg
  · obtain rfl := eq_of_ofLong?_buildFile hname
    obtain rfl := eq_append_of_cutFirst? hcut
    exact .attached v hawait
  · exact .other hawait (silent_attached hcut hname hfile) (fun _ => rfl)
      ((idle_rest s).trans (idle_of_option? hfile hdry h))

theorem takes_bare {t : Text} (hcut : cutFirst? '=' t = none) (hname : Opt.ofLong? t = some o)
    (hawait : s.await ≠ .value .buildFile)
    (h : { s with await := .nothing }.option? o none = some (.next s₁)) :
    Takes s ('-' :: '-' :: t) s₁ := by
  obtain ⟨hknown, hinquiry, hnext⟩ := option?_eq_next h
  by_cases hfile : o = .buildFile
  · subst hfile
    obtain rfl := eq_of_ofLong?_buildFile hname
    obtain ⟨_, _, ⟨⟩, _⟩ | ⟨_, _, rfl⟩ | ⟨_, _, ⟨⟩, _⟩ := hnext
    exact .announced hawait
  by_cases hdry : o = .dryRun
  · subst hdry
    obtain rfl := eq_of_ofLong?_dryRun hname
    -- Before the command this option is not known.
    have hverb : s.verb ≠ none := by
      intro hverb
      simp [hverb, Opt.isKnown] at hknown
    obtain ⟨_, _, ⟨⟩, _⟩ | ⟨_, ⟨⟩, _⟩ | ⟨g, _, hg, rfl⟩ := hnext
    obtain ⟨_, rfl⟩ | ⟨_, hne, _⟩ := Given.flag?_eq_some hg
    · exact .dryRun hawait hverb
    · exact absurd rfl hne
  · have hhelp : o ≠ .help true := by
      rintro rfl
      cases hinquiry rfl
    exact .other hawait (silent_bare hcut hname hfile hdry hhelp) (fun _ => rfl)
      ((idle_rest s).trans (idle_of_option? hfile hdry h))

theorem takes_long {t : Text} (hawait : s.await ≠ .value .buildFile)
    (h : { s with await := .nothing }.long? t = some (.next s₁)) :
    Takes s ('-' :: '-' :: t) s₁ := by
  unfold long? at h
  split at h
  case h_1 name v hcut =>
    obtain ⟨o, hname, h⟩ := Option.bind_eq_some_iff.mp h
    exact takes_attached hcut hname hawait h
  case h_2 hcut =>
    obtain ⟨o, hname, h⟩ := Option.bind_eq_some_iff.mp h
    exact takes_bare hcut hname hawait h

/-! All arguments. -/

/-- The arguments are taken one by one, and no build file is waited for in the end. -/
inductive Reads : Scan → List Text → Scan → Prop
  | done {s : Scan} (hawait : s.await ≠ .value .buildFile) : Reads s [] s
  | take {s s₁ s' : Scan} {arg : Text} {args : List Text} (h : Takes s arg s₁)
    (hrest : Reads s₁ args s') : Reads s (arg :: args) s'

theorem takes_dashes (hawait : s.await ≠ .value .buildFile) :
    Takes s ['-', '-'] { s with await := .nothing } :=
  .other hawait ⟨rfl, by decide, by decide, by decide⟩ (fun _ => rfl) (idle_rest s)

theorem reads_of_trailing? (hawait : s.await = .nothing) (h : s.trailing? args = some s') :
    Reads s args s' := by
  induction args generalizing s with
  | nil =>
    cases h
    exact .done (by simp [hawait])
  | cons w ws ih =>
    rw [trailing?] at h
    split at h
    · cases h
    case isFalse hverb =>
      obtain ⟨s₁, hword, h⟩ := Option.bind_eq_some_iff.mp h
      obtain ⟨hnone, _⟩ | ⟨hverb, k, hk, rfl⟩ := positional?_eq_some hword
      · simp [hnone] at hverb
      · exact .take (takes_kind hverb hawait hk) (ih hawait h)

theorem takes_of_scan?_cons (hs : s.Fresh) (h : scan? s (arg :: args) = some (.next s')) :
    arg = ['-', '-'] ∧ s.await ≠ .value .buildFile ∧
      { s with await := .nothing }.trailing? args = some s' ∨
    ∃ s₁, Takes s arg s₁ ∧ scan? s₁ args = some (.next s') := by
  unfold scan? at h
  split at h
  case h_1 c rest =>
    split at h
    · cases h
    case h_2 hawait =>
      have hawait := hawait .buildFile
      dsimp only at h
      split at h
      case isTrue hdashes =>
        obtain ⟨_, htrailing, ⟨⟩⟩ := Option.map_eq_some_iff.mp h
        exact .inl ⟨hdashes, hawait, htrailing⟩
      case isFalse =>
        split at h
        · cases h
        · cases h
        case h_3 s₁ hstep =>
          refine .inr ⟨s₁, ?_, h⟩
          split at hstep
          case isTrue hc =>
            subst hc
            exact takes_long hawait hstep
          case isFalse hc => exact takes_shorts hc hawait hstep
  case h_2 hword =>
    have hw : isOption arg = false := by
      unfold isOption
      split
      · exact absurd rfl (hword _ _)
      · rfl
    split at h
    · obtain ⟨_, _, ⟨⟩⟩ := Option.map_eq_some_iff.mp h
    · split at h
      case h_1 s₁ htaken => exact .inr ⟨s₁, takes_word hs hw htaken, h⟩
      case h_2 =>
        -- Behind a build file that is refused there are only answers.
        split at h
        · obtain ⟨step, _, hstep⟩ := Option.bind_eq_some_iff.mp h
          cases step <;> cases hstep
        · cases h

theorem reads_of_scan? (hs : s.Fresh) (h : scan? s args = some (.next s')) : Reads s args s' := by
  induction args generalizing s with
  | nil =>
    unfold scan? at h
    split at h
    · cases h
    case h_2 hawait =>
      cases h
      exact .done (hawait .buildFile)
  | cons arg args ih =>
    obtain ⟨rfl, hawait, htrailing⟩ | ⟨s₁, htakes, h⟩ := takes_of_scan?_cons hs h
    · exact .take (takes_dashes hawait) (reads_of_trailing? rfl htrailing)
    · exact .take htakes (ih (htakes.fresh hs) h)

/-- The arguments that are left, with the option whose value is waited for. -/
def pending (s : Scan) (args : List Text) : List Text :=
  if s.await = .value .buildFile then fileOption :: args else args

theorem Takes.file_eq (h : Takes s arg s₁) (args : List Text) :
    (namedFile? (s₁.pending args)).or s₁.file? =
    (namedFile? (s.pending (arg :: args))).or s.file? := by
  cases h with
  | command hw hawait hverb houter hv =>
    have hsilent := silent_of_not_isOption hw
    simp [pending, file?, hawait, houter, namedFile?_cons_of_ne hsilent.file, hsilent.attached]
  | awaited hw hawait =>
    simp [pending, file?, hawait, namedFile?_fileOption]
  | announced hawait => simp [pending, file?, hawait]
  | attached v hawait =>
    have hne : fileOption ++ '=' :: v ≠ fileOption := attached_ne (by decide) v
    simp [pending, file?, hawait, namedFile?_cons_of_ne hne, attachedFile?_eq_some_iff.mpr rfl]
  | dryRun hawait =>
    have hne : dryRunOption ≠ fileOption := by decide
    have hattached : attachedFile? dryRunOption = none := by decide
    simp [pending, file?, hawait, namedFile?_cons_of_ne hne, hattached]
  | other hawait hsilent _ hidle =>
    simp [pending, file?, hawait, hidle.await, hidle.file, hidle.outer,
      namedFile?_cons_of_ne hsilent.file, hsilent.attached]

theorem Reads.file_eq (h : Reads s args s') :
    s'.file? = (namedFile? (s.pending args)).or s.file? := by
  induction h with
  | done hawait => simp [pending, hawait, namedFile?]
  | take htakes _ ih => rw [ih, htakes.file_eq]

/-- The command that was given, or else is yet to come. -/
def verb? (s : Scan) (args : List Text) : Option Verb :=
  s.verb.or ((commandWord? (s.pending args)).bind Verb.ofText?)

theorem Takes.verb_eq (h : Takes s arg s₁) (args : List Text) :
    s₁.verb? args = s.verb? (arg :: args) := by
  cases h with
  | command hw hawait hverb _ hv =>
    simp [verb?, pending, hawait, hverb, commandWord?_cons_of_not_isOption hw, hv]
  | awaited hw hawait => simp [verb?, pending, hawait, commandWord?_fileOption]
  | announced hawait => simp [verb?, pending, hawait]
  | attached v hawait =>
    have hne : fileOption ++ '=' :: v ≠ fileOption := attached_ne (by decide) v
    have hoption : isOption (fileOption ++ '=' :: v) = true := rfl
    simp [verb?, pending, hawait, commandWord?_cons_of_isOption hne hoption]
  | dryRun hawait hverb =>
    obtain ⟨v, hv⟩ := Option.ne_none_iff_exists'.mp hverb
    simp [verb?, hv]
  | other hawait hsilent hcommand hidle =>
    cases hverb : s.verb with
    | none =>
      simp [verb?, pending, hawait, hidle.await, hidle.verb, hverb,
        commandWord?_cons_of_isOption hsilent.file (hcommand hverb)]
    | some v => simp [verb?, hidle.verb, hverb]

theorem Reads.verb_eq (h : Reads s args s') : s'.verb = s.verb? args := by
  induction h with
  | done hawait => simp [verb?, pending, hawait, commandWord?]
  | take htakes _ ih => rw [ih, htakes.verb_eq]

theorem Takes.ne_helpOption (h : Takes s arg s₁) : arg ≠ helpOption := by
  cases h with
  | command hw => exact (silent_of_not_isOption hw).help
  | awaited hw => exact (silent_of_not_isOption hw).help
  | announced => decide
  | attached v => exact attached_ne (by decide) v
  | dryRun => decide
  | other _ hsilent => exact hsilent.help

theorem Reads.helpOption_not_mem (h : Reads s args s') : helpOption ∉ args := by
  induction h with
  | done => simp
  | take htakes _ ih => exact fun hmem => (List.mem_cons.mp hmem).elim htakes.ne_helpOption.symm ih

/-- A dry run of a command was asked for. -/
def IsDry (s : Scan) : Prop := s.verb ≠ none ∧ s.given.dryRun = true

theorem Takes.isDry (h : Takes s arg s₁) (hs : s.IsDry) : s₁.IsDry := by
  cases h with
  | command _ _ hverb => exact absurd hverb hs.1
  | awaited => exact hs
  | announced => exact hs
  | attached => exact hs
  | dryRun _ hverb => exact ⟨hverb, rfl⟩
  | other _ _ _ hidle => exact ⟨hidle.verb ▸ hs.1, hidle.dryRun.trans hs.2⟩

theorem Takes.isDry_of_eq (h : Takes s arg s₁) (harg : arg = dryRunOption) : s₁.IsDry := by
  cases h with
  | command hw => exact absurd harg (silent_of_not_isOption hw).dryRun
  | awaited hw => exact absurd harg (silent_of_not_isOption hw).dryRun
  | announced => exact absurd harg (by decide)
  | attached v => exact absurd harg (attached_ne (by decide) v)
  | dryRun _ hverb => exact ⟨hverb, rfl⟩
  | other _ hsilent => exact absurd harg hsilent.dryRun

theorem Reads.isDry (h : Reads s args s') (hdry : s.IsDry ∨ dryRunOption ∈ args) : s'.IsDry := by
  induction h with
  | done => simpa using hdry
  | take htakes _ ih =>
    refine ih ?_
    obtain hs | hmem := hdry
    · exact .inl (htakes.isDry hs)
    · obtain harg | hmem := List.mem_cons.mp hmem
      · exact .inl (htakes.isDry_of_eq harg.symm)
      · exact .inr hmem

theorem fresh_empty : Fresh {} := ⟨fun _ => rfl, fun _ => .inl rfl⟩

end Scan

/-! The command line. -/

/-- Whether a command may write. -/
def Command.writes : Command → Bool
  | .edit _ _ dryRun | .create _ _ _ _ dryRun => !dryRun
  | .banner | .answer _ | .show _ => false

theorem buildFile?_eq_some {environment : Option Text} {s : Scan} {path : Text}
    (h : buildFile? environment s = some path) :
    path = (s.file?.or environment).getD "CMakeLists.txt" := by
  unfold buildFile? at h
  dsimp only at h
  split at h
  · cases h
  · cases h
    simp [Scan.file?, Option.or_assoc]

theorem Command.writes_of_command? {s : Scan} {c : Command} (h : command? s = some c)
    (hs : s.verb = none ∨ s.verb = some .show ∨ s.IsDry) : c.writes = false := by
  have hdry {v : Verb} (hverb : s.verb = some v) (hshow : v ≠ .show) : s.given.dryRun = true := by
    obtain hnone | hv | hdry := hs
    · cases hverb.symm.trans hnone
    · exact absurd (Option.some.inj (hverb.symm.trans hv)) hshow
    · exact hdry.2
  unfold command? at h
  split at h
  case h_1 =>
    cases h
    rfl
  case h_2 hverb =>
    cases h
    simp [writes, hdry hverb nofun]
  case h_3 hverb =>
    cases h
    simp [writes, hdry hverb nofun]
  case h_4 =>
    cases h
    rfl
  case h_5 hverb =>
    obtain ⟨kind, _, h⟩ := Option.bind_eq_some_iff.mp h
    obtain ⟨template, _, h⟩ := Option.bind_eq_some_iff.mp h
    cases h
    simp [writes, hdry hverb nofun]

theorem parse?_eq_some {environment : Option Text} {args : List Text} {i : Invocation}
    (h : parse? environment args = some i) :
    ((∃ q, i.command = .answer q) ∨ i.buildFile = selectedFile environment args) ∧
      (commandWord? args = none ∨ commandWord? args = some "show".toList ∨
        commandWord? args = some "help".toList ∨ dryRunOption ∈ args ∨ helpOption ∈ args →
        i.command.writes = false) := by
  obtain ⟨read, hscan, h⟩ := Option.bind_eq_some_iff.mp h
  cases read with
  | answer q =>
    cases h
    exact ⟨.inl ⟨q, rfl⟩, fun _ => rfl⟩
  | next s =>
    obtain ⟨path, hpath, h⟩ := Option.bind_eq_some_iff.mp h
    obtain ⟨command, hcommand, h⟩ := Option.bind_eq_some_iff.mp h
    cases h
    have hreads := Scan.reads_of_scan? Scan.fresh_empty hscan
    have hverb : s.verb = (commandWord? args).bind Verb.ofText? := hreads.verb_eq
    have hfile : s.file? = namedFile? args := by
      simpa [Scan.pending, Scan.file?] using hreads.file_eq
    refine ⟨.inr (by rw [buildFile?_eq_some hpath, hfile]; rfl), fun hidle => ?_⟩
    refine Command.writes_of_command? hcommand ?_
    obtain hnone | hshow | hhelp | hdry | hhelp := hidle
    · exact .inl (by rw [hverb, hnone]; rfl)
    · exact .inr (.inl (by rw [hverb, hshow]; rfl))
    · exact .inl (by rw [hverb, hhelp]; rfl)
    · exact .inr (.inr (hreads.isDry (.inr hdry)))
    · exact absurd hhelp hreads.helpOption_not_mem

end BuildFile.CommandLine
