/-! Text as a list of characters: the blank characters (the White_Space property) and trimming,
small recognisers on the front of a text, lines, and decimal numbers. -/
namespace BuildFile

abbrev Text := List Char

instance : Coe String Text := ⟨String.toList⟩

def isBlank (c : Char) : Bool :=
  let n := c.toNat
  (0x9 ≤ n && n ≤ 0xD) || n == 0x20 || n == 0x85 || n == 0xA0 || n == 0x1680 ||
  (0x2000 ≤ n && n ≤ 0x200A) || n == 0x2028 || n == 0x2029 || n == 0x202F || n == 0x205F ||
  n == 0x3000

def skipBlanks (t : Text) : Text := t.dropWhile isBlank

def trimEnd (t : Text) : Text := (skipBlanks t.reverse).reverse

def trim (t : Text) : Text := trimEnd (skipBlanks t)

def hasBlank (t : Text) : Bool := t.any isBlank

def isLineBreak (c : Char) : Bool := c == '\n' || c == '\r'

def isParen (c : Char) : Bool := c == '(' || c == ')'

def isBare (c : Char) : Bool := !isBlank c && !isParen c

def isBareToken (t : Text) : Bool := !t.isEmpty && t.all isBare

def isIdentStart (c : Char) : Bool := c.isAlpha || c == '_'
def isIdentRest (c : Char) : Bool := c.isAlphanum || c == '_'

def isIdent : Text → Bool
  | [] => false
  | c :: rest => isIdentStart c && rest.all isIdentRest

theorem skipBlanks_eq_nil_or_head (t : Text) :
    skipBlanks t = [] ∨ ∃ c r, skipBlanks t = c :: r ∧ isBlank c = false := by
  induction t with
  | nil => exact .inl rfl
  | cons c r ih =>
    by_cases h : isBlank c = true
    · simpa [skipBlanks, List.dropWhile_cons, h] using ih
    · exact .inr ⟨c, r, by simp [skipBlanks, h], by simpa using h⟩

theorem skipBlanks_idem (t : Text) : skipBlanks (skipBlanks t) = skipBlanks t := by
  rcases skipBlanks_eq_nil_or_head t with h | ⟨c, r, h, hc⟩
  · rw [h]; rfl
  · rw [h]; simp [skipBlanks, hc]

theorem trimEnd_idem (t : Text) : trimEnd (trimEnd t) = trimEnd t := by
  simp [trimEnd, skipBlanks_idem]

/-! Small recognisers on the front of a text. Each gives back what is left, so that recognisers are
chained; the runs they take are the longest ones. -/

def after? : Text → Text → Option Text
  | [], t => some t
  | _ :: _, [] => none
  | c :: head, d :: t => if c = d then after? head t else none

theorem after?_eq_some_iff {head t rest : Text} : after? head t = some rest ↔ t = head ++ rest := by
  induction head generalizing t with
  | nil => simp [after?]
  | cons c head ih =>
    cases t with
    | nil => simp [after?]
    | cons d t =>
      by_cases h : c = d
      · simp [after?, h, ih]
      · simp [after?, h, Ne.symm h]

def before? (tail t : Text) : Option Text := (after? tail.reverse t.reverse).map List.reverse

theorem before?_eq_some_iff {tail t init : Text} :
    before? tail t = some init ↔ t = init ++ tail := by
  unfold before?
  rw [Option.map_eq_some_iff]
  constructor
  · rintro ⟨r, hr, rfl⟩
    rw [after?_eq_some_iff] at hr
    simpa using congrArg List.reverse hr
  · rintro rfl
    exact ⟨init.reverse, by simp [after?_eq_some_iff], by simp⟩

/-- The longest run of characters with property `p`, which must not be empty, and the rest. -/
def run? (p : Char → Bool) (t : Text) : Option (Text × Text) :=
  match t.takeWhile p with
  | [] => none
  | w => some (w, t.dropWhile p)

def blanks? (t : Text) : Option Text := (run? isBlank t).map Prod.snd

def cutFirst? (sep : Char) : Text → Option (Text × Text)
  | [] => none
  | c :: rest =>
    if c = sep then some ([], rest)
    else (cutFirst? sep rest).map fun (l, r) => (c :: l, r)

/-! Lines of a text: cut at every line feed, so that there is always at least one line.
Joining the lines of a text gives the text back; cutting joined lines gives the lines back when
there are some and none of them holds a line feed. -/

def lines (t : Text) : List Text := List.splitOn '\n' t
def unlines (ls : List Text) : Text := List.intercalate ['\n'] ls

theorem lines_append (t u : Text) : lines (t ++ '\n' :: u) = lines t ++ lines u :=
  List.splitOn_append_cons_self t u

theorem lines_ne_nil (t : Text) : lines t ≠ [] := List.splitOn_ne_nil '\n' t

theorem unlines_lines (t : Text) : unlines (lines t) = t := List.intercalate_splitOn '\n'

theorem lines_unlines {ls : List Text} (hne : ls ≠ []) (h : ∀ l ∈ ls, '\n' ∉ l) :
    lines (unlines ls) = ls := List.splitOn_intercalate '\n' h hne

theorem lines_of_not_mem {t : Text} (h : '\n' ∉ t) : lines t = [t] := List.splitOn_eq_singleton h

theorem not_mem_of_mem_splitOn {sep : Char} {t p : Text} (h : p ∈ List.splitOn sep t) :
    sep ∉ p := by
  induction t generalizing p with
  | nil => simp_all
  | cons c t ih =>
    rw [List.splitOn_cons_eq_if_modifyHead] at h
    split at h
    case isTrue =>
      obtain rfl | h := List.mem_cons.mp h
      · simp
      · exact ih h
    case isFalse hc =>
      cases hpieces : List.splitOn sep t with
      | nil => exact absurd hpieces (List.splitOn_ne_nil sep t)
      | cons q qs =>
        rw [hpieces] at ih h
        obtain rfl | h := List.mem_cons.mp h
        · intro hmem
          obtain rfl | hmem := List.mem_cons.mp hmem
          · simp at hc
          · exact ih List.mem_cons_self hmem
        · exact ih (List.mem_cons_of_mem q h)

theorem not_newline_mem_of_mem_lines {t l : Text} (h : l ∈ lines t) : '\n' ∉ l :=
  not_mem_of_mem_splitOn h

theorem intercalate_append {sep : Char} {ps qs : List Text} (hp : ps ≠ []) (hq : qs ≠ []) :
    List.intercalate [sep] (ps ++ qs) =
      List.intercalate [sep] ps ++ sep :: List.intercalate [sep] qs := by
  induction ps with
  | nil => exact absurd rfl hp
  | cons p ps ih =>
    cases ps with
    | nil => simp [List.intercalate_cons_of_ne_nil hq]
    | cons k ks =>
      have hks := ih (by simp)
      rw [List.cons_append] at hks
      simp only [List.cons_append, List.intercalate_cons_cons, hks, List.append_assoc]

theorem unlines_append {ls ms : List Text} (hl : ls ≠ []) (hm : ms ≠ []) :
    unlines (ls ++ ms) = unlines ls ++ '\n' :: unlines ms := intercalate_append hl hm

@[simp] theorem unlines_singleton (l : Text) : unlines [l] = l := List.intercalate_singleton

theorem unlines_cons {l : Text} {ls : List Text} (h : ls ≠ []) :
    unlines (l :: ls) = l ++ '\n' :: unlines ls := by
  simp [unlines, List.intercalate_cons_of_ne_nil h]

def decimal (n : Nat) : Text := Nat.toDigits 10 n

end BuildFile
