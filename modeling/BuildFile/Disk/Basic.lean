import BuildFile.Disk.Place
import BuildFile.Error
/-! A disk: files and directories at their places. The root is always there; a path is followed part
by part, and every part before the last must lead to a directory, also when a `..` takes it back. -/
namespace BuildFile

inductive Node where
  | file (content : ByteArray)
  | directory

instance : DecidableEq Node
  | .directory, .directory => isTrue rfl
  | .directory, .file _ => isFalse nofun
  | .file _, .directory => isFalse nofun
  | .file ⟨a⟩, .file ⟨b⟩ =>
    if h : a = b then isTrue (by rw [h])
    else isFalse fun he => h (by injection he with hc; injection hc)

structure Disk where
  nodes : List (Place × Node) := []
  /-- The directory in which relative paths start. -/
  here : Place := []
  deriving DecidableEq

inductive Probe where
  | missing | file | other
  deriving DecidableEq

namespace Disk

def get? (d : Disk) (p : Place) : Option Node :=
  if p = [] then some .directory else d.nodes.lookup p

def remove (p : Place) (d : Disk) : Disk := { d with nodes := d.nodes.filter fun e => e.1 != p }

def put (p : Place) (n : Node) (d : Disk) : Disk := { d with nodes := (p, n) :: (d.remove p).nodes }

theorem lookup_filter_ne {p q : Place} (nodes : List (Place × Node)) :
    (nodes.filter fun e => e.1 != p).lookup q = if q = p then none else nodes.lookup q := by
  induction nodes with
  | nil => simp
  | cons e nodes ih =>
    obtain ⟨r, n⟩ := e
    rw [List.filter_cons, List.lookup_cons]
    by_cases hr : r = p
    · subst hr
      by_cases hq : q = r
      · rw [if_pos hq] at ih ⊢
        simpa using ih
      · rw [if_neg hq] at ih ⊢
        simp [ih, beq_eq_false_iff_ne.2 hq]
    · by_cases hq : q = r
      · subst hq
        simp [hr]
      · simp [hr, List.lookup_cons, ih, beq_eq_false_iff_ne.2 hq]

theorem get?_remove {p q : Place} (d : Disk) (hp : p ≠ []) :
    (d.remove p).get? q = if q = p then none else d.get? q := by
  by_cases hq : q = []
  · simp [get?, hq, Ne.symm hp]
  · simp [get?, hq, remove, lookup_filter_ne]

theorem get?_put {p q : Place} {n : Node} (d : Disk) (hp : p ≠ []) :
    (d.put p n).get? q = if q = p then some n else d.get? q := by
  by_cases hq : q = []
  · simp [get?, hq, Ne.symm hp]
  · by_cases h : q = p
    · simp [get?, put, h, hp]
    · simp [get?, hq, put, remove, h, List.lookup_cons, beq_eq_false_iff_ne.2 h, lookup_filter_ne]

def pass (d : Disk) (here : Place) : List Text → Except Fault Unit
  | [] => .ok ()
  | part :: rest =>
    if Place.tooLong part then .error .nameTooLong
    else match d.get? (Place.step here part) with
      | none => .error .missing
      | some (.file _) => .error .notDirectory
      | some .directory => d.pass (Place.step here part) rest

def start (d : Disk) (path : Text) : Place := if Place.isAbsolute path then [] else d.here

def place (d : Disk) (path : Text) : Place := Place.follow (d.start path) path

/-- Follows a path to where its last part is looked up. -/
def reach (d : Disk) (path : Text) : Except Fault Unit :=
  if Char.ofNat 0 ∈ path then .error .nulInName
  else if path = [] then .error .missing
  else if Place.pathTooLong path then .error .nameTooLong
  else match d.pass (d.start path) (Place.way path) with
    | .error fault => .error fault
    | .ok () => if Place.tooLong (Place.last path) then .error .nameTooLong else .ok ()

def look (d : Disk) (path : Text) : Except Fault Node :=
  match d.reach path with
  | .error fault => .error fault
  | .ok () =>
    match d.get? (d.place path) with
    | none => .error .missing
    | some .directory => .ok .directory
    | some (.file content) =>
      if Place.endsInSlash path then .error .notDirectory else .ok (.file content)

def probe (d : Disk) (path : Text) : Probe :=
  match d.look path with
  | .ok (.file _) => .file
  | .ok .directory => .other
  | .error _ => .missing

def encode (t : Text) : ByteArray := (String.ofList t).toUTF8

def decode? (content : ByteArray) : Option Text := (String.fromUTF8? content).map String.toList

def readText (d : Disk) (path : Text) : Except DiskError Text :=
  match d.look path with
  | .error fault => .error ⟨path, fault⟩
  | .ok .directory => .error ⟨path, .isDirectory⟩
  | .ok (.file content) =>
    match decode? content with
    | some t => .ok t
    | none => .error ⟨path, .notText⟩

def pathFrom? (here p : Place) : Option Text :=
  if here.isPrefixOf p && p != here then some (List.intercalate ['/'] (p.drop here.length))
  else none

def inOrder (s t : Text) : Bool := !List.lex t s fun c e => c.toNat < e.toNat

def listing (d : Disk) : List (Text × Node) :=
  (d.nodes.filterMap fun (p, n) => (pathFrom? d.here p).map (·, n)).mergeSort
    fun a b => inOrder a.1 b.1

end Disk
end BuildFile
