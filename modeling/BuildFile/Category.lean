import BuildFile.Text
/-! The categories of managed items. Each has a region of its own; the order of `all` is the order
in which requests are checked, applied and reported. -/
namespace BuildFile

inductive Category where
  | sources | headers | exports | definitions | subdirs | linkLibraries
  deriving DecidableEq

namespace Category

def all : List Category := [sources, headers, exports, definitions, subdirs, linkLibraries]

theorem mem_all (c : Category) : c ∈ all := by cases c <;> decide

def text : Category → Text
  | sources => "sources"
  | headers => "headers"
  | exports => "exports"
  | definitions => "definitions"
  | subdirs => "subdirs"
  | linkLibraries => "link-libraries"

def region : Category → Text
  | exports => "library-exports"
  | c => c.text

theorem region_injective {c d : Category} (h : c.region = d.region) : c = d := by
  cases c <;> cases d <;> first | rfl | exact absurd h (by decide)

def needsTarget : Category → Bool
  | definitions | linkLibraries => true
  | _ => false

end Category

/-! Kinds of project. A build file declares its kind by a marker region; the kind decides which
categories the file may hold. -/

inductive ProjectKind where
  | rootProject | executable | library
  deriving DecidableEq

namespace ProjectKind

def all : List ProjectKind := [rootProject, executable, library]

theorem mem_all (k : ProjectKind) : k ∈ all := by cases k <;> decide

def text : ProjectKind → Text
  | rootProject => "rootproject"
  | executable => "executable"
  | library => "library"

def ofText? (t : Text) : Option ProjectKind := all.find? (·.text == t)

def marker (k : ProjectKind) : Text := "type-".toList ++ k.text

def allows : ProjectKind → Category → Bool
  | _, .subdirs => true
  | rootProject, _ => false
  | executable, .exports => false
  | _, _ => true

end ProjectKind

end BuildFile
