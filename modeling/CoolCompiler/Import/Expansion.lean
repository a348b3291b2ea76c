import CoolCompiler.Files.Tree
import CoolCompiler.Import.Directive

/-!
# Expansion of imports

The sources that a file stands for: those it needs, before it, and itself.  Directives are blanked,
so that other lines keep their numbers.  A file appears once.
-/

namespace CoolCompiler

structure Source where
  path : Text
  text : Text
  deriving DecidableEq, Repr

/-- A file that cannot be read, and the line that needs it. -/
structure ImportFault where
  path : Text
  line : Nat
  file : Text
  fault : FileFault
  deriving DecidableEq, Repr

namespace ImportFault

def message (f : ImportFault) : Text :=
  f.path ++ ":" ++ Text.decimal f.line ++ ": cannot import " ++ f.file ++ ": " ++ f.fault.message

end ImportFault

namespace FileTree

/-!
# Files not yet seen

Every file that is expanded was not seen before, so the number of files not yet seen goes down.
-/

/-- Why a path that leads to no file cannot be read. -/
def faultAt (t : FileTree) (path : Text) : FileFault :=
  match t.read path with
  | .error fault => fault
  | .ok _ => ⟨"open", path, .missing⟩

/-- Reads the file that a path leads to when its components are taken for what they
mean. -/
def readClean (t : FileTree) (path : Text) : Except FileFault Text :=
  match t.contents? (Path.key path) with
  | some contents => .ok contents
  | none => .error (t.faultAt path)

/-- The number of files that are not among those seen. -/
def unseen (t : FileTree) (seen : List (List Text)) : Nat :=
  t.files.countP (fun f => !seen.contains f.1)

theorem unseen_cons_le (t : FileTree) (key : List Text) (seen : List (List Text)) :
    t.unseen (key :: seen) ≤ t.unseen seen := by
  apply List.countP_mono_left
  intro f _ h
  simp at h ⊢
  exact h.2

theorem countP_cons_lt (key : List Text) (seen : List (List Text)) (fresh : key ∉ seen)
    (contents : Text) (files : List (List Text × Text))
    (found : files.lookup key = some contents) :
    files.countP (fun f => !(key :: seen).contains f.1) <
      files.countP (fun f => !seen.contains f.1) := by
  induction files with
  | nil => simp at found
  | cons f rest ih =>
    cases f with
    | mk k c =>
      by_cases same : k = key
      · have le := unseen_cons_le ⟨rest, []⟩ key seen
        simp only [unseen] at le
        have now : (!seen.contains k) = true := by simp [same, fresh]
        have later : (!(key :: seen).contains k) = false := by simp [same]
        rw [List.countP_cons, List.countP_cons, now, later]
        simp only [if_true, Bool.false_eq_true, if_false]
        omega
      · have other : (key == k) = false := by
          simp only [beq_eq_false_iff_ne]
          exact fun h => same h.symm
        have found : rest.lookup key = some contents := by
          rw [List.lookup_cons, other] at found
          exact found
        have lt := ih found
        have agree : (!(key :: seen).contains k) = (!seen.contains k) := by simp [same]
        rw [List.countP_cons, List.countP_cons]
        dsimp only
        rw [agree]
        omega

theorem unseen_cons_lt (t : FileTree) (path contents : Text) (seen : List (List Text))
    (fresh : Path.key path ∉ seen) (found : t.readClean path = .ok contents) :
    t.unseen (Path.key path :: seen) < t.unseen seen := by
  unfold readClean at found
  split at found
  · next c h => exact countP_cons_lt _ _ fresh c _ h
  · simp at found

end FileTree

/-!
# Expansion
-/

/-- What the lines of a file expand to: the lines with directives blanked, the sources
they need, and the files seen by then. -/
structure Expanded (t : FileTree) (before : List (List Text)) where
  lines : List Text
  sources : List Source
  seen : List (List Text)
  fewer : t.unseen seen ≤ t.unseen before

namespace Expanded

variable {t : FileTree} {before : List (List Text)}

def nothing : Expanded t before := ⟨[], [], before, Nat.le_refl _⟩

def withLine (line : Text) (e : Expanded t before) : Expanded t before :=
  { e with lines := line :: e.lines }

/-- Sources in front, and the state that their expansion started from. -/
def withSources {after : List (List Text)} (sources : List Source) (e : Expanded t after)
    (fewer : t.unseen after ≤ t.unseen before) : Expanded t before :=
  ⟨e.lines, sources ++ e.sources, e.seen, Nat.le_trans e.fewer fewer⟩

/-- The sources of a file with the given path: those it needs and the file itself. -/
def sourcesOf (path : Text) (e : Expanded t before) : List Source :=
  e.sources ++ [⟨path, Text.join [10] e.lines⟩]

end Expanded

def Text.lines (t : Text) : List Text := Text.splitAt 10 t

namespace Import

/-- Expands the lines of the file at a path, of which the first has number `n`. -/
def expandLines (t : FileTree) (path : Text) (n : Nat) (seen : List (List Text)) :
    List Text → Except ImportFault (Expanded t seen)
  | [] => .ok .nothing
  | line :: rest =>
    match Directive.ofLine? line with
    | none => (expandLines t path (n + 1) seen rest).map (Expanded.withLine line)
    | some .moduleName => (expandLines t path (n + 1) seen rest).map (Expanded.withLine [])
    | some (.needs file) =>
      let target := Path.join (Path.directory path) file
      match found : t.readClean target with
      | .error fault => .error ⟨path, n, file, fault⟩
      | .ok contents =>
        if old : Path.key target ∈ seen then
          (expandLines t path (n + 1) seen rest).map (Expanded.withLine [])
        else
          have lt := t.unseen_cons_lt target contents seen old found
          match expandLines t target 1 (Path.key target :: seen) contents.lines with
          | .error fault => .error fault
          | .ok needed =>
            have le := Nat.le_trans needed.fewer (Nat.le_of_lt lt)
            have := Nat.lt_of_le_of_lt needed.fewer lt
            (expandLines t path (n + 1) needed.seen rest).map
              (fun e => (e.withSources (needed.sourcesOf target) le).withLine [])
  termination_by lines => (t.unseen seen, lines.length)

/-- The sources that a file with the given contents stands for. -/
def expand (t : FileTree) (path contents : Text) : Except ImportFault (List Source) :=
  (expandLines t path 1 [Path.key path] contents.lines).map (Expanded.sourcesOf path)

end Import

end CoolCompiler
