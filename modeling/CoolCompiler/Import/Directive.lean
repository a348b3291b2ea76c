import CoolCompiler.Files.Path
import CoolCompiler.Text.Fold

/-!
# Directives

A line of a source file may name a file that it needs, or a module.  Such a line is not part of the
program.
-/

namespace CoolCompiler

/-- What a line says to the reader of files. -/
inductive Directive where
  | needs (file : Text)
  | moduleName
  deriving DecidableEq, Repr

namespace Directive

/-- The ending of files that other files need. -/
def ending : Text := ".cool"

/-- Whether a byte may stand around the name of a file. -/
def isMargin (b : UInt8) : Bool := b == 32 || b == 34 || b == 59

/-- The file that a line names after its keyword. -/
def fileNamed (rest : Text) : Text :=
  let name := Text.lower (Text.stripWhile isMargin rest)
  if ending.isSuffixOf name then name else name ++ ending

/-- The directive that a line is, if it is one. -/
def ofLine? (line : Text) : Option Directive :=
  let line := Text.trim line
  if ("import " : Text).isPrefixOf line || ("import\"" : Text).isPrefixOf line then
    (Text.after? "import" line).map (fun rest => .needs (fileNamed rest))
  else if ("module " : Text).isPrefixOf line then some .moduleName
  else none

/-- The paths of the files that the lines of the file at a path need. -/
def targets (path : Text) (lines : List Text) : List Text :=
  lines.filterMap fun line =>
    match ofLine? line with
    | some (.needs file) => some (Path.join (Path.directory path) file)
    | _ => none

end Directive

end CoolCompiler
