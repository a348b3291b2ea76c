import CoolCompiler.Command.Options
import CoolCompiler.Files.Path

/-!
# Output files

Where the output goes, and how the assembly refers to the file of dispatch tables.
-/

namespace CoolCompiler.Command

/-- The assembly file that is written for an input unless another one is named. -/
def assemblyFor (input : Text) : Text :=
  Text.withoutEnd (Path.extension input) input ++ ".s"

/-- Where dispatch tables go: next to the assembly, unless the path says otherwise. -/
def tablesPath (output tables : Text) : Text :=
  if tables = [] ∨ Path.isAbsolute tables then tables
  else Path.join (Path.directory output) tables

/-- How the assembly names the file of dispatch tables. -/
def tablesInclude (output tables : Text) : Text :=
  if tables = [] then []
  else
    let path := tablesPath output tables
    (Path.relative? (Path.directory output) path).getD path

namespace Options

def assembly (o : Options) : Text :=
  if o.output = [] then assemblyFor (o.inputs.headD []) else o.output

def written (o : Options) : List Text :=
  [o.assembly, tablesPath o.assembly o.tables, o.manifest].filter (fun path => path ≠ [])

end Options

end CoolCompiler.Command
