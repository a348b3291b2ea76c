import CoolCompiler.Grammar.Program
import CoolCompiler.Import.Expansion

/-!
# Inputs

The program of several input files.  Each brings the files it needs before it, and a file that comes
up again is passed over.
-/

namespace CoolCompiler.Command

inductive InputFault where
  | unreadable (path : Text) (fault : FileFault)
  | notImported (fault : ImportFault)
  deriving DecidableEq, Repr

namespace InputFault

def message : InputFault → Text
  | .unreadable path fault => "cannot read " ++ path ++ ": " ++ fault.message
  | .notImported fault => fault.message

end InputFault

def sourcesOfInput (t : FileTree) (path : Text) : Except InputFault (List Source) :=
  match t.read path with
  | .error fault => .error (.unreadable path fault)
  | .ok contents =>
    match Import.expand t path contents with
    | .error fault => .error (.notImported fault)
    | .ok sources => .ok sources

def sourcesOfInputs (t : FileTree) : List Text → Except InputFault (List Source)
  | [] => .ok []
  | path :: paths =>
    match sourcesOfInput t path with
    | .error fault => .error fault
    | .ok sources =>
      match sourcesOfInputs t paths with
      | .error fault => .error fault
      | .ok more => .ok (sources ++ more)

/-- Sources without those whose file has come up before. -/
def firstSources (seen : List (List Text)) : List Source → List Source
  | [] => []
  | s :: rest =>
    if Path.key s.path ∈ seen then firstSources seen rest
    else s :: firstSources (Path.key s.path :: seen) rest

def parseSources (sources : List Source) : Program × List Text :=
  let parsed := sources.map (fun s => (s.path, Grammar.parse s.path s.text))
  (parsed.flatMap (fun p => p.2.classes), parsed.flatMap (fun p => p.2.messages p.1))

/-- The program that several inputs make up and what is wrong with its syntax. -/
def readProgram (t : FileTree) (paths : List Text) : Except InputFault (Program × List Text) :=
  (sourcesOfInputs t paths).map (fun sources => parseSources (firstSources [] sources))

end CoolCompiler.Command
