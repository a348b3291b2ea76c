import CoolCompiler.Command.Inputs
import CoolCompiler.Command.Outputs
import CoolCompiler.Emit.Generator
import CoolCompiler.Files.Stream
import CoolCompiler.Log.Logger
import CoolCompiler.ObjectModel.Manifest
import CoolCompiler.ObjectModel.Summary
import CoolCompiler.Syntax.Outline
import CoolCompiler.Typing.Analysis

/-!
# Running the compiler

A run takes arguments and a file tree, and gives an exit status, what it prints and the files as it
leaves them.  The first phase that fails is the last.
-/

namespace CoolCompiler.Command

/-- Something printed on the error channel: a text, or a record of the log, which is
stamped when it is written. -/
inductive Message where
  | text (t : Text)
  | record (format : LogFormat) (r : LogRecord)
  deriving DecidableEq, Repr

namespace Message

def write (stamp : Stamp) : Message → Text
  | .text t => t
  | .record format r => format.write stamp r

def line (t : Text) : Message := .text (t ++ "\n")

end Message

structure Outcome where
  status : Nat
  output : Text
  messages : List Message
  files : FileTree

namespace Outcome

def stop (status : Nat) (messages : List Message) (t : FileTree) : Outcome :=
  ⟨status, [], messages, t⟩

def after (output : Text) (messages : List Message) (o : Outcome) : Outcome :=
  { o with output := output ++ o.output, messages := messages ++ o.messages }

end Outcome

/-!
# Log
-/

def logger (o : Options) (format : LogFormat) : Logger :=
  ⟨if o.verbose then .debug else if o.showTable then .info else Logger.usualLevel, some format⟩

def logged (l : Logger) (rs : List LogRecord) : List Message :=
  match l.format with
  | some f => (rs.filter l.passes).map (Message.record f)
  | none => []

def analysisRecord : AnalysisNote → LogRecord
  | .registering name parent =>
    .debug "registering class" [.text "class", .text name, .text "parent", .text parent]
  | .diagnosed d => .diagnostic "semant" d.message

def emitRecord : EmitNote → LogRecord
  | .tableBuilt classes => .debug "class table built" [.text "classes", .int classes]
  | .constantsInterned strings ints =>
    .debug "constants interned" [.text "strings", .int strings, .text "ints", .int ints]
  | .method label temps formals =>
    .debug "method"
      [.text "label", .text label, .text "temps", .int temps, .text "formals", .int formals]
  | .generated lines labels =>
    .debug "code generated" [.text "lines", .int lines, .text "labels", .int labels]

def ignoredRecord (name : Text) : LogRecord :=
  .debug "flag has no effect" [.text "flag", .text name]

/-!
# Writing files
-/

def cannotOpen (path : Text) : Message := .line ("cannot open output file " ++ path)

/-- Writes the assembly up to the dispatch tables, then the tables, then the rest; what waits in the
streams is passed on only if generation succeeded. -/
def writeGenerated (t : FileTree) (assembly : List Text) (tables : Option (List Text))
    (g : Generated) : FileTree :=
  let texts := g.assembly.map Line.text
  let main := Stream.fresh assembly
  match tables with
  | none =>
    let (t, main) := main.writeAll t texts
    if g.failure.isSome then t else (main.flush t).1
  | some tables =>
    let (t, main) := main.writeAll t (texts.take g.opening)
    let (t, side) := (Stream.fresh tables).writeAll t (g.tables.map Line.text)
    let (t, main) := main.writeAll t (texts.drop g.opening)
    if g.failure.isSome then t
    else
      let (t, _) := side.flush t
      (main.flush t).1

def openTables (t : FileTree) (path : Text) : Except FileFault (Option (List Text) × FileTree) :=
  if path = [] then .ok (none, t)
  else (t.create path).map (fun r => (some r.1, r.2))

/-!
# Phases
-/

def emitManifest (o : Options) (t : FileTree) (table : ClassTable) : Outcome :=
  if o.manifest = [] then .stop 0 [] t
  else
    match t.create o.manifest with
    | .error fault => .stop 1 [.line ("cannot write LLVM manifest: " ++ fault.message)] t
    | .ok (file, t) => .stop 0 [] (t.put file (Manifest.ofTable table).text)

def failureMessages (l : Logger) : GenerationFailure → List Message
  | .fault (.internal owner cause) =>
    logged l [.error "code generation failed" [.text "error", .text cause.message]] ++
      [.line (GenerationFailure.fault (.internal owner cause)).message]
  | f => [.line f.message]

/-- What follows generated code: the class table on request, and the object model. -/
def afterGeneration (l : Logger) (o : Options) (t : FileTree) (g : Generated) : Outcome :=
  let records := logged l (g.notes.map emitRecord)
  match g.failure, g.generator.table with
  | some f, _ => .stop 1 (records ++ failureMessages l f) t
  | none, none => .stop 1 records t
  | none, some table =>
    let completed := logged l [.phaseCompleted "codegen"
      [.text "labels", .int g.generator.labels, .text "strings", .int g.generator.pool.strings.size,
       .text "ints", .int g.generator.pool.ints.size]]
    let dump := if o.showTable then table.summaries.map Message.text else []
    (emitManifest o t table).after [] (records ++ completed ++ dump)

def generate (l : Logger) (o : Options) (t : FileTree) (p : Program) : Outcome :=
  let output := o.assembly
  let started := logged l [.phaseStarted "codegen" [.text "output", .text output]]
  match t.create output with
  | .error _ => .stop 1 (started ++ [cannotOpen output]) t
  | .ok (assembly, t) =>
    let path := tablesPath output o.tables
    match openTables t path with
    | .error _ => .stop 1 (started ++ [cannotOpen path]) t
    | .ok (tables, t) =>
      let g := (Generator.fresh (tablesInclude output o.tables)).run p (Sink.fresh none)
        (tables.map (fun _ => Sink.fresh none))
      (afterGeneration l o (writeGenerated t assembly tables g) g).after [] started

def analyse (l : Logger) (o : Options) (t : FileTree) (p : Program) : Outcome :=
  let started := logged l [.phaseStarted "semant" []]
  match Analysis.fresh.run p with
  | .error _ => .stop 2 started t
  | .ok a =>
    let records := logged l (a.notes.map analysisRecord)
    let found := a.analysis.diagnostics.map (fun d => Message.line d.message)
    if found = [] then
      (generate l o t a.program).after []
        (started ++ records ++ logged l [.phaseCompleted "semant" []])
    else
      .stop 1 (started ++ records ++ found ++
        [.line "Compilation halted due to static semantic errors."]) t

def compile (l : Logger) (o : Options) (t : FileTree) : Outcome :=
  let started := logged l [.phaseStarted "parse" [.text "files", .int o.inputs.length]]
  match readProgram t o.inputs with
  | .error fault => .stop 1 (started ++ [.line fault.message]) t
  | .ok (p, errors) =>
    if errors = [] then
      (analyse l o t p).after (if o.showTree then Program.outline p else [])
        (started ++ logged l [.phaseCompleted "parse" [.text "classes", .int p.length]])
    else
      .stop 1 (started ++ errors.map Message.line ++
        [.line "Compilation halted due to lex and parse errors"]) t

def run (args : List Text) (t : FileTree) : Outcome :=
  match options args with
  | .error fault => .stop fault.status [.text (fault.message ++ usage)] t
  | .ok o =>
    match LogFormat.ofName? o.logFormat with
    | none => .stop 1 [.line (LogFormat.unknownMessage o.logFormat)] t
    | some format =>
      let l := logger o format
      let ignored := Options.withoutEffect.filter o.ignored.contains
      (compile l o t).after [] (logged l (ignored.map ignoredRecord))

end CoolCompiler.Command
