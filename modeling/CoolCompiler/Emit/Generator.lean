import CoolCompiler.Emit.Constants
import CoolCompiler.Emit.Data
import CoolCompiler.Emit.Routine

/-!
# Code generation

A generator takes programs one after another; constants keep their numbers, and local labels are
counted on.
-/

namespace CoolCompiler

/-- What a generator keeps between programs, and the name under which assembly includes a file of
dispatch tables. -/
structure Generator where
  tableFile : Text
  table : Option ClassTable
  pool : Pool
  labels : Nat

inductive GenerationFailure where
  | fault (f : Fault)
  | tablesNotWritten
  | assemblyNotWritten
  deriving DecidableEq, Repr

namespace GenerationFailure

def message : GenerationFailure → Text
  | .fault (.internal owner cause) => Fault.internalMessage owner cause
  | .fault _ => "incomplete program"
  | .tablesNotWritten => "writing dispatch tables: " ++ Sink.fullMessage
  | .assemblyNotWritten => "writing assembly: " ++ Sink.fullMessage

end GenerationFailure

/-- What arrived in the sinks, how many lines of assembly come before the dispatch tables, what was
noted, and the failure if there was one. -/
structure Generated where
  generator : Generator
  assembly : List Line
  tables : List Line
  opening : Nat
  notes : List EmitNote
  failure : Option GenerationFailure

namespace Emit

def afterTables (sc : Scene) : Emit Nat Unit := do
  classTables sc
  initRoutines sc
  allMethods sc

def inlineProgram (sc : Scene) : Emit Nat Unit := do
  beforeTables sc none
  lines (dispatchTables sc.table)
  afterTables sc

def splitProgram (sc : Scene) (tableFile : Text) : Emit Nat Unit := do
  beforeTables sc (some tableFile)
  afterTables sc

end Emit

namespace Generator

def defaultTableFile : Text := "disptab.z80"

def fresh (tableFile : Text) : Generator :=
  ⟨if tableFile = [] then defaultTableFile else tableFile, none, Pool.empty, 0⟩

def finish (g : Generator) (sink : Sink) (tables : List Line) (opening : Nat)
    (notes : List EmitNote) (e : Emitted Nat Unit) : Generated :=
  let (sink, arrived) := sink.writeAll e.lines
  let g := { g with labels := e.state }
  let notes := notes ++ e.notes
  match e.outcome with
  | .error fault => ⟨g, arrived, tables, opening, notes, some (.fault fault)⟩
  | .ok () =>
    if sink.failed then ⟨g, arrived, tables, opening, notes, some .assemblyNotWritten⟩
    else ⟨g, arrived, tables, opening, notes ++ [.generated sink.count g.labels], none⟩

/-- Generates the code of a program into a sink for assembly and perhaps one for dispatch tables.
If the latter has no room, no routine is written. -/
def run (g : Generator) (p : Program) (sink : Sink) (tableSink : Option Sink) : Generated :=
  match ClassTable.build p with
  | .error fault => ⟨g, [], [], 0, [], some (.fault fault)⟩
  | .ok table =>
    let pool := g.pool.collect table
    let g := { g with table := some table, pool := pool }
    let sc : Emit.Scene := ⟨table, pool⟩
    let notes : List EmitNote :=
      [.tableBuilt table.size, .constantsInterned pool.strings.size pool.ints.size]
    match tableSink with
    | none => g.finish sink [] 0 notes (Emit.inlineProgram sc g.labels)
    | some tableSink =>
      let before := Emit.beforeTables sc (some g.tableFile) g.labels
      let opening := before.lines.length
      match before.outcome with
      | .error fault =>
        ⟨g, (sink.writeAll before.lines).2, [], opening, notes, some (.fault fault)⟩
      | .ok () =>
        let (tableSink, tables) := tableSink.writeAll (Emit.dispatchTables table)
        if tableSink.failed then
          ⟨g, (sink.writeAll before.lines).2, tables, opening, notes, some .tablesNotWritten⟩
        else g.finish sink tables opening notes (Emit.splitProgram sc g.tableFile g.labels)

end Generator

end CoolCompiler
