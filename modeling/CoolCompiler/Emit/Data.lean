import CoolCompiler.Emit.Expression

/-!
# Data

What stands before the routines: includes, constants, prototypes and the tables that are indexed by
tag.
-/

namespace CoolCompiler.Emit

variable {σ : Type}

/-!
# Header
-/

def definitionFiles : List Text := ["ti83plus.inc", "cool.inc", "app.inc"]

def libraryFiles : List Text :=
  ["boot.z80", "memory.z80", "display.z80", "keyboard.z80", "misc.z80", "Object.z80", "IO.z80",
   "math.z80", "String.z80"]

/-- The header; the dispatch tables may be in a file of their own. -/
def header (tables : Option Text) : List Line :=
  definitionFiles.map Line.includeFile ++ [.raw "defpage(0)", .instr (.jp .always "_start")] ++
    libraryFiles.map Line.includeFile ++ tables.toList.map Line.includeFile

/-!
# Static objects
-/

/-- The word before a static object. -/
def eyeCatcher : Int := -1

/-- A static object: a word that marks it, its label, its header and its contents. -/
def staticObject (label : Name) (n : ClassNode) (size : Nat) (contents : List Line) : List Line :=
  [.number eyeCatcher, .label label, .number n.tag, .number size, .word ⟨n.dispatchLabel, 0⟩] ++
    contents

/-- The size of a string object: its header, its length, its bytes and a zero byte. -/
def stringSize (s : Text) : Nat := headerSize + wordSize + s.length + 1

def stringObject (n : ClassNode) (e : Entry Text) (length : Address) : List Line :=
  staticObject (stringLabel e.id) n (stringSize e.value) [.word length, .string e.value]

def stringObjects (sc : Scene) (n : ClassNode) : List (Entry Text) → Emit σ Unit
  | [] => done ()
  | e :: es => do
      let length ← intConst sc [] e.value.length
      lines (stringObject n e length)
      stringObjects sc n es

def intObject (n : ClassNode) (i : Nat) (value : Int) : List Line :=
  staticObject (intLabel i) n n.objectSize [.number value]

def boolObject (n : ClassNode) (b : Bool) : List Line :=
  staticObject (boolLabel b) n n.objectSize [.number (if b then 1 else 0)]

def prototype (zero : Address) (n : ClassNode) : List Line :=
  if n.name = Name.string then
    staticObject n.prototypeLabel n (stringSize []) [.word zero, .string []]
  else
    staticObject n.prototypeLabel n n.objectSize (List.replicate n.layout.length (.number 0))

/-!
# Tables
-/

def tagWord (sc : Scene) (label name : Name) : Emit σ Unit := do
  let n ← basicClass sc [] name
  lines [.label label, .number n.tag]

def constants (sc : Scene) : Emit σ Unit := do
  let string ← basicClass sc [] Name.string
  stringObjects sc string sc.pool.strings.entries
  let int ← basicClass sc [] Name.int
  lines (sc.pool.ints.entries.flatMap fun e => intObject int e.id e.value)
  let bool ← basicClass sc [] Name.bool
  lines (boolObject bool false ++ boolObject bool true)

def prototypes (sc : Scene) : Emit σ Unit := do
  let zero ← intConst sc [] 0
  lines (sc.table.nodes.flatMap (prototype zero))

def dispatchTable (n : ClassNode) : List Line :=
  .label n.dispatchLabel :: n.dispatch.map (fun e => .word ⟨e.label, 0⟩)

def dispatchTables (t : ClassTable) : List Line :=
  t.preorder.flatMap dispatchTable

def objectTable (t : ClassTable) : List Line :=
  .label classObjectTable ::
    t.nodes.flatMap (fun n => [.word ⟨n.prototypeLabel, 0⟩, .word ⟨n.initLabel, 0⟩])

def nameWords (sc : Scene) : List ClassNode → Emit σ Unit
  | [] => done ()
  | n :: ns => do
      let name ← stringConst sc [] n.name
      lines [.word name]
      nameWords sc ns

def nameTable (sc : Scene) : Emit σ Unit := do
  lines [.label classNameTable]
  nameWords sc sc.table.nodes

def treeTable (t : ClassTable) : List Line :=
  .label inheritanceTree :: t.tree.flatMap (fun row => [.number row.tag, .number row.delta])

/-- What stands before the dispatch tables. -/
def beforeTables (sc : Scene) (tables : Option Text) : Emit σ Unit := do
  lines (header tables)
  tagWord sc "_int_tag" Name.int
  tagWord sc "_bool_tag" Name.bool
  tagWord sc "_string_tag" Name.string
  constants sc
  prototypes sc

def classTables (sc : Scene) : Emit σ Unit := do
  lines (objectTable sc.table)
  nameTable sc
  lines (treeTable sc.table)

end CoolCompiler.Emit
