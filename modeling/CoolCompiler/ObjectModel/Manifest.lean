import CoolCompiler.ObjectModel.ClassTable

/-!
# Manifest

The object model as declarations of LLVM IR, without code: for each class a structure type, its
dispatch table, its prototype and its name, and the tables that are indexed by tag.
-/

namespace CoolCompiler

namespace Manifest

/-!
# Names
-/

def isBare (b : UInt8) : Bool :=
  (48 ≤ b && b ≤ 57) || (65 ≤ b && b ≤ 90) || (97 ≤ b && b ≤ 122) ||
    b == 36 || b == 45 || b == 46 || b == 95

def isQuotable (b : UInt8) : Bool :=
  32 ≤ b && b ≤ 126 && b != 34 && b != 92

def hexDigit (n : Nat) : UInt8 :=
  if n < 10 then (48 + n).toUInt8 else (55 + n).toUInt8

/-- A text between quotes; a byte that may not stand there is written in hexadecimal. -/
def quoted (t : Text) : Text :=
  [34] ++ t.flatMap (fun b =>
    if isQuotable b then [b] else [92, hexDigit (b.toNat / 16), hexDigit (b.toNat % 16)]) ++ [34]

def identifier (t : Text) : Text :=
  if t.all isBare then t else quoted t

/-!
# Types and constants
-/

/-- A type.  A routine takes pointers to objects, the receiver first, and returns
one. -/
inductive IrType where
  | byte
  | word
  | pointer (target : IrType)
  | array (length : Nat) (element : IrType)
  | struct (fields : List IrType)
  | named (name : Name) (fields : List IrType)
  | routine (formals : Nat)

def IrType.any : IrType := .pointer .byte

mutual

def IrType.text : IrType → Text
  | .byte => "i8"
  | .word => "i16"
  | .pointer t => t.text ++ "*"
  | .array n t => "[" ++ Text.decimal n ++ " x " ++ t.text ++ "]"
  | .struct fields => "\x7b " ++ Text.join ", " (IrType.texts fields) ++ " \x7d"
  | .named [] fields => "\x7b " ++ Text.join ", " (IrType.texts fields) ++ " \x7d"
  | .named name _ => "%" ++ identifier name
  | .routine formals => "i8* (" ++ Text.join ", " (List.replicate (formals + 1) "i8*") ++ ")"

def IrType.texts : List IrType → List Text
  | [] => []
  | t :: ts => t.text :: IrType.texts ts

end

inductive IrConst where
  | int (n : Int)
  | null
  | noChars
  | chars (s : Text)
  | cast (target : IrType) (symbol : Name)
  | array (element : IrType) (items : List IrConst)
  | struct (type : IrType) (items : List IrConst)

def IrConst.type : IrConst → IrType
  | .int _ => .word
  | .null => .any
  | .noChars => .array 1 .byte
  | .chars s => .array s.length .byte
  | .cast _ _ => .any
  | .array element items => .array items.length element
  | .struct type _ => type

mutual

def IrConst.value : IrConst → Text
  | .int n => Text.ofInt n
  | .null => "null"
  | .noChars => "zeroinitializer"
  | .chars s => "c" ++ quoted s
  | .cast target symbol =>
    "bitcast (" ++ (IrType.pointer target).text ++ " @" ++ identifier symbol ++ " to i8*)"
  | .array _ items => "[" ++ Text.join ", " (IrConst.typedValues items) ++ "]"
  | .struct _ items => "\x7b " ++ Text.join ", " (IrConst.typedValues items) ++ " \x7d"

def IrConst.typedValues : List IrConst → List Text
  | [] => []
  | c :: cs => (c.type.text ++ " " ++ c.value) :: IrConst.typedValues cs

end

structure Global where
  name : Name
  isConstant : Bool
  value : IrConst

structure Routine where
  name : Name
  formals : Nat

end Manifest

structure Manifest where
  types : List (Name × List Manifest.IrType)
  globals : List Manifest.Global
  routines : List Manifest.Routine

namespace Manifest

/-!
# Building
-/

/-- The type and the first value of a slot.  A raw slot is a word, except for the
characters of a string. -/
def slotConst (s : Slot) : IrConst :=
  if s.isPrim then if s.owner = Name.string then .noChars else .int 0 else .null

def arity (t : ClassTable) (e : DispatchEntry) : Nat :=
  match t.find? e.impl with
  | none => 0
  | some n =>
    match n.decl.methods.find? (fun m => m.name == e.name) with
    | some m => m.formals.length
    | none => 0

/-- The methods with the method of an entry declared, unless its label is. -/
def declare (t : ClassTable) (methods : List Routine) (e : DispatchEntry) : List Routine :=
  if methods.any (fun r => r.name == e.label) then methods
  else methods ++ [⟨e.label, arity t e⟩]

def entryConst (methods : List Routine) (e : DispatchEntry) : IrConst :=
  let formals := ((methods.find? (fun r => r.name == e.label)).map Routine.formals).getD 0
  .cast (.routine formals) e.label

def fieldTypes (n : ClassNode) : List IrType :=
  [.word, .word, .any] ++ n.layout.map (fun s => (slotConst s).type)

def classType (n : ClassNode) : IrType := .named n.name (fieldTypes n)

def dispatchConst (methods : List Routine) (n : ClassNode) : IrConst :=
  .array .any (n.dispatch.map (entryConst methods))

def prototypeConst (n : ClassNode) : IrConst :=
  .struct (classType n)
    ([.int n.tag, .int n.objectSize,
      .cast (.array n.dispatch.length .any) n.dispatchLabel] ++ n.layout.map slotConst)

def nameLabel (n : ClassNode) : Name := n.name ++ "_name"

def nameBytes (n : ClassNode) : Text := n.name ++ [0]

def classGlobals (methods : List Routine) (n : ClassNode) : List Global :=
  [⟨n.dispatchLabel, true, dispatchConst methods n⟩,
   ⟨n.prototypeLabel, false, prototypeConst n⟩,
   ⟨nameLabel n, true, .chars (nameBytes n)⟩]

/-- The methods met so far, all routines in order, and the globals of classes. -/
def classesFrom (t : ClassTable) :
    List Routine → List ClassNode → List Routine × List Global
  | _, [] => ([], [])
  | methods, n :: ns =>
    let known := n.dispatch.foldl (declare t) methods
    let new := known.drop methods.length
    let (routines, globals) := classesFrom t known ns
    (new ++ [⟨n.initLabel, 0⟩] ++ routines, classGlobals known n ++ globals)

def objectRow (n : ClassNode) : IrConst :=
  .struct (.struct [.any, .any])
    [.cast (classType n) n.prototypeLabel, .cast (.routine 0) n.initLabel]

def nameRow (n : ClassNode) : IrConst :=
  .cast (.array (nameBytes n).length .byte) (nameLabel n)

def treeRow (r : ClassTable.TreeRow) : IrConst :=
  .struct (.struct [.word, .word]) [.int r.tag, .int r.delta]

def tables (t : ClassTable) : List Global :=
  [⟨"class_objTab", false, .array (.struct [.any, .any]) (t.nodes.map objectRow)⟩,
   ⟨"class_nameTab", false, .array .any (t.nodes.map nameRow)⟩,
   ⟨"inheritance_tree", false, .array (.struct [.word, .word]) (t.tree.map treeRow)⟩]

def ofTable (t : ClassTable) : Manifest :=
  let (routines, globals) := classesFrom t [] t.nodes
  ⟨t.nodes.map (fun n => (n.name, fieldTypes n)), globals ++ tables t, routines⟩

/-!
# Writing
-/

def typeLine (name : Name) (fields : List IrType) : Text :=
  (IrType.named name fields).text ++ " = type " ++ (IrType.struct fields).text ++ "\n"

def Global.line (g : Global) : Text :=
  "@" ++ identifier g.name ++ " = " ++ (if g.isConstant then "constant " else "global ") ++
    g.value.type.text ++ " " ++ g.value.value ++ "\n"

def Routine.line (r : Routine) : Text :=
  "declare i8* @" ++ identifier r.name ++ "(" ++
    Text.join ", " ("i8* %self" ::
      (List.range r.formals).map (fun i => "i8* %arg" ++ Text.decimal i)) ++ ")\n"

def text (m : Manifest) : Text :=
  "source_filename = \"coolz80\"\n\n" ++
    m.types.flatMap (fun t => typeLine t.1 t.2) ++ "\n" ++
    m.globals.flatMap Global.line ++ "\n" ++
    Text.join "\n" (m.routines.map Routine.line)

end Manifest

end CoolCompiler
