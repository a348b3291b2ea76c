import CoolCompiler.ObjectModel.Fault
import CoolCompiler.Syntax.Builtin

/-!
# Class tables

The object model of a program.  The tag of a class is its place in the table, built-in classes
first.  Layouts and dispatch tables are filled in going down from the root: a class gets what its
parent has, followed by its own attributes, with its own methods put in place or added.
-/

namespace CoolCompiler

def headerSize : Nat := 3 * wordSize

/-- An attribute with its place in the objects of a class. -/
structure Slot where
  name : Name
  type : Name
  owner : Name
  offset : Nat
  deriving DecidableEq, Repr

namespace Slot

/-- Whether a slot holds a raw word, which no code initialises. -/
def isPrim (s : Slot) : Bool := s.type == Name.primSlot

end Slot

structure DispatchEntry where
  name : Name
  impl : Name
  owner : Name
  offset : Nat
  deriving DecidableEq, Repr

namespace DispatchEntry

def label (e : DispatchEntry) : Name := e.impl ++ "." ++ e.name

end DispatchEntry

structure ClassNode where
  decl : Class
  tag : Nat
  parent : Option Nat
  children : List Nat
  layout : List Slot
  objectSize : Nat
  dispatch : List DispatchEntry

namespace ClassNode

def name (n : ClassNode) : Name := n.decl.name

def isBasic (n : ClassNode) : Bool := Name.isBasic n.name

def isInheritable (n : ClassNode) : Bool := Name.isInheritable n.name

def slot? (n : ClassNode) (name : Name) : Option Slot :=
  n.layout.find? (fun s => s.name == name)

def ownSlots (n : ClassNode) : List Slot :=
  n.layout.filter (fun s => s.owner == n.name)

def entry? (n : ClassNode) (name : Name) : Option DispatchEntry :=
  n.dispatch.find? (fun e => e.name == name)

/-!
# Labels
-/

def prototypeLabel (n : ClassNode) : Name := n.name ++ "_protObj"

def initLabel (n : ClassNode) : Name := n.name ++ "_init"

def dispatchLabel (n : ClassNode) : Name := n.name ++ "_dispTab"

def methodLabel (n : ClassNode) (method : Name) : Name := n.name ++ "." ++ method

end ClassNode

structure ClassTable where
  nodes : List ClassNode

namespace ClassTable

/-!
# Looking up
-/

def size (t : ClassTable) : Nat := t.nodes.length

def find? (t : ClassTable) (name : Name) : Option ClassNode :=
  t.nodes.find? (fun n => n.name == name)

def parentOf? (t : ClassTable) (n : ClassNode) : Option ClassNode :=
  n.parent.bind (fun tag => t.nodes[tag]?)

def method (t : ClassTable) (c m : Name) : Except Fault DispatchEntry :=
  match t.find? c with
  | none => .error (.internal c (.unknownClass c))
  | some n =>
    match n.entry? m with
    | none => .error (.internal c (.noMethod m c))
    | some e => .ok e

/-- A tag and the tags above it, nearest first, at most `steps` of them. -/
def upwards (parents : List (Option Nat)) : Nat → Nat → List Nat
  | 0, _ => []
  | steps + 1, tag =>
    match parents[tag]? with
    | some (some parent) => tag :: upwards parents steps parent
    | _ => [tag]

def chain (t : ClassTable) (n : ClassNode) : List ClassNode :=
  (upwards (t.nodes.map ClassNode.parent) (t.size + 1) n.tag).filterMap (fun tag => t.nodes[tag]?)

/-- The number of steps from a class up to another, if it is above it. -/
def distance? (t : ClassTable) (sub super : Name) : Option Nat :=
  match t.find? sub with
  | none => none
  | some n => (t.chain n).findIdx? (fun a => a.name == super)

def isSubclass (t : ClassTable) (sub super : Name) : Bool :=
  (t.distance? sub super).isSome

/-- A class and the classes below it, parents first and children in the order of their
tags, down to a depth. -/
def below (t : ClassTable) : Nat → Nat → List ClassNode
  | 0, _ => []
  | depth + 1, tag =>
    match t.nodes[tag]? with
    | none => []
    | some n => n :: n.children.flatMap (below t depth)

def preorder (t : ClassTable) : List ClassNode :=
  t.below t.size 0

/-!
# Building
-/

/-- Whether a name is one that the compiler keeps for itself. -/
def isReserved (c : Name) : Bool :=
  c == Name.noClass || c == Name.selfType || c == Name.primSlot

/-- The first class whose name is reserved or taken by a class before it. -/
def nameFault? : List Name → List Class → Option Fault
  | _, [] => none
  | seen, c :: cs =>
    if isReserved c.name then some (.internal c.name (.reservedName c.name))
    else if c.name ∈ seen then some (.internal c.name (.definedTwice c.name))
    else nameFault? (c.name :: seen) cs

def tagOf? (classes : List Class) (name : Name) : Option Nat :=
  classes.findIdx? (fun c => c.name == name)

/-- The tag of the parent of a class; the root has none. -/
def parentTag (classes : List Class) (c : Class) : Except Fault (Option Nat) :=
  if c.name = Name.object then .ok none
  else
    match tagOf? classes c.parentName with
    | none => .error (.internal c.name (.undefinedParent c.parentName))
    | some tag =>
      if Name.isInheritable c.parentName then .ok (some tag)
      else .error (.internal c.name (.cannotInherit c.parentName))

def childrenOf (parents : List (Option Nat)) (tag : Nat) : List Nat :=
  (List.range parents.length).filter (fun t => parents[t]? == some (some tag))

def linkNode (parents : List (Option Nat)) (tag : Nat) (c : Class) : ClassNode :=
  ⟨c, tag, (parents[tag]?).join, childrenOf parents tag, [], 0, []⟩

/-- The table in which classes know their parents and children, and nothing else yet. -/
def link (classes : List Class) (parents : List (Option Nat)) : ClassTable :=
  ⟨classes.mapIdx (linkNode parents)⟩

/-- The first class from which the root cannot be reached.  It is looked for only if going down
from the root misses a class. -/
def unreachable? (t : ClassTable) : Option ClassNode :=
  if t.preorder.length = t.size then none
  else t.nodes.find? (fun n => !t.isSubclass n.name Name.object)

section Descent

variable {σ : Type} (enter : σ → Class → σ) (fill : σ → ClassNode → ClassNode)

/-- Goes down from a class, filling in every node.  What a class makes of what it is handed is
written into its node and handed to its children. -/
def descend : Nat → σ → List ClassNode → Nat → List ClassNode
  | 0, _, nodes, _ => nodes
  | depth + 1, inherited, nodes, tag =>
    match nodes[tag]? with
    | none => nodes
    | some n =>
      let own := enter inherited n.decl
      n.children.foldl (descend depth own) (nodes.set tag (fill own n))

end Descent

/-- The slots of a class so far and the offset of the next. -/
structure Layout where
  slots : List Slot
  next : Nat

namespace Layout

def add (owner : Name) (l : Layout) (a : Attribute) : Layout :=
  ⟨l.slots ++ [⟨a.name, a.type, owner, l.next⟩], l.next + wordSize⟩

def extend (l : Layout) (c : Class) : Layout := c.attributes.foldl (add c.name) l

def fill (l : Layout) (n : ClassNode) : ClassNode :=
  { n with layout := l.slots, objectSize := l.next }

end Layout

def buildLayouts (nodes : List ClassNode) : List ClassNode :=
  descend Layout.extend Layout.fill nodes.length ⟨[], headerSize⟩ nodes 0

/-- The dispatch table of a parent as its child begins with it. -/
def clone (owner : Name) (table : List DispatchEntry) : List DispatchEntry :=
  table.map (fun e => { e with owner := owner })

/-- Puts a method into a dispatch table.  A method already there keeps its place. -/
def define (impl : Name) (table : List DispatchEntry) (method : Name) : List DispatchEntry :=
  if table.any (fun e => e.name == method) then
    table.map (fun e => if e.name = method then { e with impl := impl } else e)
  else table ++ [⟨method, impl, impl, wordSize * table.length⟩]

def defineAll (inherited : List DispatchEntry) (c : Class) : List DispatchEntry :=
  (c.methods.map Method.name).foldl (define c.name) (clone c.name inherited)

def fillDispatch (table : List DispatchEntry) (n : ClassNode) : ClassNode :=
  { n with dispatch := table }

def buildDispatchTables (nodes : List ClassNode) : List ClassNode :=
  descend defineAll fillDispatch nodes.length [] nodes 0

def build (user : List Class) : Except Fault ClassTable :=
  let classes := Class.builtin ++ user
  match nameFault? [] classes with
  | some fault => .error fault
  | none =>
    match classes.mapM (parentTag classes) with
    | .error fault => .error fault
    | .ok parents =>
      let t := link classes parents
      match unreachable? t with
      | some n => .error (.internal n.name (.unreachable n.name))
      | none => .ok ⟨buildDispatchTables (buildLayouts t.nodes)⟩

/-!
# The inheritance tree
-/

def rowSize : Nat := 2 * wordSize

/-- A row of the inheritance tree: a tag and the distance in bytes to the row of its
parent, which is zero at the root. -/
structure TreeRow where
  tag : Nat
  delta : Int
  deriving DecidableEq, Repr

def rowOf (n : ClassNode) : TreeRow :=
  match n.parent with
  | none => ⟨n.tag, 0⟩
  | some parent => ⟨n.tag, ((parent : Int) - (n.tag : Int)) * (rowSize : Int)⟩

def tree (t : ClassTable) : List TreeRow := t.nodes.map rowOf

/-- Climbs from a row to the first one whose tag is among those of the branches. -/
def climbTree (rows : List TreeRow) (branches : List Int) : Nat → Int → Option Nat
  | 0, _ => none
  | steps + 1, place =>
    match rows[(place / (rowSize : Int)).toNat]? with
    | none => none
    | some row =>
      match branches.idxOf? (row.tag : Int) with
      | some i => some i
      | none => if row.delta = 0 then none else climbTree rows branches steps (place + row.delta)

/-- The branch of a case that the nearest ancestor of a class selects. -/
def matchCase (t : ClassTable) (tag : Int) (branches : List Int) : Option Nat :=
  if 0 ≤ tag ∧ tag < t.size then climbTree t.tree branches t.size (tag * (rowSize : Int)) else none

end ClassTable

end CoolCompiler
