import CoolCompiler.Typing.Inheritance
import CoolCompiler.Syntax.Builtin

/-!
# Symbols

What is known about the classes of a program: features and parents.  The type of `self` is resolved
against the class of an expression.
-/

namespace CoolCompiler

structure MethodSymbol where
  name : Name
  owner : Name
  line : Int
  formals : List Formal
  returns : Name
  builtin : Bool

structure AttributeSymbol where
  name : Name
  owner : Name
  line : Int
  type : Name

structure ClassSymbol where
  name : Name
  line : Int
  parent : Name
  file : Text
  builtin : Bool
  methods : Dictionary MethodSymbol
  attributes : Dictionary AttributeSymbol

namespace MethodSymbol

def ofMethod (owner : Name) (builtin : Bool) (m : Method) : MethodSymbol :=
  ⟨m.name, owner, m.line, m.formals, m.returns, builtin⟩

end MethodSymbol

namespace AttributeSymbol

def ofAttribute (owner : Name) (a : Attribute) : AttributeSymbol :=
  ⟨a.name, owner, a.line, a.type⟩

end AttributeSymbol

namespace ClassSymbol

/-- The symbol of a class whose features have not been collected. -/
def bare (c : Class) : ClassSymbol :=
  ⟨c.name, c.line, c.parentName, c.file, false, [], []⟩

def ofBuiltin (c : Class) : ClassSymbol :=
  { bare c with
    builtin := true
    methods :=
      c.methods.foldl (fun d m => d.put m.name (MethodSymbol.ofMethod c.name true m)) []
    attributes :=
      c.attributes.foldl (fun d a => d.put a.name (AttributeSymbol.ofAttribute c.name a)) [] }

end ClassSymbol

structure Symbols where
  classes : Dictionary ClassSymbol
  inheritance : Inheritance

namespace Symbols

def initial : Symbols :=
  ⟨Class.builtin.foldl (fun d c => d.put c.name (ClassSymbol.ofBuiltin c)) [],
   ⟨Class.builtin.foldl (fun d c => d.put c.name c.parentName) []⟩⟩

def link (s : Symbols) (c parent : Name) : Symbols :=
  { s with inheritance := ⟨s.inheritance.parents.put c parent⟩ }

def putClass (s : Symbols) (c : ClassSymbol) : Symbols :=
  { s with classes := s.classes.put c.name c }

def ancestors (s : Symbols) (c : Name) : List Name :=
  s.inheritance.ancestors c

/-- The method that a class has under a name: its own or its nearest ancestor's. -/
def method? (s : Symbols) (c name : Name) : Option MethodSymbol :=
  (s.ancestors c).findSome? fun a => (s.classes.find? a).bind fun k => k.methods.find? name

/-- The attribute that a class has under a name, its own or an ancestor's. -/
def attribute? (s : Symbols) (c name : Name) : Option AttributeSymbol :=
  (s.ancestors c).findSome? fun a => (s.classes.find? a).bind fun k => k.attributes.find? name

def isType (s : Symbols) (t : Name) : Bool :=
  t == Name.selfType || s.classes.has t

/-- The class that a type means inside the class `current`. -/
def resolve (t current : Name) : Name :=
  if t = Name.selfType then current else t

/-- Whether every value of the first type is one of the second, inside `current`. -/
def conforms (s : Symbols) (t₁ t₂ current : Name) : Bool :=
  if t₂ = Name.selfType then t₁ == Name.selfType
  else (s.ancestors (resolve t₁ current)).contains t₂

/-- The nearest type that both types conform to, inside `current`. -/
def leastUpperBound (s : Symbols) (t₁ t₂ current : Name) : Name :=
  if t₁ = Name.selfType ∧ t₂ = Name.selfType then Name.selfType
  else
    let above := s.ancestors (resolve t₁ current)
    ((s.ancestors (resolve t₂ current)).find? above.contains).getD Name.object

end Symbols

/-!
# Local variables
-/

/-- Nested scopes of variables with their types, innermost first, above one that is
always there. -/
structure Scopes where
  inner : List (Dictionary Name)
  outermost : Dictionary Name

namespace Scopes

def empty : Scopes := ⟨[], []⟩

def enter (s : Scopes) : Scopes := { s with inner := [] :: s.inner }

def leave (s : Scopes) : Scopes := { s with inner := s.inner.tail }

def bind (s : Scopes) (name type : Name) : Scopes :=
  match s.inner with
  | [] => { s with outermost := s.outermost.put name type }
  | d :: ds => { s with inner := d.put name type :: ds }

def find? (s : Scopes) (name : Name) : Option Name :=
  (s.inner ++ [s.outermost]).findSome? fun d => d.find? name

def depth (s : Scopes) : Nat := s.inner.length + 1

end Scopes

end CoolCompiler
