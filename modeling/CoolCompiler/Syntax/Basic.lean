import CoolCompiler.Text.Basic

/-!
# Syntax trees

A program is a list of classes, which have features, which hold expressions.  Every expression
carries a mark: the spelling and line of its first word and, once checked, its static type.
-/

namespace CoolCompiler

/-- The spelling and line of an expression and its static type, which is empty
before the program has been checked. -/
structure Mark where
  literal : Text
  line : Int
  type : Name := []
  deriving DecidableEq, Repr

/-- A name with a mark of its own. -/
structure Identifier where
  mark : Mark
  name : Name
  deriving DecidableEq, Repr

instance : Coe Name Identifier := ⟨fun x => ⟨⟨x, 0, []⟩, x⟩⟩

inductive Operator where
  | add | sub | mul | div
  | less | lessEq | equal
  | other (symbol : Text)
  deriving DecidableEq, Repr

namespace Operator

def symbol : Operator → Text
  | .add => "+"
  | .sub => "-"
  | .mul => "*"
  | .div => "/"
  | .less => "<"
  | .lessEq => "<="
  | .equal => "="
  | .other symbol => symbol

def ofSymbol (symbol : Text) : Operator :=
  if symbol = "+" then .add
  else if symbol = "-" then .sub
  else if symbol = "*" then .mul
  else if symbol = "/" then .div
  else if symbol = "<" then .less
  else if symbol = "<=" then .lessEq
  else if symbol = "=" then .equal
  else .other symbol

end Operator

/-- A name with its declared type and an expression: a binding of a let or a
branch of a case. -/
structure Declared (ε : Type) where
  line : Int
  name : Name
  type : Name
  value : ε
  deriving DecidableEq, Repr

/-- Expressions.  An omitted initialiser is `omitted`; `absent` marks a place of
a tree that was never filled. -/
inductive Expr where
  | absent
  | omitted (mark : Mark)
  | int (mark : Mark) (value : Int)
  | string (mark : Mark) (value : Text)
  | bool (mark : Mark) (value : Bool)
  | object (mark : Mark) (name : Name)
  | assign (mark : Mark) (target : Identifier) (value : Expr)
  | dispatch (mark : Mark) (receiver : Expr) (target : Option Name) (method : Name)
      (arguments : List Expr)
  | binary (mark : Mark) (operator : Operator) (left right : Expr)
  | negate (mark : Mark) (operand : Expr)
  | complement (mark : Mark) (operand : Expr)
  | isVoid (mark : Mark) (operand : Expr)
  | new (mark : Mark) (type : Name)
  | cond (mark : Mark) (test thenBranch elseBranch : Expr)
  | loop (mark : Mark) (test body : Expr)
  | block (mark : Mark) (items : List Expr)
  | letIn (mark : Mark) (bindings : List (Declared Expr)) (body : Expr)
  | typeCase (mark : Mark) (scrutinee : Expr) (branches : List (Declared Expr))
  deriving Repr, Inhabited

namespace Expr

def mark? : Expr → Option Mark
  | .absent => none
  | .omitted m | .int m _ | .string m _ | .bool m _ | .object m _ | .assign m _ _
  | .dispatch m _ _ _ _ | .binary m _ _ _ | .negate m _ | .complement m _ | .isVoid m _
  | .new m _ | .cond m _ _ _ | .loop m _ _ | .block m _ | .letIn m _ _ | .typeCase m _ _ => some m

/-- The static type of an expression, empty where none is known. -/
def type (e : Expr) : Name :=
  (e.mark?.map Mark.type).getD []

/-- Whether an expression stands for an initializer that was left out. -/
def isOmitted : Expr → Bool
  | .omitted _ => true
  | _ => false

def withMark (m : Mark) : Expr → Expr
  | .absent => .absent
  | .omitted _ => .omitted m
  | .int _ n => .int m n
  | .string _ s => .string m s
  | .bool _ b => .bool m b
  | .object _ x => .object m x
  | .assign _ x e => .assign m x e
  | .dispatch _ e t f args => .dispatch m e t f args
  | .binary _ op l r => .binary m op l r
  | .negate _ e => .negate m e
  | .complement _ e => .complement m e
  | .isVoid _ e => .isVoid m e
  | .new _ t => .new m t
  | .cond _ c t f => .cond m c t f
  | .loop _ c b => .loop m c b
  | .block _ es => .block m es
  | .letIn _ bs e => .letIn m bs e
  | .typeCase _ e bs => .typeCase m e bs

end Expr

structure Formal where
  line : Int
  name : Name
  type : Name
  deriving DecidableEq, Repr

structure Method where
  line : Int
  name : Name
  formals : List Formal
  returns : Name
  body : Expr
  deriving Repr

structure Attribute where
  line : Int
  name : Name
  type : Name
  init : Expr
  deriving Repr

inductive Feature where
  | attr (a : Attribute)
  | method (m : Method)
  deriving Repr

namespace Feature

def name : Feature → Name
  | .attr a => a.name
  | .method m => m.name

def expr : Feature → Expr
  | .attr a => a.init
  | .method m => m.body

def attribute? : Feature → Option Attribute
  | .attr a => some a
  | .method _ => none

def method? : Feature → Option Method
  | .attr _ => none
  | .method m => some m

end Feature

/-!
# Names with a meaning of their own
-/

namespace Name

def object : Name := "Object"
def inputOutput : Name := "IO"
def int : Name := "Int"
def bool : Name := "Bool"
def string : Name := "String"
def mainClass : Name := "Main"
def mainMethod : Name := "main"
def selfType : Name := "SELF_TYPE"
def self : Name := "self"

def noClass : Name := "_no_class"

def primSlot : Name := "_prim_slot"

def isBasic (c : Name) : Bool :=
  c == object || c == inputOutput || c == int || c == bool || c == string

def isInheritable (c : Name) : Bool :=
  !(c == int || c == bool || c == string || c == selfType)

end Name

structure Class where
  line : Int
  name : Name
  parent : Option Name
  features : List Feature
  file : Text
  deriving Repr

namespace Class

def parentName (c : Class) : Name :=
  match c.parent with
  | some parent => parent
  | none => if c.name = Name.object then Name.noClass else Name.object

def attributes (c : Class) : List Attribute :=
  c.features.filterMap Feature.attribute?

def methods (c : Class) : List Method :=
  c.features.filterMap Feature.method?

end Class

abbrev Program := List Class

end CoolCompiler
