import CoolCompiler.Dictionary
import CoolCompiler.Syntax.Basic

/-!
# Inheritance

Each class has at most one parent.  Its chain goes from it to its parent and so on, up to a class
without one, and ends before it would come round.
-/

namespace CoolCompiler

structure Inheritance where
  parents : Dictionary Name

namespace Inheritance

/-- The parent of a class, if it is a class too. -/
def parent? (g : Inheritance) (c : Name) : Option Name :=
  match g.parents.find? c with
  | some p => if p = [] ∨ p = Name.noClass then none else some p
  | none => none

/-- The class that a chain begins with; the parent of the root is none. -/
def start? (c : Name) : Option Name :=
  if c = [] ∨ c = Name.noClass then none else some c

/-- The chain from a class on, past the classes already `seen`, with at most `steps`
members. -/
def climb (g : Inheritance) : Nat → List Name → Option Name → List Name
  | 0, _, _ => []
  | _, _, none => []
  | steps + 1, seen, some c =>
    if c ∈ seen then [] else c :: climb g steps (c :: seen) (g.parent? c)

/-- A class and its ancestors, nearest first.  A chain without repetition has at most
one member that has no parent. -/
def ancestors (g : Inheritance) (c : Name) : List Name :=
  g.climb (g.parents.length + 1) [] (start? c)

/-- Whether the chain from a class on meets a class already `seen` within `steps`. -/
def returns (g : Inheritance) : Nat → List Name → Option Name → Bool
  | 0, _, _ => false
  | _, _, none => false
  | steps + 1, seen, some c =>
    if c ∈ seen then true else returns g steps (c :: seen) (g.parent? c)

/-- Whether following parents from a class comes round to a class again. -/
def hasCycle (g : Inheritance) (c : Name) : Bool :=
  g.returns (g.parents.length + 2) [] (start? c)

end Inheritance

end CoolCompiler
