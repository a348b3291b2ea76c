import CoolCompiler.ObjectModel.ClassTable
import CoolCompiler.Dictionary

/-!
# Variables of a routine

Formals are above the frame pointer, let and case variables in the temporary slots below them, and
attributes in the object that `self` points at.
-/

namespace CoolCompiler

/-- The names in scope, innermost scope first, and the temporary slots in use. -/
structure Environment where
  owner : ClassNode
  scopes : List (Dictionary Indexed)
  temps : Int
  peak : Int

namespace Environment

/-- The environment of a routine of a class, with no scope open. -/
def fresh (owner : ClassNode) : Environment := ⟨owner, [], 0, 0⟩

def enter (env : Environment) : Environment :=
  { env with scopes := [] :: env.scopes }

def leave (env : Environment) : Except Fault Environment :=
  match env.scopes with
  | [] => .error .noScope
  | _ :: scopes => .ok { env with scopes := scopes }

def bind (env : Environment) (name : Name) (place : Indexed) : Except Fault Environment :=
  if fitsDisplacement place.offset then
    match env.scopes with
    | [] => .error .noScope
    | scope :: scopes => .ok { env with scopes := scope.put name place :: scopes }
  else .error (.internal env.owner.name (.bindingOutOfRange name place))

/-- Where a name is: in the innermost scope that has it, else among the attributes. -/
def lookup (env : Environment) (name : Name) : Except Fault Indexed :=
  match env.scopes.findSome? (fun scope => scope.find? name) with
  | some place => .ok place
  | none =>
    match env.owner.slot? name with
    | none => .error (.internal env.owner.name (.unbound name))
    | some slot =>
      let place : Indexed := ⟨.ix, slot.offset⟩
      if fitsDisplacement place.offset then .ok place
      else .error (.internal env.owner.name (.attributeOutOfRange name place))

def alloc (env : Environment) : Indexed × Environment :=
  (⟨.iy, wrapOffset (env.temps * (wordSize : Int))⟩,
    { env with temps := env.temps + 1, peak := max env.peak (env.temps + 1) })

def free (env : Environment) : Environment :=
  { env with temps := env.temps - 1 }

end Environment

/-!
# Frames

Above the temporaries a frame holds the caller's `self` and frame pointer, the return address and
the actuals, the last one first.
-/

namespace Frame

/-- The distance from the end of the temporaries to the actuals. -/
def argumentsStart : Nat := 3 * wordSize

/-- Where formal `i` of `n` is in a routine with the given temporaries. -/
def formal (temps i n : Int) : Indexed :=
  ⟨.iy, wrapOffset
    (temps * (wordSize : Int) + (argumentsStart : Int) + (n - 1 - i) * (wordSize : Int))⟩

/-- The place in a frame that is farthest from the frame pointer. -/
def top (temps formals : Int) : Int :=
  if formals > 0 then (formal temps 0 formals).offset
  else wrapOffset ((temps - 1) * (wordSize : Int))

def check (owner : Name) (temps formals : Int) : Except Fault Unit :=
  if fitsDisplacement (top temps formals) then .ok ()
  else .error (.internal owner (.frameTooLarge temps formals))

def size (temps formals : Nat) : Nat := temps * wordSize + argumentsStart + formals * wordSize

/-- Refuses a frame for a routine if a displacement cannot span it, or an offset cannot
express its size. -/
def reserve (owner : Name) (temps formals : Nat) : Except Fault Unit :=
  if size temps formals ≤ maxOffset then check owner temps formals
  else .error (.internal owner (.frameTooLarge temps formals))

end Frame

end CoolCompiler
