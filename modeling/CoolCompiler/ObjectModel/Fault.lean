import CoolCompiler.Machine.Register
import CoolCompiler.Syntax.Basic
import CoolCompiler.Text.Quoted

/-!
# Internal errors

A program that breaks what the check guarantees, or a limit of the target, is refused with an error
that names the class at fault.
-/

namespace CoolCompiler

inductive Cause where
  | reservedName (c : Name)
  | definedTwice (c : Name)
  | undefinedParent (parent : Name)
  | cannotInherit (parent : Name)
  | unreachable (c : Name)
  | unknownClass (c : Name)
  | noMethod (method c : Name)
  | bindingOutOfRange (name : Name) (place : Indexed)
  | attributeOutOfRange (name : Name) (place : Indexed)
  | unbound (name : Name)
  | frameTooLarge (temps formals : Int)
  | tooManyTemps (method : Name) (used reserved : Int)
  | stringNotInterned (s : Text)
  | intNotInterned (n : Int)
  | basicMissing (c : Name)
  | caseOnUnknown (c : Name)
  | newOfUnknown (c : Name)
  | unknownOperator (symbol : Text)
  | absentExpr
  deriving DecidableEq, Repr

namespace Cause

def message : Cause → Text
  | .reservedName c => "reserved class name " ++ c
  | .definedTwice c => "class " ++ c ++ " defined twice"
  | .undefinedParent p => "undefined parent class " ++ p
  | .cannotInherit p => "cannot inherit from " ++ p
  | .unreachable c => "class " ++ c ++ " is not reachable from " ++ Name.object
  | .unknownClass c => "unknown class " ++ c
  | .noMethod m c => "no method " ++ m ++ " in dispatch table of " ++ c
  | .bindingOutOfRange x place => x ++ " at " ++ place.text ++ " is out of index range"
  | .attributeOutOfRange x place =>
    "attribute " ++ x ++ " at " ++ place.text ++ " is out of index range"
  | .unbound x => "unbound identifier " ++ x
  | .frameTooLarge temps formals =>
    "activation record of " ++ Text.ofInt temps ++ " temporaries and " ++ Text.ofInt formals ++
      " formals exceeds the index range"
  | .tooManyTemps m used reserved =>
    "method " ++ m ++ " used " ++ Text.ofInt used ++ " temporaries, reserved " ++
      Text.ofInt reserved
  | .stringNotInterned s => "string constant " ++ Text.quoted s ++ " was not interned"
  | .intNotInterned n => "integer constant " ++ Text.ofInt n ++ " was not interned"
  | .basicMissing c => "basic class " ++ c ++ " is missing"
  | .caseOnUnknown c => "case branch on unknown class " ++ c
  | .newOfUnknown c => "new of unknown class " ++ c
  | .unknownOperator symbol => "unknown operator " ++ symbol
  | .absentExpr => "unsupported expression type <nil>"

end Cause

/-- Why no code can be generated.  Apart from internal errors, a dispatch may lack its receiver, and
an environment an open scope. -/
inductive Fault where
  | internal (owner : Name) (cause : Cause)
  | absentReceiver
  | noScope
  deriving DecidableEq, Repr

namespace Fault

def internalMessage (owner : Name) (cause : Cause) : Text :=
  if owner = [] then "internal error: " ++ cause.message
  else "internal error in class " ++ owner ++ ": " ++ cause.message

end Fault

end CoolCompiler
