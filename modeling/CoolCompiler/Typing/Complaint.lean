import CoolCompiler.Syntax.Basic

/-!
# Complaints

The reasons for which a program that can be read is refused, and their wording.
-/

namespace CoolCompiler

inductive Complaint where
  | redefinesBasic (c : Name)
  | definedTwice (c : Name)
  | cannotInherit (c parent : Name)
  | undefinedParent (c parent : Name)
  | cyclic (c : Name)
  | methodTwice (method : Name)
  | selfAttribute
  | attributeTwice (attr : Name)
  | inheritedAttribute (attr : Name)
  | undefinedAttributeType (type attr : Name)
  | selfFormal
  | formalTwice (formal : Name)
  | selfTypeFormal (formal : Name)
  | undefinedFormalType (type formal : Name)
  | undefinedReturnType (type method : Name)
  | overrideArity (method : Name)
  | overrideFormal (method type inherited : Name)
  | overrideReturn (method type inherited : Name)
  | noMainClass
  | noMainMethod
  | mainTakesArguments
  | attributeInit (type attr declared : Name)
  | methodResult (type method declared : Name)
  | undeclared (name : Name)
  | assignsSelf
  | assignment (type declared name : Name)
  | conditionType
  | loopConditionType
  | newUndefined (type : Name)
  | complementType (type : Name)
  | negateType (type : Name)
  | nonInt (left : Name) (operator : Operator) (right : Name)
  | basicComparison
  | unknownOperator (operator : Operator)
  | staticUndefined (type : Name)
  | staticType (type declared : Name)
  | undefinedMethod (method : Name)
  | argumentCount (method : Name)
  | argumentType (method type formal declared : Name)
  | selfBinding
  | undefinedBindingType (type name : Name)
  | bindingInit (type name declared : Name)
  | selfTypeBranch (name : Name)
  | undefinedBranchType (type : Name)
  | duplicateBranch (type : Name)
  deriving DecidableEq, Repr

namespace Complaint

def message : Complaint → Text
  | .redefinesBasic c => "Redefinition of basic class " ++ c ++ "."
  | .definedTwice c => "Class " ++ c ++ " was previously defined."
  | .cannotInherit c p => "Class " ++ c ++ " cannot inherit class " ++ p ++ "."
  | .undefinedParent c p => "Class " ++ c ++ " inherits from an undefined class " ++ p ++ "."
  | .cyclic c =>
    "Class " ++ c ++ ", or an ancestor of " ++ c ++ ", is involved in an inheritance cycle."
  | .methodTwice m => "Method " ++ m ++ " is multiply defined."
  | .selfAttribute => "'self' cannot be the name of an attribute."
  | .attributeTwice a => "Attribute " ++ a ++ " is multiply defined in class."
  | .inheritedAttribute a => "Attribute " ++ a ++ " is an attribute of an inherited class."
  | .undefinedAttributeType t a => "Class " ++ t ++ " of attribute " ++ a ++ " is undefined."
  | .selfFormal => "'self' cannot be the name of a formal parameter."
  | .formalTwice x => "Formal parameter " ++ x ++ " is multiply defined."
  | .selfTypeFormal x => "Formal parameter " ++ x ++ " cannot have type SELF_TYPE."
  | .undefinedFormalType t x => "Class " ++ t ++ " of formal parameter " ++ x ++ " is undefined."
  | .undefinedReturnType t m => "Undefined return type " ++ t ++ " in method " ++ m ++ "."
  | .overrideArity m =>
    "Incompatible number of formal parameters in redefined method " ++ m ++ "."
  | .overrideFormal m t w =>
    "In redefined method " ++ m ++ ", parameter type " ++ t ++
      " is different from original type " ++ w
  | .overrideReturn m t w =>
    "In redefined method " ++ m ++ ", return type " ++ t ++
      " is different from original return type " ++ w ++ "."
  | .noMainClass => "Class Main is not defined."
  | .noMainMethod => "No 'main' method in class Main."
  | .mainTakesArguments => "'main' method in class Main should have no arguments."
  | .attributeInit t a d =>
    "Inferred type " ++ t ++ " of initialization of attribute " ++ a ++
      " does not conform to declared type " ++ d ++ "."
  | .methodResult t m d =>
    "Inferred return type " ++ t ++ " of method " ++ m ++
      " does not conform to declared return type " ++ d ++ "."
  | .undeclared x => "Undeclared identifier " ++ x ++ "."
  | .assignsSelf => "Cannot assign to 'self'."
  | .assignment t d x =>
    "Type " ++ t ++ " of assigned expression does not conform to declared type " ++ d ++
      " of identifier " ++ x ++ "."
  | .conditionType => "Predicate of 'if' does not have type Bool."
  | .loopConditionType => "Loop condition does not have type Bool."
  | .newUndefined t => "'new' used with undefined class " ++ t ++ "."
  | .complementType t => "Argument of 'not' has type " ++ t ++ " instead of Bool."
  | .negateType t => "Argument of '~' has type " ++ t ++ " instead of Int."
  | .nonInt l op r => "non-Int arguments: " ++ l ++ " " ++ op.symbol ++ " " ++ r
  | .basicComparison => "Illegal comparison with a basic type."
  | .unknownOperator op => "unknown operator " ++ op.symbol
  | .staticUndefined t => "Static dispatch to undefined class " ++ t ++ "."
  | .staticType t d =>
    "Expression type " ++ t ++ " does not conform to declared static dispatch type " ++ d ++ "."
  | .undefinedMethod m => "Dispatch to undefined method " ++ m ++ "."
  | .argumentCount m => "Method " ++ m ++ " called with wrong number of arguments."
  | .argumentType m t x d =>
    "In call of method " ++ m ++ ", type " ++ t ++ " of parameter " ++ x ++
      " does not conform to declared type " ++ d ++ "."
  | .selfBinding => "'self' cannot be bound in a 'let' expression."
  | .undefinedBindingType t x =>
    "Class " ++ t ++ " of let-bound identifier " ++ x ++ " is undefined."
  | .bindingInit t x d =>
    "Inferred type " ++ t ++ " of initialization of " ++ x ++
      " does not conform to identifier's declared type " ++ d ++ "."
  | .selfTypeBranch x => "Identifier " ++ x ++ " declared with type SELF_TYPE in case branch."
  | .undefinedBranchType t => "Class " ++ t ++ " of case branch is undefined."
  | .duplicateBranch t => "Duplicate branch " ++ t ++ " in case statement."

end Complaint

structure Finding where
  line : Int
  complaint : Complaint
  deriving DecidableEq, Repr

structure Diagnostic where
  place : Option (Text × Int)
  complaint : Complaint
  deriving DecidableEq, Repr

namespace Diagnostic

def ofFinding (file : Text) (f : Finding) : Diagnostic :=
  ⟨some (file, f.line), f.complaint⟩

def message (d : Diagnostic) : Text :=
  match d.place with
  | some (file, line) => file ++ ":" ++ Text.ofInt line ++ ": " ++ d.complaint.message
  | none => d.complaint.message

end Diagnostic

end CoolCompiler
