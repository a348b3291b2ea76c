import CoolCompiler.Syntax.Basic
import CoolCompiler.Text.Quoted

/-!
# Concrete syntax

An expression as source text on one line.  Operations on two expressions are in
parentheses.
-/

namespace CoolCompiler.Expr

mutual

@[simp] def concrete : Expr → Text
  | .absent => "<nil>"
  | .omitted _ => []
  | .int _ n => Text.ofInt n
  | .string _ s => Text.quoted s
  | .bool _ b => if b then "true" else "false"
  | .object _ x => x
  | .assign _ x e => x.name ++ " <- " ++ concrete e
  | .dispatch _ e none f args =>
    concrete e ++ "." ++ f ++ "(" ++ Text.join ", " (concretes args) ++ ")"
  | .dispatch _ e (some t) f args =>
    concrete e ++ "@" ++ t ++ "." ++ f ++ "(" ++ Text.join ", " (concretes args) ++ ")"
  | .binary _ op l r => "(" ++ concrete l ++ " " ++ op.symbol ++ " " ++ concrete r ++ ")"
  | .negate _ e => "~" ++ concrete e
  | .complement _ e => "not " ++ concrete e
  | .isVoid _ e => "isvoid " ++ concrete e
  | .new _ t => "new " ++ t
  | .cond _ c t f =>
    "if " ++ concrete c ++ " then " ++ concrete t ++ " else " ++ concrete f ++ " fi"
  | .loop _ c b => "while " ++ concrete c ++ " loop " ++ concrete b ++ " pool"
  | .block _ es => "\x7b " ++ Text.join " " ((concretes es).map (· ++ ";")) ++ " \x7d"
  | .letIn _ bs e => "let " ++ Text.join ", " (concreteBindings bs) ++ " in " ++ concrete e
  | .typeCase _ e bs => "case " ++ concrete e ++ " of" ++ concreteBranches bs ++ " esac"

@[simp] def concretes : List Expr → List Text
  | [] => []
  | e :: es => concrete e :: concretes es

/-- The source texts of the bindings of a let; a missing initialiser is not shown. -/
@[simp] def concreteBindings : List (Declared Expr) → List Text
  | [] => []
  | ⟨_, x, t, .omitted _⟩ :: bs => (x ++ " : " ++ t) :: concreteBindings bs
  | ⟨_, x, t, .absent⟩ :: bs => (x ++ " : " ++ t) :: concreteBindings bs
  | ⟨_, x, t, e⟩ :: bs => (x ++ " : " ++ t ++ " <- " ++ concrete e) :: concreteBindings bs

@[simp] def concreteBranches : List (Declared Expr) → Text
  | [] => []
  | ⟨_, x, t, e⟩ :: bs =>
    " " ++ x ++ " : " ++ t ++ " => " ++ concrete e ++ ";" ++ concreteBranches bs

end

end CoolCompiler.Expr
