import CoolCompiler.ObjectModel.ClassTable
import CoolCompiler.ObjectModel.Pool

/-!
# Constants of a program

The constants of generated code are numbered before any of it is written: initial values of
variables, names of classes, files of classes with code, and literals.
-/

namespace CoolCompiler

inductive Literal where
  | int (n : Int)
  | string (s : Text)
  deriving DecidableEq, Repr

namespace Expr

mutual

/-- The literals of an expression in the order of its parts; the arguments of a call come before its
receiver. -/
def literals : Expr → List Literal
  | .int _ n => [.int n]
  | .string _ s => [.string s]
  | .absent | .omitted _ | .bool _ _ | .object _ _ | .new _ _ => []
  | .assign _ _ e | .negate _ e | .complement _ e | .isVoid _ e => literals e
  | .dispatch _ e _ _ args => literalsOfAll args ++ literals e
  | .binary _ _ l r => literals l ++ literals r
  | .cond _ c t f => literals c ++ literals t ++ literals f
  | .loop _ c b => literals c ++ literals b
  | .block _ es => literalsOfAll es
  | .letIn _ bs e => literalsOfParts bs ++ literals e
  | .typeCase _ e bs => literals e ++ literalsOfParts bs

def literalsOfAll : List Expr → List Literal
  | [] => []
  | e :: es => literals e ++ literalsOfAll es

def literalsOfParts : List (Declared Expr) → List Literal
  | [] => []
  | ⟨_, _, _, e⟩ :: bs => literals e ++ literalsOfParts bs

end

end Expr

namespace Pool

def internLiteral (p : Pool) : Literal → Pool
  | .int n => (p.internInt n).2
  | .string s => (p.internString s).2

def constantsOfClass (c : Class) : List Literal :=
  .string c.file :: c.features.flatMap (fun f => f.expr.literals)

def constantsOf (t : ClassTable) : List Literal :=
  [.string [], .int 0] ++ t.nodes.map (fun n => .string n.name) ++
    (t.nodes.filter (fun n => !n.isBasic)).flatMap (fun n => constantsOfClass n.decl)

def collect (p : Pool) (t : ClassTable) : Pool :=
  (constantsOf t).foldl internLiteral p

end Pool

end CoolCompiler
