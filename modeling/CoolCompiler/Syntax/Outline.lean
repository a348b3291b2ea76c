import CoolCompiler.Syntax.Basic
import CoolCompiler.Text.Quoted

/-!
# Outline of a program

A tree with one line for each class, feature and expression, with its source line and static type.
-/

namespace CoolCompiler

namespace Outline

def line (depth : Nat) (content : Text) : List Text :=
  [(List.replicate depth ("  " : Text)).flatten ++ content ++ "\n"]

def head (depth : Nat) (m : Mark) (label : Text) : List Text :=
  let type : Text := if m.type = [] then "_no_type" else m.type
  line depth ("#" ++ Text.ofInt m.line ++ " " ++ label ++ " : " ++ type)

def truth (b : Bool) : Text := if b then "true" else "false"

mutual

def expr (depth : Nat) : Expr → List Text
  | .absent => []
  | .omitted m => head depth m "no_expr"
  | .int m n => head depth m ("int " ++ Text.ofInt n)
  | .string m s => head depth m ("string " ++ Text.quoted s)
  | .bool m b => head depth m ("bool " ++ truth b)
  | .object m x => head depth m ("object " ++ x)
  | .assign m x e => head depth m ("assign " ++ x.name) ++ expr (depth + 1) e
  | .dispatch m e none f args =>
    head depth m ("dispatch " ++ f) ++ expr (depth + 1) e ++ exprs (depth + 1) args
  | .dispatch m e (some t) f args =>
    head depth m ("static_dispatch " ++ f ++ "@" ++ t) ++ expr (depth + 1) e ++
      exprs (depth + 1) args
  | .binary m op l r =>
    head depth m ("binop " ++ op.symbol) ++ expr (depth + 1) l ++ expr (depth + 1) r
  | .negate m e => head depth m "neg" ++ expr (depth + 1) e
  | .complement m e => head depth m "not" ++ expr (depth + 1) e
  | .isVoid m e => head depth m "isvoid" ++ expr (depth + 1) e
  | .new m t => head depth m ("new " ++ t)
  | .cond m c t f =>
    head depth m "cond" ++ expr (depth + 1) c ++ expr (depth + 1) t ++ expr (depth + 1) f
  | .loop m c b => head depth m "loop" ++ expr (depth + 1) c ++ expr (depth + 1) b
  | .block m es => head depth m "block" ++ exprs (depth + 1) es
  | .letIn m bs e => head depth m "let" ++ bindings (depth + 1) bs ++ expr (depth + 1) e
  | .typeCase m e bs => head depth m "typcase" ++ expr (depth + 1) e ++ branches (depth + 1) bs

def exprs (depth : Nat) : List Expr → List Text
  | [] => []
  | e :: es => expr depth e ++ exprs depth es

def bindings (depth : Nat) : List (Declared Expr) → List Text
  | [] => []
  | ⟨_, x, t, e⟩ :: bs => line depth (x ++ " : " ++ t) ++ expr (depth + 1) e ++ bindings depth bs

def branches (depth : Nat) : List (Declared Expr) → List Text
  | [] => []
  | ⟨n, x, t, e⟩ :: bs =>
    line depth ("#" ++ Text.ofInt n ++ " branch " ++ x ++ " : " ++ t) ++ expr (depth + 1) e ++
      branches depth bs

end

def feature : Feature → List Text
  | .attr a =>
    line 1 ("#" ++ Text.ofInt a.line ++ " attr " ++ a.name ++ " : " ++ a.type) ++ expr 2 a.init
  | .method m =>
    let formals := Text.join ", " (m.formals.map (fun f => f.name ++ " : " ++ f.type))
    line 1 ("#" ++ Text.ofInt m.line ++ " method " ++ m.name ++ "(" ++ formals ++ ") : " ++
      m.returns) ++ expr 2 m.body

def classLines (c : Class) : List Text :=
  line 0 ("#" ++ Text.ofInt c.line ++ " class " ++ c.name ++ " : " ++ c.parentName ++ " (" ++
    c.file ++ ")") ++ c.features.flatMap feature

end Outline

namespace Program

def outline (p : Program) : Text :=
  (p.flatMap Outline.classLines).flatten

end Program

end CoolCompiler
