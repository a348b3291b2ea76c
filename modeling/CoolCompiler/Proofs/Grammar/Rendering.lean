import CoolCompiler.Grammar.Expression
import CoolCompiler.Token.Lexeme

/-!
# Rendering expressions

The tokens of an expression with no more parentheses than the ladder asks for: assignment, `not`,
comparisons, sums, products, `isvoid`, `~` and calls.  A let is looser than all of them; everything
else holds together.
-/

namespace CoolCompiler

/-- The kind of a token and how it is written, apart from where it stands. -/
structure Spelling where
  kind : Token.Kind
  literal : Text
  deriving DecidableEq, Repr

def Token.spelling (t : Token) : Spelling := ⟨t.kind, t.literal⟩

/-!
# The ladder
-/

/-- How tightly an expression holds together. -/
inductive Rung where
  | lowest | assign | complement | compare | sum | product | isVoid | negate | dispatch | highest
  deriving DecidableEq, Repr

def Rung.height : Rung → Nat
  | .lowest => 1
  | .assign => 2
  | .complement => 3
  | .compare => 4
  | .sum => 5
  | .product => 6
  | .isVoid => 7
  | .negate => 8
  | .dispatch => 9
  | .highest => 10

/-- What a place asks of an expression that stands there without parentheses. -/
inductive Demand where
  | free
  | atLeast (r : Rung)
  | above (r : Rung)

def Demand.admits : Demand → Rung → Bool
  | .free, _ => true
  | .atLeast r, q => decide (r.height ≤ q.height)
  | .above r, q => decide (r.height < q.height)

namespace Operator

def rung : Operator → Rung
  | .add | .sub => .sum
  | .mul | .div => .product
  | .less | .lessEq | .equal => .compare
  | .other _ => .lowest

/-- Sums and products may stand to the left of their like; comparisons may not. -/
def leftDemand (op : Operator) : Demand :=
  if op.rung = .compare then .above op.rung else .atLeast op.rung

def kind : Operator → Token.Kind
  | .add => .plus
  | .sub => .minus
  | .mul => .times
  | .div => .divide
  | .less => .less
  | .lessEq => .lessEq
  | .equal => .equal
  | .other _ => .error

end Operator

def Expr.rung : Expr → Rung
  | .letIn _ _ _ => .lowest
  | .assign _ _ _ => .assign
  | .complement _ _ => .complement
  | .binary _ op _ _ => op.rung
  | .isVoid _ _ => .isVoid
  | .negate _ _ => .negate
  | _ => .highest

/-!
# Tokens
-/

/-- An expression of some rung, in parentheses where the place asks for a higher one. -/
def parenthesised (d : Demand) (r : Rung) (tokens : List Spelling) : List Spelling :=
  if d.admits r then tokens else ⟨.openParen, "("⟩ :: (tokens ++ [⟨.closeParen, ")"⟩])

def commaSeparated : List (List Spelling) → List Spelling
  | [] => []
  | [part] => part
  | part :: parts => part ++ ⟨.comma, ","⟩ :: commaSeparated parts

namespace Expr

mutual

/-- The tokens of an expression.  A call without a written receiver is one of `self`. -/
@[simp] def render : Expr → List Spelling
  | .absent | .omitted _ => []
  | .int m _ => [⟨.int, m.literal⟩]
  | .string m _ => [⟨.string, m.literal⟩]
  | .bool m _ => [⟨.bool, m.literal⟩]
  | .object m _ => [⟨.objectName, m.literal⟩]
  | .assign m x e =>
    ⟨.objectName, x.name⟩ :: ⟨.assign, m.literal⟩ ::
      parenthesised (.atLeast .assign) e.rung (render e)
  | .dispatch m e target f args =>
    (match target with
      | none =>
        if m.literal = "." then
          parenthesised (.atLeast .dispatch) e.rung (render e) ++ [⟨.dot, "."⟩]
        else []
      | some type =>
        parenthesised (.atLeast .dispatch) e.rung (render e) ++
          [⟨.at, m.literal⟩, ⟨.typeName, type⟩, ⟨.dot, "."⟩]) ++
      ⟨.objectName, f⟩ :: ⟨.openParen, "("⟩ ::
        (commaSeparated (renderAll args) ++ [⟨.closeParen, ")"⟩])
  | .binary m op l r =>
    parenthesised op.leftDemand l.rung (render l) ++
      ⟨op.kind, m.literal⟩ :: parenthesised (.above op.rung) r.rung (render r)
  | .negate m e => ⟨.tilde, m.literal⟩ :: parenthesised (.above .negate) e.rung (render e)
  | .complement m e => ⟨.not, m.literal⟩ :: parenthesised (.above .complement) e.rung (render e)
  | .isVoid m e => ⟨.isvoid, m.literal⟩ :: parenthesised (.above .isVoid) e.rung (render e)
  | .new m type => [⟨.new, m.literal⟩, ⟨.typeName, type⟩]
  | .cond m c t f =>
    ⟨.if, m.literal⟩ :: (render c ++ ⟨.then, "then"⟩ :: (render t ++
      ⟨.else, "else"⟩ :: (render f ++ [⟨.fi, "fi"⟩])))
  | .loop m c b =>
    ⟨.while, m.literal⟩ :: (render c ++ ⟨.loop, "loop"⟩ :: (render b ++ [⟨.pool, "pool"⟩]))
  | .block m es => ⟨.openBrace, m.literal⟩ :: (renderItems es ++ [⟨.closeBrace, "\x7d"⟩])
  | .letIn m bs e =>
    ⟨.let, m.literal⟩ :: (commaSeparated (renderBindings bs) ++ ⟨.in, "in"⟩ :: render e)
  | .typeCase m e bs =>
    ⟨.case, m.literal⟩ :: (render e ++ ⟨.of, "of"⟩ :: (renderBranches bs ++ [⟨.esac, "esac"⟩]))

@[simp] def renderAll : List Expr → List (List Spelling)
  | [] => []
  | e :: es => render e :: renderAll es

@[simp] def renderItems : List Expr → List Spelling
  | [] => []
  | e :: es => render e ++ ⟨.semicolon, ";"⟩ :: renderItems es

@[simp] def renderBindings : List (Declared Expr) → List (List Spelling)
  | [] => []
  | ⟨_, x, type, e⟩ :: bs =>
    ([⟨.objectName, x⟩, ⟨.colon, ":"⟩, ⟨.typeName, type⟩] ++
      if e.isOmitted then [] else ⟨.assign, "<-"⟩ :: render e) :: renderBindings bs

@[simp] def renderBranches : List (Declared Expr) → List Spelling
  | [] => []
  | ⟨_, x, type, e⟩ :: bs =>
    [⟨.objectName, x⟩, ⟨.colon, ":"⟩, ⟨.typeName, type⟩, ⟨.arrow, "=>"⟩] ++
      (render e ++ ⟨.semicolon, ";"⟩ :: renderBranches bs)

end

end Expr

/-- The tokens of a class with one method, around those of the method's body. -/
def methodAround (className method returns : Name) (body : List Spelling) : List Spelling :=
  [⟨.class, "class"⟩, ⟨.typeName, className⟩, ⟨.openBrace, "\x7b"⟩, ⟨.objectName, method⟩,
    ⟨.openParen, "("⟩, ⟨.closeParen, ")"⟩, ⟨.colon, ":"⟩, ⟨.typeName, returns⟩,
    ⟨.openBrace, "\x7b"⟩] ++
  (body ++ [⟨.closeBrace, "\x7d"⟩, ⟨.semicolon, ";"⟩, ⟨.closeBrace, "\x7d"⟩, ⟨.semicolon, ";"⟩])

/-!
# Trees that can be read

A tree as the grammar builds it: marks are untyped and spelled as their words, blocks, lets and
cases are not empty, and only the initializer of a binding is omitted.
-/

def Mark.Untyped (m : Mark) : Prop := m.type = []

structure Mark.Spells (m : Mark) (literal : Text) : Prop where
  literal : m.literal = literal
  untyped : m.Untyped

namespace Expr

inductive Readable : Expr → Prop where
  | int {m : Mark} {n : Nat} : m.Untyped → Grammar.digitsValue m.literal = n → n ≤ maxInt →
      Readable (.int m n)
  | string {m : Mark} {s : Text} : m.Spells s → Readable (.string m s)
  | bool {m : Mark} {b : Bool} : m.Spells (if b then "true" else "false") → Readable (.bool m b)
  | object {m : Mark} {x : Name} : m.Spells x → Readable (.object m x)
  | assign {m m' : Mark} {x : Name} {e : Expr} : m.Spells "<-" → m'.Spells x → Readable e →
      Readable (.assign m ⟨m', x⟩ e)
  | selfCall {m m' : Mark} {f : Name} {args : List Expr} : m.Spells f → f ≠ "." →
      m'.Spells f → (∀ a ∈ args, Readable a) →
      Readable (.dispatch m (.object m' Name.self) none f args)
  | call {m : Mark} {e : Expr} {f : Name} {args : List Expr} : m.Spells "." → Readable e →
      (∀ a ∈ args, Readable a) → Readable (.dispatch m e none f args)
  | staticCall {m : Mark} {e : Expr} {type f : Name} {args : List Expr} : m.Spells "@" →
      Readable e → (∀ a ∈ args, Readable a) → Readable (.dispatch m e (some type) f args)
  | binary {m : Mark} {op : Operator} {l r : Expr} : (∀ symbol, op ≠ .other symbol) →
      m.Spells op.symbol → Readable l → Readable r → Readable (.binary m op l r)
  | negate {m : Mark} {e : Expr} : m.Spells "~" → Readable e → Readable (.negate m e)
  | complement {m : Mark} {e : Expr} : m.Untyped → Readable e → Readable (.complement m e)
  | isVoid {m : Mark} {e : Expr} : m.Untyped → Readable e → Readable (.isVoid m e)
  | new {m : Mark} {type : Name} : m.Untyped → Readable (.new m type)
  | cond {m : Mark} {c t f : Expr} : m.Untyped → Readable c → Readable t → Readable f →
      Readable (.cond m c t f)
  | loop {m : Mark} {c b : Expr} : m.Untyped → Readable c → Readable b → Readable (.loop m c b)
  | block {m : Mark} {es : List Expr} : m.Spells "\x7b" → es ≠ [] → (∀ e ∈ es, Readable e) →
      Readable (.block m es)
  | letIn {m : Mark} {bs : List (Declared Expr)} {e : Expr} : m.Untyped → bs ≠ [] →
      (∀ b ∈ bs, ∀ m', b.value = .omitted m' → m'.Spells []) →
      (∀ b ∈ bs, b.value.isOmitted = false → Readable b.value) → Readable e →
      Readable (.letIn m bs e)
  | typeCase {m : Mark} {e : Expr} {bs : List (Declared Expr)} : m.Untyped → Readable e →
      bs ≠ [] → (∀ b ∈ bs, Readable b.value) → Readable (.typeCase m e bs)

end Expr

def Mark.unplaced (m : Mark) : Mark := { m with line := 0 }

namespace Expr

mutual

/-- A tree with `ν` of every mark, and without the lines of what is declared in it. -/
@[simp] def remarked (ν : Mark → Mark) : Expr → Expr
  | .absent => .absent
  | .omitted m => .omitted (ν m)
  | .int m n => .int (ν m) n
  | .string m s => .string (ν m) s
  | .bool m b => .bool (ν m) b
  | .object m x => .object (ν m) x
  | .assign m x e => .assign (ν m) ⟨ν x.mark, x.name⟩ (remarked ν e)
  | .dispatch m e t f args => .dispatch (ν m) (remarked ν e) t f (remarkedAll ν args)
  | .binary m op l r => .binary (ν m) op (remarked ν l) (remarked ν r)
  | .negate m e => .negate (ν m) (remarked ν e)
  | .complement m e => .complement (ν m) (remarked ν e)
  | .isVoid m e => .isVoid (ν m) (remarked ν e)
  | .new m t => .new (ν m) t
  | .cond m c t f => .cond (ν m) (remarked ν c) (remarked ν t) (remarked ν f)
  | .loop m c b => .loop (ν m) (remarked ν c) (remarked ν b)
  | .block m es => .block (ν m) (remarkedAll ν es)
  | .letIn m bs e => .letIn (ν m) (remarkedParts ν bs) (remarked ν e)
  | .typeCase m e bs => .typeCase (ν m) (remarked ν e) (remarkedParts ν bs)

@[simp] def remarkedAll (ν : Mark → Mark) : List Expr → List Expr
  | [] => []
  | e :: es => remarked ν e :: remarkedAll ν es

@[simp] def remarkedParts (ν : Mark → Mark) : List (Declared Expr) → List (Declared Expr)
  | [] => []
  | ⟨_, x, t, e⟩ :: bs => ⟨0, x, t, remarked ν e⟩ :: remarkedParts ν bs

end

/-- A tree without the places of its words. -/
def unplaced (e : Expr) : Expr := e.remarked Mark.unplaced

end Expr
end CoolCompiler
