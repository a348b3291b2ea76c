import CoolCompiler.Grammar.Stream
import CoolCompiler.Syntax.Basic

/-!
# Reading expressions

An expression is an operand followed by operators that bind tighter than its surroundings.  Every
function ends by the number of unread tokens.
-/

namespace CoolCompiler.Grammar

/-- How tightly an operator binds, from the loosest to the tightest. -/
inductive Level where
  | lowest | assign | complement | compare | sum | product | isVoid | negate | at | dot
  deriving DecidableEq, Repr

namespace Level

def rank : Level → Nat
  | .lowest => 1
  | .assign => 2
  | .complement => 3
  | .compare => 4
  | .sum => 5
  | .product => 6
  | .isVoid => 7
  | .negate => 8
  | .at => 9
  | .dot => 10

/-- The level of a token between two expressions; any other token has the lowest. -/
def ofKind : Token.Kind → Level
  | .assign => .assign
  | .equal | .lessEq | .less => .compare
  | .plus | .minus => .sum
  | .times | .divide => .product
  | .at => .at
  | .dot => .dot
  | _ => .lowest

end Level

def markOf (t : Token) : Mark := ⟨t.literal, t.line, []⟩

/-- The mark of an initialiser omitted after a token. -/
def omittedAfter (t : Token) : Expr := .omitted ⟨[], t.line, []⟩

def digitsValue (digits : Text) : Nat :=
  digits.foldl (fun n d => 10 * n + (d.toNat - 48)) 0

/-- The name that an expression consists of, if it is just a name. -/
def nameOf? : Expr → Option Identifier
  | .object mark name => some ⟨mark, name⟩
  | _ => none

mutual

/-- Reads an expression whose operators bind tighter than `level`. -/
def expr (level : Level) (s : Stream) : Reading Expr s :=
  s.withToken (s.refuse s.head.line (.unexpected s.head)) fun t s₁ _ =>
  (operand t s₁).andThen fun left s₂ _ =>
  operators level left s₂
termination_by 3 * s.size
decreasing_by all_goals omega

/-- Reads the rest of an operand that begins with the token `t`. -/
def operand (t : Token) (s : Stream) : Reading Expr s :=
  match t.kind with
  | .int => .here (.int (markOf t) (digitsValue t.literal))
  | .string => .here (.string (markOf t) t.literal)
  | .bool => .here (.bool (markOf t) (t.literal == "true"))
  | .objectName =>
    if s.head.kind = .openParen then
      s.expect .openParen fun _ s₁ _ =>
      (arguments s₁).andThen fun args _ _ =>
      .here (.dispatch (markOf t) (.object (markOf t) Name.self) none t.literal args)
    else .here (.object (markOf t) t.literal)
  | .openParen =>
    (expr .lowest s).andThen fun e s₁ _ =>
    s₁.expect .closeParen fun _ _ _ =>
    .here e
  | .if =>
    (expr .lowest s).andThen fun test s₁ _ =>
    s₁.expect .then fun _ s₂ _ =>
    (expr .lowest s₂).andThen fun thenBranch s₃ _ =>
    s₃.expect .else fun _ s₄ _ =>
    (expr .lowest s₄).andThen fun elseBranch s₅ _ =>
    s₅.expect .fi fun _ _ _ =>
    .here (.cond (markOf t) test thenBranch elseBranch)
  | .while =>
    (expr .lowest s).andThen fun test s₁ _ =>
    s₁.expect .loop fun _ s₂ _ =>
    (expr .lowest s₂).andThen fun body s₃ _ =>
    s₃.expect .pool fun _ _ _ =>
    .here (.loop (markOf t) test body)
  | .let =>
    (bindings s).andThen fun bs s₁ _ =>
    s₁.expect .in fun _ s₂ _ =>
    (expr .lowest s₂).andThen fun body _ _ =>
    .here (.letIn (markOf t) bs body)
  | .case =>
    (expr .lowest s).andThen fun scrutinee s₁ _ =>
    s₁.expect .of fun _ s₂ _ =>
    (branches s₂).andThen fun found s₃ _ =>
    if found.1 = [] then s₃.refuse found.2 .emptyCase
    else .here (.typeCase (markOf t) scrutinee found.1)
  | .new =>
    s.expect .typeName fun name _ _ =>
    .here (.new (markOf t) name.literal)
  | .isvoid =>
    (expr .isVoid s).andThen fun e _ _ =>
    .here (.isVoid (markOf t) e)
  | .not =>
    (expr .complement s).andThen fun e _ _ =>
    .here (.complement (markOf t) e)
  | .tilde =>
    (expr .negate s).andThen fun e _ _ =>
    .here (.negate (markOf t) e)
  | .openBrace =>
    (items s).andThen fun es s₁ _ =>
    if es = [] then s₁.refuse t.line .emptyBlock
    else .here (.block (markOf t) es)
  | _ => s.refuse t.line (.unexpected t)
termination_by 3 * s.size + 2
decreasing_by all_goals omega

/-- Reads operators tighter than `level` after the expression `left`. -/
def operators (level : Level) (left : Expr) (s : Stream) : Reading Expr s :=
  let next := Level.ofKind s.head.kind
  if level.rank < next.rank then
    s.withToken (.here left) fun t s₁ _ =>
    match next with
    | .assign =>
      match nameOf? left with
      | none => s₁.refuse t.line .assignmentTarget
      | some name =>
        (expr .lowest s₁).andThen fun value s₂ _ =>
        operators level (.assign (markOf t) name value) s₂
    | .at =>
      s₁.expect .typeName fun target s₂ _ =>
      s₂.expect .dot fun _ s₃ _ =>
      s₃.expect .objectName fun method s₄ _ =>
      s₄.expect .openParen fun _ s₅ _ =>
      (arguments s₅).andThen fun args s₆ _ =>
      operators level
        (.dispatch (markOf t) left (some target.literal) method.literal args) s₆
    | .dot =>
      s₁.expect .objectName fun method s₂ _ =>
      s₂.expect .openParen fun _ s₃ _ =>
      (arguments s₃).andThen fun args s₄ _ =>
      operators level (.dispatch (markOf t) left none method.literal args) s₄
    | _ =>
      (expr next s₁).andThen fun right s₂ _ =>
      if next = .compare ∧ Level.ofKind s₂.head.kind = .compare then
        s₂.refuse s₂.head.line (.chainedComparison s₂.head)
      else
        operators level (.binary (markOf t) (Operator.ofSymbol t.literal) left right) s₂
  else .here left
termination_by 3 * s.size + 1
decreasing_by all_goals omega

def arguments (s : Stream) : Reading (List Expr) s :=
  if s.head.kind = .closeParen then
    s.expect .closeParen fun _ _ _ => .here []
  else argumentList s
termination_by 3 * s.size + 2
decreasing_by all_goals omega

def argumentList (s : Stream) : Reading (List Expr) s :=
  (expr .lowest s).andThen fun e s₁ _ =>
  if s₁.head.kind = .comma then
    s₁.expect .comma fun _ s₂ _ =>
    (argumentList s₂).andThen fun es _ _ =>
    .here (e :: es)
  else
    s₁.expect .closeParen fun _ _ _ =>
    .here [e]
termination_by 3 * s.size + 1
decreasing_by all_goals omega

def items (s : Stream) : Reading (List Expr) s :=
  if s.head.kind = .closeBrace then
    s.expect .closeBrace fun _ _ _ => .here []
  else if s.head.kind = .endOfText then s.refuse s.head.line .unclosedBrace
  else
    (expr .lowest s).andThen fun e s₁ _ =>
    s₁.expect .semicolon fun _ s₂ _ =>
    (items s₂).andThen fun es _ _ =>
    .here (e :: es)
termination_by 3 * s.size + 1
decreasing_by all_goals omega

def initialiser (t : Token) (s : Stream) : Reading Expr s :=
  if s.head.kind = .assign then
    s.expect .assign fun _ s₁ _ => expr .lowest s₁
  else .here (omittedAfter t)
termination_by 3 * s.size
decreasing_by all_goals omega

def bindings (s : Stream) : Reading (List (Declared Expr)) s :=
  s.expect .objectName fun name s₁ _ =>
  s₁.expect .colon fun _ s₂ _ =>
  s₂.expect .typeName fun type s₃ _ =>
  (initialiser type s₃).andThen fun init s₄ _ =>
  let binding : Declared Expr := ⟨name.line, name.literal, type.literal, init⟩
  if s₄.head.kind = .comma then
    s₄.expect .comma fun _ s₅ _ =>
    (bindings s₅).andThen fun bs _ _ =>
    .here (binding :: bs)
  else .here [binding]
termination_by 3 * s.size + 1
decreasing_by all_goals omega

/-- Reads the branches of a case up to its end, and gives the line of that end. -/
def branches (s : Stream) : Reading (List (Declared Expr) × Nat) s :=
  if s.head.kind = .esac then
    s.expect .esac fun t _ _ => .here ([], t.line)
  else
    s.withToken (s.refuse s.head.line .unclosedCase) fun name s₁ _ =>
    if name.kind = .objectName then
      s₁.expect .colon fun _ s₂ _ =>
      s₂.expect .typeName fun type s₃ _ =>
      s₃.expect .arrow fun _ s₄ _ =>
      (expr .lowest s₄).andThen fun value s₅ _ =>
      s₅.expect .semicolon fun _ s₆ _ =>
      (branches s₆).andThen fun bs _ _ =>
      .here (⟨name.line, name.literal, type.literal, value⟩ :: bs.1, bs.2)
    else s₁.refuse name.line (.expected name .caseBranch)
termination_by 3 * s.size + 1
decreasing_by all_goals omega

end

end CoolCompiler.Grammar
