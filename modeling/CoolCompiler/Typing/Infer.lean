import CoolCompiler.Typing.Complaint
import CoolCompiler.Typing.Symbols

/-!
# Types of expressions

Inference returns the expression with its static types, and the findings.  After a finding the
expression at fault has the root class as its type, so that checking goes on.  A tree with an absent
expression cannot be typed.
-/

namespace CoolCompiler.Typing

/-- An expression that has to be there is absent. -/
inductive Incomplete where
  | absentExpr
  deriving DecidableEq, Repr

/-- A value found while checking, with the findings made on the way. -/
abbrev Check (α : Type) := Except Incomplete (α × List Finding)

namespace Check

variable {α β : Type}

def done (a : α) : Check α := .ok (a, [])

def andThen (x : Check α) (f : α → Check β) : Check β :=
  match x with
  | .error e => .error e
  | .ok (a, found) =>
    match f a with
    | .error e => .error e
    | .ok (b, more) => .ok (b, found ++ more)

instance : Monad (fun α => Check α) where
  pure := done
  bind := andThen

def complain (line : Int) (c : Complaint) : Check Unit := .ok ((), [⟨line, c⟩])

def require (ok : Bool) (line : Int) (c : Complaint) : Check Unit :=
  if ok then done () else complain line c

end Check

/-- Where an expression stands: the classes known and the class around it. -/
structure Context where
  symbols : Symbols
  current : Name

namespace Context

def conforms (c : Context) (t₁ t₂ : Name) : Bool :=
  c.symbols.conforms t₁ t₂ c.current

end Context

def annotate (e : Expr) (m : Mark) (type : Name) : Expr :=
  e.withMark { m with type := type }

/-- The type of a variable: of `self`, of a local one or of an attribute. -/
def typeOfVar? (ctx : Context) (scopes : Scopes) (x : Name) : Option Name :=
  if x = Name.self then some Name.selfType
  else
    match scopes.find? x with
    | some type => some type
    | none => (ctx.symbols.attribute? ctx.current x).map AttributeSymbol.type

/-- The type of a variable that should be declared. -/
def lookup (ctx : Context) (scopes : Scopes) (x : Name) (line : Int) : Check Name :=
  match typeOfVar? ctx scopes x with
  | some type => Check.done type
  | none => do
      Check.complain line (.undeclared x)
      return Name.object

/-- Whether a class has a comparison of its own. -/
def isPrimitive (t : Name) : Bool :=
  t == Name.int || t == Name.bool || t == Name.string

def binaryType (line : Int) (op : Operator) (left right : Name) : Check Name :=
  match op with
  | .add | .sub | .mul | .div => do
      Check.require (left == Name.int && right == Name.int) line (.nonInt left op right)
      return Name.int
  | .less | .lessEq => do
      Check.require (left == Name.int && right == Name.int) line (.nonInt left op right)
      return Name.bool
  | .equal => do
      Check.require (!(isPrimitive left || isPrimitive right) || left == right) line
        .basicComparison
      return Name.bool
  | .other _ => do
      Check.complain line (.unknownOperator op)
      return Name.object

/-- Compares the types of actual arguments with the formals of a method. -/
def checkArguments (ctx : Context) (line : Int) (method : Name) :
    List Name → List Formal → Check Unit
  | t :: ts, f :: fs => do
      Check.require (ctx.conforms t f.type) line (.argumentType method t f.name f.type)
      checkArguments ctx line method ts fs
  | _, _ => Check.done ()

def callType (ctx : Context) (line : Int) (receiver owner method : Name) (args : List Name) :
    Check Name :=
  match ctx.symbols.method? owner method with
  | none => do
      Check.complain line (.undefinedMethod method)
      return Name.object
  | some m => do
      if args.length = m.formals.length then checkArguments ctx line method args m.formals
      else Check.complain line (.argumentCount method)
      return if m.returns = Name.selfType then receiver else m.returns

def dispatchType (ctx : Context) (line : Int) (receiver : Name) (target : Option Name)
    (method : Name) (args : List Name) : Check Name :=
  match target with
  | none => callType ctx line receiver (Symbols.resolve receiver ctx.current) method args
  | some t =>
    if t = Name.selfType ∨ ctx.symbols.isType t = false then do
      Check.complain line (.staticUndefined t)
      return Name.object
    else if ctx.conforms receiver t then callType ctx line receiver t method args
    else do
      Check.complain line (.staticType receiver t)
      return Name.object

/-- The target of an assignment with its declared type, to which that of the value has to
conform.  `self` gets no type. -/
def assignTarget (ctx : Context) (scopes : Scopes) (line : Int) (value : Name) (x : Identifier) :
    Check Identifier :=
  if x.name = Name.self then do
    Check.complain line .assignsSelf
    return x
  else do
    let declared ← lookup ctx scopes x.name line
    Check.require (ctx.conforms value declared) line (.assignment value declared x.name)
    return { x with mark := { x.mark with type := declared } }

/-- Checks the name and type of a let binding; an undefined type is read as the root. -/
def bindingType (ctx : Context) (line : Int) (x type : Name) : Check Name := do
  Check.require (x != Name.self) line .selfBinding
  if ctx.symbols.isType type then return type
  else
    Check.complain line (.undefinedBindingType type x)
    return Name.object

/-- Checks an initialiser against the declared type; one that is omitted always fits. -/
def checkInit (ctx : Context) (line : Int) (x declared : Name) : Expr → Check Unit
  | .omitted _ => Check.done ()
  | init =>
    Check.require (ctx.conforms init.type declared) line (.bindingInit init.type x declared)

/-- Checks the type of a case branch against those of the branches before it. -/
def checkBranch (ctx : Context) (seen : List Name) (line : Int) (x type : Name) : Check Unit :=
  if type = Name.selfType then Check.complain line (.selfTypeBranch x)
  else if ctx.symbols.isType type = false then Check.complain line (.undefinedBranchType type)
  else if seen.contains type then Check.complain line (.duplicateBranch type)
  else Check.done ()

/-- The type of a case after one more branch; the empty type is that of no branch. -/
def joinBranch (ctx : Context) (result branch : Name) : Name :=
  if result = [] then branch else ctx.symbols.leastUpperBound result branch ctx.current

mutual

def infer (ctx : Context) (scopes : Scopes) : Expr → Check Expr
  | .absent => .error .absentExpr
  | .omitted m => return annotate (.omitted m) m Name.noClass
  | .int m n => return annotate (.int m n) m Name.int
  | .string m s => return annotate (.string m s) m Name.string
  | .bool m b => return annotate (.bool m b) m Name.bool
  | .object m x => do
      let type ← lookup ctx scopes x m.line
      return annotate (.object m x) m type
  | .assign m x e => do
      let value ← infer ctx scopes e
      let target ← assignTarget ctx scopes m.line value.type x
      return annotate (.assign m target value) m value.type
  | .dispatch m e target f args => do
      let receiver ← infer ctx scopes e
      let actuals ← inferAll ctx scopes args
      let type ← dispatchType ctx m.line receiver.type target f (actuals.map Expr.type)
      return annotate (.dispatch m receiver target f actuals) m type
  | .binary m op l r => do
      let left ← infer ctx scopes l
      let right ← infer ctx scopes r
      let type ← binaryType m.line op left.type right.type
      return annotate (.binary m op left right) m type
  | .negate m e => do
      let operand ← infer ctx scopes e
      Check.require (operand.type == Name.int) m.line (.negateType operand.type)
      return annotate (.negate m operand) m Name.int
  | .complement m e => do
      let operand ← infer ctx scopes e
      Check.require (operand.type == Name.bool) m.line (.complementType operand.type)
      return annotate (.complement m operand) m Name.bool
  | .isVoid m e => do
      let operand ← infer ctx scopes e
      return annotate (.isVoid m operand) m Name.bool
  | .new m t =>
    if ctx.symbols.isType t then return annotate (.new m t) m t
    else do
      Check.complain m.line (.newUndefined t)
      return annotate (.new m t) m Name.object
  | .cond m c t f => do
      let test ← infer ctx scopes c
      Check.require (test.type == Name.bool) m.line .conditionType
      let thenBranch ← infer ctx scopes t
      let elseBranch ← infer ctx scopes f
      return annotate (.cond m test thenBranch elseBranch) m
        (ctx.symbols.leastUpperBound thenBranch.type elseBranch.type ctx.current)
  | .loop m c b => do
      let test ← infer ctx scopes c
      Check.require (test.type == Name.bool) m.line .loopConditionType
      let body ← infer ctx scopes b
      return annotate (.loop m test body) m Name.object
  | .block m es => do
      let items ← inferAll ctx scopes es
      return annotate (.block m items) m ((items.getLast?.map Expr.type).getD Name.object)
  | .letIn m bs e => do
      let (bindings, inside) ← inferBindings ctx scopes bs
      let body ← infer ctx inside e
      return annotate (.letIn m bindings body) m body.type
  | .typeCase m e bs => do
      let scrutinee ← infer ctx scopes e
      let (branches, type) ← inferBranches ctx scopes [] [] bs
      return annotate (.typeCase m scrutinee branches) m type

def inferAll (ctx : Context) (scopes : Scopes) : List Expr → Check (List Expr)
  | [] => return []
  | e :: es => do
      let first ← infer ctx scopes e
      let rest ← inferAll ctx scopes es
      return first :: rest

/-- The bindings of a let, each in scope for those after it, and the scopes inside. -/
def inferBindings (ctx : Context) (scopes : Scopes) :
    List (Declared Expr) → Check (List (Declared Expr) × Scopes)
  | [] => return ([], scopes)
  | ⟨line, x, type, e⟩ :: bs => do
      let declared ← bindingType ctx line x type
      let init ← infer ctx scopes e
      checkInit ctx line x declared init
      let (rest, inside) ← inferBindings ctx (scopes.enter.bind x declared) bs
      return (⟨line, x, type, init⟩ :: rest, inside)

/-- The branches of a case and the type they have in common. -/
def inferBranches (ctx : Context) (scopes : Scopes) (seen : List Name) (result : Name) :
    List (Declared Expr) → Check (List (Declared Expr) × Name)
  | [] => return ([], result)
  | ⟨line, x, type, e⟩ :: bs => do
      checkBranch ctx seen line x type
      let value ← infer ctx (scopes.enter.bind x type) e
      let (rest, joined) ←
        inferBranches ctx scopes (type :: seen) (joinBranch ctx result value.type) bs
      return (⟨line, x, type, value⟩ :: rest, joined)

end

end CoolCompiler.Typing
