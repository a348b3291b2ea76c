import CoolCompiler.Emit.Emission
import CoolCompiler.Emit.Sequences
import CoolCompiler.ObjectModel.Pool

/-!
# Code of expressions

The code of an expression leaves its value in hl and keeps ix and iy.  Parts are evaluated from left
to right, the arguments of a call before its receiver.
-/

namespace CoolCompiler.Emit

/-- What code generation looks things up in. -/
structure Scene where
  table : ClassTable
  pool : Pool

variable {σ : Type}

/-!
# Constants and classes
-/

def stringConst (sc : Scene) (owner : Name) (s : Text) : Emit σ Address :=
  match sc.pool.strings.find? s with
  | some i => done ⟨stringLabel i, 0⟩
  | none => fail (.internal owner (.stringNotInterned s))

def intConst (sc : Scene) (owner : Name) (n : Int) : Emit σ Address :=
  match sc.pool.ints.find? n with
  | some i => done ⟨intLabel i, 0⟩
  | none => fail (.internal owner (.intNotInterned n))

def basicClass (sc : Scene) (owner : Name) (name : Name) : Emit σ ClassNode :=
  match sc.table.find? name with
  | some n => done n
  | none => fail (.internal owner (.basicMissing name))

/-!
# The routine at hand
-/

def owner : Emit Session ClassNode := do return (← get).env.owner

def failHere {α : Type} (cause : Cause) : Emit Session α := do
  fail (.internal (← owner).name cause)

def newLabel : Emit Session Name := do
  let s ← get
  set { s with labels := s.labels + 1 }
  return localLabel s.labels

def newLabels : Nat → Emit Session (List Name)
  | 0 => return []
  | n + 1 => do
      let label ← newLabel
      let labels ← newLabels n
      return label :: labels

def placeOf (name : Name) : Emit Session Indexed := do
  ofExcept ((← get).env.lookup name)

/-- Opens a scope that holds one variable in a new temporary slot, and stores hl
there. -/
def openSlot (name : Name) : Emit Session Unit := do
  let s ← get
  let (slot, env) := s.env.alloc
  set { s with env := env }
  instrs (Instr.storeWord slot .hl)
  let env ← ofExcept (env.enter.bind name slot)
  set { s with env := env }

def closeSlot : Emit Session Unit := do
  let s ← get
  let env ← ofExcept s.env.leave
  set { s with env := env.free }

def closeSlots : Nat → Emit Session Unit
  | 0 => done ()
  | n + 1 => do
      closeSlot
      closeSlots n

/-- Puts the value that a variable of a type starts with into hl. -/
def defaultValue (sc : Scene) (type : Name) : Emit Session Unit := do
  if type = Name.int then
    instrs [Instr.loadAddress .hl (← intConst sc (← owner).name 0)]
  else if type = Name.bool then instrs [loadBool false]
  else if type = Name.string then
    instrs [Instr.loadAddress .hl (← stringConst sc (← owner).name [])]
  else instrs [Instr.loadInt .hl 0]

def pushInt (sc : Scene) : Emit Session Unit := do
  let n ← basicClass sc (← owner).name Name.int
  instrs (pushCopy n.prototypeLabel)

def fileConst (sc : Scene) : Emit Session Address := do
  let n ← owner
  stringConst sc n.name n.decl.file

def branchTags (sc : Scene) : List (Declared Expr) → Emit Session (List Nat)
  | [] => return []
  | b :: bs => do
      match sc.table.find? b.type with
      | none => failHere (.caseOnUnknown b.type)
      | some n =>
        let tags ← branchTags sc bs
        return n.tag :: tags

/-- The class at which a dispatch looks up its method. -/
def receiverClass (receiver : Expr) : Emit Session Name := do
  let here ← owner
  match receiver.mark? with
  | none => fail .absentReceiver
  | some m => return if m.type = Name.selfType then here.name else m.type

/-- Ends a dispatch: the report of a void receiver, and the actuals off the stack. -/
def endDispatch (sc : Scene) (line : Int) (void back : Name) (actuals : Nat) :
    Emit Session Unit := do
  let file ← fileConst sc
  lines (dispatchAbort void line file ++ [.label back])
  instrs (dropActuals actuals)

/-- Writes code after a value, for an operator on two of them. -/
def binaryTail (op : Operator) (leftType : Name) : Emit Session Unit := do
  match op with
  | .add | .sub | .mul | .div => instrs (unboxOperands ++ arithmetic op ++ boxResult)
  | .less => do
      instrs (unboxOperands ++ compareSigned false)
      lines (selectBool .carry (← newLabel))
  | .lessEq => do
      instrs (unboxOperands ++ compareSigned true)
      lines (selectBool .carry (← newLabel))
  | .equal => do
      let isTrue ← newLabel
      let finished ← newLabel
      instrs (testSame isTrue ++ testEqual leftType isTrue)
      lines (equalityResult isTrue finished)
  | .other symbol => failHere (.unknownOperator symbol)

/-- Writes code before the values of an operator. -/
def binaryHead (sc : Scene) : Operator → Emit Session Unit
  | .add | .sub | .mul | .div => pushInt sc
  | .less | .lessEq | .equal => done ()
  | .other symbol => failHere (.unknownOperator symbol)

/-!
# Expressions
-/

mutual

def expr (sc : Scene) : Expr → Emit Session Unit
  | .absent => failHere .absentExpr
  | .omitted _ => defaultValue sc Name.noClass
  | .int _ n => do
      instrs [Instr.loadAddress .hl (← intConst sc (← owner).name n)]
  | .string _ s => do
      instrs [Instr.loadAddress .hl (← stringConst sc (← owner).name s)]
  | .bool _ b => instrs [loadBool b]
  | .object _ x => do
      if x = Name.self then instrs (Instr.move .hl .ix)
      else instrs (Instr.loadWord .hl (← placeOf x))
  | .assign _ x e => do
      let place ← placeOf x.name
      expr sc e
      instrs (Instr.storeWord place .hl)
  | .dispatch m e none f args => do
      let c ← receiverClass e
      let method ← ofExcept (sc.table.method c f)
      actuals sc args
      expr sc e
      let void ← newLabel
      let back ← newLabel
      instrs (dispatchCall method.offset void back)
      endDispatch sc m.line void back args.length
  | .dispatch m e (some t) f args => do
      let method ← ofExcept (sc.table.method t f)
      actuals sc args
      expr sc e
      let void ← newLabel
      let back ← newLabel
      instrs (staticCall method.label void back)
      endDispatch sc m.line void back args.length
  | .binary _ op l r => do
      binaryHead sc op
      expr sc l
      instrs [.push .hl]
      expr sc r
      instrs [.pop .de]
      binaryTail op l.type
  | .negate _ e => do
      pushInt sc
      expr sc e
      instrs (negatePayload ++ boxResult)
  | .complement _ e => do
      expr sc e
      instrs testBool
      lines (selectBool .zero (← newLabel))
  | .isVoid _ e => do
      expr sc e
      instrs (Instr.testZero .hl)
      lines (selectBool .zero (← newLabel))
  | .new _ t => do
      if t = Name.selfType then lines (newSelfType (← newLabel))
      else
        match sc.table.find? t with
        | none => failHere (.newOfUnknown t)
        | some n => instrs (newObject n)
  | .cond _ c t f => do
      let otherwise ← newLabel
      let finished ← newLabel
      expr sc c
      instrs (testBool ++ [.jp .zero otherwise])
      expr sc t
      instrs [.jp .always finished]
      lines [.label otherwise]
      expr sc f
      lines [.label finished]
  | .loop _ c b => do
      let again ← newLabel
      let finished ← newLabel
      lines [.label again]
      expr sc c
      instrs (testBool ++ [.jp .zero finished])
      expr sc b
      instrs [.jp .always again]
      lines [.label finished]
      instrs [Instr.loadInt .hl 0]
  | .block _ es => sequence sc es
  | .letIn _ bs e => do
      bindings sc bs
      expr sc e
      closeSlots bs.length
  | .typeCase m e bs => do
      let tags ← branchTags sc bs
      let file ← fileConst sc
      expr sc e
      let void ← newLabel
      let again ← newLabel
      let noMatch ← newLabel
      let finished ← newLabel
      let labels ← newLabels bs.length
      lines (caseWalk void again noMatch (tags.zip labels) m.line file)
      branches sc finished labels bs
      lines [.label finished]

def sequence (sc : Scene) : List Expr → Emit Session Unit
  | [] => done ()
  | e :: es => do
      expr sc e
      sequence sc es

def actuals (sc : Scene) : List Expr → Emit Session Unit
  | [] => done ()
  | e :: es => do
      expr sc e
      instrs [.push .hl]
      actuals sc es

def bindings (sc : Scene) : List (Declared Expr) → Emit Session Unit
  | [] => done ()
  | ⟨_, x, type, e⟩ :: bs => do
      if e.isOmitted then defaultValue sc type else expr sc e
      openSlot x
      bindings sc bs

def branches (sc : Scene) (finished : Name) :
    List Name → List (Declared Expr) → Emit Session Unit
  | label :: labels, ⟨_, x, _, e⟩ :: bs => do
      lines [.label label]
      instrs [.pop .hl]
      openSlot x
      expr sc e
      closeSlot
      instrs [.jp .always finished]
      branches sc finished labels bs
  | _, _ => done ()

end

def initializer (sc : Scene) (type : Name) (e : Expr) : Emit Session Unit :=
  if e.isOmitted then defaultValue sc type else expr sc e

end CoolCompiler.Emit
