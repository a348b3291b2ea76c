import CoolCompiler.Dictionary
import CoolCompiler.ObjectModel.ClassTable

/-!
# Values and evaluation

Expressions over integers, truth values and local variables.  Integers are words in two's
complement.  Other objects occur only as what variables hold.
-/

namespace CoolCompiler

/-- Values: integers, truth values, string constants, void, and other objects, which are
known by their addresses. -/
inductive Value where
  | int (w : BitVec 16)
  | bool (b : Bool)
  | string (s : Text)
  | void
  | object (p : BitVec 16)
  deriving DecidableEq

namespace Value

def initial (type : Name) : Value :=
  if type = Name.int then .int 0#16
  else if type = Name.bool then .bool false
  else if type = Name.string then .string []
  else .void

def box? : Value → Option (Name × BitVec 16)
  | .int w => some (Name.int, w)
  | .bool b => some (Name.bool, if b then 1#16 else 0#16)
  | _ => none

end Value

namespace Operator

def compute? : Operator → BitVec 16 → BitVec 16 → Option (BitVec 16)
  | .add, a, b => some (a + b)
  | .sub, a, b => some (a - b)
  | _, _, _ => none

def compare? : Operator → BitVec 16 → BitVec 16 → Option Bool
  | .less, a, b => some (a.slt b)
  | .lessEq, a, b => some (a.sle b)
  | _, _, _ => none

end Operator

/-- An expression evaluates, from what the local variables hold, innermost first, to a value and to
what they hold afterwards.  A loop is void.  A binding hides the variables before it until the body
is done. -/
inductive Eval : Dictionary Value → Expr → Value → Dictionary Value → Prop where
  | int {ρ m n} : Eval ρ (.int m n) (.int (BitVec.ofInt 16 n)) ρ
  | bool {ρ m b} : Eval ρ (.bool m b) (.bool b) ρ
  | lookup {ρ m x v} : x ≠ Name.self → ρ.find? x = some v → Eval ρ (.object m x) v ρ
  | assign {ρ ρ' m x e v} : ρ'.has x.name = true → Eval ρ e v ρ' →
      Eval ρ (.assign m x e) v (ρ'.put x.name v)
  | arithmetic {ρ ρ1 ρ2 m op l r a b w} : op.compute? a b = some w → Eval ρ l (.int a) ρ1 →
      Eval ρ1 r (.int b) ρ2 → Eval ρ (.binary m op l r) (.int w) ρ2
  | comparison {ρ ρ1 ρ2 m op l r a b c} : op.compare? a b = some c → Eval ρ l (.int a) ρ1 →
      Eval ρ1 r (.int b) ρ2 → Eval ρ (.binary m op l r) (.bool c) ρ2
  | equal {ρ ρ1 ρ2 m l r u v c a b} : u.box? = some (c, a) → v.box? = some (c, b) →
      Eval ρ l u ρ1 → Eval ρ1 r v ρ2 → Eval ρ (.binary m .equal l r) (.bool (a == b)) ρ2
  | negate {ρ ρ' m e a} : Eval ρ e (.int a) ρ' → Eval ρ (.negate m e) (.int (-a)) ρ'
  | complement {ρ ρ' m e b} : Eval ρ e (.bool b) ρ' → Eval ρ (.complement m e) (.bool !b) ρ'
  | isVoid {ρ ρ' m e v} : Eval ρ e v ρ' → Eval ρ (.isVoid m e) (.bool (v == .void)) ρ'
  | cond {ρ ρ1 ρ2 m c t f b v} : Eval ρ c (.bool b) ρ1 → Eval ρ1 (if b then t else f) v ρ2 →
      Eval ρ (.cond m c t f) v ρ2
  | loopEnd {ρ ρ' m c e} : Eval ρ c (.bool false) ρ' → Eval ρ (.loop m c e) .void ρ'
  | loopAgain {ρ ρ1 ρ2 ρ3 m c e v} : Eval ρ c (.bool true) ρ1 → Eval ρ1 e v ρ2 →
      Eval ρ2 (.loop m c e) .void ρ3 → Eval ρ (.loop m c e) .void ρ3
  | blockLast {ρ ρ' m e v} : Eval ρ e v ρ' → Eval ρ (.block m [e]) v ρ'
  | blockNext {ρ ρ1 ρ2 m m' e e' es u v} : Eval ρ e u ρ1 → Eval ρ1 (.block m' (e' :: es)) v ρ2 →
      Eval ρ (.block m (e :: e' :: es)) v ρ2
  | letBody {ρ ρ' m e v} : Eval ρ e v ρ' → Eval ρ (.letIn m [] e) v ρ'
  | letOmitted {ρ ρ' m m' b bs e v w} : b.value.isOmitted = true →
      Eval ((b.name, Value.initial b.type) :: ρ) (.letIn m' bs e) v ((b.name, w) :: ρ') →
      Eval ρ (.letIn m (b :: bs) e) v ρ'
  | letInit {ρ ρ1 ρ2 m m' b bs e u v w} : Eval ρ b.value u ρ1 →
      Eval ((b.name, u) :: ρ1) (.letIn m' bs e) v ((b.name, w) :: ρ2) →
      Eval ρ (.letIn m (b :: bs) e) v ρ2

end CoolCompiler
