import CoolCompiler.Syntax.Basic

/-!
# Temporary slots

The temporary slots that an expression needs at once.  Each let binding and case branch holds one
while it is in scope.
-/

namespace CoolCompiler.Expr

mutual

def slots : Expr → Nat
  | .absent | .omitted _ | .int _ _ | .string _ _ | .bool _ _ | .object _ _ | .new _ _ => 0
  | .assign _ _ e | .negate _ e | .complement _ e | .isVoid _ e => slots e
  | .dispatch _ e _ _ args => max (slots e) (slotsOfAll args)
  | .binary _ _ l r => max (slots l) (slots r)
  | .cond _ c t f => max (max (slots c) (slots t)) (slots f)
  | .loop _ c b => max (slots c) (slots b)
  | .block _ es => slotsOfAll es
  | .letIn _ bs e => slotsOfLet bs (slots e)
  | .typeCase _ e bs => max (slots e) (1 + slotsOfBranches bs)

def slotsOfAll : List Expr → Nat
  | [] => 0
  | e :: es => max (slots e) (slotsOfAll es)

/-- The slots of let bindings around a body that needs `body` of them. -/
def slotsOfLet : List (Declared Expr) → Nat → Nat
  | [], body => body
  | ⟨_, _, _, e⟩ :: bs, body => max (slots e) (1 + slotsOfLet bs body)

def slotsOfBranches : List (Declared Expr) → Nat
  | [] => 0
  | ⟨_, _, _, e⟩ :: bs => max (slots e) (slotsOfBranches bs)

end

end CoolCompiler.Expr
