/-!
# Sets of characters

A set of characters is given by the lengths of the runs of code points outside and inside it, in
turn.
-/

namespace CoolCompiler

/-- The lengths of runs of code points, the first of which is outside the set. -/
structure CharSet where
  runs : List Nat

namespace CharSet

/-- Whether the code point `n` places after the beginning of the runs is in the set. -/
def hasFrom (n : Nat) : List Nat → Bool
  | outside :: inside :: runs =>
    if n < outside then false
    else if n < outside + inside then true
    else hasFrom (n - (outside + inside)) runs
  | _ => false

def has (s : CharSet) (c : Char) : Bool := hasFrom c.toNat s.runs

/-- The characters that divide words and lines. -/
def blank : CharSet :=
  ⟨[9, 5, 18, 1, 100, 1, 26, 1, 5599, 1, 2431, 11, 29, 2, 5, 1, 47, 1, 4000, 1]⟩

end CharSet

end CoolCompiler
