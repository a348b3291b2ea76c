import CoolCompiler.Text.Basic

/-!
# Registers and locations

The registers of the target, the pairs with two halves, and the places of words: a labelled address
or a displacement from a register.
-/

namespace CoolCompiler

inductive Register where
  | a | b | c | d | e | h | l
  | bc | de | hl | ix | iy | sp
  | other (name : Text)
  deriving DecidableEq, Repr

namespace Register

def name : Register → Text
  | .a => "a"
  | .b => "b"
  | .c => "c"
  | .d => "d"
  | .e => "e"
  | .h => "h"
  | .l => "l"
  | .bc => "bc"
  | .de => "de"
  | .hl => "hl"
  | .ix => "ix"
  | .iy => "iy"
  | .sp => "sp"
  | .other name => name

def known : List Register :=
  [.a, .b, .c, .d, .e, .h, .l, .bc, .de, .hl, .ix, .iy, .sp]

def ofName (name : Text) : Register :=
  (known.find? (fun r => r.name == name)).getD (.other name)

end Register

inductive Pair where
  | bc | de | hl
  deriving DecidableEq, Repr

namespace Pair

def whole : Pair → Register
  | .bc => .bc
  | .de => .de
  | .hl => .hl

def low : Pair → Register
  | .bc => .c
  | .de => .e
  | .hl => .l

def high : Pair → Register
  | .bc => .b
  | .de => .d
  | .hl => .h

def ofRegister? : Register → Option Pair
  | .bc => some .bc
  | .de => some .de
  | .hl => some .hl
  | _ => none

end Pair

/-- Why an instruction cannot be written. -/
inductive MachineFault where
  | noLowHalf (r : Register)
  | noHighHalf (r : Register)
  | noLocation
  deriving DecidableEq, Repr

namespace MachineFault

def message : MachineFault → Text
  | .noLowHalf r => "z80: register " ++ r.name ++ " has no low half"
  | .noHighHalf r => "z80: register " ++ r.name ++ " has no high half"
  | .noLocation => "z80: cannot fetch from <nil>"

end MachineFault

def wordSize : Nat := 2

/-- An integer reduced to the range of signed numbers of 64 bits, in which offsets
are computed. -/
def wrapOffset (n : Int) : Int := n.bmod 0x10000000000000000

/-- The largest offset; the byte after it is at the smallest one. -/
def maxOffset : Nat := 0x7fffffffffffffff

structure Address where
  label : Name
  offset : Int := 0
  deriving DecidableEq, Repr

namespace Address

def text (a : Address) : Text :=
  if a.offset > 0 then a.label ++ "+" ++ Text.ofInt a.offset
  else if a.offset < 0 then a.label ++ "-" ++ Text.ofInt (wrapOffset (-a.offset))
  else a.label

end Address

/-- The memory at a displacement from an index register. -/
structure Indexed where
  base : Register
  offset : Int
  deriving DecidableEq, Repr

namespace Indexed

def text (x : Indexed) : Text :=
  if x.offset < 0 then "(" ++ x.base.name ++ "-" ++ Text.ofInt (wrapOffset (-x.offset)) ++ ")"
  else "(" ++ x.base.name ++ "+" ++ Text.ofInt x.offset ++ ")"

def next (x : Indexed) : Indexed := { x with offset := wrapOffset (x.offset + 1) }

end Indexed

/-- Whether both bytes of a word at an offset can be reached from an index register. -/
def fitsDisplacement (offset : Int) : Bool :=
  decide (-128 ≤ offset) && (decide (offset < 127) || decide (offset = (maxOffset : Int)))

inductive Location where
  | address (a : Address)
  | indexed (x : Indexed)
  deriving DecidableEq, Repr

namespace Location

def text : Location → Text
  | .address a => a.text
  | .indexed x => x.text

end Location

end CoolCompiler
