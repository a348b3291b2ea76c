import CoolCompiler.Text.Basic

/-!
# Characters of a text

A text is read as UTF-8 from left to right.  Each step takes the shortest encoding of a character or
a single stray byte.
-/

namespace CoolCompiler

/-- What one step of reading finds: a character or a byte that is part of none. -/
inductive Glyph where
  | char (c : Char)
  | stray (b : UInt8)
  deriving DecidableEq, Repr

namespace Glyph

def bytes : Glyph → Text
  | .char c => String.utf8EncodeChar c
  | .stray b => [b]

/-- The replacement character, which stands for a stray byte. -/
def replacement : Char := Char.ofNat 0xFFFD

def toChar : Glyph → Char
  | .char c => c
  | .stray _ => replacement

end Glyph

namespace Text

/-- The six value bits of a continuation byte. -/
def tail? (b : UInt8) : Option Nat :=
  if 0x80 ≤ b ∧ b < 0xC0 then some (b.toNat - 0x80) else none

/-- A code point that needs at least `least` and is not a surrogate. -/
def scalar? (least n : Nat) : Option Char :=
  if least ≤ n ∧ n.isValidChar then some (Char.ofNat n) else none

/-- The character whose encoding begins with `b` and goes on in `rest`, with the number of bytes
taken of `rest`. -/
def leading? (b : UInt8) (rest : Text) : Option (Char × Nat) :=
  if b < 0x80 then some (Char.ofNat b.toNat, 0)
  else if b < 0xC0 then none
  else if b < 0xE0 then
    match rest with
    | b₁ :: _ => do
        let x ← tail? b₁
        let c ← scalar? 0x80 ((b.toNat - 0xC0) * 64 + x)
        return (c, 1)
    | _ => none
  else if b < 0xF0 then
    match rest with
    | b₁ :: b₂ :: _ => do
        let x ← tail? b₁
        let y ← tail? b₂
        let c ← scalar? 0x800 (((b.toNat - 0xE0) * 64 + x) * 64 + y)
        return (c, 2)
    | _ => none
  else if b < 0xF8 then
    match rest with
    | b₁ :: b₂ :: b₃ :: _ => do
        let x ← tail? b₁
        let y ← tail? b₂
        let z ← tail? b₃
        let c ← scalar? 0x10000 ((((b.toNat - 0xF0) * 64 + x) * 64 + y) * 64 + z)
        return (c, 3)
    | _ => none
  else none

def glyphs : Text → List Glyph
  | [] => []
  | b :: rest =>
    match leading? b rest with
    | some (c, n) => .char c :: glyphs (rest.drop n)
    | none => .stray b :: glyphs rest
termination_by t => t.length
decreasing_by
  all_goals simp only [List.length_cons, List.length_drop]; omega

/-- The characters of a text, with the replacement character for each stray byte. -/
def chars (t : Text) : List Char :=
  (glyphs t).map Glyph.toChar

def ofChars (cs : List Char) : Text :=
  cs.flatMap String.utf8EncodeChar

def ofGlyphs (gs : List Glyph) : Text :=
  gs.flatMap Glyph.bytes

end Text

end CoolCompiler
