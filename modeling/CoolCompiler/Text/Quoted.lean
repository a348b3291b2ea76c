import CoolCompiler.Text.Utf8
import CoolCompiler.Text.Printable

/-!
# Quoted text

A text in quotes with backslash escapes.  Printable characters stand for themselves; the quote in
use, the backslash, control characters, characters without a mark and stray bytes are escaped.
-/

namespace CoolCompiler.Text

def shown (c : Char) : Bool :=
  CharSet.printable.has c

/-- The one-letter escapes of control characters. -/
def shortEscape? (c : Char) : Option UInt8 :=
  match c.toNat with
  | 7 => some 97
  | 8 => some 98
  | 9 => some 116
  | 10 => some 110
  | 11 => some 118
  | 12 => some 102
  | 13 => some 114
  | _ => none

/-- The quoted form of one character between the quotes `q`. -/
def escapedChar (q : Char) (c : Char) : Text :=
  if c = q ∨ c = '\\' then 92 :: String.utf8EncodeChar c
  else if shown c then String.utf8EncodeChar c
  else
    match shortEscape? c with
    | some letter => [92, letter]
    | none =>
      if c.toNat < 0x20 ∨ c.toNat = 0x7F then "\\x" ++ hex 2 c.toNat
      else if c.toNat < 0x10000 then "\\u" ++ hex 4 c.toNat
      else "\\U" ++ hex 8 c.toNat

/-- The quoted form of one glyph between the quotes `q`. -/
def escaped (q : Char) : Glyph → Text
  | .char c => escapedChar q c
  | .stray b => "\\x" ++ hex 2 b.toNat

def quoted (t : Text) : Text :=
  [34] ++ (glyphs t).flatMap (escaped '"') ++ [34]

def quotedChar (c : Char) : Text :=
  [39] ++ escapedChar '\'' c ++ [39]

end CoolCompiler.Text
