import CoolCompiler.Text.Utf8
import CoolCompiler.Text.CharSet
import CoolCompiler.Text.LowerCase

/-!
# Blank space and case of a text

Trimming leaves stray bytes alone; lowering writes the replacement character for each of them.
-/

namespace CoolCompiler

def isBlank (c : Char) : Bool :=
  CharSet.blank.has c

namespace Glyph

def isBlank : Glyph → Bool
  | .char c => CoolCompiler.isBlank c
  | .stray _ => false

end Glyph

namespace Text

def trim (t : Text) : Text :=
  ofGlyphs ((((glyphs t).dropWhile Glyph.isBlank).reverse.dropWhile Glyph.isBlank).reverse)

def lower (t : Text) : Text :=
  ofChars ((chars t).map lowerCase)

end Text

end CoolCompiler
