import CoolCompiler.Token.Lexeme

/-!
# Scanning

The tokens of a source text, closed by one end token.  Scanning ends at the first NUL character or
at the end.
-/

namespace CoolCompiler.Token

/-- The tokens of some characters, the first of which stands at `place`. -/
def ofChars (place : Position) : List Char → List Token
  | [] => [⟨.endOfText, [], place⟩]
  | c :: cs =>
    let lexeme := Lexeme.first c cs
    let after := place.past lexeme.covered
    let tokens := ofChars after lexeme.rest
    match lexeme.meaning with
    | .skipped => tokens
    | .token kind literal => ⟨kind, literal, place⟩ :: tokens
    | .fault .endInComment =>
      ⟨.error, LexicalFault.endInComment.message place.line, after⟩ :: tokens
    | .fault cause => ⟨.error, cause.message place.line, place⟩ :: tokens
termination_by cs => cs.length
decreasing_by exact Lexeme.rest_length_lt c cs

/-- The characters that scanning looks at. -/
def scanned (source : Text) : List Char :=
  (Text.chars source).takeWhile (fun c => c.toNat != 0)

def scan (source : Text) : List Token :=
  ofChars Position.start (scanned source)

end CoolCompiler.Token
