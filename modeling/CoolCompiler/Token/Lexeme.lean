import CoolCompiler.Token.Basic
import CoolCompiler.Text.Fold
import CoolCompiler.Text.Letter
import CoolCompiler.Text.DecimalDigit

/-!
# Lexemes

A lexeme is a run of characters that is read as one item: blank space, a comment, a token or a
lexical error.  The functions here cut off the first one.  It and the rest are always what it was
cut from, and no lexeme is empty.
-/

namespace CoolCompiler

/-- The largest integer constant: integers are words of sixteen bits. -/
def maxInt : Nat := 32767

def maxStringLength : Nat := 1024

inductive LexicalFault where
  | endInComment
  | endInString
  | unterminatedString
  | stringTooLong
  | unmatchedComment
  | intOutOfRange (digits : Text)
  | unexpected (c : Char)
  deriving DecidableEq, Repr

namespace LexicalFault

/-- The message about a fault in a lexeme that begins on the given line. -/
def message (line : Nat) : LexicalFault → Text
  | .endInComment => "EOF in comment starting at line " ++ Text.decimal line
  | .endInString => "EOF in string constant at line " ++ Text.decimal line
  | .unterminatedString => "unterminated string constant at line " ++ Text.decimal line
  | .stringTooLong => "string constant too long at line " ++ Text.decimal line
  | .unmatchedComment => "unmatched *)"
  | .intOutOfRange digits => "integer constant " ++ digits ++ " out of range"
  | .unexpected c => "unexpected character " ++ Text.quotedChar c

end LexicalFault

inductive Meaning where
  | skipped
  | token (kind : Token.Kind) (literal : Text)
  | fault (cause : LexicalFault)
  deriving DecidableEq, Repr

/-- The first lexeme of some characters and what follows it. -/
structure Lexeme where
  covered : List Char
  rest : List Char
  meaning : Meaning
  deriving DecidableEq, Repr

namespace Lexeme

/-!
# Words
-/

def isLetter (c : Char) : Bool :=
  CharSet.letter.has c

def isDigit (c : Char) : Bool :=
  CharSet.decimalDigit.has c

def isWordPart (c : Char) : Bool :=
  isLetter c || isDigit c || c == '_'

def keywords : List (List Char × Token.Kind) :=
  [("class".toList, .class), ("inherits".toList, .inherits), ("isvoid".toList, .isvoid),
   ("if".toList, .if), ("fi".toList, .fi), ("else".toList, .else), ("then".toList, .then),
   ("case".toList, .case), ("esac".toList, .esac), ("while".toList, .while),
   ("loop".toList, .loop), ("pool".toList, .pool), ("of".toList, .of), ("let".toList, .let),
   ("in".toList, .in), ("new".toList, .new), ("not".toList, .not)]

/-- Whether a byte, read as a Latin-1 character, is an upper-case letter. -/
def isUpperByte (b : UInt8) : Bool :=
  (65 ≤ b && b ≤ 90) || (0xC0 ≤ b && b ≤ 0xD6) || (0xD8 ≤ b && b ≤ 0xDE)

/-- Whether a byte, read as a Latin-1 character, is a lower-case letter. -/
def isLowerByte (b : UInt8) : Bool :=
  (97 ≤ b && b ≤ 122) || b == 0xB5 || (0xDF ≤ b && b ≤ 0xF6) || 0xF8 ≤ b

/-- What a word stands for.  A keyword may be in any case; a truth value begins with a small letter.
Other words name a type when their first byte is a capital. -/
def wordMeaning (word : List Char) : Meaning :=
  let lowered := word.map lowerCase
  let literal := Text.ofChars word
  let first := literal.headD 0
  match keywords.lookup lowered with
  | some kind => .token kind literal
  | none =>
    if (lowered == "true".toList || lowered == "false".toList) && isLowerByte first then
      .token .bool (Text.ofChars lowered)
    else if isUpperByte first then .token .typeName literal
    else .token .objectName literal

/-- The value of ASCII decimal digits; other characters have none. -/
def digitsValue? (digits : List Char) : Option Nat :=
  digits.foldlM
    (fun n c =>
      if 48 ≤ c.toNat ∧ c.toNat ≤ 57 then some (10 * n + (c.toNat - 48)) else none) 0

def numberMeaning (digits : List Char) : Meaning :=
  let literal := Text.ofChars digits
  match digitsValue? digits with
  | some n => if n ≤ maxInt then .token .int literal else .fault (.intOutOfRange literal)
  | none => .fault (.intOutOfRange literal)

/-- The longest run of characters that satisfy a test. -/
def run (test : Char → Bool) (c : Char) (cs : List Char) (meaning : List Char → Meaning) :
    Lexeme :=
  let word := c :: cs.takeWhile test
  ⟨word, cs.dropWhile test, meaning word⟩

/-!
# Comments
-/

/-- A nested comment after its opening, at a given depth: the characters it covers, the rest, and
whether it was closed. -/
def comment : Nat → List Char → List Char × List Char × Bool
  | _, [] => ([], [], false)
  | depth, '(' :: '*' :: cs =>
    let (covered, rest, closed) := comment (depth + 1) cs
    ('(' :: '*' :: covered, rest, closed)
  | depth, '*' :: ')' :: cs =>
    if depth ≤ 1 then (['*', ')'], cs, true)
    else
      let (covered, rest, closed) := comment (depth - 1) cs
      ('*' :: ')' :: covered, rest, closed)
  | depth, c :: cs =>
    let (covered, rest, closed) := comment depth cs
    (c :: covered, rest, closed)

/-!
# String constants
-/

/-- How a string constant ends. -/
inductive StringEnd where
  | closed
  | newline
  | endOfText
  deriving DecidableEq, Repr

/-- The character that a backslash and the given one stand for. -/
def escapeValue (c : Char) : Char :=
  if c = 'b' then Char.ofNat 8
  else if c = 't' then Char.ofNat 9
  else if c = 'n' then Char.ofNat 10
  else if c = 'f' then Char.ofNat 12
  else c

/-- A string constant after its opening quote: its value, the characters it covers,
the rest and how it ended. -/
def stringBody : List Char → List Char × List Char × List Char × StringEnd
  | [] => ([], [], [], .endOfText)
  | '"' :: cs => ([], ['"'], cs, .closed)
  | '\n' :: cs => ([], ['\n'], cs, .newline)
  | '\\' :: [] => ([], ['\\'], [], .endOfText)
  | '\\' :: c :: cs =>
    let (value, covered, rest, ending) := stringBody cs
    (escapeValue c :: value, '\\' :: c :: covered, rest, ending)
  | c :: cs =>
    let (value, covered, rest, ending) := stringBody cs
    (c :: value, c :: covered, rest, ending)

def stringMeaning (value : List Char) : StringEnd → Meaning
  | .closed =>
    let literal := Text.ofChars value
    if literal.length ≤ maxStringLength then .token .string literal else .fault .stringTooLong
  | .newline => .fault .unterminatedString
  | .endOfText => .fault .endInString

/-!
# The first lexeme
-/

/-- The punctuation that one character decides. -/
def punctuation? (c : Char) : Option Token.Kind :=
  if c = ')' then some .closeParen
  else if c = '{' then some .openBrace
  else if c = '}' then some .closeBrace
  else if c = ';' then some .semicolon
  else if c = ':' then some .colon
  else if c = ',' then some .comma
  else if c = '+' then some .plus
  else if c = '/' then some .divide
  else if c = '~' then some .tilde
  else if c = '.' then some .dot
  else if c = '@' then some .at
  else if c = '(' then some .openParen
  else if c = '-' then some .minus
  else if c = '*' then some .times
  else if c = '=' then some .equal
  else if c = '<' then some .less
  else none

/-- The lexemes that two characters decide. -/
def pair? (c d : Char) : Option Meaning :=
  if c = '*' ∧ d = ')' then some (.fault .unmatchedComment)
  else if c = '=' ∧ d = '>' then some (.token .arrow "=>")
  else if c = '<' ∧ d = '-' then some (.token .assign "<-")
  else if c = '<' ∧ d = '=' then some (.token .lessEq "<=")
  else none

/-- A lexeme of one character, a word, a number or a string constant, or a character with no place
in a program. -/
def single (c : Char) (cs : List Char) : Lexeme :=
  match punctuation? c with
  | some kind => ⟨[c], cs, .token kind (String.utf8EncodeChar c)⟩
  | none =>
    if c = '"' then
      let (value, covered, rest, ending) := stringBody cs
      ⟨c :: covered, rest, stringMeaning value ending⟩
    else if isDigit c then run isDigit c cs numberMeaning
    else if isLetter c then run isWordPart c cs wordMeaning
    else ⟨[c], cs, .fault (.unexpected c)⟩

/-- The first lexeme of the characters `c :: cs`. -/
def first (c : Char) (cs : List Char) : Lexeme :=
  if isBlank c then ⟨[c], cs, .skipped⟩
  else
    match cs with
    | [] => single c cs
    | d :: ds =>
      if c = '-' ∧ d = '-' then
        ⟨c :: cs.takeWhile (· != '\n'), cs.dropWhile (· != '\n'), .skipped⟩
      else if c = '(' ∧ d = '*' then
        let (covered, rest, closed) := comment 1 ds
        ⟨c :: d :: covered, rest, if closed then .skipped else .fault .endInComment⟩
      else
        match pair? c d with
        | some meaning => ⟨[c, d], ds, meaning⟩
        | none => single c cs

/-!
# Nothing is lost
-/

theorem comment_append (depth : Nat) (cs : List Char) :
    (comment depth cs).1 ++ (comment depth cs).2.1 = cs := by
  fun_induction comment depth cs <;> simp_all

theorem stringBody_append (cs : List Char) :
    (stringBody cs).2.1 ++ (stringBody cs).2.2.1 = cs := by
  fun_induction stringBody cs <;> simp_all

theorem run_append (test : Char → Bool) (c : Char) (cs : List Char)
    (meaning : List Char → Meaning) :
    (run test c cs meaning).covered ++ (run test c cs meaning).rest = c :: cs := by
  simp [run, List.takeWhile_append_dropWhile]

theorem single_append (c : Char) (cs : List Char) :
    (single c cs).covered ++ (single c cs).rest = c :: cs := by
  unfold single
  split
  · rfl
  · split
    · simpa using stringBody_append cs
    · split
      · exact run_append ..
      · split
        · exact run_append ..
        · rfl

theorem first_append (c : Char) (cs : List Char) :
    (first c cs).covered ++ (first c cs).rest = c :: cs := by
  unfold first
  split
  · rfl
  · split
    · exact single_append ..
    · split
      · simp [List.takeWhile_append_dropWhile]
      · split
        · simpa using comment_append 1 _
        · split
          · rfl
          · exact single_append ..

theorem single_covered_ne_nil (c : Char) (cs : List Char) : (single c cs).covered ≠ [] := by
  unfold single run
  split
  · simp
  · split
    · simp
    · split
      · simp
      · split <;> simp

theorem covered_ne_nil (c : Char) (cs : List Char) : (first c cs).covered ≠ [] := by
  unfold first
  split
  · simp
  · split
    · exact single_covered_ne_nil _ _
    · split
      · simp
      · split
        · simp
        · split
          · simp
          · exact single_covered_ne_nil _ _

theorem rest_length_lt (c : Char) (cs : List Char) :
    (first c cs).rest.length < (c :: cs).length := by
  have happend := congrArg List.length (first_append c cs)
  have hne := List.length_pos_iff.mpr (covered_ne_nil c cs)
  simp only [List.length_append] at happend
  omega

end Lexeme

end CoolCompiler
