import CoolCompiler.Text.Fold
import CoolCompiler.Text.Quoted

/-!
# Log records

A level, a message and values under keys, on one line: as `key=value` pairs or as a JSON object.
-/

namespace CoolCompiler

inductive LogLevel where
  | debug | info | warn | error
  deriving DecidableEq, Repr

namespace LogLevel

def name : LogLevel → Text
  | .debug => "DEBUG"
  | .info => "INFO"
  | .warn => "WARN"
  | .error => "ERROR"

def rank : LogLevel → Nat
  | .debug => 0
  | .info => 1
  | .warn => 2
  | .error => 3

end LogLevel

/-- A value in a record.  The time that a phase took is known when the record is
written. -/
inductive LogValue where
  | text (t : Text)
  | int (n : Int)
  | bool (b : Bool)
  | null
  | elapsed
  deriving DecidableEq, Repr

structure LogRecord where
  level : LogLevel
  message : Text
  entries : List (Text × LogValue)
  deriving DecidableEq, Repr

/-- The times of a record: when it was made, and how long a phase took, as text and as
JSON. -/
structure Stamp where
  time : Text
  elapsed : Text
  elapsedJson : Text

namespace LogRecord

/-!
# Keys
-/

def strayKey : Text := "!BADKEY"

/-- Values in pairs of key and value.  A value where a key is due, and a last key
without a value, are values without a key. -/
def pairs : List LogValue → List (Text × LogValue)
  | [] => []
  | [.text t] => [(strayKey, .text t)]
  | .text key :: value :: rest => (key, value) :: pairs rest
  | value :: rest => (strayKey, value) :: pairs rest

/-- Whether an entry is to be written: null under no name is nothing. -/
def isWritten (e : Text × LogValue) : Bool :=
  !(e.1 == [] && e.2 == .null)

/-!
# Plain text
-/

def needsQuotes : Glyph → Bool
  | .stray _ => true
  | .char c =>
    if c.toNat < 0x80 then decide (c.toNat ≤ 32) || c == '=' || c == '"'
    else c.toNat == 0xFFFD || isBlank c || !Text.shown c

def word (t : Text) : Text :=
  if t = [] || (Text.glyphs t).any needsQuotes then Text.quoted t else t

def valueWord (stamp : Stamp) : LogValue → Text
  | .text t => word t
  | .int n => Text.ofInt n
  | .bool b => if b then "true" else "false"
  | .null => "<nil>"
  | .elapsed => word stamp.elapsed

def entryWord (stamp : Stamp) (e : Text × LogValue) : Text :=
  word e.1 ++ "=" ++ valueWord stamp e.2

def plain (stamp : Stamp) (r : LogRecord) : Text :=
  Text.join " "
    (["time=" ++ stamp.time, "level=" ++ r.level.name, "msg=" ++ word r.message] ++
      (r.entries.filter isWritten).map (entryWord stamp)) ++ "\n"

/-!
# JSON
-/

/-- The letter that escapes a control character: tabs and the ends of lines have one. -/
def jsonLetter? (c : Char) : Option UInt8 :=
  match c.toNat with
  | 9 => some 116
  | 10 => some 110
  | 13 => some 114
  | _ => none

def jsonGlyph : Glyph → Text
  | .stray _ => "\\ufffd"
  | .char c =>
    if c = '"' ∨ c = '\\' then 92 :: String.utf8EncodeChar c
    else if c.toNat < 0x20 then
      match jsonLetter? c with
      | some letter => [92, letter]
      | none => "\\u" ++ Text.hex 4 c.toNat
    else if c.toNat = 0x2028 ∨ c.toNat = 0x2029 then "\\u" ++ Text.hex 4 c.toNat
    else String.utf8EncodeChar c

def jsonText (t : Text) : Text :=
  [34] ++ (Text.glyphs t).flatMap jsonGlyph ++ [34]

def jsonValue (stamp : Stamp) : LogValue → Text
  | .text t => jsonText t
  | .int n => Text.ofInt n
  | .bool b => if b then "true" else "false"
  | .null => "null"
  | .elapsed => stamp.elapsedJson

def jsonMember (key value : Text) : Text :=
  jsonText key ++ ":" ++ value

def json (stamp : Stamp) (r : LogRecord) : Text :=
  "\x7b" ++ Text.join ","
    ([jsonMember "time" (jsonText stamp.time), jsonMember "level" (jsonText r.level.name),
      jsonMember "msg" (jsonText r.message)] ++
      (r.entries.filter isWritten).map (fun e => jsonMember e.1 (jsonValue stamp e.2))) ++
    "\x7d\n"

end LogRecord

end CoolCompiler
