import CoolCompiler.Machine.Instruction
import CoolCompiler.Text.Quoted

/-!
# Assembly lines

A line is a label, an include, a data directive, an instruction or text for the assembler.
-/

namespace CoolCompiler

/-!
# String data
-/

/-- An item of a data directive: characters in quotes or the number of one byte. -/
inductive DataItem where
  | quoted (characters : Text)
  | byte (b : UInt8)
  deriving DecidableEq, Repr

namespace DataItem

def isPlain (b : UInt8) : Bool :=
  decide (0x20 ≤ b) && decide (b < 0x7F) && b != 34 && b != 92

/-- A byte put before the items that follow it; plain bytes come together in one pair
of quotes. -/
def cons (b : UInt8) (items : List DataItem) : List DataItem :=
  if isPlain b then
    match items with
    | .quoted characters :: rest => .quoted (b :: characters) :: rest
    | _ => .quoted [b] :: items
  else .byte b :: items

def ofText (s : Text) : List DataItem :=
  s.foldr cons [.byte 0]

def text : DataItem → Text
  | .quoted characters => [34] ++ characters ++ [34]
  | .byte b => Text.decimal b.toNat

def operands (s : Text) : Text :=
  Text.join "," ((ofText s).map text)

end DataItem

/-!
# Lines
-/

inductive Line where
  | label (name : Name)
  | includeFile (file : Text)
  | raw (text : Text)
  | word (a : Address)
  | number (n : Int)
  | string (s : Text)
  | instr (i : Instr)
  deriving DecidableEq, Repr

namespace Line

def content : Line → Text
  | .label name => name ++ ":"
  | .includeFile file => "#include\t" ++ Text.quoted file
  | .raw text => text
  | .word a => "\t.dw\t" ++ a.text
  | .number n => "\t.dw\t" ++ Text.ofInt n
  | .string s => "\t.db\t" ++ DataItem.operands s
  | .instr i => i.text

def text (l : Line) : Text := l.content ++ "\n"

def textOfAll (ls : List Line) : Text := ls.flatMap text

end Line

/-!
# Sinks
-/

/-- Where lines are written.  The first line without room is lost, and so is every line after it. -/
structure Sink where
  room : Option Nat
  count : Nat
  failed : Bool
  deriving DecidableEq, Repr

namespace Sink

/-- What a sink without room says. -/
def fullMessage : Text := "disk full"

def fresh (room : Option Nat) : Sink := ⟨room, 0, false⟩

def write (s : Sink) (l : Line) : Sink × List Line :=
  if s.failed then (s, [])
  else
    match s.room with
    | none => ({ s with count := s.count + 1 }, [l])
    | some 0 => ({ s with count := s.count + 1, failed := true }, [])
    | some (n + 1) => ({ s with count := s.count + 1, room := some n }, [l])

def writeAll (s : Sink) : List Line → Sink × List Line
  | [] => (s, [])
  | l :: ls =>
    let (s, arrived) := s.write l
    let (s, more) := s.writeAll ls
    (s, arrived ++ more)

end Sink

end CoolCompiler
