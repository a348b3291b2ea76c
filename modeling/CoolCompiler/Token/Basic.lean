import CoolCompiler.Text.Quoted

/-!
# Tokens

A token is a word of the source: its kind, its spelling and where it begins.  Keywords are
recognised in any case.
-/

namespace CoolCompiler

structure Position where
  line : Nat
  column : Nat
  deriving DecidableEq, Repr

namespace Position

def start : Position := ⟨1, 1⟩

def next (p : Position) (c : Char) : Position :=
  if c = '\n' then ⟨p.line + 1, 1⟩ else ⟨p.line, p.column + 1⟩

def past (p : Position) (cs : List Char) : Position :=
  cs.foldl next p

end Position

namespace Token

inductive Kind where
  | endOfText | error
  | «class» | «inherits» | «isvoid» | «if» | «else» | «fi» | «then» | «let» | «in»
  | «while» | «case» | «esac» | «loop» | «pool» | «new» | «of» | «not»
  | string | bool | int
  | typeName | objectName
  | assign | arrow | less | lessEq | equal | plus | minus | times | divide
  | openParen | closeParen | openBrace | closeBrace
  | semicolon | colon | comma | dot | at | tilde
  deriving DecidableEq, Repr

namespace Kind

/-- Every kind, in the order of its number. -/
def all : List Kind :=
  [.endOfText, .error,
   .class, .inherits, .isvoid, .if, .else, .fi, .then, .let, .in, .while, .case, .esac,
   .loop, .pool, .new, .of, .not,
   .string, .bool, .int, .typeName, .objectName,
   .assign, .arrow, .less, .lessEq, .equal, .plus, .minus, .times, .divide,
   .openParen, .closeParen, .openBrace, .closeBrace,
   .semicolon, .colon, .comma, .dot, .at, .tilde]

def name : Kind → Text
  | .endOfText => "EOF"
  | .error => "ERROR"
  | .class => "CLASS"
  | .inherits => "INHERITS"
  | .isvoid => "ISVOID"
  | .if => "IF"
  | .else => "ELSE"
  | .fi => "FI"
  | .then => "THEN"
  | .let => "LET"
  | .in => "IN"
  | .while => "WHILE"
  | .case => "CASE"
  | .esac => "ESAC"
  | .loop => "LOOP"
  | .pool => "POOL"
  | .new => "NEW"
  | .of => "OF"
  | .not => "NOT"
  | .string => "STR_CONST"
  | .bool => "BOOL_CONST"
  | .int => "INT_CONST"
  | .typeName => "TYPEID"
  | .objectName => "OBJECTID"
  | .assign => "ASSIGN"
  | .arrow => "DARROW"
  | .less => "LT"
  | .lessEq => "LE"
  | .equal => "EQ"
  | .plus => "PLUS"
  | .minus => "MINUS"
  | .times => "TIMES"
  | .divide => "DIVIDE"
  | .openParen => "LPAREN"
  | .closeParen => "RPAREN"
  | .openBrace => "LBRACE"
  | .closeBrace => "RBRACE"
  | .semicolon => "SEMI"
  | .colon => "COLON"
  | .comma => "COMMA"
  | .dot => "DOT"
  | .at => "AT"
  | .tilde => "NEG"

/-- The name of the kind with a given number; a number without a kind is shown. -/
def nameOfNumber (n : Int) : Text :=
  match n with
  | .ofNat k =>
    match all[k]? with
    | some kind => kind.name
    | none => "TokenType(" ++ Text.ofInt n ++ ")"
  | .negSucc _ => "TokenType(" ++ Text.ofInt n ++ ")"

end Kind

end Token

structure Token where
  kind : Token.Kind
  literal : Text
  position : Position
  deriving DecidableEq, Repr

namespace Token

def line (t : Token) : Nat := t.position.line

/-- A token as one line of a listing: kind, quoted spelling and place. -/
def shown (t : Token) : Text :=
  t.kind.name ++ " " ++ Text.quoted t.literal ++ " (" ++ Text.decimal t.position.line ++ ":" ++
    Text.decimal t.position.column ++ ")"

def described (t : Token) : Text :=
  match t.kind with
  | .endOfText => "EOF"
  | .typeName | .objectName | .int | .bool => t.kind.name ++ " = " ++ t.literal
  | .string => t.kind.name ++ " = " ++ Text.quoted t.literal
  | _ => "'" ++ t.literal ++ "'"

end Token

end CoolCompiler
