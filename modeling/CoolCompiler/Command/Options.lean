import CoolCompiler.Text.Quoted

/-!
# Options

An option starts with one or two dashes; its value follows an equals sign or, unless it is a switch,
is the next argument.  The first other argument ends the options.
-/

namespace CoolCompiler.Command

structure Options where
  output : Text
  tables : Text
  manifest : Text
  showTree : Bool
  showTable : Bool
  verbose : Bool
  logFormat : Text
  ignored : List Text
  inputs : List Text
  deriving DecidableEq, Repr

namespace Options

def default : Options := ⟨[], "disptab.z80", [], false, false, false, "text", [], []⟩

/-- The switches that are accepted without effect, in the order of their names. -/
def withoutEffect : List Text := ["O", "T", "g", "r", "t"]

def setSwitch? (o : Options) (name : Text) (value : Bool) : Option Options :=
  if name = ("dump-ast" : Text) then some { o with showTree := value }
  else if name = ("c" : Text) then some { o with showTable := value }
  else if name = ("v" : Text) then some { o with verbose := value }
  else if name ∈ withoutEffect then some { o with ignored := name :: o.ignored }
  else none

def setValue? (o : Options) (name value : Text) : Option Options :=
  if name = ("o" : Text) then some { o with output := value }
  else if name = ("disptab" : Text) then some { o with tables := value }
  else if name = ("emit-llvm" : Text) then some { o with manifest := value }
  else if name = ("log-format" : Text) then some { o with logFormat := value }
  else none

end Options

inductive UsageFault where
  | help
  | noInputs
  | badSyntax (argument : Text)
  | undefined (name : Text)
  | badBool (name value : Text)
  | needsArgument (name : Text)
  deriving DecidableEq, Repr

namespace UsageFault

def message : UsageFault → Text
  | .help | .noInputs => []
  | .badSyntax argument => "bad flag syntax: " ++ argument ++ "\n"
  | .undefined name => "flag provided but not defined: -" ++ name ++ "\n"
  | .badBool name value =>
    "invalid boolean value " ++ Text.quoted value ++ " for -" ++ name ++ ": parse error\n"
  | .needsArgument name => "flag needs an argument: -" ++ name ++ "\n"

def status : UsageFault → Nat
  | .help => 0
  | _ => 2

end UsageFault

/-!
# Reading arguments
-/

inductive Argument where
  | plain
  | lastOption
  | malformed
  | option (name : Text) (value : Option Text)
  deriving DecidableEq, Repr

namespace Argument

def dash : UInt8 := 45

def equals : UInt8 := 61

def ofBody : Text → Argument
  | [] => .malformed
  | b :: rest =>
    if b = dash ∨ b = equals then .malformed
    else
      let name := b :: rest.takeWhile (fun c => c != equals)
      match rest.dropWhile (fun c => c != equals) with
      | [] => .option name none
      | _ :: value => .option name (some value)

def ofText : Text → Argument
  | [] => .plain
  | [_] => .plain
  | a :: b :: rest =>
    if a ≠ dash then .plain
    else if b ≠ dash then ofBody (b :: rest)
    else if rest = [] then .lastOption
    else ofBody rest

end Argument

def boolOfText? (t : Text) : Option Bool :=
  if t ∈ (["1", "t", "T", "TRUE", "true", "True"] : List Text) then some true
  else if t ∈ (["0", "f", "F", "FALSE", "false", "False"] : List Text) then some false
  else none

def isSwitch (name : Text) : Bool := (Options.default.setSwitch? name true).isSome

def hasValue (name : Text) : Bool := (Options.default.setValue? name []).isSome

def readArguments (o : Options) : List Text → Except UsageFault Options
  | [] => .ok o
  | argument :: rest =>
    match Argument.ofText argument with
    | .plain => .ok { o with inputs := argument :: rest }
    | .lastOption => .ok { o with inputs := rest }
    | .malformed => .error (.badSyntax argument)
    | .option name value =>
      if isSwitch name then
        match boolOfText? (value.getD "true") with
        | some b => readArguments ((o.setSwitch? name b).getD o) rest
        | none => .error (.badBool name (value.getD []))
      else if hasValue name then
        match value, rest with
        | some v, rest => readArguments ((o.setValue? name v).getD o) rest
        | none, v :: rest => readArguments ((o.setValue? name v).getD o) rest
        | none, [] => .error (.needsArgument name)
      else if name = ("help" : Text) ∨ name = ("h" : Text) then .error .help
      else .error (.undefined name)
  termination_by args => args.length

/-- The options that arguments ask for; there has to be an input. -/
def options (args : List Text) : Except UsageFault Options :=
  match readArguments Options.default args with
  | .error fault => .error fault
  | .ok o => if o.inputs = [] then .error .noInputs else .ok o

def usage : Text :=
  "usage: coolc [flags] file.cl ...\n" ++
  "  -O\tignored\n" ++
  "  -T\tignored\n" ++
  "  -c\tprint the class table on stderr\n" ++
  "  -disptab file\n" ++
  "    \tdispatch table file next to the output; empty writes the tables in line " ++
  "(default \"disptab.z80\")\n" ++
  "  -dump-ast\n" ++
  "    \tprint the parsed program\n" ++
  "  -emit-llvm file\n" ++
  "    \twrite the object model as LLVM IR to file\n" ++
  "  -g\tignored\n" ++
  "  -log-format string\n" ++
  "    \tlog format, text or json (default \"text\")\n" ++
  "  -o file\n" ++
  "    \toutput assembly file (default: first input with .s)\n" ++
  "  -r\tignored\n" ++
  "  -t\tignored\n" ++
  "  -v\tverbose logging\n"

end CoolCompiler.Command
