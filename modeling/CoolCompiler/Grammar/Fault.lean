import CoolCompiler.Token.Basic

/-!
# Syntax faults

What can be wrong with a sequence of tokens, and how it is reported: the file, the
line and a message.
-/

namespace CoolCompiler.Grammar

/-- What the grammar asks for at a place where several kinds would be wrong. -/
inductive Wanted where
  | aClass | methodName | formalName | aFeature | caseBranch
  deriving DecidableEq, Repr

namespace Wanted

def name : Wanted → Text
  | .aClass => "class"
  | .methodName => "method name"
  | .formalName => "formal name"
  | .aFeature => "feature"
  | .caseBranch => "case branch"

end Wanted

inductive Fault where
  | lexical (message : Text)
  | expectedKind (found : Token) (kind : Token.Kind)
  | expected (found : Token) (wanted : Wanted)
  | unexpected (found : Token)
  | chainedComparison (found : Token)
  | assignmentTarget
  | unclosedBrace
  | unclosedCase
  | emptyBlock
  | emptyCase
  | noClasses
  deriving DecidableEq, Repr

namespace Fault

def near (place : Text) : Text := "syntax error at or near " ++ place

def message : Fault → Text
  | .lexical message => message
  | .expectedKind found kind => near found.described ++ ": expected " ++ kind.name
  | .expected found wanted => near found.described ++ ": expected " ++ wanted.name
  | .unexpected found => near found.described
  | .chainedComparison found =>
    near found.described ++ ": comparison operators are non-associative"
  | .assignmentTarget => near "'<-'" ++ ": left side of assignment must be an identifier"
  | .unclosedBrace => near "EOF" ++ ": expected '\x7d'"
  | .unclosedCase => near "EOF" ++ ": expected esac"
  | .emptyBlock => near "'\x7d'" ++ ": empty block"
  | .emptyCase => near "esac" ++ ": case needs at least one branch"
  | .noClasses => near "EOF" ++ ": no classes"

end Fault

structure Report where
  line : Nat
  fault : Fault
  deriving DecidableEq, Repr

namespace Report

def message (file : Text) (r : Report) : Text :=
  file ++ ":" ++ Text.decimal r.line ++ ": " ++ r.fault.message

end Report

end CoolCompiler.Grammar
