import CoolCompiler.Log.Record

/-!
# Loggers

A logger passes on the records that are important enough and says how they are
written.
-/

namespace CoolCompiler

inductive LogFormat where
  | plain | json
  deriving DecidableEq, Repr

namespace LogFormat

/-- The format with a given name; no name means plain text. -/
def ofName? (name : Text) : Option LogFormat :=
  if name = [] ∨ name = ("text" : Text) then some .plain
  else if name = ("json" : Text) then some .json
  else none

def unknownMessage (name : Text) : Text :=
  "unknown log format " ++ Text.quoted name

def write (f : LogFormat) (stamp : Stamp) (r : LogRecord) : Text :=
  match f with
  | .plain => r.plain stamp
  | .json => r.json stamp

end LogFormat

/-- The least level that is passed on, and the format; without one, nothing is. -/
structure Logger where
  level : LogLevel
  format : Option LogFormat
  deriving DecidableEq, Repr

namespace Logger

def silent : Logger := ⟨.error, none⟩

def usualLevel : LogLevel := .warn

def passes (l : Logger) (r : LogRecord) : Bool :=
  l.format.isSome && decide (l.level.rank ≤ r.level.rank)

/-- The text of a record, which is empty if it is not passed on. -/
def write (l : Logger) (stamp : Stamp) (r : LogRecord) : Text :=
  match l.format with
  | some f => if l.passes r then f.write stamp r else []
  | none => []

end Logger

namespace LogRecord

/-!
# The records of a compilation
-/

def debug (message : Text) (args : List LogValue) : LogRecord := ⟨.debug, message, pairs args⟩

def error (message : Text) (args : List LogValue) : LogRecord := ⟨.error, message, pairs args⟩

def phaseStarted (phase : Text) (args : List LogValue) : LogRecord :=
  ⟨.info, "starting phase", pairs ([.text "phase", .text phase] ++ args)⟩

def phaseCompleted (phase : Text) (args : List LogValue) : LogRecord :=
  ⟨.info, "completed phase",
    pairs ([.text "phase", .text phase, .text "elapsed", .elapsed] ++ args)⟩

def diagnostic (phase message : Text) : LogRecord :=
  debug "diagnostic" [.text "phase", .text phase, .text "message", .text message]

end LogRecord

end CoolCompiler
