import CoolCompiler.Syntax.Basic

/-!
# Built-in classes

The classes that every program starts with.  Their methods have no bodies here:
the run-time library implements them.
-/

namespace CoolCompiler.Class

/-- The file that built-in classes are said to come from. -/
def builtinFile : Text := "<basic class>"

def builtinAttribute (name type : Name) : Feature :=
  .attr ⟨0, name, type, .omitted ⟨[], 0, []⟩⟩

def builtinMethod (name returns : Name) (formals : List (Name × Name)) : Feature :=
  .method ⟨0, name, formals.map (fun f => ⟨0, f.1, f.2⟩), returns, .omitted ⟨[], 0, []⟩⟩

def builtin : List Class :=
  [⟨0, Name.object, none,
     [builtinMethod "abort" Name.object [],
      builtinMethod "type_name" Name.string [],
      builtinMethod "copy" Name.selfType []], builtinFile⟩,
   ⟨0, Name.inputOutput, some Name.object,
     [builtinMethod "out_string" Name.selfType [("x", Name.string)],
      builtinMethod "out_int" Name.selfType [("x", Name.int)],
      builtinMethod "in_string" Name.string [],
      builtinMethod "in_int" Name.int []], builtinFile⟩,
   ⟨0, Name.int, some Name.object, [builtinAttribute "val" Name.primSlot], builtinFile⟩,
   ⟨0, Name.bool, some Name.object, [builtinAttribute "val" Name.primSlot], builtinFile⟩,
   ⟨0, Name.string, some Name.object,
     [builtinAttribute "val" Name.int,
      builtinAttribute "str_field" Name.primSlot,
      builtinMethod "length" Name.int [],
      builtinMethod "concat" Name.string [("s", Name.string)],
      builtinMethod "substr" Name.string [("i", Name.int), ("l", Name.int)]], builtinFile⟩]

end CoolCompiler.Class
