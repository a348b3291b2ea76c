import CoolCompiler.Text.Basic

/-!
# Dictionaries

Values under names, in the order in which the names were first used.
-/

namespace CoolCompiler

/-- Values under distinct names. -/
abbrev Dictionary (α : Type) := List (Name × α)

namespace Dictionary

variable {α : Type}

def find? (d : Dictionary α) (name : Name) : Option α :=
  d.lookup name

def has (d : Dictionary α) (name : Name) : Bool :=
  (d.find? name).isSome

/-- The dictionary with a value put under a name, in place of an earlier one. -/
def put : Dictionary α → Name → α → Dictionary α
  | [], name, value => [(name, value)]
  | (key, old) :: rest, name, value =>
    if key = name then (name, value) :: rest else (key, old) :: put rest name value

def sorted (d : Dictionary α) : List α :=
  (d.mergeSort (fun a b => Text.le a.1 b.1)).map Prod.snd

end Dictionary

end CoolCompiler
