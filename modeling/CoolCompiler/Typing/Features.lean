import CoolCompiler.Typing.Complaint
import CoolCompiler.Typing.Symbols

/-!
# Features of classes

The methods and attributes that a class adds to those of its ancestors.  Classes come after their
parents, so the features of ancestors are known.
-/

namespace CoolCompiler.Typing

/-!
# Parents first
-/

/-- Adds a class to the order after its parent, unless it is there.  Parents are followed for at
most `steps` classes. -/
def visit (classes : List Class) : Nat → List Name × List Class → Class → List Name × List Class
  | 0, done, _ => done
  | steps + 1, (visited, order), c =>
    if c.name ∈ visited then (visited, order)
    else
      let visited := c.name :: visited
      let (visited, order) :=
        match classes.find? (fun p => p.name == c.parentName) with
        | some p => visit classes steps (visited, order) p
        | none => (visited, order)
      (visited, order ++ [c])

/-- The classes in an order in which every class comes after its parent. -/
def parentsFirst (classes : List Class) : List Class :=
  (classes.foldl (visit classes (classes.length + 1)) ([], [])).2

/-!
# Signatures
-/

def formalNameFindings (seen : List Name) (f : Formal) : List Finding :=
  if f.name = Name.self then [⟨f.line, .selfFormal⟩]
  else if seen.contains f.name then [⟨f.line, .formalTwice f.name⟩]
  else []

def formalTypeFindings (s : Symbols) (f : Formal) : List Finding :=
  if f.type = Name.selfType then [⟨f.line, .selfTypeFormal f.name⟩]
  else if s.isType f.type then []
  else [⟨f.line, .undefinedFormalType f.type f.name⟩]

/-- What is wrong with formal parameters that follow others with names `seen`. -/
def formalFindings (s : Symbols) : List Name → List Formal → List Finding
  | _, [] => []
  | seen, f :: fs =>
    formalNameFindings seen f ++ formalTypeFindings s f ++ formalFindings s (f.name :: seen) fs

def signatureFindings (s : Symbols) (m : Method) : List Finding :=
  formalFindings s [] m.formals ++
    if s.isType m.returns then [] else [⟨m.line, .undefinedReturnType m.returns m.name⟩]

/-- The formals of a redefined method whose types differ from the inherited ones. -/
def overrideFormalFindings (method : Name) : List Formal → List Formal → List Finding
  | f :: fs, g :: gs =>
    (if f.type = g.type then [] else [⟨f.line, .overrideFormal method f.type g.type⟩]) ++
      overrideFormalFindings method fs gs
  | _, _ => []

def overrideFindings (m : Method) (inherited : MethodSymbol) : List Finding :=
  if m.formals.length = inherited.formals.length then
    overrideFormalFindings m.name m.formals inherited.formals ++
      if m.returns = inherited.returns then []
      else [⟨m.line, .overrideReturn m.name m.returns inherited.returns⟩]
  else [⟨m.line, .overrideArity m.name⟩]

/-!
# Collection
-/

def addMethod (s : Symbols) (parent : Name) (k : ClassSymbol) (m : Method) :
    ClassSymbol × List Finding :=
  if k.methods.has m.name then (k, [⟨m.line, .methodTwice m.name⟩])
  else
    let overriding :=
      match s.method? parent m.name with
      | some inherited => overrideFindings m inherited
      | none => []
    ({ k with methods := k.methods.put m.name (MethodSymbol.ofMethod k.name false m) },
      signatureFindings s m ++ overriding)

def addAttribute (s : Symbols) (parent : Name) (k : ClassSymbol) (a : Attribute) :
    ClassSymbol × List Finding :=
  if a.name = Name.self then (k, [⟨a.line, .selfAttribute⟩])
  else if k.attributes.has a.name then (k, [⟨a.line, .attributeTwice a.name⟩])
  else if (s.attribute? parent a.name).isSome then (k, [⟨a.line, .inheritedAttribute a.name⟩])
  else
    ({ k with attributes := k.attributes.put a.name (AttributeSymbol.ofAttribute k.name a) },
      if s.isType a.type then [] else [⟨a.line, .undefinedAttributeType a.type a.name⟩])

def addFeature (s : Symbols) (parent : Name) (k : ClassSymbol) :
    Feature → ClassSymbol × List Finding
  | .method m => addMethod s parent k m
  | .attr a => addAttribute s parent k a

def addFeatures (s : Symbols) (parent : Name) :
    ClassSymbol → List Feature → ClassSymbol × List Finding
  | k, [] => (k, [])
  | k, f :: fs =>
    let (k, found) := addFeature s parent k f
    let (k, more) := addFeatures s parent k fs
    (k, found ++ more)

def collect (s : Symbols) (c : Class) : Symbols × List Diagnostic :=
  match s.classes.find? c.name with
  | none => (s, [])
  | some k =>
    let (k, found) := addFeatures s c.parentName k c.features
    (s.putClass k, found.map (Diagnostic.ofFinding c.file))

def collectAll : Symbols → List Class → Symbols × List Diagnostic
  | s, [] => (s, [])
  | s, c :: cs =>
    let (s, found) := collect s c
    let (s, more) := collectAll s cs
    (s, found ++ more)

end CoolCompiler.Typing
