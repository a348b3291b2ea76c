import CoolCompiler.Typing.Features
import CoolCompiler.Typing.Infer

/-!
# Analysis of programs

The class graph, the features, the main class and the types of expressions are checked in this
order, up to the first phase that finds something wrong.  One analysis may go on with further
programs; what it has found stays.
-/

namespace CoolCompiler

structure Analysis where
  symbols : Symbols
  diagnostics : List Diagnostic

inductive AnalysisNote where
  | registering (name parent : Name)
  | diagnosed (d : Diagnostic)

namespace AnalysisNote

/-- The diagnostic of a note, if it is one. -/
def diagnostic? : AnalysisNote → Option Diagnostic
  | .registering _ _ => none
  | .diagnosed d => some d

end AnalysisNote

namespace Typing

/-!
# The class graph
-/

/-- Registers a class unless its name is taken.  Gives the classes that were
registered. -/
def register (s : Symbols) (c : Class) : Symbols × List Class × AnalysisNote :=
  if Name.isBasic c.name ∨ c.name = Name.selfType then
    (s, [], .diagnosed ⟨some (c.file, c.line), .redefinesBasic c.name⟩)
  else if s.classes.has c.name then
    (s, [], .diagnosed ⟨some (c.file, c.line), .definedTwice c.name⟩)
  else (s.putClass (ClassSymbol.bare c), [c], .registering c.name c.parentName)

def registerAll : Symbols → List Class → Symbols × List Class × List AnalysisNote
  | s, [] => (s, [], [])
  | s, c :: cs =>
    let (s, new, note) := register s c
    let (s, rest, notes) := registerAll s cs
    (s, new ++ rest, note :: notes)

def linkParent (s : Symbols) (c : Class) : Symbols × List Diagnostic :=
  let parent := c.parentName
  if Name.isInheritable parent = false then
    (s, [⟨some (c.file, c.line), .cannotInherit c.name parent⟩])
  else if s.classes.has parent then (s.link c.name parent, [])
  else (s, [⟨some (c.file, c.line), .undefinedParent c.name parent⟩])

def linkParents : Symbols → List Class → Symbols × List Diagnostic
  | s, [] => (s, [])
  | s, c :: cs =>
    let (s, found) := linkParent s c
    let (s, more) := linkParents s cs
    (s, found ++ more)

/-- The classes whose chain of parents comes round. -/
def cycles (s : Symbols) (classes : List Class) : List Diagnostic :=
  (classes.filter (fun c => s.inheritance.hasCycle c.name)).map
    (fun c => ⟨some (c.file, c.line), .cyclic c.name⟩)

/-!
# The main class
-/

def mainDiagnostics (s : Symbols) : List Diagnostic :=
  match s.classes.find? Name.mainClass with
  | none => [⟨none, .noMainClass⟩]
  | some k =>
    match s.method? Name.mainClass Name.mainMethod with
    | none => [⟨some (k.file, k.line), .noMainMethod⟩]
    | some m =>
      if m.formals.isEmpty then [] else [⟨some (k.file, m.line), .mainTakesArguments⟩]

/-!
# Expressions
-/

def formalScopes (scopes : Scopes) (formals : List Formal) : Scopes :=
  formals.foldl (fun s f => s.bind f.name f.type) scopes.enter

def checkAttribute (ctx : Context) (a : Attribute) : Check Attribute :=
  match a.init with
  | .omitted _ => return a
  | e => do
      let init ← infer ctx Scopes.empty e
      Check.require (ctx.conforms init.type a.type) a.line (.attributeInit init.type a.name a.type)
      return { a with init := init }

def checkMethod (ctx : Context) (m : Method) : Check Method := do
  let body ← infer ctx (formalScopes Scopes.empty m.formals) m.body
  Check.require (!ctx.symbols.isType m.returns || ctx.conforms body.type m.returns) m.line
    (.methodResult body.type m.name m.returns)
  return { m with body := body }

def checkFeature (ctx : Context) : Feature → Check Feature
  | .attr a => do return .attr (← checkAttribute ctx a)
  | .method m => do return .method (← checkMethod ctx m)

def checkFeatures (ctx : Context) : List Feature → Check (List Feature)
  | [] => return []
  | f :: fs => do
      let first ← checkFeature ctx f
      let rest ← checkFeatures ctx fs
      return first :: rest

def checkClass (s : Symbols) (c : Class) : Except Incomplete (Class × List Diagnostic) :=
  match checkFeatures ⟨s, c.name⟩ c.features with
  | .error e => .error e
  | .ok (features, found) =>
    .ok ({ c with features := features }, found.map (Diagnostic.ofFinding c.file))

def checkClasses (s : Symbols) : List Class → Except Incomplete (List Class × List Diagnostic)
  | [] => .ok ([], [])
  | c :: cs =>
    match checkClass s c with
    | .error e => .error e
    | .ok (first, found) =>
      match checkClasses s cs with
      | .error e => .error e
      | .ok (rest, more) => .ok (first :: rest, found ++ more)

end Typing

namespace Analysis

open Typing

def fresh : Analysis := ⟨Symbols.initial, []⟩

/-- A finished step: the analysis, the program as far as it is annotated, and what
happened. -/
structure Outcome where
  analysis : Analysis
  program : Program
  notes : List AnalysisNote

def stop (a : Analysis) (s : Symbols) (p : Program) (notes : List AnalysisNote) : Outcome :=
  ⟨⟨s, a.diagnostics ++ notes.filterMap AnalysisNote.diagnostic?⟩, p, notes⟩

def faulty (a : Analysis) (notes : List AnalysisNote) : Bool :=
  !(a.diagnostics ++ notes.filterMap AnalysisNote.diagnostic?).isEmpty

/-- Builds the class graph of a program and says what happened.  Only a graph whose links are all
right is searched for cycles. -/
def classGraph (a : Analysis) (p : Program) : Symbols × List AnalysisNote :=
  let (s, new, notes) := registerAll a.symbols p
  let (s, found) := linkParents s new
  let notes := notes ++ found.map .diagnosed
  (s, if a.faulty notes then notes else notes ++ (cycles s new).map .diagnosed)

def run (a : Analysis) (p : Program) : Except Incomplete Outcome :=
  let (s, notes) := a.classGraph p
  if a.faulty notes then .ok (a.stop s p notes)
  else
    let (s, found) := collectAll s (parentsFirst p)
    let notes := notes ++ found.map .diagnosed ++ (mainDiagnostics s).map .diagnosed
    if a.faulty notes then .ok (a.stop s p notes)
    else
      match checkClasses s p with
      | .error e => .error e
      | .ok (checked, found) => .ok (a.stop s checked (notes ++ found.map .diagnosed))

end Analysis

end CoolCompiler
