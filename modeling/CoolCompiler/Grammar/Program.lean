import CoolCompiler.Grammar.Expression
import CoolCompiler.Token.Scan

/-!
# Reading classes and programs

A program is a sequence of classes, each closed by a semicolon.  After a malformed class, reading
goes on at a class keyword.
-/

namespace CoolCompiler.Grammar

def formal (s : Stream) : Reading Formal s :=
  s.withToken (s.refuse s.head.line (.expected s.head .formalName)) fun name s₁ _ =>
  if name.kind = .objectName then
    s₁.expect .colon fun _ s₂ _ =>
    s₂.expect .typeName fun type _ _ =>
    .here ⟨name.line, name.literal, type.literal⟩
  else s₁.refuse name.line (.expected name .formalName)

def formals (s : Stream) : Reading (List Formal) s :=
  (formal s).andThen fun f s₁ _ =>
  if s₁.head.kind = .closeParen then
    s₁.expect .closeParen fun _ s₂ _ => .here [f]
  else
    s₁.expect .comma fun _ s₂ _ =>
    (formals s₂).andThen fun fs s₃ _ =>
    .here (f :: fs)
termination_by s.size

def methodDecl (name : Token) (s : Stream) : Reading Method s :=
  if name.kind = .objectName then
    s.expect .openParen fun _ s₁ _ =>
    (if s₁.head.kind = .closeParen then
        s₁.expect .closeParen fun _ _ _ => .here []
      else formals s₁).andThen fun params s₂ _ =>
    s₂.expect .colon fun _ s₃ _ =>
    s₃.expect .typeName fun returns s₄ _ =>
    s₄.expect .openBrace fun _ s₅ _ =>
    (expr .lowest s₅).andThen fun body s₆ _ =>
    s₆.expect .closeBrace fun _ _ _ =>
    .here ⟨name.line, name.literal, params, returns.literal, body⟩
  else s.refuse name.line (.expected name .methodName)

def attributeDecl (name : Token) (s : Stream) : Reading Attribute s :=
  if name.kind = .objectName then
    s.expect .colon fun _ s₁ _ =>
    s₁.expect .typeName fun type s₂ _ =>
    (initialiser type s₂).andThen fun init _ _ =>
    .here ⟨name.line, name.literal, type.literal, init⟩
  else s.refuse name.line (.expected name .aFeature)

def featureDecl (name : Token) (s : Stream) : Reading Feature s :=
  if s.head.kind = .openParen then
    (methodDecl name s).andThen fun m _ _ => .here (.method m)
  else
    (attributeDecl name s).andThen fun a _ _ => .here (.attr a)

def features (s : Stream) : Reading (List Feature) s :=
  if s.head.kind = .closeBrace then
    s.expect .closeBrace fun _ s₁ _ => .here []
  else
    s.withToken (s.refuse s.head.line .unclosedBrace) fun name s₁ _ =>
    (featureDecl name s₁).andThen fun f s₂ _ =>
    s₂.expect .semicolon fun _ s₃ _ =>
    (features s₃).andThen fun fs s₄ _ =>
    .here (f :: fs)
termination_by s.size

def parent (s : Stream) : Reading (Option Name) s :=
  if s.head.kind = .inherits then
    s.expect .inherits fun _ s₁ _ =>
    s₁.expect .typeName fun name _ _ =>
    .here (some name.literal)
  else .here none

/-- Reads a class whose first token was `t`, with the semicolon after it. -/
def classDecl (file : Text) (t : Token) (s : Stream) : Reading Class s :=
  if t.kind = .class then
    s.expect .typeName fun name s₁ _ =>
    (parent s₁).andThen fun parentName s₂ _ =>
    s₂.expect .openBrace fun _ s₃ _ =>
    (features s₃).andThen fun fs s₄ _ =>
    s₄.expect .semicolon fun _ _ _ =>
    .here ⟨t.line, name.literal, parentName, fs, file⟩
  else s.refuse t.line (.expected t .aClass)

/-- Reads classes to the end of the stream; what is left are the reports. -/
def classes (file : Text) (s : Stream) : List Class × Stream :=
  if h : s.words = [] then ([], s)
  else
    have := Stream.size_advance_lt s h
    match classDecl file s.head s.advance with
    | .ok c rest _ =>
      let (cs, last) := classes file rest
      (c :: cs, last)
    | .failed rest _ =>
      have := Stream.size_skipTo_le .class rest
      classes file (rest.skipTo .class)
termination_by s.size

/-- A program as read from its source, with the reports made on the way. -/
structure Parsed where
  classes : Program
  reports : List Report

def program (file : Text) (tokens : List Token) : Parsed :=
  let (cs, last) := classes file (Stream.ofTokens tokens)
  if cs.isEmpty && last.reports.isEmpty then ⟨cs, [⟨last.head.line, .noClasses⟩]⟩
  else ⟨cs, last.reports⟩

def parse (file source : Text) : Parsed :=
  program file (Token.scan source)

def Parsed.messages (file : Text) (p : Parsed) : List Text :=
  p.reports.map (Report.message file)

end CoolCompiler.Grammar
