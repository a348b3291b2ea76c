import CoolCompiler.Grammar.Fault

/-!
# Token streams

A stream holds the unread tokens and the reports made so far.  An error token rides on the token
after it and is reported when that one comes to the front.

The result of a reading says that the stream has not grown, which is what makes the recursion of the
grammar end.
-/

namespace CoolCompiler.Grammar

/-- A token of the grammar and the error tokens before it. -/
structure Word where
  before : List Token
  token : Token

/-- Unread tokens, the end token behind them, and the reports made so far. -/
structure Stream where
  words : List Word
  last : Word
  reports : List Report

namespace Stream

def size (s : Stream) : Nat := s.words.length

def head (s : Stream) : Token :=
  match s.words with
  | [] => s.last.token
  | w :: _ => w.token

def front (words : List Word) (last : Word) : Word :=
  match words with
  | [] => last
  | w :: _ => w

def report (s : Stream) (line : Nat) (fault : Fault) : Stream :=
  { s with reports := s.reports ++ [⟨line, fault⟩] }

def lexicalReports (errors : List Token) : List Report :=
  errors.map (fun t => ⟨t.line, .lexical t.literal⟩)

/-- The stream of some words, with the errors before the first one reported. -/
def entering (words : List Word) (last : Word) (reports : List Report) : Stream :=
  ⟨words, last, reports ++ lexicalReports (front words last).before⟩

/-- Tokens as words; `pending` are the error tokens met since the last word. -/
def wordsOf (pending : List Token) : List Token → List Word × Word
  | [] => ([], ⟨pending, ⟨.endOfText, [], Position.start⟩⟩)
  | t :: ts =>
    if t.kind = .error then wordsOf (pending ++ [t]) ts
    else if t.kind = .endOfText then ([], ⟨pending, t⟩)
    else
      let (words, last) := wordsOf [] ts
      (⟨pending, t⟩ :: words, last)

def ofTokens (tokens : List Token) : Stream :=
  let (words, last) := wordsOf [] tokens
  entering words last []

/-- The stream without its first token; the end token stays. -/
def advance (s : Stream) : Stream :=
  match s.words with
  | [] => s
  | _ :: words => entering words s.last s.reports

theorem size_advance_le (s : Stream) : s.advance.size ≤ s.size := by
  unfold advance
  split
  · exact Nat.le_refl _
  · next h => simp [size, entering, h]

theorem size_advance_lt (s : Stream) (h : s.words ≠ []) : s.advance.size < s.size := by
  unfold advance
  split
  · contradiction
  · next hw => simp [size, entering, hw]

def skipTo (kind : Token.Kind) (s : Stream) : Stream :=
  if _ : s.words = [] then s
  else if s.head.kind = kind then s
  else skipTo kind s.advance
termination_by s.size
decreasing_by exact size_advance_lt s ‹_›

theorem size_skipTo_le (kind : Token.Kind) (s : Stream) : (s.skipTo kind).size ≤ s.size := by
  fun_induction skipTo kind s with
  | case1 s h => exact Nat.le_refl _
  | case2 s h hk => exact Nat.le_refl _
  | case3 s h hk ih => exact Nat.le_trans ih (size_advance_le s)

end Stream

/-- The outcome of reading from the stream `s`: a value or none, and in both cases
what is left of the stream. -/
inductive Reading (α : Type) (s : Stream) where
  | ok (value : α) (rest : Stream) (le : rest.size ≤ s.size)
  | failed (rest : Stream) (le : rest.size ≤ s.size)

namespace Reading

variable {α β : Type} {s : Stream}

/-- A value for which nothing more has to be read. -/
def here (value : α) : Reading α s := .ok value s (Nat.le_refl _)

/-- A reading from what an earlier step left over. -/
def from_ {t : Stream} (r : Reading α t) (h : t.size ≤ s.size) : Reading α s :=
  match r with
  | .ok value rest le => .ok value rest (Nat.le_trans le h)
  | .failed rest le => .failed rest (Nat.le_trans le h)

def andThen (r : Reading α s) (next : α → (t : Stream) → t.size ≤ s.size → Reading β t) :
    Reading β s :=
  match r with
  | .ok value rest le => (next value rest le).from_ le
  | .failed rest le => .failed rest le

def rest : Reading α s → Stream
  | .ok _ rest _ => rest
  | .failed rest _ => rest

end Reading

namespace Stream

variable {α : Type}

def refuse (s : Stream) (line : Nat) (fault : Fault) : Reading α s :=
  .failed (s.report line fault) (Nat.le_refl _)

/-- Reads the next token and goes on; there is none at the end of the text. -/
def withToken (s : Stream) (atEnd : Reading α s)
    (next : Token → (t : Stream) → t.size < s.size → Reading α t) : Reading α s :=
  if h : s.words = [] then atEnd
  else
    have hlt := size_advance_lt s h
    (next s.head s.advance hlt).from_ (Nat.le_of_lt hlt)

/-- Reads a token of the given kind and goes on, or refuses the one at the front. -/
def expect (s : Stream) (kind : Token.Kind)
    (next : Token → (t : Stream) → t.size < s.size → Reading α t) : Reading α s :=
  if s.head.kind = kind then
    s.withToken (s.refuse s.head.line (.expectedKind s.head kind)) next
  else s.refuse s.head.line (.expectedKind s.head kind)

end Stream

end CoolCompiler.Grammar
