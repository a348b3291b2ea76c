import CoolCompiler.Proofs.Grammar.Recursion
import CoolCompiler.Proofs.Token.Lexed

/-!
# Derivations

The grammar as a relation between the parts of a program and their tokens, whatever parentheses
stand around expressions.  What is read without a report derives exactly the tokens of the source:
none is dropped and no part is made up.
-/

namespace CoolCompiler.Grammar

open List

/-- The parts of a program.  Arguments, items, branches, formals and features stand with the word
that closes them. -/
inductive Phrase where
  | expr (e : Expr)
  | arguments (es : List Expr)
  | items (es : List Expr)
  | initialiser (after : Token) (e : Expr)
  | bindings (bs : List (Declared Expr))
  | branches (bs : List (Declared Expr))
  | formals (fs : List Formal)
  | feature (f : Feature)
  | features (fs : List Feature)
  | parent (name : Option Name)
  | classDecl (c : Class)
  | program (file : Text) (cs : List Class)

/-- A phrase and the tokens that it is written with. -/
inductive Derives : Phrase → List Token → Prop where
  -- constants and names
  | int {t : Token} : t.kind = .int →
      Derives (.expr (.int (markOf t) (digitsValue t.literal))) [t]
  | string {t : Token} : t.kind = .string → Derives (.expr (.string (markOf t) t.literal)) [t]
  | bool {t : Token} : t.kind = .bool →
      Derives (.expr (.bool (markOf t) (t.literal == "true"))) [t]
  | object {t : Token} : t.kind = .objectName →
      Derives (.expr (.object (markOf t) t.literal)) [t]
  -- `( expr )`
  | paren {o c : Token} {e : Expr} {ts : List Token} :
      o.kind = .openParen → Derives (.expr e) ts → c.kind = .closeParen →
      Derives (.expr e) (o :: (ts ++ [c]))
  -- `ID <- expr`
  | assign {t : Token} {m : Mark} {x : Name} {value : Expr} {ts us : List Token} :
      Derives (.expr (.object m x)) ts → t.kind = .assign → Derives (.expr value) us →
      Derives (.expr (.assign (markOf t) ⟨m, x⟩ value)) (ts ++ (t :: us))
  -- `ID ( arguments`
  | selfCall {t o : Token} {es : List Expr} {ts : List Token} :
      t.kind = .objectName → o.kind = .openParen → Derives (.arguments es) ts →
      Derives (.expr (.dispatch (markOf t) (.object (markOf t) Name.self) none t.literal es))
        (t :: o :: ts)
  -- `expr . ID ( arguments`
  | call {d f o : Token} {receiver : Expr} {es : List Expr} {ts us : List Token} :
      Derives (.expr receiver) ts → d.kind = .dot → f.kind = .objectName →
      o.kind = .openParen → Derives (.arguments es) us →
      Derives (.expr (.dispatch (markOf d) receiver none f.literal es))
        (ts ++ (d :: f :: o :: us))
  -- `expr @ TYPE . ID ( arguments`
  | staticCall {a c d f o : Token} {receiver : Expr} {es : List Expr} {ts us : List Token} :
      Derives (.expr receiver) ts → a.kind = .at → c.kind = .typeName → d.kind = .dot →
      f.kind = .objectName → o.kind = .openParen → Derives (.arguments es) us →
      Derives (.expr (.dispatch (markOf a) receiver (some c.literal) f.literal es))
        (ts ++ (a :: c :: d :: f :: o :: us))
  -- `expr op expr`
  | binary {t : Token} {op : Operator} {left right : Expr} {ts us : List Token} :
      Derives (.expr left) ts → Operator.ofKind t.kind = some op → Derives (.expr right) us →
      Derives (.expr (.binary (markOf t) op left right)) (ts ++ (t :: us))
  -- `~ expr`, `not expr`, `isvoid expr`
  | negate {t : Token} {e : Expr} {ts : List Token} : t.kind = .tilde → Derives (.expr e) ts →
      Derives (.expr (.negate (markOf t) e)) (t :: ts)
  | complement {t : Token} {e : Expr} {ts : List Token} : t.kind = .not → Derives (.expr e) ts →
      Derives (.expr (.complement (markOf t) e)) (t :: ts)
  | isVoid {t : Token} {e : Expr} {ts : List Token} : t.kind = .isvoid → Derives (.expr e) ts →
      Derives (.expr (.isVoid (markOf t) e)) (t :: ts)
  -- `new TYPE`
  | new {t c : Token} : t.kind = .new → c.kind = .typeName →
      Derives (.expr (.new (markOf t) c.literal)) [t, c]
  -- `if expr then expr else expr fi`
  | cond {i t e f : Token} {test thenBranch elseBranch : Expr} {ts us vs : List Token} :
      i.kind = .if → Derives (.expr test) ts → t.kind = .then → Derives (.expr thenBranch) us →
      e.kind = .else → Derives (.expr elseBranch) vs → f.kind = .fi →
      Derives (.expr (.cond (markOf i) test thenBranch elseBranch))
        (i :: (ts ++ (t :: (us ++ (e :: (vs ++ [f]))))))
  -- `while expr loop expr pool`
  | loop {w l p : Token} {test body : Expr} {ts us : List Token} :
      w.kind = .while → Derives (.expr test) ts → l.kind = .loop → Derives (.expr body) us →
      p.kind = .pool →
      Derives (.expr (.loop (markOf w) test body)) (w :: (ts ++ (l :: (us ++ [p]))))
  -- `{ items`, where there is at least one
  | block {o : Token} {es : List Expr} {ts : List Token} :
      o.kind = .openBrace → Derives (.items es) ts → es ≠ [] →
      Derives (.expr (.block (markOf o) es)) (o :: ts)
  -- `let bindings in expr`
  | letIn {l i : Token} {bs : List (Declared Expr)} {body : Expr} {ts us : List Token} :
      l.kind = .let → Derives (.bindings bs) ts → i.kind = .in → Derives (.expr body) us →
      Derives (.expr (.letIn (markOf l) bs body)) (l :: (ts ++ (i :: us)))
  -- `case expr of branches`, where there is at least one
  | typeCase {c o : Token} {scrutinee : Expr} {bs : List (Declared Expr)} {ts us : List Token} :
      c.kind = .case → Derives (.expr scrutinee) ts → o.kind = .of → Derives (.branches bs) us →
      bs ≠ [] → Derives (.expr (.typeCase (markOf c) scrutinee bs)) (c :: (ts ++ (o :: us)))
  -- `)` or `expr , … , expr )`
  | noArgument {c : Token} : c.kind = .closeParen → Derives (.arguments []) [c]
  | lastArgument {c : Token} {e : Expr} {ts : List Token} :
      Derives (.expr e) ts → c.kind = .closeParen → Derives (.arguments [e]) (ts ++ [c])
  | argument {c : Token} {e next : Expr} {es : List Expr} {ts us : List Token} :
      Derives (.expr e) ts → c.kind = .comma → Derives (.arguments (next :: es)) us →
      Derives (.arguments (e :: next :: es)) (ts ++ (c :: us))
  -- `expr ; … expr ; }`
  | noItem {c : Token} : c.kind = .closeBrace → Derives (.items []) [c]
  | item {c : Token} {e : Expr} {es : List Expr} {ts us : List Token} :
      Derives (.expr e) ts → c.kind = .semicolon → Derives (.items es) us →
      Derives (.items (e :: es)) (ts ++ (c :: us))
  -- `<- expr` or nothing
  | omitted {after : Token} : Derives (.initialiser after (omittedAfter after)) []
  | given {after a : Token} {e : Expr} {ts : List Token} :
      a.kind = .assign → Derives (.expr e) ts → Derives (.initialiser after e) (a :: ts)
  -- `ID : TYPE initialiser , … , ID : TYPE initialiser`
  | lastBinding {x c t : Token} {init : Expr} {ts : List Token} :
      x.kind = .objectName → c.kind = .colon → t.kind = .typeName →
      Derives (.initialiser t init) ts →
      Derives (.bindings [⟨x.line, x.literal, t.literal, init⟩]) (x :: c :: t :: ts)
  | binding {x c t m : Token} {init : Expr} {bs : List (Declared Expr)} {ts us : List Token} :
      x.kind = .objectName → c.kind = .colon → t.kind = .typeName →
      Derives (.initialiser t init) ts → m.kind = .comma → Derives (.bindings bs) us →
      Derives (.bindings (⟨x.line, x.literal, t.literal, init⟩ :: bs))
        (x :: c :: t :: (ts ++ (m :: us)))
  -- `ID : TYPE => expr ; … esac`
  | noBranch {e : Token} : e.kind = .esac → Derives (.branches []) [e]
  | branch {x c t a m : Token} {value : Expr} {bs : List (Declared Expr)} {ts us : List Token} :
      x.kind = .objectName → c.kind = .colon → t.kind = .typeName → a.kind = .arrow →
      Derives (.expr value) ts → m.kind = .semicolon → Derives (.branches bs) us →
      Derives (.branches (⟨x.line, x.literal, t.literal, value⟩ :: bs))
        (x :: c :: t :: a :: (ts ++ (m :: us)))
  -- `)` or `ID : TYPE , … , ID : TYPE )`
  | noFormal {p : Token} : p.kind = .closeParen → Derives (.formals []) [p]
  | lastFormal {x c t p : Token} : x.kind = .objectName → c.kind = .colon →
      t.kind = .typeName → p.kind = .closeParen →
      Derives (.formals [⟨x.line, x.literal, t.literal⟩]) (x :: c :: t :: [p])
  | formal {x c t m : Token} {next : Formal} {fs : List Formal} {ts : List Token} :
      x.kind = .objectName → c.kind = .colon → t.kind = .typeName → m.kind = .comma →
      Derives (.formals (next :: fs)) ts →
      Derives (.formals (⟨x.line, x.literal, t.literal⟩ :: next :: fs))
        (x :: c :: t :: m :: ts)
  -- `ID ( formals : TYPE { expr }`
  | method {x o c t b e : Token} {fs : List Formal} {body : Expr} {ts us : List Token} :
      x.kind = .objectName → o.kind = .openParen → Derives (.formals fs) ts →
      c.kind = .colon → t.kind = .typeName → b.kind = .openBrace → Derives (.expr body) us →
      e.kind = .closeBrace →
      Derives (.feature (.method ⟨x.line, x.literal, fs, t.literal, body⟩))
        (x :: o :: (ts ++ (c :: t :: b :: (us ++ [e]))))
  -- `ID : TYPE initialiser`
  | attribute {x c t : Token} {init : Expr} {ts : List Token} :
      x.kind = .objectName → c.kind = .colon → t.kind = .typeName →
      Derives (.initialiser t init) ts →
      Derives (.feature (.attr ⟨x.line, x.literal, t.literal, init⟩)) (x :: c :: t :: ts)
  -- `feature ; … feature ; }`
  | noFeature {e : Token} : e.kind = .closeBrace → Derives (.features []) [e]
  | features {m : Token} {f : Feature} {fs : List Feature} {ts us : List Token} :
      Derives (.feature f) ts → m.kind = .semicolon → Derives (.features fs) us →
      Derives (.features (f :: fs)) (ts ++ (m :: us))
  -- `inherits TYPE` or nothing
  | noParent : Derives (.parent none) []
  | parent {i t : Token} : i.kind = .inherits → t.kind = .typeName →
      Derives (.parent (some t.literal)) [i, t]
  -- `class TYPE parent { features`
  | classDecl {c t b : Token} {parent : Option Name} {fs : List Feature} {file : Text}
      {ts us : List Token} :
      c.kind = .class → t.kind = .typeName → Derives (.parent parent) ts →
      b.kind = .openBrace → Derives (.features fs) us →
      Derives (.classDecl ⟨c.line, t.literal, parent, fs, file⟩)
        (c :: t :: (ts ++ (b :: us)))
  -- `class ; … class ;`
  | noClass {file : Text} : Derives (.program file []) []
  | classes {m : Token} {c : Class} {cs : List Class} {file : Text} {ts us : List Token} :
      Derives (.classDecl c) ts → c.file = file → m.kind = .semicolon →
      Derives (.program file cs) us → Derives (.program file (c :: cs)) (ts ++ (m :: us))

/-!
# Taking tokens off a stream
-/

inductive Stream.Takes : Stream → List Token → Stream → Prop where
  | nothing (s : Stream) : Takes s [] s
  | token {s rest : Stream} {ts : List Token} :
      s.words ≠ [] → Takes s.advance ts rest → Takes s (s.head :: ts) rest

namespace Stream

variable {s rest : Stream} {ts : List Token}

theorem Takes.trans {last : Stream} {us : List Token} (h : s.Takes ts rest)
    (hrest : rest.Takes us last) : s.Takes (ts ++ us) last := by
  induction h with
  | nothing s => exact hrest
  | token hne _ ih => exact .token hne (ih hrest)

theorem Takes.tokens_eq (h : s.Takes ts rest) :
    s.words.map Word.token = ts ++ rest.words.map Word.token := by
  induction h with
  | nothing s => rfl
  | @token s rest ts hne _ ih =>
    cases hwords : s.words with
    | nil => exact absurd hwords hne
    | cons w words =>
      have hhead : s.head = w.token := by rw [head, hwords]
      have hadvance : s.advance.words = words := by rw [advance, hwords]; rfl
      rw [hadvance] at ih
      rw [map_cons, ih, hhead]
      rfl

def pending (s : Stream) : List Token :=
  (s.words.tail.map Word.before).flatten ++ if s.words = [] then [] else s.last.before

/-- The reports that there are and those still to be made about error tokens. -/
def accounted (s : Stream) : List Report := s.reports ++ lexicalReports s.pending

theorem accounted_advance (s : Stream) : s.advance.accounted = s.accounted := by
  unfold advance
  split
  · rfl
  · rename_i w words hwords
    cases words with
    | nil => simp [accounted, pending, entering, front, lexicalReports, hwords]
    | cons v words => simp [accounted, pending, entering, front, lexicalReports, hwords]

theorem reports_advance {s : Stream} (h : s.advance.reports = []) : s.reports = [] := by
  unfold advance at h
  split at h
  · exact h
  · exact (append_eq_nil_iff.mp h).1

theorem Takes.reports_eq_nil (h : s.Takes ts rest) (hrest : rest.reports = []) :
    s.reports = [] := by
  induction h with
  | nothing s => exact hrest
  | token _ _ ih => exact reports_advance (ih hrest)

theorem Takes.accounted_eq (h : s.Takes ts rest) : rest.accounted = s.accounted := by
  induction h with
  | nothing s => rfl
  | token _ _ ih => rw [ih, accounted_advance]

end Stream

def Stream.Lexed (s : Stream) : Prop := ∀ w ∈ s.words, w.token.IsLexed

variable {s : Stream} {kind : Token.Kind}

theorem Stream.Takes.lexed {rest : Stream} {ts : List Token} (h : s.Takes ts rest) (hs : s.Lexed) :
    (∀ t ∈ ts, t.IsLexed) ∧ rest.Lexed := by
  have hall : ∀ t ∈ ts ++ rest.words.map Word.token, t.IsLexed := by
    rw [← h.tokens_eq]
    exact forall_mem_map.mpr hs
  rw [forall_mem_append] at hall
  exact ⟨hall.1, forall_mem_map.mp hall.2⟩

/-- A reading accounts for the tokens it takes: `D` holds of its value and them.  A failure is
reported. -/
def Accounts {α : Type} {s : Stream} (D : α → List Token → Prop) (r : Reading α s) : Prop :=
  s.Lexed →
    match r with
    | .ok value rest _ => ∃ ts, s.Takes ts rest ∧ D value ts
    | .failed rest _ => rest.Lexed ∧ rest.reports ≠ []

theorem accounts_from {α : Type} {s t : Stream} {D : α → List Token → Prop} {r : Reading α t}
    {ts : List Token} (htakes : s.Takes ts t) (hle : t.size ≤ s.size)
    (hr : Accounts (fun value us => D value (ts ++ us)) r) :
    Accounts D (r.from_ hle : Reading α s) := by
  intro hs
  have hrest := hr (htakes.lexed hs).2
  cases r with
  | ok value rest le =>
    obtain ⟨us, hus, hD⟩ := hrest
    exact ⟨ts ++ us, htakes.trans hus, hD⟩
  | failed rest le => exact hrest

/-!
# Routines
-/

/-- What each routine derives from the tokens that it takes. -/
def Routine.Derived : {α : Type} → Routine α → α → List Token → Prop
  | _, .expr _, e, ts => Derives (.expr e) ts
  | _, .operand t, e, ts => Derives (.expr e) (t :: ts)
  | _, .operators _ left, e, ts => ∀ us, Derives (.expr left) us → Derives (.expr e) (us ++ ts)
  | _, .arguments, es, ts => Derives (.arguments es) ts
  | _, .argumentList, es, ts => es ≠ [] ∧ Derives (.arguments es) ts
  | _, .items, es, ts => Derives (.items es) ts
  | _, .initialiser t, e, ts => Derives (.initialiser t e) ts
  | _, .bindings, bs, ts => Derives (.bindings bs) ts
  | _, .branches, found, ts => Derives (.branches found.1) ts
  | _, .formal, f, ts => ∃ x c t : Token, x.kind = .objectName ∧ c.kind = .colon ∧
    t.kind = .typeName ∧ f = ⟨x.line, x.literal, t.literal⟩ ∧ ts = [x, c, t]
  | _, .formals, fs, ts => fs ≠ [] ∧ Derives (.formals fs) ts
  | _, .parameters, fs, ts => Derives (.formals fs) ts
  | _, .methodDecl name, m, ts => Derives (.feature (.method m)) (name :: ts)
  | _, .attributeDecl name, a, ts => Derives (.feature (.attr a)) (name :: ts)
  | _, .featureDecl name, f, ts => Derives (.feature f) (name :: ts)
  | _, .features, fs, ts => Derives (.features fs) ts
  | _, .parent, name, ts => Derives (.parent name) ts
  | _, .classDecl file t, c, ts => ∀ cs us, Derives (.program file cs) us →
    Derives (.program file (c :: cs)) (t :: (ts ++ us))

namespace Steps

variable {α β : Type} {K : Token.Kind → Prop} {D : α → List Token → Prop}

/-- On every way through the steps, `D` holds of the value and the tokens taken, if `K` holds of the
token in front and what is called derives what it reads. -/
def Sound : Steps α → (Token.Kind → Prop) → (α → List Token → Prop) → Prop
  | .done value, K, D => (∃ kind, K kind) → D value []
  | .refuse _, _, _ => True
  | @look _ test _ yes no, K, D =>
    yes.Sound (fun kind => K kind ∧ test kind) D ∧ no.Sound (fun kind => K kind ∧ ¬ test kind) D
  | .take atEnd next, K, D => atEnd.Sound K D ∧ ∀ t, K t.kind → t.IsLexed →
    (next t).Sound (fun _ => True) fun value ts => D value (t :: ts)
  | .call r next, _, D => ∀ value ts, r.Derived value ts →
    (next value).Sound (fun _ => True) fun b us => D b (ts ++ us)

theorem sound_accept {kind : Token.Kind} {next : Token → Steps α} (h : ∀ t, t.kind = kind →
      (next t).Sound (fun _ => True) fun value ts => D value (t :: ts)) :
    (accept kind next).Sound K D :=
  ⟨⟨trivial, fun t ht _ => h t ht.2⟩, trivial⟩

theorem sound_named {p : Prop} {kind : Token.Kind} {next : Token → Steps α}
    (h : p → ∀ t, t.kind = kind →
      (next t).Sound (fun _ => True) fun value ts => D value (t :: ts)) :
    (accept kind next).Sound (fun kind => K kind ∧ p) D :=
  ⟨⟨trivial, fun t ht _ => h ht.1.2 t ht.2⟩, trivial⟩

theorem sound_map {r : Routine β} {f : β → α}
    (h : ∀ value ts, r.Derived value ts → D (f value) ts) :
    (map r f).Sound K D := by
  intro value ts hvalue _
  rw [append_nil]
  exact h value ts hvalue

theorem Sound.accounts {f : Reader} {P : ∀ ⦃β : Type⦄, Routine β → Stream → Prop}
    {steps : Steps α} {s : Stream} (h : steps.Sound K D) (hcalls : steps.EveryCall f P s)
    (hP : ∀ ⦃β : Type⦄ (r : Routine β) t, P r t → Accounts r.Derived (f r t)) (hK : K s.head.kind) :
    Accounts D (steps.run f s) := by
  induction steps generalizing s K D with
  | done value => exact fun _ => ⟨[], .nothing s, h ⟨_, hK⟩⟩
  | refuse report => exact fun hs => ⟨hs, by simp [Stream.report]⟩
  | look test yes no ihyes ihno =>
    unfold EveryCall at hcalls
    unfold run
    split
    · exact ihyes h.1 (by rwa [if_pos ‹_›] at hcalls) ⟨hK, ‹_›⟩
    · exact ihno h.2 (by rwa [if_neg ‹_›] at hcalls) ⟨hK, ‹_›⟩
  | take atEnd next ihend ih =>
    unfold EveryCall at hcalls
    unfold run Stream.withToken
    split
    · exact ihend h.1 (by rwa [if_pos ‹_›] at hcalls) hK
    · rename_i hne
      rw [if_neg hne] at hcalls
      intro hs
      have htakes : s.Takes [s.head] s.advance := .token hne (.nothing _)
      have hlexed := (htakes.lexed hs).1 _ mem_cons_self
      exact accounts_from htakes _ (ih _ (h.2 _ hK hlexed) hcalls trivial) hs
  | call r next ih =>
    intro hs
    have hfirst := hP r s hcalls.1 hs
    unfold run
    cases hf : f r s with
    | ok value rest le =>
      rw [hf] at hfirst
      obtain ⟨ts, hts, hvalue⟩ := hfirst
      exact accounts_from hts le (ih value (h value ts hvalue) (hcalls.2 _ _ _ hf) trivial) hs
    | failed rest le =>
      rw [hf] at hfirst
      exact hfirst

end Steps

theorem nameOf?_eq_some {e : Expr} {x : Identifier} (h : nameOf? e = some x) :
    e = .object x.mark x.name := by
  cases e with
  | object m y =>
    cases h
    rfl
  | _ => cases h

theorem kind_of_level {other : Token.Kind} (h : Level.ofKind kind = Level.ofKind other)
    (hother : other ∈ [Token.Kind.assign, .at, .dot]) : kind = other := by
  simp only [mem_cons, not_mem_nil, or_false] at hother
  rcases hother with rfl | rfl | rfl <;> cases kind <;> first | rfl | cases h

theorem operator_of_rank {level : Level} (hrank : level.rank < (Level.ofKind kind).rank)
    (hassign : Level.ofKind kind ≠ .assign) (hat : Level.ofKind kind ≠ .at)
    (hdot : Level.ofKind kind ≠ .dot) : ∃ op, Operator.ofKind kind = some op := by
  have hlowest : Level.ofKind kind ≠ .lowest := by
    intro heq
    rw [heq] at hrank
    cases level <;> simp [Level.rank] at hrank
  cases kind <;> first | exact ⟨_, rfl⟩ | simp [Level.ofKind] at hassign hat hdot hlowest

open Steps

theorem operand_sound (t : Token) :
    (Routine.operand t).body.Sound K (Routine.operand t).Derived := by
  rw [Routine.body]
  split <;> rename_i hkind
  · exact fun _ => .int hkind
  · exact fun _ => .string hkind
  · exact fun _ => .bool hkind
  · exact ⟨sound_accept fun o ho => sound_map fun args ts => .selfCall hkind ho,
      fun _ => .object hkind⟩
  · exact fun e ts he => sound_accept fun c hc _ => .paren hkind he hc
  · exact fun test ts htest => sound_accept fun _ hthen thenBranch us hyes =>
      sound_accept fun _ helse elseBranch vs hno => sound_accept fun _ hfi _ =>
      .cond hkind htest hthen hyes helse hno hfi
  · exact fun test ts htest => sound_accept fun _ hloop body us hbody =>
      sound_accept fun _ hpool _ => .loop hkind htest hloop hbody hpool
  · exact fun bs ts hbs => sound_accept fun _ hin => sound_map fun body us => .letIn hkind hbs hin
  · refine fun scrutinee ts hscrutinee => sound_accept fun _ hof found us hfound => ?_
    refine ⟨trivial, ?_⟩
    rintro ⟨_, _, hne⟩
    simp only [append_nil]
    exact .typeCase hkind hscrutinee hof hfound hne
  · exact sound_accept fun _ hname _ => .new hkind hname
  · exact sound_map fun e ts => .isVoid hkind
  · exact sound_map fun e ts => .complement hkind
  · exact sound_map fun e ts => .negate hkind
  · refine fun es ts hes => ⟨trivial, ?_⟩
    rintro ⟨_, _, hne⟩
    simp only [append_nil]
    exact .block hkind hes hne
  · trivial

theorem operators_sound (level : Level) (left : Expr) :
    (Routine.operators level left).body.Sound K
      (Routine.operators level left).Derived := by
  -- What follows goes on from an expression that has taken the tokens up to there.
  have hmore : ∀ {e : Expr} (ts : List Token),
      (∀ us, Derives (.expr left) us → Derives (.expr e) (us ++ ts)) →
      (call (.operators level e) done).Sound (fun _ => True)
        (fun e vs => ∀ us, Derives (.expr left) us → Derives (.expr e) (us ++ (ts ++ vs))) := by
    intro e ts hnode e' vs h _ us hus
    rw [append_nil, ← append_assoc]
    exact h _ (hnode us hus)
  have hleft : ∀ us, Derives (.expr left) us → Derives (.expr left) (us ++ []) := by
    intro us hus
    rwa [append_nil]
  refine ⟨⟨fun _ => hleft, fun t hrank hlexed => ?_⟩, fun _ => hleft⟩
  dsimp only
  split
  · rename_i hassign
    split
    · trivial
    · rename_i name hname
      refine fun value ts hvalue => hmore (t :: ts) fun us hus => ?_
      rw [nameOf?_eq_some hname] at hus
      exact .assign hus (kind_of_level hassign (by decide)) hvalue
  · rename_i hat
    exact sound_accept fun target htarget => sound_accept fun dot hdot =>
      sound_accept fun method hmethod => sound_accept fun openParen hopen args ts hargs =>
      hmore (t :: target :: dot :: method :: openParen :: ts) fun us hus =>
      .staticCall hus (kind_of_level hat (by decide)) htarget hdot hmethod hopen hargs
  · rename_i hdot
    exact sound_accept fun method hmethod => sound_accept fun openParen hopen args ts hargs =>
      hmore (t :: method :: openParen :: ts) fun us hus =>
      .call hus (kind_of_level hdot (by decide)) hmethod hopen hargs
  · rename_i hassign hat hdot
    obtain ⟨op, hop⟩ := operator_of_rank hrank.2 hassign hat hdot
    refine fun right ts hright => ⟨trivial, hmore (t :: ts) fun us hus => ?_⟩
    rw [Lexeme.Lexed.operator hlexed hop]
    exact .binary hus hop hright

theorem body_sound {α : Type} (r : Routine α) :
    r.body.Sound (fun _ => True) r.Derived := by
  cases r with
  | expr level =>
    exact ⟨trivial, fun t _ _ left ts hleft => sound_map fun e us h => h (t :: ts) hleft⟩
  | operand t => exact operand_sound t
  | operators level left => exact operators_sound level left
  | arguments =>
    exact ⟨sound_accept fun c hc _ => .noArgument hc, sound_map fun es ts h => h.2⟩
  | argumentList =>
    refine fun e ts he => ⟨sound_accept fun comma hcomma => sound_map fun es us hes => ?_,
      sound_accept fun c hc _ => ⟨cons_ne_nil _ _, .lastArgument he hc⟩⟩
    obtain ⟨next, rest, rfl⟩ := exists_cons_of_ne_nil hes.1
    exact ⟨cons_ne_nil _ _, .argument he hcomma hes.2⟩
  | items =>
    exact ⟨sound_accept fun c hc _ => .noItem hc, trivial, fun e ts he =>
      sound_accept fun _ hsemicolon => sound_map fun es us => .item he hsemicolon⟩
  | initialiser t =>
    exact ⟨sound_accept fun a ha => sound_map fun e ts => .given ha, fun _ => .omitted⟩
  | bindings =>
    refine sound_accept fun name hname => sound_accept fun colon hcolon =>
      sound_accept fun type htype init ts hinit =>
      ⟨sound_accept fun comma hcomma => sound_map fun bs us =>
        .binding hname hcolon htype hinit hcomma, fun _ => ?_⟩
    simp only [append_nil]
    exact .lastBinding hname hcolon htype hinit
  | branches =>
    exact ⟨sound_accept fun esac hesac _ => .noBranch hesac, trivial, fun name _ _ =>
      ⟨sound_named fun hname colon hcolon => sound_accept fun type htype =>
        sound_accept fun arrow harrow value ts hvalue => sound_accept fun _ hsemicolon =>
        sound_map fun bs us => .branch hname hcolon htype harrow hvalue hsemicolon, trivial⟩⟩
  | formal =>
    exact ⟨trivial, fun name _ _ => ⟨sound_named fun hname colon hcolon =>
      sound_accept fun type htype _ => ⟨name, colon, type, hname, hcolon, htype, rfl, rfl⟩,
      trivial⟩⟩
  | formals =>
    rintro f _ ⟨x, c, t, hx, hc, ht, rfl, rfl⟩
    refine ⟨sound_accept fun close hclose _ => ⟨cons_ne_nil _ _, .lastFormal hx hc ht hclose⟩,
      sound_accept fun comma hcomma => sound_map fun fs us hfs => ?_⟩
    obtain ⟨next, rest, rfl⟩ := exists_cons_of_ne_nil hfs.1
    exact ⟨cons_ne_nil _ _, .formal hx hc ht hcomma hfs.2⟩
  | parameters =>
    exact ⟨sound_accept fun close hclose _ => .noFormal hclose, sound_map fun fs ts h => h.2⟩
  | methodDecl name =>
    exact ⟨sound_named fun hname openParen hopen params ts hparams => sound_accept fun _ hcolon =>
      sound_accept fun returns hreturns => sound_accept fun _ hbrace body us hbody =>
      sound_accept fun _ hclose _ =>
      .method hname hopen hparams hcolon hreturns hbrace hbody hclose, trivial⟩
  | attributeDecl name =>
    exact ⟨sound_named fun hname colon hcolon => sound_accept fun type htype =>
      sound_map fun init ts => .attribute hname hcolon htype, trivial⟩
  | featureDecl name => exact ⟨sound_map fun m ts h => h, sound_map fun a ts h => h⟩
  | features =>
    exact ⟨sound_accept fun close hclose _ => .noFeature hclose, trivial, fun name _ _ f ts hf =>
      sound_accept fun _ hsemicolon => sound_map fun fs us hfs => .features hf hsemicolon hfs⟩
  | parent =>
    exact ⟨sound_accept fun _ hinherits => sound_accept fun name hname _ =>
      .parent hinherits hname, fun _ => .noParent⟩
  | classDecl file t =>
    refine ⟨sound_named fun hclass name hname parentName ts hparent => sound_accept fun _ hopen fs
      us hfs => sound_accept fun _ hsemicolon _ cs vs hcs => ?_, trivial⟩
    have hderives : Derives (.classDecl ⟨t.line, name.literal, parentName, fs, file⟩) _ :=
      .classDecl hclass hname hparent hopen hfs
    have hprogram := Derives.classes hderives rfl hsemicolon hcs
    simpa only [cons_append, append_assoc, nil_append] using hprogram

theorem read_accounts {α : Type} (r : Routine α) (s : Stream) : Accounts r.Derived (read r s) := by
  rw [read_eq_run]
  exact (body_sound r).accounts (calls_below read r s)
    (fun β r' s' hbelow => read_accounts r' s') trivial
termination_by (s.size, r.rank)
decreasing_by exact Prod.lex_def.mpr hbelow

theorem reports_skipTo (h : (s.skipTo kind).reports = []) : s.reports = [] := by
  fun_induction Stream.skipTo kind s with
  | case1 s hnil => exact h
  | case2 s hne hkind => exact h
  | case3 s hne hkind ih => exact Stream.reports_advance (ih h)

theorem lexed_advance (hs : s.Lexed) : s.advance.Lexed := by
  unfold Stream.advance
  split
  · exact hs
  · rename_i w words hwords
    exact fun v hv => hs v (by rw [hwords]; exact mem_cons_of_mem w hv)

theorem lexed_skipTo (hs : s.Lexed) : (s.skipTo kind).Lexed := by
  fun_induction Stream.skipTo kind s with
  | case1 s hnil => exact hs
  | case2 s hne hkind => exact hs
  | case3 s hne hkind ih => exact ih (lexed_advance hs)

theorem classes_derive (file : Text) (hs : s.Lexed) (hclean : (classes file s).2.reports = []) :
    s.reports = [] ∧ (classes file s).2.words = [] ∧
      ∃ ts, s.Takes ts (classes file s).2 ∧ Derives (.program file (classes file s).1) ts := by
  fun_induction classes file s with
  | case1 s hnil => exact ⟨hclean, hnil, [], .nothing s, .noClass⟩
  | case2 s hne hlt c rest hle hread cs last hrest ih =>
    have hdecl := read_accounts (.classDecl file s.head) s.advance (lexed_advance hs)
    rw [read, hread] at hdecl
    obtain ⟨ts, hts, hc⟩ := hdecl
    rw [hrest] at ih
    obtain ⟨hreports, hwords, us, hus, hcs⟩ := ih (hts.lexed (lexed_advance hs)).2 hclean
    exact ⟨Stream.reports_advance (hts.reports_eq_nil hreports), hwords, s.head :: (ts ++ us),
      .token hne (hts.trans hus), hc _ _ hcs⟩
  | case3 s hne hlt rest hle hread hskip ih =>
    have hdecl := read_accounts (.classDecl file s.head) s.advance (lexed_advance hs)
    rw [read, hread] at hdecl
    exact absurd (reports_skipTo (ih (lexed_skipTo hdecl.1) hclean).1) hdecl.2

theorem derives_of_mem_classes (file : Text) (hs : s.Lexed) {c : Class}
    (hc : c ∈ (classes file s).1) :
    ∃ ts, (∀ t ∈ ts, t.IsLexed) ∧ Derives (.program file [c]) ts := by
  fun_induction classes file s with
  | case1 s hnil => cases hc
  | case2 s hne hlt d rest hle hread cs last hrest ih =>
    have hdecl := read_accounts (.classDecl file s.head) s.advance (lexed_advance hs)
    rw [read, hread] at hdecl
    obtain ⟨ts, hts, hd⟩ := hdecl
    have hlexed := (Stream.Takes.token hne hts).lexed hs
    rw [hrest] at ih
    cases hc with
    | head =>
      have hderives := hd [] [] .noClass
      rw [append_nil] at hderives
      exact ⟨_, hlexed.1, hderives⟩
    | tail _ hc => exact ih hlexed.2 hc
  | case3 s hne hlt rest hle hread hskip ih =>
    have hdecl := read_accounts (.classDecl file s.head) s.advance (lexed_advance hs)
    rw [read, hread] at hdecl
    exact ih (lexed_skipTo hdecl.1) hc

/-!
# Sources
-/

section Sources

variable {front : List Token} {last : Token}

variable (hlast : last.kind = .endOfText)
include hlast

theorem wordsOf_append (hfront : ∀ t ∈ front, t.kind ≠ .endOfText) (pending : List Token) :
    (Stream.wordsOf pending (front ++ [last])).1.map Word.token =
      front.filter (fun t => t.kind != .error) ∧
    ((Stream.wordsOf pending (front ++ [last])).1.map Word.before).flatten ++
      (Stream.wordsOf pending (front ++ [last])).2.before =
        pending ++ front.filter (fun t => t.kind == .error) := by
  induction front generalizing pending with
  | nil => simp [Stream.wordsOf, hlast]
  | cons t front ih =>
    rw [forall_mem_cons] at hfront
    rw [cons_append, Stream.wordsOf]
    by_cases herror : t.kind = .error
    · obtain ⟨htokens, hbefore⟩ := ih hfront.2 (pending ++ [t])
      rw [if_pos herror, htokens, hbefore]
      simp [herror]
    · obtain ⟨htokens, hbefore⟩ := ih hfront.2 []
      rw [if_neg herror, if_neg hfront.1]
      refine ⟨?_, ?_⟩
      · rw [map_cons, htokens]
        simp [herror]
      · rw [map_cons, flatten_cons, append_assoc, hbefore]
        simp [herror]

theorem map_token_ofTokens (hfront : ∀ t ∈ front, t.kind ≠ .endOfText) :
    (Stream.ofTokens (front ++ [last])).words.map Word.token =
      front.filter (fun t => t.kind != .error) :=
  (wordsOf_append hlast hfront []).1

omit hlast in
theorem accounted_entering (words : List Word) (last : Word) :
    (Stream.entering words last []).accounted =
      Stream.lexicalReports ((words.map Word.before).flatten ++ last.before) := by
  cases words with
  | nil => simp [Stream.accounted, Stream.pending, Stream.entering, Stream.front,
      Stream.lexicalReports]
  | cons w words => simp [Stream.accounted, Stream.pending, Stream.entering, Stream.front,
      Stream.lexicalReports]

theorem accounted_ofTokens (hfront : ∀ t ∈ front, t.kind ≠ .endOfText) :
    (Stream.ofTokens (front ++ [last])).accounted =
      Stream.lexicalReports (front.filter (fun t => t.kind == .error)) := by
  rw [← nil_append (front.filter _), ← (wordsOf_append hlast hfront []).2]
  exact accounted_entering _ _

theorem lexed_ofTokens (hfront : ∀ t ∈ front, t.kind ≠ .endOfText)
    (hall : ∀ t ∈ front, t.kind = .error ∨ t.IsLexed) :
    (Stream.ofTokens (front ++ [last])).Lexed := by
  intro w hw
  have hmem : w.token ∈ front.filter (fun t => t.kind != .error) := by
    rw [← map_token_ofTokens hlast hfront]
    exact mem_map_of_mem hw
  rw [mem_filter, bne_iff_ne] at hmem
  exact (hall _ hmem.1).resolve_left hmem.2

theorem eq_of_takes (hfront : ∀ t ∈ front, t.kind ≠ .endOfText) {ts : List Token} {rest : Stream}
    (htakes : (Stream.ofTokens (front ++ [last])).Takes ts rest) (hwords : rest.words = [])
    (hreports : rest.reports = []) : ts = front ∧ ∀ t ∈ front, t.kind ≠ .error := by
  have hrest : rest.accounted = [] := by
    simp [Stream.accounted, Stream.pending, Stream.lexicalReports, hreports, hwords]
  have haccounted := htakes.accounted_eq
  rw [hrest, accounted_ofTokens hlast hfront, eq_comm, Stream.lexicalReports, map_eq_nil_iff,
    filter_eq_nil_iff] at haccounted
  have hgood : ∀ t ∈ front, t.kind ≠ .error := fun t ht => by simpa using haccounted t ht
  have htokens := htakes.tokens_eq
  rw [hwords, map_nil, append_nil, map_token_ofTokens hlast hfront,
    filter_eq_self.mpr fun t ht => bne_iff_ne.mpr (hgood t ht)] at htokens
  exact ⟨htokens.symm, hgood⟩

end Sources

theorem lexed_scan (source : Text) : (Stream.ofTokens (Token.scan source)).Lexed := by
  obtain ⟨front, last, hscan, hlast, hall⟩ := Token.closed_scan source
  rw [hscan]
  refine lexed_ofTokens hlast (fun t ht => ?_) hall
  rcases hall t ht with herror | hlexed
  · rw [herror]
    decide
  · exact (Lexeme.Lexed.kind_ne hlexed).1

theorem derives_of_mem_parse {file source : Text} {c : Class}
    (hc : c ∈ (parse file source).classes) :
    ∃ ts, (∀ t ∈ ts, t.IsLexed) ∧ Derives (.program file [c]) ts := by
  refine derives_of_mem_classes file (lexed_scan source) ?_
  unfold parse program at hc
  simp only at hc
  split at hc
  · exact hc
  · exact hc

theorem program_clean {file : Text} {tokens : List Token}
    (h : (program file tokens).reports = []) :
    (classes file (Stream.ofTokens tokens)).2.reports = [] ∧
      (program file tokens).classes = (classes file (Stream.ofTokens tokens)).1 ∧
      (program file tokens).classes ≠ [] := by
  simp only [program] at h ⊢
  split at h
  · cases h
  · rename_i hsome
    rw [if_neg hsome]
    refine ⟨h, rfl, ?_⟩
    intro hempty
    simp only at hempty h
    simp [hempty, h] at hsome

/-- A text that is read without a report consists of the tokens of its classes, each followed
by a semicolon, and the end token; no token reports an error. -/
theorem parse_sound (file source : Text) (hclean : (parse file source).reports = []) :
    ∃ tokens last, Token.scan source = tokens ++ [last] ∧ last.kind = .endOfText ∧
      (∀ t ∈ tokens, t.kind ≠ .error ∧ t.kind ≠ .endOfText) ∧
      (parse file source).classes ≠ [] ∧
      Derives (.program file (parse file source).classes) tokens := by
  rcases Token.closed_scan source with ⟨front, last, hscan, hlast, hall⟩
  have hkinds : ∀ t ∈ front, t.kind ≠ .endOfText := by
    intro t ht
    rcases hall t ht with herror | hlexed
    · rw [herror]
      decide
    · exact (Lexeme.Lexed.kind_ne hlexed).1
  rcases program_clean hclean with ⟨hreports, hclasses, hne⟩
  rw [hscan] at hreports hclasses
  rcases classes_derive file (lexed_ofTokens hlast hkinds hall) hreports with
    ⟨_, hwords, ts, hts, hderives⟩
  rcases eq_of_takes hlast hkinds hts hwords hreports with ⟨rfl, hgood⟩
  refine ⟨ts, last, hscan, hlast, fun t ht => ⟨hgood t ht, hkinds t ht⟩, hne, ?_⟩
  rw [← hclasses] at hderives
  rw [parse, hscan]
  exact hderives

/-- A class with a parent, an attribute, and a method with a block, a let, a case, calls and
parentheses. -/
def spelledSource : Text :=
  "class Main inherits IO { x : Int <- (1 + 2) * 3;
    main(y : Int, z : Bool) : Object {
      { (x) <- ~y; let v : Int, w : Int <- x in
          case self of m : Main => m@IO.out_int(v); o : Object => isvoid (o); esac; } }; };"

theorem parse_sound_spelled : (parse "spelled.cl" spelledSource).reports = [] ∧
    ∃ tokens last, Token.scan spelledSource = tokens ++ [last] ∧ last.kind = .endOfText ∧
      (∀ t ∈ tokens, t.kind ≠ .error ∧ t.kind ≠ .endOfText) ∧
      (parse "spelled.cl" spelledSource).classes ≠ [] ∧
      Derives (.program "spelled.cl" (parse "spelled.cl" spelledSource).classes) tokens := by
  have hcheck : (parse "spelled.cl" spelledSource).reports.isEmpty = true := by decide +kernel
  have hclean := List.isEmpty_iff.mp hcheck
  exact ⟨hclean, parse_sound _ _ hclean⟩

end CoolCompiler.Grammar
