import CoolCompiler.Grammar.Program

/-!
# The recursion of the grammar

The routines of the grammar call one another.  Here each is spelled out as its steps, so that its
calls can be spoken of.  Every call is made on fewer tokens than the caller was given, or on as many
by a routine that stands higher.
-/

namespace CoolCompiler.Grammar

open List

/-- The routines of the grammar, by the kind of value that they read. -/
inductive Routine : Type → Type where
  | expr (level : Level) : Routine Expr
  | operand (t : Token) : Routine Expr
  | operators (level : Level) (left : Expr) : Routine Expr
  | arguments : Routine (List Expr)
  | argumentList : Routine (List Expr)
  | items : Routine (List Expr)
  | initialiser (t : Token) : Routine Expr
  | bindings : Routine (List (Declared Expr))
  | branches : Routine (List (Declared Expr) × Nat)
  | formal : Routine Formal
  | formals : Routine (List Formal)
  | parameters : Routine (List Formal)
  | methodDecl (name : Token) : Routine Method
  | attributeDecl (name : Token) : Routine Attribute
  | featureDecl (name : Token) : Routine Feature
  | features : Routine (List Feature)
  | parent : Routine (Option Name)
  | classDecl (file : Text) (t : Token) : Routine Class

/-- What each routine reads from a stream. -/
abbrev Reader := ∀ ⦃α : Type⦄, Routine α → (s : Stream) → Reading α s

/-- The routines of the grammar itself. -/
def read : Reader
  | _, .expr level, s => expr level s
  | _, .operand t, s => operand t s
  | _, .operators level left, s => operators level left s
  | _, .arguments, s => arguments s
  | _, .argumentList, s => argumentList s
  | _, .items, s => items s
  | _, .initialiser t, s => initialiser t s
  | _, .bindings, s => bindings s
  | _, .branches, s => branches s
  | _, .formal, s => formal s
  | _, .formals, s => formals s
  | _, .parameters, s =>
    if s.head.kind = .closeParen then s.expect .closeParen fun _ _ _ => .here [] else formals s
  | _, .methodDecl name, s => methodDecl name s
  | _, .attributeDecl name, s => attributeDecl name s
  | _, .featureDecl name, s => featureDecl name s
  | _, .features, s => features s
  | _, .parent, s => parent s
  | _, .classDecl file t, s => classDecl file t s

/-- The steps of a routine: it looks at the token in front, takes it, or calls a routine. -/
inductive Steps (α : Type) : Type 1 where
  | done (value : α)
  | refuse (report : Token → Report)
  | look (test : Token.Kind → Prop) [DecidablePred test] (yes no : Steps α)
  | take (atEnd : Steps α) (next : Token → Steps α)
  | call {β : Type} (r : Routine β) (next : β → Steps α)

namespace Steps

variable {α : Type}

/-- Takes the steps on a stream, where `f` answers the calls. -/
def run (f : Reader) : Steps α → (s : Stream) → Reading α s
  | .done value, _ => .here value
  | .refuse report, s => s.refuse (report s.head).line (report s.head).fault
  | @look _ test _ yes no, s => if test s.head.kind then yes.run f s else no.run f s
  | .take atEnd next, s => s.withToken (atEnd.run f s) fun t s1 _ => (next t).run f s1
  | .call r next, s => (f r s).andThen fun v s1 _ => (next v).run f s1

def reject (fault : Token → Fault) : Steps α := .refuse fun t => ⟨t.line, fault t⟩

def accept (kind : Token.Kind) (next : Token → Steps α) : Steps α :=
  .look (· = kind) (.take (reject (.expectedKind · kind)) next) (reject (.expectedKind · kind))

@[simp]
theorem run_accept (f : Reader) (kind : Token.Kind) (next : Token → Steps α) (s : Stream) :
    (accept kind next).run f s = s.expect kind fun t s1 _ => (next t).run f s1 :=
  rfl

def map {β : Type} (r : Routine β) (f : β → α) : Steps α := .call r fun v => .done (f v)

end Steps

open Steps in
/-- The steps that each routine takes. -/
def Routine.body : {α : Type} → Routine α → Steps α
  | _, .expr level =>
    .take (reject .unexpected) fun t =>
    .call (.operand t) fun left => .call (.operators level left) .done
  | _, .operand t =>
    match t.kind with
    | .int => .done (.int (markOf t) (digitsValue t.literal))
    | .string => .done (.string (markOf t) t.literal)
    | .bool => .done (.bool (markOf t) (t.literal == "true"))
    | .objectName =>
      .look (· = .openParen)
        (.accept .openParen fun _ => map .arguments fun args =>
          .dispatch (markOf t) (.object (markOf t) Name.self) none t.literal args)
        (.done (.object (markOf t) t.literal))
    | .openParen => .call (.expr .lowest) fun e => .accept .closeParen fun _ => .done e
    | .if =>
      .call (.expr .lowest) fun test => .accept .then fun _ =>
      .call (.expr .lowest) fun thenBranch => .accept .else fun _ =>
      .call (.expr .lowest) fun elseBranch => .accept .fi fun _ =>
      .done (.cond (markOf t) test thenBranch elseBranch)
    | .while =>
      .call (.expr .lowest) fun test => .accept .loop fun _ =>
      .call (.expr .lowest) fun body => .accept .pool fun _ =>
      .done (.loop (markOf t) test body)
    | .let =>
      .call .bindings fun bs => .accept .in fun _ => map (.expr .lowest) (.letIn (markOf t) bs)
    | .case =>
      .call (.expr .lowest) fun scrutinee => .accept .of fun _ =>
      .call .branches fun found =>
      .look (fun _ => found.1 = []) (.refuse fun _ => ⟨found.2, .emptyCase⟩)
        (.done (.typeCase (markOf t) scrutinee found.1))
    | .new => .accept .typeName fun name => .done (.new (markOf t) name.literal)
    | .isvoid => map (.expr .isVoid) (.isVoid (markOf t))
    | .not => map (.expr .complement) (.complement (markOf t))
    | .tilde => map (.expr .negate) (.negate (markOf t))
    | .openBrace =>
      .call .items fun es =>
      .look (fun _ => es = []) (.refuse fun _ => ⟨t.line, .emptyBlock⟩)
        (.done (.block (markOf t) es))
    | _ => .refuse fun _ => ⟨t.line, .unexpected t⟩
  | _, .operators level left =>
    .look (fun kind => level.rank < (Level.ofKind kind).rank)
      (.take (.done left) fun t =>
        match Level.ofKind t.kind with
        | .assign =>
          match nameOf? left with
          | none => .refuse fun _ => ⟨t.line, .assignmentTarget⟩
          | some name =>
            .call (.expr .lowest) fun value =>
            .call (.operators level (.assign (markOf t) name value)) .done
        | .at =>
          .accept .typeName fun target => .accept .dot fun _ =>
          .accept .objectName fun method => .accept .openParen fun _ =>
          .call .arguments fun args =>
          .call (.operators level
            (.dispatch (markOf t) left (some target.literal) method.literal args)) .done
        | .dot =>
          .accept .objectName fun method => .accept .openParen fun _ =>
          .call .arguments fun args =>
          .call (.operators level (.dispatch (markOf t) left none method.literal args)) .done
        | next =>
          .call (.expr next) fun right =>
          .look (fun kind => next = .compare ∧ Level.ofKind kind = .compare)
            (reject .chainedComparison)
            (.call (.operators level
              (.binary (markOf t) (Operator.ofSymbol t.literal) left right)) .done))
      (.done left)
  | _, .arguments =>
    .look (· = .closeParen) (.accept .closeParen fun _ => .done []) (.call .argumentList .done)
  | _, .argumentList =>
    .call (.expr .lowest) fun e =>
    .look (· = .comma) (.accept .comma fun _ => map .argumentList (e :: ·))
      (.accept .closeParen fun _ => .done [e])
  | _, .items =>
    .look (· = .closeBrace) (.accept .closeBrace fun _ => .done [])
      (.look (· = .endOfText) (reject fun _ => .unclosedBrace)
        (.call (.expr .lowest) fun e => .accept .semicolon fun _ => map .items (e :: ·)))
  | _, .initialiser t =>
    .look (· = .assign) (.accept .assign fun _ => .call (.expr .lowest) .done)
      (.done (omittedAfter t))
  | _, .bindings =>
    .accept .objectName fun name => .accept .colon fun _ => .accept .typeName fun type =>
    .call (.initialiser type) fun init =>
    .look (· = .comma)
      (.accept .comma fun _ => map .bindings (⟨name.line, name.literal, type.literal, init⟩ :: ·))
      (.done [⟨name.line, name.literal, type.literal, init⟩])
  | _, .branches =>
    .look (· = .esac) (.accept .esac fun t => .done ([], t.line))
      (.take (reject fun _ => .unclosedCase) fun name =>
        .look (fun _ => name.kind = .objectName)
          (.accept .colon fun _ => .accept .typeName fun type => .accept .arrow fun _ =>
            .call (.expr .lowest) fun value => .accept .semicolon fun _ =>
            map .branches fun bs =>
              (⟨name.line, name.literal, type.literal, value⟩ :: bs.1, bs.2))
          (.refuse fun _ => ⟨name.line, .expected name .caseBranch⟩))
  | _, .formal =>
    .take (reject fun t => .expected t .formalName) fun name =>
    .look (fun _ => name.kind = .objectName)
      (.accept .colon fun _ => .accept .typeName fun type =>
        .done ⟨name.line, name.literal, type.literal⟩)
      (.refuse fun _ => ⟨name.line, .expected name .formalName⟩)
  | _, .formals =>
    .call .formal fun f =>
    .look (· = .closeParen) (.accept .closeParen fun _ => .done [f])
      (.accept .comma fun _ => map .formals (f :: ·))
  | _, .parameters =>
    .look (· = .closeParen) (.accept .closeParen fun _ => .done []) (.call .formals .done)
  | _, .methodDecl name =>
    .look (fun _ => name.kind = .objectName)
      (.accept .openParen fun _ => .call .parameters fun params =>
        .accept .colon fun _ => .accept .typeName fun returns => .accept .openBrace fun _ =>
        .call (.expr .lowest) fun body => .accept .closeBrace fun _ =>
        .done ⟨name.line, name.literal, params, returns.literal, body⟩)
      (.refuse fun _ => ⟨name.line, .expected name .methodName⟩)
  | _, .attributeDecl name =>
    .look (fun _ => name.kind = .objectName)
      (.accept .colon fun _ => .accept .typeName fun type =>
        map (.initialiser type) fun init => ⟨name.line, name.literal, type.literal, init⟩)
      (.refuse fun _ => ⟨name.line, .expected name .aFeature⟩)
  | _, .featureDecl name =>
    .look (· = .openParen) (map (.methodDecl name) .method) (map (.attributeDecl name) .attr)
  | _, .features =>
    .look (· = .closeBrace) (.accept .closeBrace fun _ => .done [])
      (.take (reject fun _ => .unclosedBrace) fun name =>
        .call (.featureDecl name) fun f => .accept .semicolon fun _ => map .features (f :: ·))
  | _, .parent =>
    .look (· = .inherits)
      (.accept .inherits fun _ => .accept .typeName fun name => .done (some name.literal))
      (.done none)
  | _, .classDecl file t =>
    .look (fun _ => t.kind = .class)
      (.accept .typeName fun name => .call .parent fun parentName =>
        .accept .openBrace fun _ => .call .features fun fs => .accept .semicolon fun _ =>
        .done ⟨t.line, name.literal, parentName, fs, file⟩)
      (.refuse fun _ => ⟨t.line, .expected t .aClass⟩)

@[simp]
theorem andThen_here {α : Type} {s : Stream} (r : Reading α s) :
    (r.andThen fun v _ _ => .here v) = r := by
  cases r <;> rfl

/-- Every routine of the grammar takes its steps. -/
theorem read_eq_run {α : Type} (r : Routine α) (s : Stream) : read r s = r.body.run read s := by
  cases r with
  | operand t =>
    rw [read, operand, Routine.body]
    cases t.kind <;> rfl
  | operators level left =>
    rw [read, operators, Routine.body]
    simp only [Steps.run, Stream.withToken]
    congr 3
    funext hne
    congr 1
    cases Level.ofKind s.head.kind with
    | assign => cases nameOf? left <;> simp [Steps.run, read]
    | _ => simp [Steps.run, Steps.reject, read]
  | expr => simp [read, expr, Routine.body, Steps.run, Steps.reject]
  | arguments => simp [read, arguments, Routine.body, Steps.run]
  | initialiser => simp [read, initialiser, Routine.body, Steps.run]
  | parameters => simp [read, Routine.body, Steps.run]
  | argumentList => exact argumentList.eq_1 s
  | items => exact items.eq_1 s
  | bindings => exact bindings.eq_1 s
  | branches => exact branches.eq_1 s
  | formals => exact formals.eq_1 s
  | features => exact features.eq_1 s
  | _ => rfl

/-!
# Calls
-/

/-- A routine may call those that stand below it without having taken a token. -/
def Routine.rank : {α : Type} → Routine α → Nat
  | _, .operand _ | _, .arguments | _, .parameters => 2
  | _, .argumentList | _, .items | _, .formals | _, .featureDecl _ => 1
  | _, _ => 0

namespace Steps

variable {α : Type} {f g : Reader}

/-- Every call that is made on a stream satisfies `P`, where `f` answers the calls. -/
def EveryCall (f : Reader) (P : ∀ ⦃β : Type⦄, Routine β → Stream → Prop) :
    Steps α → Stream → Prop
  | .done _, _ => True
  | .refuse _, _ => True
  | @look _ test _ yes no, s =>
    if test s.head.kind then yes.EveryCall f P s else no.EveryCall f P s
  | .take atEnd next, s =>
    if s.words = [] then atEnd.EveryCall f P s else (next s.head).EveryCall f P s.advance
  | .call r next, s =>
    P r s ∧ ∀ v rest le, f r s = .ok v rest le → (next v).EveryCall f P rest

/-- A routine is called after a token has been taken, or stands below the rank `n`. -/
def Guarded (n : Nat) : Bool → Steps α → Prop
  | _, .done _ => True
  | _, .refuse _ => True
  | taken, @look _ _ _ yes no => yes.Guarded n taken ∧ no.Guarded n taken
  | taken, .take atEnd next => atEnd.Guarded n taken ∧ ∀ t, (next t).Guarded n true
  | taken, .call r next => (taken = true ∨ r.rank < n) ∧ ∀ v, (next v).Guarded n taken

theorem everyCall_of_guarded {n m : Nat} {taken : Bool} {steps : Steps α} {s : Stream}
    (h : steps.Guarded n taken) (hle : s.size ≤ m) (hlt : taken = true → s.size < m) :
    steps.EveryCall f (fun _ r t => t.size < m ∨ t.size = m ∧ r.rank < n) s := by
  induction steps generalizing taken s with
  | done | refuse => trivial
  | look test yes no ihyes ihno =>
    unfold EveryCall
    split
    · exact ihyes h.1 hle hlt
    · exact ihno h.2 hle hlt
  | take atEnd next ihend ih =>
    unfold EveryCall
    split
    · exact ihend h.1 hle hlt
    · rename_i hne
      have := s.size_advance_lt hne
      exact ih _ (h.2 _) (by omega) fun _ => by omega
  | call r next ih =>
    refine ⟨?_, fun v rest le _ => ih v (h.2 v) (by omega) fun ht => by have := hlt ht; omega⟩
    rcases h.1 with ht | hrank
    · exact .inl (hlt ht)
    · omega

/-- Steps see of a reader only what it answers to the calls that they make. -/
theorem run_congr {P : ∀ ⦃β : Type⦄, Routine β → Stream → Prop} {steps : Steps α} {s : Stream}
    (h : steps.EveryCall f P s) (hP : ∀ ⦃β : Type⦄ (r : Routine β) t, P r t → f r t = g r t) :
    steps.run f s = steps.run g s := by
  induction steps generalizing s with
  | done | refuse => rfl
  | look test yes no ihyes ihno =>
    unfold EveryCall at h
    unfold run
    split
    · exact ihyes (by rwa [if_pos ‹_›] at h)
    · exact ihno (by rwa [if_neg ‹_›] at h)
  | take atEnd next ihend ih =>
    unfold EveryCall at h
    unfold run Stream.withToken
    split
    · exact ihend (by rwa [if_pos ‹_›] at h)
    · rename_i hne
      rw [if_neg hne] at h
      exact congrArg (Reading.from_ · (Nat.le_of_lt (s.size_advance_lt hne))) (ih _ h)
  | call r next ih =>
    unfold run
    rw [← hP r s h.1]
    cases hf : f r s with
    | ok v rest le => exact congrArg (Reading.from_ · le) (ih v (h.2 v rest le hf))
    | failed rest le => rfl

end Steps

theorem guarded_body {α : Type} (r : Routine α) : r.body.Guarded r.rank false := by
  cases r with
  | operand t =>
    rw [Routine.body]
    split <;> simp [Steps.Guarded, Steps.accept, Steps.map, Steps.reject, Routine.rank]
  | operators level left =>
    refine ⟨⟨trivial, fun t => ?_⟩, trivial⟩
    dsimp only
    cases Level.ofKind t.kind with
    | assign => cases nameOf? left <;> simp [Steps.Guarded]
    | _ => simp [Steps.Guarded, Steps.accept, Steps.reject]
  | _ =>
    simp [Routine.body, Steps.Guarded, Steps.accept, Steps.map, Steps.reject, Routine.rank]

/-- The call of a routine on a stream comes below another one. -/
def Below {α β : Type} (r : Routine α) (s : Stream) (r' : Routine β) (s' : Stream) : Prop :=
  s'.size < s.size ∨ s'.size = s.size ∧ r'.rank < r.rank

theorem calls_below {α : Type} (f : Reader) (r : Routine α) (s : Stream) :
    r.body.EveryCall f (fun _ => Below r s) s :=
  Steps.everyCall_of_guarded (guarded_body r) (Nat.le_refl _) nofun

/-- The equations of the routines have one solution. -/
theorem eq_read_of_run {f : Reader}
    (h : ∀ ⦃α : Type⦄ (r : Routine α) (s : Stream), f r s = r.body.run f s) {α : Type}
    (r : Routine α) (s : Stream) : f r s = read r s := by
  rw [h, read_eq_run]
  exact Steps.run_congr (calls_below f r s) fun β r' s' hbelow => eq_read_of_run h r' s'
termination_by (s.size, r.rank)
decreasing_by exact Prod.lex_def.mpr hbelow

section Classes

variable {file : Text} {s t : Stream}

theorem classes_of_nil (h : s.words = []) : classes file s = ([], s) := by
  rw [classes, dif_pos h]

theorem classes_ok {c : Class} {le : t.size ≤ s.advance.size} (hne : s.words ≠ [])
    (h : classDecl file s.head s.advance = .ok c t le) :
    classes file s = (c :: (classes file t).1, (classes file t).2) := by
  rw [classes, dif_neg hne]
  simp only [h]

theorem classes_failed {le : t.size ≤ s.advance.size} (hne : s.words ≠ [])
    (h : classDecl file s.head s.advance = .failed t le) :
    classes file s = classes file (t.skipTo .class) := by
  rw [classes, dif_neg hne]
  simp only [h]

end Classes

/-- Every routine takes its steps, each of its calls is made on fewer tokens or by a routine of
higher rank, and nothing else than the grammar satisfies its equations.  Each round of the loop
over the classes and of the search for the next class has fewer tokens before it. -/
theorem reading_descends :
    (∀ ⦃α : Type⦄ (r : Routine α) (s : Stream), read r s = r.body.run read s ∧
      ∀ f : Reader, r.body.EveryCall f (fun _ => Below r s) s) ∧
    (∀ f : Reader, (∀ ⦃α : Type⦄ (r : Routine α) (s : Stream), f r s = r.body.run f s) →
      f = read) ∧
    (∀ file s, s.words ≠ [] → match read (.classDecl file s.head) s.advance with
      | .ok c rest _ => rest.size < s.size ∧
        classes file s = (c :: (classes file rest).1, (classes file rest).2)
      | .failed rest _ => (rest.skipTo .class).size < s.size ∧
        classes file s = classes file (rest.skipTo .class)) ∧
    ∀ (kind : Token.Kind) (s : Stream), s.words ≠ [] → s.head.kind ≠ kind →
      s.advance.size < s.size ∧ s.skipTo kind = s.advance.skipTo kind := by
  refine ⟨fun α r s => ⟨read_eq_run r s, fun f => calls_below f r s⟩, fun f hf => ?_, ?_, ?_⟩
  · funext α r s
    exact eq_read_of_run hf r s
  · intro file s hne
    have hlt := s.size_advance_lt hne
    rw [read]
    cases hread : classDecl file s.head s.advance with
    | ok c rest hle => exact ⟨by omega, classes_ok hne hread⟩
    | failed rest hle =>
      have hskip := Stream.size_skipTo_le .class rest
      exact ⟨by omega, classes_failed hne hread⟩
  · intro kind s hne hkind
    refine ⟨s.size_advance_lt hne, ?_⟩
    rw [Stream.skipTo, dif_neg hne, if_neg hkind]

end CoolCompiler.Grammar
