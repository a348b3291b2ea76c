import Mathlib.Data.List.Forall2
import CoolCompiler.Typing.Infer
import CoolCompiler.Proofs.Syntax.Induction

/-!
# Checked expressions

Inference that finds nothing wrong returns an expression whose static types are filled in and right.
-/

namespace CoolCompiler

open List

def Expr.opens : Expr → Bool
  | .letIn _ _ _ | .typeCase _ _ _ => true
  | _ => false

namespace Typing

namespace Check

variable {α β : Type}

@[simp] theorem bind_eq_ok_iff (x : Check α) (f : α → Check β) (b : β) :
    (x >>= f : Check β) = .ok (b, []) ↔ ∃ a, x = .ok (a, []) ∧ f a = .ok (b, []) := by
  show andThen x f = _ ↔ _
  unfold andThen
  rcases x with fault | ⟨a, found⟩
  · simp
  · cases hf : f a with
    | error fault => simp_all
    | ok r =>
      obtain ⟨b', more⟩ := r
      cases found <;> simp_all

@[simp] theorem pure_eq_ok_iff (a b : α) : (pure a : Check α) = .ok (b, []) ↔ b = a := by
  show Except.ok (a, []) = _ ↔ _
  simp [eq_comm]

@[simp] theorem done_eq_ok_iff (a b : α) : done a = .ok (b, []) ↔ b = a := pure_eq_ok_iff a b

@[simp] theorem complain_ne_ok (line : Int) (c : Complaint) (u : Unit) :
    complain line c ≠ .ok (u, []) := by
  simp [complain]

@[simp] theorem require_eq_ok_iff (ok : Bool) (line : Int) (c : Complaint) (u : Unit) :
    require ok line c = .ok (u, []) ↔ ok = true := by
  cases ok <;> simp [require, complain, done]

end Check

/-!
# The judgement
-/

inductive Operates : Operator → Name → Name → Name → Prop where
  | arithmetic {op : Operator} (h : op = .add ∨ op = .sub ∨ op = .mul ∨ op = .div) :
      Operates op Name.int Name.int Name.int
  | comparison {op : Operator} (h : op = .less ∨ op = .lessEq) :
      Operates op Name.int Name.int Name.bool
  | equality {l r : Name} (h : isPrimitive l = true ∨ isPrimitive r = true → l = r) :
      Operates .equal l r Name.bool

def Calls (ctx : Context) (receiver owner method : Name) (actuals : List Name) (result : Name) :
    Prop :=
  ∃ m, ctx.symbols.method? owner method = some m ∧
    List.Forall₂ (fun t f => ctx.conforms t f.type = true) actuals m.formals ∧
    result = if m.returns = Name.selfType then receiver else m.returns

/-- An expression whose types are filled in and right in the given scopes.  A let is judged one
binding at a time. -/
inductive Checked (ctx : Context) : Scopes → Expr → Prop where
  | omitted {Γ : Scopes} {m : Mark} (type : m.type = Name.noClass) : Checked ctx Γ (.omitted m)
  | int {Γ : Scopes} {m : Mark} {n : Int} (type : m.type = Name.int) : Checked ctx Γ (.int m n)
  | string {Γ : Scopes} {m : Mark} {s : Text} (type : m.type = Name.string) :
      Checked ctx Γ (.string m s)
  | bool {Γ : Scopes} {m : Mark} {b : Bool} (type : m.type = Name.bool) :
      Checked ctx Γ (.bool m b)
  | object {Γ : Scopes} {m : Mark} {x : Name} (type : typeOfVar? ctx Γ x = some m.type) :
      Checked ctx Γ (.object m x)
  | assign {Γ : Scopes} {m : Mark} {x : Identifier} {e : Expr} (value : Checked ctx Γ e)
      (notSelf : x.name ≠ Name.self) (target : typeOfVar? ctx Γ x.name = some x.mark.type)
      (fits : ctx.conforms e.type x.mark.type = true) (type : m.type = e.type) :
      Checked ctx Γ (.assign m x e)
  | dispatch {Γ : Scopes} {m : Mark} {e : Expr} {f : Name} {args : List Expr}
      (receiver : Checked ctx Γ e) (actuals : ∀ a ∈ args, Checked ctx Γ a)
      (call : Calls ctx e.type (Symbols.resolve e.type ctx.current) f (args.map Expr.type) m.type) :
      Checked ctx Γ (.dispatch m e none f args)
  | static {Γ : Scopes} {m : Mark} {e : Expr} {t f : Name} {args : List Expr}
      (receiver : Checked ctx Γ e) (actuals : ∀ a ∈ args, Checked ctx Γ a)
      (notSelfType : t ≠ Name.selfType) (isType : ctx.symbols.isType t = true)
      (fits : ctx.conforms e.type t = true)
      (call : Calls ctx e.type t f (args.map Expr.type) m.type) :
      Checked ctx Γ (.dispatch m e (some t) f args)
  | binary {Γ : Scopes} {m : Mark} {op : Operator} {l r : Expr} (left : Checked ctx Γ l)
      (right : Checked ctx Γ r) (type : Operates op l.type r.type m.type) :
      Checked ctx Γ (.binary m op l r)
  | negate {Γ : Scopes} {m : Mark} {e : Expr} (operand : Checked ctx Γ e)
      (isInt : e.type = Name.int) (type : m.type = Name.int) : Checked ctx Γ (.negate m e)
  | complement {Γ : Scopes} {m : Mark} {e : Expr} (operand : Checked ctx Γ e)
      (isBool : e.type = Name.bool) (type : m.type = Name.bool) : Checked ctx Γ (.complement m e)
  | isVoid {Γ : Scopes} {m : Mark} {e : Expr} (operand : Checked ctx Γ e)
      (type : m.type = Name.bool) : Checked ctx Γ (.isVoid m e)
  | new {Γ : Scopes} {m : Mark} {t : Name} (isType : ctx.symbols.isType t = true)
      (type : m.type = t) : Checked ctx Γ (.new m t)
  | cond {Γ : Scopes} {m : Mark} {c t f : Expr} (test : Checked ctx Γ c)
      (isBool : c.type = Name.bool) (thenBranch : Checked ctx Γ t) (elseBranch : Checked ctx Γ f)
      (type : m.type = ctx.symbols.leastUpperBound t.type f.type ctx.current) :
      Checked ctx Γ (.cond m c t f)
  | loop {Γ : Scopes} {m : Mark} {c b : Expr} (test : Checked ctx Γ c)
      (isBool : c.type = Name.bool) (body : Checked ctx Γ b) (type : m.type = Name.object) :
      Checked ctx Γ (.loop m c b)
  | block {Γ : Scopes} {m : Mark} {es : List Expr} (items : ∀ e ∈ es, Checked ctx Γ e)
      (type : m.type = (es.getLast?.map Expr.type).getD Name.object) : Checked ctx Γ (.block m es)
  | body {Γ : Scopes} {m : Mark} {e : Expr} (inside : Checked ctx Γ e) (type : m.type = e.type) :
      Checked ctx Γ (.letIn m [] e)
  | binding {Γ : Scopes} {m : Mark} {b : Declared Expr} {bs : List (Declared Expr)} {e : Expr}
      (notSelf : b.name ≠ Name.self) (isType : ctx.symbols.isType b.type = true)
      (init : Checked ctx Γ b.value)
      (fits : b.value.isOmitted = false → ctx.conforms b.value.type b.type = true)
      (inside : Checked ctx (Γ.enter.bind b.name b.type) (.letIn m bs e)) :
      Checked ctx Γ (.letIn m (b :: bs) e)
  | typeCase {Γ : Scopes} {m : Mark} {e : Expr} {bs : List (Declared Expr)}
      (scrutinee : Checked ctx Γ e) (notSelfType : ∀ b ∈ bs, b.type ≠ Name.selfType)
      (isType : ∀ b ∈ bs, ctx.symbols.isType b.type = true)
      (distinct : (bs.map Declared.type).Nodup)
      (branches : ∀ b ∈ bs, Checked ctx (Γ.enter.bind b.name b.type) b.value)
      (type : m.type = bs.foldl (fun t b => joinBranch ctx t b.value.type) []) :
      Checked ctx Γ (.typeCase m e bs)

/-!
# Inference
-/

variable {ctx : Context} {Γ : Scopes} {bs bs' : List (Declared Expr)} {line : Int}
  {f receiver t x : Name} {types : List Name} {e e' : Expr} {u : Unit}

theorem inferAll_eq_ok_iff {es es' : List Expr} :
    inferAll ctx Γ es = .ok (es', []) ↔
      List.Forall₂ (fun e e' => infer ctx Γ e = .ok (e', [])) es es' := by
  induction es generalizing es' with
  | nil => simp [inferAll]
  | cons e es ih => simp [inferAll, ih, forall₂_cons_left_iff]

theorem checkArguments_eq_ok_iff {formals : List Formal} (hlength : types.length = formals.length) :
    checkArguments ctx line f types formals = .ok (u, []) ↔
      List.Forall₂ (fun t f => ctx.conforms t f.type = true) types formals := by
  induction types generalizing formals with
  | nil =>
    cases formals with
    | nil => simp [checkArguments]
    | cons formal formals => cases hlength
  | cons t types ih =>
    cases formals with
    | nil => cases hlength
    | cons formal formals => simp [checkArguments, ih (Nat.succ.inj hlength)]

theorem callType_eq_ok_iff {owner : Name} :
    callType ctx line receiver owner f types = .ok (t, []) ↔
      Calls ctx receiver owner f types t := by
  unfold callType Calls
  cases hfound : ctx.symbols.method? owner f with
  | none => simp
  | some m =>
    simp only [Option.some.injEq, exists_eq_left']
    by_cases hlength : types.length = m.formals.length
    · simp only [hlength, if_true, Check.bind_eq_ok_iff, checkArguments_eq_ok_iff hlength,
        Check.pure_eq_ok_iff, exists_const]
    · simp only [hlength, if_false, Check.bind_eq_ok_iff, Check.complain_ne_ok, false_and,
        exists_false, false_iff]
      exact fun h => hlength h.1.length_eq

theorem binaryType_eq_ok_iff {op : Operator} {l r : Name} :
    binaryType line op l r = .ok (t, []) ↔ Operates op l r t := by
  constructor
  · intro h
    cases op <;> simp [binaryType] at h
    case add | sub | mul | div =>
      obtain ⟨⟨rfl, rfl⟩, rfl⟩ := h
      exact .arithmetic (by simp)
    case less | lessEq =>
      obtain ⟨⟨rfl, rfl⟩, rfl⟩ := h
      exact .comparison (by simp)
    case equal =>
      obtain ⟨h, rfl⟩ := h
      refine .equality fun hprimitive => ?_
      rcases h with ⟨hl, hr⟩ | h
      · simp [hl, hr] at hprimitive
      · exact h
  · intro h
    cases h with
    | arithmetic h => rcases h with rfl | rfl | rfl | rfl <;> simp [binaryType]
    | comparison h => rcases h with rfl | rfl <;> simp [binaryType]
    | equality h => cases hl : isPrimitive l <;> cases hr : isPrimitive r <;> simp_all [binaryType]

theorem dispatchType_none :
    dispatchType ctx line receiver none f types = .ok (t, []) ↔
      Calls ctx receiver (Symbols.resolve receiver ctx.current) f types t :=
  callType_eq_ok_iff

theorem dispatchType_some {target : Name} :
    dispatchType ctx line receiver (some target) f types = .ok (t, []) ↔
      target ≠ Name.selfType ∧ ctx.symbols.isType target = true ∧
        ctx.conforms receiver target = true ∧ Calls ctx receiver target f types t := by
  simp only [dispatchType]
  by_cases hself : target = Name.selfType
  · simp [hself]
  · cases htype : ctx.symbols.isType target with
    | false => simp
    | true =>
      cases hfits : ctx.conforms receiver target with
      | false => simp [hself]
      | true => simp [hself, callType_eq_ok_iff]

theorem lookup_eq_ok_iff : lookup ctx Γ x line = .ok (t, []) ↔ typeOfVar? ctx Γ x = some t := by
  unfold lookup
  cases typeOfVar? ctx Γ x with
  | none => simp
  | some type =>
    rw [Check.done_eq_ok_iff, Option.some.injEq]
    exact eq_comm

theorem assignTarget_eq_ok_iff {target target' : Identifier} :
    assignTarget ctx Γ line t target = .ok (target', []) ↔ target.name ≠ Name.self ∧
      ∃ declared, typeOfVar? ctx Γ target.name = some declared ∧
        ctx.conforms t declared = true ∧
        target' = ⟨{ target.mark with type := declared }, target.name⟩ := by
  unfold assignTarget
  by_cases hself : target.name = Name.self
  · simp [hself]
  · simp [hself, lookup_eq_ok_iff]

theorem bindingType_eq_ok_iff {type : Name} :
    bindingType ctx line x type = .ok (t, []) ↔
      x ≠ Name.self ∧ ctx.symbols.isType type = true ∧ t = type := by
  unfold bindingType
  cases htype : ctx.symbols.isType type with
  | false => simp
  | true => simp

theorem checkInit_eq_ok_iff {declared : Name} :
    checkInit ctx line x declared e = .ok (u, []) ↔
      (e.isOmitted = false → ctx.conforms e.type declared = true) := by
  cases e <;> simp [checkInit, Expr.isOmitted]

theorem checkBranch_eq_ok_iff {seen : List Name} {type : Name} :
    checkBranch ctx seen line x type = .ok (u, []) ↔
      type ≠ Name.selfType ∧ ctx.symbols.isType type = true ∧ type ∉ seen := by
  unfold checkBranch
  by_cases hself : type = Name.selfType
  · simp [hself]
  · cases htype : ctx.symbols.isType type with
    | false => simp [hself]
    | true =>
      by_cases hseen : type ∈ seen
      · simp [hself, hseen]
      · simp [hself, hseen]

theorem inferBindings_checked {inside : Scopes} {body : Expr} {m : Mark}
    (hbindings : inferBindings ctx Γ bs = .ok ((bs', inside), []))
    (ih : ∀ b ∈ bs, ∀ {Γ e'}, infer ctx Γ b.value = .ok (e', []) → Checked ctx Γ e')
    (hbody : Checked ctx inside body) (htype : m.type = body.type) :
    Checked ctx Γ (.letIn m bs' body) := by
  induction bs generalizing Γ bs' with
  | nil =>
    simp [inferBindings] at hbindings
    obtain ⟨rfl, rfl⟩ := hbindings
    exact .body hbody htype
  | cons b bs ihbs =>
    obtain ⟨line, x, type, e⟩ := b
    simp only [inferBindings, Check.bind_eq_ok_iff, Check.pure_eq_ok_iff, bindingType_eq_ok_iff,
      checkInit_eq_ok_iff] at hbindings
    rcases hbindings with ⟨_, ⟨hself, htype', rfl⟩, init, hinit, _, hfits, ⟨rest, inside'⟩, hrest,
      heq⟩
    cases heq
    exact .binding hself htype' (ih _ mem_cons_self hinit) hfits
      (ihbs hrest (fun b hb => ih b (mem_cons_of_mem _ hb)))

theorem inferBranches_eq_ok {seen : List Name} {result : Name}
    (h : inferBranches ctx Γ seen result bs = .ok ((bs', t), [])) :
    List.Forall₂ (fun b b' => b'.name = b.name ∧ b'.type = b.type ∧
      b.type ≠ Name.selfType ∧ ctx.symbols.isType b.type = true ∧
      infer ctx (Γ.enter.bind b.name b.type) b.value = .ok (b'.value, [])) bs bs' ∧
    (bs'.map Declared.type).Nodup ∧ (∀ b ∈ bs', b.type ∉ seen) ∧
    t = bs'.foldl (fun t b => joinBranch ctx t b.value.type) result := by
  induction bs generalizing seen result bs' with
  | nil =>
    simp only [inferBranches, Check.pure_eq_ok_iff, Prod.mk.injEq] at h
    obtain ⟨rfl, rfl⟩ := h
    simp
  | cons b bs ih =>
    obtain ⟨line, x, type, e⟩ := b
    simp only [inferBranches, Check.bind_eq_ok_iff, Check.pure_eq_ok_iff,
      checkBranch_eq_ok_iff] at h
    obtain ⟨_, ⟨hself, htype, hseen⟩, value, hvalue, ⟨rest, joined⟩, hrest, heq⟩ := h
    cases heq
    obtain ⟨hall, hnodup, hfresh, hjoined⟩ := ih hrest
    refine ⟨.cons ⟨rfl, rfl, hself, htype, hvalue⟩ hall, ?_, ?_, hjoined⟩
    · rw [map_cons, nodup_cons]
      refine ⟨?_, hnodup⟩
      intro hmem
      obtain ⟨b, hb, hbtype⟩ := mem_map.mp hmem
      exact hfresh b hb (hbtype ▸ mem_cons_self)
    · intro b hb
      rcases mem_cons.mp hb with rfl | hb
      · exact hseen
      · exact fun hmem => hfresh b hb (mem_cons_of_mem type hmem)

theorem map_eq_of_forall₂ {α β γ : Type} {R : α → β → Prop} {xs : List α} {ys : List β}
    {f : β → γ} {g : α → γ} (h : List.Forall₂ R xs ys) (hR : ∀ x y, R x y → f y = g x) :
    ys.map f = xs.map g := by
  induction h with
  | nil => rfl
  | cons hfirst _ ih => rw [map_cons, map_cons, hR _ _ hfirst, ih]

theorem forall_right_of_forall₂ {α β : Type} {R : α → β → Prop} {P : β → Prop} {l : List α}
    {l' : List β} (h : List.Forall₂ R l l') (hP : ∀ a ∈ l, ∀ b, R a b → P b) :
    ∀ b ∈ l', P b := by
  induction h with
  | nil => simp
  | cons hR _ ih =>
    intro b hb
    rcases mem_cons.mp hb with rfl | hb
    · exact hP _ mem_cons_self _ hR
    · exact ih (fun a ha => hP a (mem_cons_of_mem _ ha)) b hb

/-- What inference comes to if it finds nothing wrong: the parts are inferred and pass the checks of
the expression. -/
inductive Inferred (ctx : Context) (Γ : Scopes) : Expr → Expr → Prop where
  | omitted {m : Mark} : Inferred ctx Γ (.omitted m) (annotate (.omitted m) m Name.noClass)
  | int {m : Mark} {n : Int} : Inferred ctx Γ (.int m n) (annotate (.int m n) m Name.int)
  | string {m : Mark} {t : Text} :
      Inferred ctx Γ (.string m t) (annotate (.string m t) m Name.string)
  | bool {m : Mark} {b : Bool} : Inferred ctx Γ (.bool m b) (annotate (.bool m b) m Name.bool)
  | object {m : Mark} {x t : Name} (type : typeOfVar? ctx Γ x = some t) :
      Inferred ctx Γ (.object m x) (annotate (.object m x) m t)
  | assign {m m' : Mark} {x t : Name} {e e' : Expr} (value : infer ctx Γ e = .ok (e', []))
      (notSelf : x ≠ Name.self) (target : typeOfVar? ctx Γ x = some t)
      (fits : ctx.conforms e'.type t = true) : Inferred ctx Γ (.assign m ⟨m', x⟩ e)
        (annotate (.assign m ⟨{ m' with type := t }, x⟩ e') m e'.type)
  | dispatch {m : Mark} {e e' : Expr} {target : Option Name} {f t : Name} {args args' : List Expr}
      (receiver : infer ctx Γ e = .ok (e', []))
      (actuals : List.Forall₂ (fun a a' => infer ctx Γ a = .ok (a', [])) args args')
      (call : dispatchType ctx m.line e'.type target f (args'.map Expr.type) = .ok (t, [])) :
      Inferred ctx Γ (.dispatch m e target f args) (annotate (.dispatch m e' target f args') m t)
  | binary {m : Mark} {op : Operator} {l l' r r' : Expr} {t : Name}
      (left : infer ctx Γ l = .ok (l', [])) (right : infer ctx Γ r = .ok (r', []))
      (type : Operates op l'.type r'.type t) :
      Inferred ctx Γ (.binary m op l r) (annotate (.binary m op l' r') m t)
  | negate {m : Mark} {e e' : Expr} (operand : infer ctx Γ e = .ok (e', []))
      (isInt : e'.type = Name.int) :
      Inferred ctx Γ (.negate m e) (annotate (.negate m e') m Name.int)
  | complement {m : Mark} {e e' : Expr} (operand : infer ctx Γ e = .ok (e', []))
      (isBool : e'.type = Name.bool) :
      Inferred ctx Γ (.complement m e) (annotate (.complement m e') m Name.bool)
  | isVoid {m : Mark} {e e' : Expr} (operand : infer ctx Γ e = .ok (e', [])) :
      Inferred ctx Γ (.isVoid m e) (annotate (.isVoid m e') m Name.bool)
  | new {m : Mark} {t : Name} (isType : ctx.symbols.isType t = true) :
      Inferred ctx Γ (.new m t) (annotate (.new m t) m t)
  | cond {m : Mark} {c c' t t' f f' : Expr} (test : infer ctx Γ c = .ok (c', []))
      (isBool : c'.type = Name.bool) (thenBranch : infer ctx Γ t = .ok (t', []))
      (elseBranch : infer ctx Γ f = .ok (f', [])) :
      Inferred ctx Γ (.cond m c t f) (annotate (.cond m c' t' f') m
        (ctx.symbols.leastUpperBound t'.type f'.type ctx.current))
  | loop {m : Mark} {c c' e e' : Expr} (test : infer ctx Γ c = .ok (c', []))
      (isBool : c'.type = Name.bool) (body : infer ctx Γ e = .ok (e', [])) :
      Inferred ctx Γ (.loop m c e) (annotate (.loop m c' e') m Name.object)
  | block {m : Mark} {es es' : List Expr}
      (items : List.Forall₂ (fun e e' => infer ctx Γ e = .ok (e', [])) es es') :
      Inferred ctx Γ (.block m es)
        (annotate (.block m es') m ((es'.getLast?.map Expr.type).getD Name.object))
  | letIn {m : Mark} {bs bs' : List (Declared Expr)} {inside : Scopes} {e e' : Expr}
      (bindings : inferBindings ctx Γ bs = .ok ((bs', inside), []))
      (body : infer ctx inside e = .ok (e', [])) :
      Inferred ctx Γ (.letIn m bs e) (annotate (.letIn m bs' e') m e'.type)
  | typeCase {m : Mark} {bs bs' : List (Declared Expr)} {e e' : Expr} {t : Name}
      (scrutinee : infer ctx Γ e = .ok (e', []))
      (branches : inferBranches ctx Γ [] [] bs = .ok ((bs', t), [])) :
      Inferred ctx Γ (.typeCase m e bs) (annotate (.typeCase m e' bs') m t)

theorem infer_eq_ok_iff : infer ctx Γ e = .ok (e', []) ↔ Inferred ctx Γ e e' := by
  constructor
  · intro h
    cases e with
    | absent => simp [infer] at h
    | assign m x e =>
      simp only [infer, Check.bind_eq_ok_iff, Check.pure_eq_ok_iff, assignTarget_eq_ok_iff] at h
      obtain ⟨value, hvalue, _, ⟨hself, declared, hdeclared, hfits, rfl⟩, rfl⟩ := h
      exact .assign hvalue hself hdeclared hfits
    | new m t =>
      unfold infer at h
      split at h
      · rename_i htype
        rw [Check.pure_eq_ok_iff] at h
        subst h
        exact .new htype
      · simp at h
    | _ =>
      simp only [infer, Check.bind_eq_ok_iff, Check.pure_eq_ok_iff, Check.require_eq_ok_iff,
        lookup_eq_ok_iff, binaryType_eq_ok_iff, inferAll_eq_ok_iff, beq_iff_eq] at h
      grind [Inferred]
  · intro h
    cases h with
    | dispatch receiver actuals call =>
      simp only [infer, Check.bind_eq_ok_iff, Check.pure_eq_ok_iff, inferAll_eq_ok_iff]
      exact ⟨_, receiver, _, actuals, _, call, rfl⟩
    | binary left right type =>
      simp only [infer, Check.bind_eq_ok_iff, Check.pure_eq_ok_iff, binaryType_eq_ok_iff]
      exact ⟨_, left, _, right, _, type, rfl⟩
    | block items =>
      simp only [infer, Check.bind_eq_ok_iff, Check.pure_eq_ok_iff, inferAll_eq_ok_iff]
      exact ⟨_, items, rfl⟩
    | _ => simp_all [infer, lookup_eq_ok_iff, assignTarget_eq_ok_iff]

theorem infer_checked (h : infer ctx Γ e = .ok (e', [])) : Checked ctx Γ e' := by
  induction e generalizing Γ e' with
  | absent => cases infer_eq_ok_iff.mp h
  | omitted m =>
    cases infer_eq_ok_iff.mp h
    exact .omitted rfl
  | int m n =>
    cases infer_eq_ok_iff.mp h
    exact .int rfl
  | string m s =>
    cases infer_eq_ok_iff.mp h
    exact .string rfl
  | bool m b =>
    cases infer_eq_ok_iff.mp h
    exact .bool rfl
  | object m x =>
    cases infer_eq_ok_iff.mp h with
    | object type => exact .object type
  | assign m x e ih =>
    cases infer_eq_ok_iff.mp h with
    | assign value notSelf target fits => exact .assign (ih value) notSelf target fits rfl
  | dispatch m e t f args ih ihs =>
    cases infer_eq_ok_iff.mp h with
    | dispatch receiver actuals call =>
      have hargs := forall_right_of_forall₂ actuals (fun a ha a' ha' => ihs a ha ha')
      cases t with
      | none => exact .dispatch (ih receiver) hargs (dispatchType_none.mp call)
      | some t =>
        obtain ⟨hself, hist, hfits, hcall⟩ := dispatchType_some.mp call
        exact .static (ih receiver) hargs hself hist hfits hcall
  | binary m op l r ihl ihr =>
    cases infer_eq_ok_iff.mp h with
    | binary left right type => exact .binary (ihl left) (ihr right) type
  | negate m e ih =>
    cases infer_eq_ok_iff.mp h with
    | negate operand isInt => exact .negate (ih operand) isInt rfl
  | complement m e ih =>
    cases infer_eq_ok_iff.mp h with
    | complement operand isBool => exact .complement (ih operand) isBool rfl
  | isVoid m e ih =>
    cases infer_eq_ok_iff.mp h with
    | isVoid operand => exact .isVoid (ih operand) rfl
  | new m t =>
    cases infer_eq_ok_iff.mp h with
    | new isType => exact .new isType rfl
  | cond m c t f ihc iht ihf =>
    cases infer_eq_ok_iff.mp h with
    | cond test isBool thenBranch elseBranch =>
      exact .cond (ihc test) isBool (iht thenBranch) (ihf elseBranch) rfl
  | loop m c b ihc ihb =>
    cases infer_eq_ok_iff.mp h with
    | loop test isBool body => exact .loop (ihc test) isBool (ihb body) rfl
  | block m es ihs =>
    cases infer_eq_ok_iff.mp h with
    | block items =>
      exact .block (forall_right_of_forall₂ items (fun a ha a' ha' => ihs a ha ha')) rfl
  | letIn m bs e ihs ih =>
    cases infer_eq_ok_iff.mp h with
    | letIn bindings body => exact inferBindings_checked bindings ihs (ih body) rfl
  | typeCase m e bs ih ihs =>
    cases infer_eq_ok_iff.mp h with
    | typeCase scrutinee branches =>
      obtain ⟨hall, hnodup, _, hjoined⟩ := inferBranches_eq_ok branches
      refine .typeCase (ih scrutinee) ?_ ?_ hnodup ?_ hjoined
      · refine forall_right_of_forall₂ hall ?_
        rintro b _ b' ⟨_, htype, hself, _⟩
        exact htype ▸ hself
      · refine forall_right_of_forall₂ hall ?_
        rintro b _ b' ⟨_, htype, _, hist, _⟩
        exact htype ▸ hist
      · refine forall_right_of_forall₂ hall ?_
        rintro b hb b' ⟨hname, htype, _, _, hvalue⟩
        rw [hname, htype]
        exact ihs b hb hvalue

/-!
# Shape

Inference keeps the shape of an expression: the parts of what it returns are what it
returns for the parts.
-/

theorem inferBindings_parts {inside : Scopes}
    (h : inferBindings ctx Γ bs = .ok ((bs', inside), [])) :
    List.Forall₂ (fun b b' => ∃ Γ', infer ctx Γ' b.value = .ok (b'.value, [])) bs bs' := by
  induction bs generalizing Γ bs' with
  | nil =>
    simp only [inferBindings, Check.pure_eq_ok_iff, Prod.mk.injEq] at h
    rw [h.1]
    exact .nil
  | cons b bs ih =>
    obtain ⟨line, x, type, e⟩ := b
    simp only [inferBindings, Check.bind_eq_ok_iff, Check.pure_eq_ok_iff] at h
    obtain ⟨_, _, init, hinit, _, _, ⟨rest, inside'⟩, hrest, heq⟩ := h
    cases heq
    exact .cons ⟨Γ, hinit⟩ (ih hrest)

theorem infer_plain (h : infer ctx Γ e = .ok (e', [])) (he : e.opens = false) :
    List.Forall₂ (fun a a' => infer ctx Γ a = .ok (a', [])) e.parts e'.parts := by
  cases infer_eq_ok_iff.mp h with
  | omitted | int | string | bool | object | new => exact .nil
  | assign value => exact .cons value .nil
  | dispatch receiver actuals => exact rel_append actuals (.cons receiver .nil)
  | binary left right => exact .cons left (.cons right .nil)
  | negate operand | complement operand | isVoid operand => exact .cons operand .nil
  | cond test _ thenBranch elseBranch =>
    exact .cons test (.cons thenBranch (.cons elseBranch .nil))
  | loop test _ body => exact .cons test (.cons body .nil)
  | block items => exact items
  | letIn | typeCase => cases he

theorem infer_parts (h : infer ctx Γ e = .ok (e', [])) :
    List.Forall₂ (fun a a' => ∃ Γ', infer ctx Γ' a = .ok (a', [])) e.parts e'.parts ∧
      (e.HasBranches → e'.HasBranches) ∧ e'.isOmitted = e.isOmitted ∧ e'.optional = e.optional := by
  cases infer_eq_ok_iff.mp h with
  | @letIn _ _ _ inside _ _ bindings body =>
    have hall := inferBindings_parts bindings
    refine ⟨rel_append ?_ (.cons ⟨inside, body⟩ .nil), fun _ => trivial, rfl,
      hall.length_eq.symm⟩
    rw [forall₂_map_left_iff, forall₂_map_right_iff]
    exact hall
  | typeCase scrutinee branches =>
    have hall := (inferBranches_eq_ok branches).1
    refine ⟨.cons ⟨Γ, scrutinee⟩ ?_, ?_, rfl, rfl⟩
    · rw [forall₂_map_left_iff, forall₂_map_right_iff]
      exact hall.imp (fun _ _ h => ⟨_, h.2.2.2.2⟩)
    · intro hbs hnil
      subst hnil
      cases hall
      exact hbs rfl
  | _ => exact ⟨(infer_plain h rfl).imp fun _ _ h => ⟨Γ, h⟩, fun _ => trivial, rfl, rfl⟩

theorem infer_casesFilled (h : infer ctx Γ e = .ok (e', [])) (he : e.CasesFilled) :
    e'.CasesFilled := by
  induction he generalizing Γ e' with
  | intro here inside ih =>
    refine .intro ((infer_parts h).2.1 here) ?_
    refine forall_right_of_forall₂ (infer_parts h).1 ?_
    rintro a ha a' ⟨Γ', ha'⟩
    exact ih a ha ha'

theorem infer_entire (h : infer ctx Γ e = .ok (e', [])) (he : e.Entire) : e'.Entire := by
  induction he generalizing Γ e' with
  | intro here inside ih =>
    obtain ⟨hparts, _, _, hoptional⟩ := infer_parts h
    refine .intro ?_ ?_
    · rw [Expr.required, hoptional]
      refine forall_right_of_forall₂ (forall₂_drop _ hparts) ?_
      rintro a ha a' ⟨Γ', ha'⟩
      rw [(infer_parts ha').2.2.1]
      exact here a ha
    · refine forall_right_of_forall₂ hparts ?_
      rintro a ha a' ⟨Γ', ha'⟩
      exact ih a ha ha'

end Typing
end CoolCompiler
