import CoolCompiler.Proofs.Emit.Inherited

/-!
# Static types

Every expression of an accepted program has a static type that is `SELF_TYPE` or a class, unless it
is an initialiser left out, and the static class of every receiver has the method that is called.
-/

namespace CoolCompiler

open List Symbols

namespace Expr

/-- The static type of an expression and, of an assignment, that of the name it assigns to. -/
def staticTypes : Expr → List Name
  | .assign m x _ => [m.type, x.mark.type]
  | e => [e.type]

theorem type_mem_staticTypes (e : Expr) : e.type ∈ e.staticTypes := by
  cases e <;> exact mem_cons_self

end Expr

namespace Scopes

theorem find?_bind (Γ : Scopes) (x t y : Name) :
    (Γ.bind x t).find? y = if y = x then some t else Γ.find? y := by
  obtain ⟨inner, outermost⟩ := Γ
  by_cases hy : y = x
  · cases inner <;> simp [bind, find?, Dictionary.find?_put, hy]
  · cases inner <;> simp [bind, find?, findSome?_cons, Dictionary.find?_put, hy]

def Grounded (s : Symbols) (Γ : Scopes) : Prop :=
  ∀ x t, Γ.find? x = some t → s.isType t = true

variable {s : Symbols} {Γ : Scopes}

theorem grounded_empty (s : Symbols) : empty.Grounded s := by
  intro x t h
  cases h

theorem Grounded.enter (h : Γ.Grounded s) : Γ.enter.Grounded s := h

theorem Grounded.bind (h : Γ.Grounded s) {x t : Name} (ht : s.isType t = true) :
    (Γ.bind x t).Grounded s := by
  intro y u hu
  rw [find?_bind] at hu
  split at hu
  · cases hu
    exact ht
  · exact h y u hu

theorem Grounded.formalScopes (h : Γ.Grounded s) {fs : List Formal}
    (hfs : ∀ f ∈ fs, s.isType f.type = true) : (Typing.formalScopes Γ fs).Grounded s := by
  have hfold : ∀ Γ : Scopes, Γ.Grounded s →
      (fs.foldl (fun Γ f => Γ.bind f.name f.type) Γ).Grounded s := by
    induction fs with
    | nil => exact fun Γ h => h
    | cons f fs ih =>
      intro Γ h
      rw [forall_mem_cons] at hfs
      exact ih hfs.2 _ (h.bind hfs.1)
  exact hfold Γ.enter h.enter

end Scopes

namespace Typing

/-!
# Types of checked expressions
-/

structure Grounded (ctx : Context) : Prop where
  basic : ∀ t ∈ [Name.object, Name.int, Name.bool, Name.string], ctx.symbols.isType t = true
  above : ∀ {t u : Name}, ctx.symbols.isType t = true →
    u ∈ ctx.symbols.ancestors (resolve t ctx.current) → ctx.symbols.isType u = true
  methods : ∀ {c f : Name} {m : MethodSymbol}, ctx.symbols.method? c f = some m →
    ctx.symbols.isType m.returns = true
  attributes : ∀ {x : Name} {a : AttributeSymbol},
    ctx.symbols.attribute? ctx.current x = some a → ctx.symbols.isType a.type = true

namespace Grounded

variable {ctx : Context} {Γ : Scopes}

variable (h : Grounded ctx)
include h

theorem isType_typeOfVar? (hΓ : Γ.Grounded ctx.symbols) {x t : Name}
    (ht : typeOfVar? ctx Γ x = some t) : ctx.symbols.isType t = true := by
  unfold typeOfVar? at ht
  split at ht
  · cases ht
    rfl
  · split at ht
    · rename_i type hfound
      cases ht
      exact hΓ x t hfound
    · obtain ⟨a, ha, rfl⟩ := Option.map_eq_some_iff.mp ht
      exact h.attributes ha

theorem isType_calls {receiver owner f result : Name} {actuals : List Name}
    (hreceiver : ctx.symbols.isType receiver = true)
    (hcalls : Calls ctx receiver owner f actuals result) : ctx.symbols.isType result = true := by
  obtain ⟨m, hm, _, rfl⟩ := hcalls
  split
  · exact hreceiver
  · exact h.methods hm

theorem isType_operates {op : Operator} {l r t : Name} (ht : Operates op l r t) :
    ctx.symbols.isType t = true := by
  cases ht with
  | arithmetic => exact h.basic _ (by simp)
  | comparison | equality => exact h.basic _ (by simp)

theorem isType_leastUpperBound (t1 : Name) {t2 : Name} (h2 : ctx.symbols.isType t2 = true) :
    ctx.symbols.isType (ctx.symbols.leastUpperBound t1 t2 ctx.current) = true := by
  unfold leastUpperBound
  split
  · rfl
  · simp only
    cases hfind : (ctx.symbols.ancestors (resolve t2 ctx.current)).find?
        (ctx.symbols.ancestors (resolve t1 ctx.current)).contains with
    | none => exact h.basic _ (by simp)
    | some u => exact h.above h2 (mem_of_find?_eq_some hfind)

theorem isType_branches {bs : List (Declared Expr)} (hne : bs ≠ [])
    (hbs : ∀ b ∈ bs, ctx.symbols.isType b.value.type = true) (result : Name) :
    ctx.symbols.isType (bs.foldl (fun t b => joinBranch ctx t b.value.type) result) = true := by
  have hjoin : ∀ (t : Name) {u : Name}, ctx.symbols.isType u = true →
      ctx.symbols.isType (joinBranch ctx t u) = true := by
    intro t u hu
    unfold joinBranch
    split
    · exact hu
    · exact h.isType_leastUpperBound t hu
  induction bs generalizing result with
  | nil => exact absurd rfl hne
  | cons b bs ih =>
    rw [forall_mem_cons] at hbs
    rw [foldl_cons]
    cases bs with
    | nil => exact hjoin result hbs.1
    | cons b' bs => exact ih (cons_ne_nil b' bs) hbs.2 _

end Grounded

def Annotated (s : Symbols) (e : Expr) : Prop :=
  e.isOmitted = false → ∀ type ∈ e.staticTypes, s.isType type = true

theorem annotated_of_type {s : Symbols} {e : Expr} {t : Name} (htype : e.type = t)
    (ht : s.isType t = true) (hparts : ∀ a ∈ e.parts, a.Everywhere (Annotated s))
    (hone : e.staticTypes = [e.type] := by rfl) : e.Everywhere (Annotated s) := by
  refine .intro (fun _ => ?_) hparts
  rw [hone, forall_mem_singleton, htype]
  exact ht

theorem isType_of_required {s : Symbols} {a e : Expr} (hentire : e.Entire) (ha : a ∈ e.required)
    (hannotated : a.Everywhere (Annotated s)) : s.isType a.type = true :=
  (Expr.everywhere_iff.mp hannotated).1 ((Expr.entire_iff.mp hentire).1 a ha) _
    a.type_mem_staticTypes

structure Whole (e : Expr) : Prop where
  entire : e.Entire
  filled : e.CasesFilled

theorem Whole.part {a e : Expr} (h : Whole e) (ha : a ∈ e.parts) : Whole a where
  entire := (Expr.entire_iff.mp h.entire).2 a ha
  filled := (Expr.casesFilled_iff.mp h.filled).2 a ha

theorem Whole.inside {m : Mark} {b : Declared Expr} {bs : List (Declared Expr)} {e : Expr}
    (h : Whole (.letIn m (b :: bs) e)) : Whole (.letIn m bs e) where
  entire := by
    have hbody := (Expr.entire_iff.mp h.entire).1
    rw [Expr.required_letIn] at hbody
    refine Expr.entire_iff.mpr ⟨?_, fun a ha => (h.part (mem_cons_of_mem _ ha)).entire⟩
    rwa [Expr.required_letIn]
  filled := Expr.casesFilled_iff.mpr
    ⟨trivial, fun _ ha => (h.part (mem_cons_of_mem _ ha)).filled⟩

theorem Grounded.annotated {ctx : Context} (h : Grounded ctx) {Γ : Scopes} {e : Expr}
    (he : Checked ctx Γ e) (hΓ : Γ.Grounded ctx.symbols) (hwhole : Whole e) :
    e.Everywhere (Annotated ctx.symbols) := by
  induction he with
  | omitted type => exact .intro (fun hgiven => by cases hgiven) (forall_mem_nil _)
  | int type | string type | bool type =>
    exact annotated_of_type type (h.basic _ (by simp)) (forall_mem_nil _)
  | object type =>
    exact annotated_of_type rfl (h.isType_typeOfVar? hΓ type) (forall_mem_nil _)
  | new isType type => exact annotated_of_type type isType (forall_mem_nil _)
  | @assign _ _ _ e _ _ target _ type ih =>
    have hmem : e ∈ [e] := mem_singleton_self e
    have hvalue := ih hΓ (hwhole.part hmem)
    have htype := isType_of_required hwhole.entire hmem hvalue
    exact .intro (fun _ => forall_mem_cons.mpr ⟨type ▸ htype,
      forall_mem_singleton.mpr (h.isType_typeOfVar? hΓ target)⟩) (forall_mem_singleton.mpr hvalue)
  | @dispatch _ _ e _ args _ _ call ih ihs | @static _ _ e _ _ args _ _ _ _ _ call ih ihs =>
    have hmem : e ∈ args ++ [e] := mem_append_right args (mem_singleton_self e)
    have hreceiver := ih hΓ (hwhole.part hmem)
    have hargs := fun a ha => ihs a ha hΓ (hwhole.part (mem_append_left [e] ha))
    refine annotated_of_type rfl ?_
      (forall_mem_append.mpr ⟨hargs, forall_mem_singleton.mpr hreceiver⟩)
    exact h.isType_calls (isType_of_required hwhole.entire hmem hreceiver) call
  | @binary _ _ _ l r _ _ type ihl ihr =>
    have hleft := ihl hΓ (hwhole.part mem_cons_self)
    have hright := ihr hΓ (hwhole.part (mem_cons_of_mem l (mem_singleton_self r)))
    exact annotated_of_type rfl (h.isType_operates type)
      (forall_mem_cons.mpr ⟨hleft, forall_mem_singleton.mpr hright⟩)
  | @negate _ _ e _ _ type ih | @complement _ _ e _ _ type ih | @isVoid _ _ e _ type ih =>
    have hoperand := ih hΓ (hwhole.part (mem_singleton_self e))
    exact annotated_of_type type (h.basic _ (by simp)) (forall_mem_singleton.mpr hoperand)
  | @cond _ _ c t f _ _ _ _ type ihc iht ihf =>
    have hmem : f ∈ [c, t, f] := by simp
    have htest := ihc hΓ (hwhole.part mem_cons_self)
    have hthen := iht hΓ (hwhole.part (mem_cons_of_mem c mem_cons_self))
    have helse := ihf hΓ (hwhole.part hmem)
    refine annotated_of_type type (h.isType_leastUpperBound _ ?_)
      (forall_mem_cons.mpr ⟨htest, forall_mem_cons.mpr
        ⟨hthen, forall_mem_singleton.mpr helse⟩⟩)
    exact isType_of_required hwhole.entire hmem helse
  | @loop _ _ c b _ _ _ type ihc ihb =>
    have htest := ihc hΓ (hwhole.part mem_cons_self)
    have hbody := ihb hΓ (hwhole.part (mem_cons_of_mem c (mem_singleton_self b)))
    exact annotated_of_type type (h.basic _ (by simp))
      (forall_mem_cons.mpr ⟨htest, forall_mem_singleton.mpr hbody⟩)
  | @block _ _ es _ type ihs =>
    have hitems := fun e he => ihs e he hΓ (hwhole.part he)
    refine annotated_of_type type ?_ hitems
    cases hlast : es.getLast? with
    | none => exact h.basic _ (by simp)
    | some e =>
      have hmem := mem_of_getLast? hlast
      exact isType_of_required hwhole.entire hmem (hitems e hmem)
  | @body _ _ e _ type ih =>
    have hmem : e ∈ [e] := mem_singleton_self e
    have hinside := ih hΓ (hwhole.part hmem)
    exact annotated_of_type type (isType_of_required hwhole.entire hmem hinside)
      (forall_mem_singleton.mpr hinside)
  | binding _ isType _ _ _ ihinit ihinside =>
    -- the let without its first binding has the same body and the same type
    have hinit := ihinit hΓ (hwhole.part mem_cons_self)
    have hinside := Expr.everywhere_iff.mp (ihinside (hΓ.enter.bind isType) hwhole.inside)
    exact .intro hinside.1 (forall_mem_cons.mpr ⟨hinit, hinside.2⟩)
  | @typeCase _ _ e bs _ _ isType _ _ type ih ihs =>
    have hscrutinee := ih hΓ (hwhole.part mem_cons_self)
    have hmem : ∀ b ∈ bs, b.value ∈ e :: bs.map Declared.value :=
      fun b hb => mem_cons_of_mem e (mem_map_of_mem hb)
    have hbranches := fun b hb =>
      ihs b hb (hΓ.enter.bind (isType b hb)) (hwhole.part (hmem b hb))
    refine annotated_of_type type (h.isType_branches ?_ ?_ [])
      (forall_mem_cons.mpr ⟨hscrutinee, forall_mem_map.mpr hbranches⟩)
    · exact (Expr.casesFilled_iff.mp hwhole.filled).1
    · exact fun b hb => isType_of_required hwhole.entire (hmem b hb) (hbranches b hb)

theorem ClassChecked.entire {s : Symbols} {c c' : Class} (h : ClassChecked s c c')
    (hentire : ∀ f ∈ c.features, f.expr.Entire) : ∀ f ∈ c'.features, f.expr.Entire := by
  have hattributes : ∀ a' ∈ c'.attributes, a'.init.Entire := by
    refine forall_right_of_forall₂ h.attributes ?_
    rintro a ha a' ⟨init, rfl, hinit⟩
    obtain ⟨f, hf, hfa⟩ := mem_filterMap.mp ha
    have hsource : a.init.Entire := by
      cases f with
      | attr b =>
        cases hfa
        exact hentire _ hf
      | method m => cases hfa
    rcases hinit with ⟨_, rfl⟩ | hinfer
    · exact hsource
    · exact infer_entire hinfer hsource
  have hmethods : ∀ m' ∈ c'.methods, m'.body.Entire := by
    refine forall_right_of_forall₂ h.methods ?_
    rintro m hm m' ⟨body, rfl, hinfer, _⟩
    obtain ⟨f, hf, hfm⟩ := mem_filterMap.mp hm
    cases f with
    | attr a => cases hfm
    | method b =>
      cases hfm
      exact infer_entire hinfer (hentire _ hf)
  intro f hf
  cases f with
  | attr a => exact hattributes a (mem_filterMap.mpr ⟨_, hf, rfl⟩)
  | method m => exact hmethods m (mem_filterMap.mpr ⟨_, hf, rfl⟩)

end Typing

/-!
# Classes of the table
-/

/-- The static class of a receiver, inside `current`, is in the table, and a class on its chain
declares the method. -/
def ClassTable.ReceiverDeclares (t : ClassTable) (current : Name) : Expr → Prop
  | .dispatch _ receiver _ f _ =>
    ∃ n ∈ t.nodes, n.name = resolve receiver.type current ∧
      ∃ d ∈ t.chain n, d.decl.declaresMethod f = true
  | _ => True

namespace Emit
namespace Compilable

open Typing ClassTable

variable {q : Program} {s : Symbols} {parents : List (Option Nat)} {t : ClassTable}
  {n : ClassNode}

variable (h : Compilable q s parents t)
include h

theorem isType_iff {x : Name} : s.isType x = true ↔ x = Name.selfType ∨ x ∈ classNames q := by
  rw [Symbols.isType, Bool.or_eq_true, beq_iff_eq, h.collected.graph.classes]

variable (hsigned : ∀ c ∈ Class.builtin ++ q, Signed s c)
include hsigned

theorem exists_declaration {c f : Name} {found : MethodSymbol}
    (hfound : s.method? c f = some found) :
    ∃ n ∈ t.nodes, n.name = c ∧ ∃ d ∈ t.chain n, d.decl.declaresMethod f = true ∧
      ∃ m ∈ d.decl.methods, found.returns = m.returns := by
  obtain ⟨n, hn, rfl⟩ := h.exists_node (h.mem_classNames_of_found hfound)
  rw [method?, h.ancestors_eq hn] at hfound
  rcases h.findSome?_method hsigned (fun _ => Built.mem_nodes_of_mem_chain t) f with
    ⟨_, hnone⟩ | ⟨d, m, builtin, hd, hm, _, hmethod⟩
  · rw [hnone] at hfound
    cases hfound
  · rw [hmethod] at hfound
    cases hfound
    have hdeclares := find?_some (p := fun a : ClassNode => a.decl.declaresMethod f) hd
    exact ⟨n, hn, rfl, d, mem_of_find?_eq_some hd, hdeclares, m, hm, rfl⟩

theorem attribute_isType (hn : n ∈ t.nodes) (huser : n.decl ∈ q) {x : Name}
    {found : AttributeSymbol} (hfound : s.attribute? n.name x = some found) :
    s.isType found.type = true := by
  obtain ⟨d, hd, a, ha, _, rfl⟩ := h.attribute?_declared hsigned hn hfound
  have hdn := Built.mem_nodes_of_mem_chain t hd
  rcases h.decl_cases hdn with ⟨hbasic, hbuiltin⟩ | ⟨_, hq⟩
  · have hbare : ∀ c ∈ Class.builtin, Name.isInheritable c.name = true → c.attributes = [] := by
      decide
    have hmem : d.name ∈ s.ancestors n.name := by
      rw [h.ancestors_eq hn]
      exact mem_map_of_mem hd
    rcases h.collected.graph.inheritable_of_ancestor hmem with hsame | hinheritable
    · rw [h.built.eq_of_name_eq hdn hn hsame, ClassNode.isBasic, ClassNode.name,
        h.collected.graph.notBasic huser] at hbasic
      cases hbasic
    · rw [hbare _ hbuiltin hinheritable] at ha
      cases ha
  · exact h.isType_iff.mpr ((h.collected.attributed _ hq).isType a ha)

theorem grounded {c : Class} (hc : c ∈ q) :
    Grounded ⟨s, c.name⟩ where
  basic := by
    intro x hx
    refine h.isType_iff.mpr (.inr ?_)
    have hbuiltin : ∀ x ∈ [Name.object, Name.int, Name.bool, Name.string],
        x ∈ Class.builtin.map Class.name := by decide
    rw [classNames, map_append]
    exact mem_append_left _ (hbuiltin x hx)
  above := by
    intro x u hx hu
    have hclass : resolve x c.name ∈ classNames q := by
      unfold resolve
      split
      · exact mem_map_of_mem (mem_append_right _ hc)
      · rename_i hself
        exact (h.isType_iff.mp hx).resolve_left hself
    obtain ⟨n, hn, hname⟩ := h.exists_node hclass
    rw [← hname, h.ancestors_eq hn] at hu
    obtain ⟨d, hd, rfl⟩ := mem_map.mp hu
    exact h.isType_iff.mpr (.inr (mem_map_of_mem
      (h.decl_mem (Built.mem_nodes_of_mem_chain t hd))))
  methods := by
    intro k f m hm
    obtain ⟨n, hn, _, d, hd, _, method, hmethod, hreturns⟩ := h.exists_declaration hsigned hm
    rw [hreturns]
    exact (hsigned _ (h.decl_mem (Built.mem_nodes_of_mem_chain t hd))).returns method hmethod
  attributes := by
    intro x a ha
    obtain ⟨n, hn, hname⟩ := h.exists_node (mem_map_of_mem (mem_append_right _ hc))
    have hdecl : n.decl = c := h.collected.graph.eq_of_name (h.decl_mem hn)
      (mem_append_right _ hc) hname
    exact h.attribute_isType hsigned hn (hdecl ▸ hc) (hname ▸ ha)

theorem receiverDeclares {current : Name} {Γ : Scopes} {e : Expr} (he : Checked ⟨s, current⟩ Γ e) :
    e.Everywhere (t.ReceiverDeclares current) := by
  refine he.everywhere ?_
  intro Γ e he
  cases he with
  | dispatch _ _ call =>
    obtain ⟨m, hm, _⟩ := call
    obtain ⟨n, hn, hname, d, hd, hdeclares, _⟩ := h.exists_declaration hsigned hm
    exact ⟨n, hn, hname, d, hd, hdeclares⟩
  | static _ _ notSelfType _ fits call =>
    -- The receiver is below the class that is named, so it has the method too.
    obtain ⟨m, hm, _⟩ := call
    unfold Context.conforms conforms at fits
    rw [if_neg notSelfType, contains_iff_mem] at fits
    obtain ⟨own, hown, _⟩ := (h.coherent hsigned).methods fits hm
    obtain ⟨n, hn, hname, d, hd, hdeclares, _⟩ := h.exists_declaration hsigned hown
    exact ⟨n, hn, hname, d, hd, hdeclares⟩
  | _ => trivial

end Compilable
end Emit

/-!
# Accepted programs
-/

/-- Of a program that was read from any sources and accepted by a fresh analysis, every
expression that is not left out, and every name that is assigned to, has a static type that is
`SELF_TYPE` or the name of a class, and the static class of every receiver has the method that is
called, declared by a class on its chain. -/
theorem Analysis.static_types_real (sources : List (Text × Text)) (o : Analysis.Outcome)
    (haccepted : Analysis.fresh.run
      (sources.flatMap fun source => (Grammar.parse source.1 source.2).classes) = .ok o)
    (hclean : o.analysis.diagnostics = []) :
    ∃ t, ClassTable.build o.program = .ok t ∧
      ∀ c ∈ o.program, ∀ f ∈ c.features,
        f.expr.Everywhere (fun e => e.isOmitted = false → ∀ type ∈ e.staticTypes,
          type = Name.selfType ∨ ∃ d ∈ Class.builtin ++ o.program, d.name = type) ∧
        f.expr.Everywhere (t.ReceiverDeclares c.name) := by
  rcases Analysis.exists_compilable haccepted hclean with
    ⟨parents, t, hcompilable, hbuild, hprogram, hsigned, -⟩
  refine ⟨t, hbuild, ?_⟩
  intro c hc f hf
  rcases hprogram.exists_source hc with ⟨source, hsource, hchecked⟩
  have hentire := hchecked.entire (Grammar.entire_of_sources hsource) f hf
  have hgrounded := hcompilable.grounded hsigned hc
  have hfilled := hcompilable.filled c hc
  have hreal : ∀ e, Typing.Annotated o.analysis.symbols e → e.isOmitted = false →
      ∀ type ∈ e.staticTypes,
        type = Name.selfType ∨ ∃ d ∈ Class.builtin ++ o.program, d.name = type := by
    intro e he hgiven type htype
    exact (hcompilable.isType_iff.mp (he hgiven type htype)).imp id mem_map.mp
  cases f with
  | attr a =>
    have ha : a ∈ c.attributes := mem_filterMap.mpr ⟨_, hf, rfl⟩
    change Expr.Everywhere _ a.init ∧ Expr.Everywhere _ a.init
    rcases (hcompilable.typed c hc).attributes a ha with homitted | hinit
    · exact ⟨.of_omitted homitted (fun _ hgiven => by cases hgiven),
        .of_omitted homitted fun _ => trivial⟩
    · have hwhole : Typing.Whole a.init := ⟨hentire, hfilled.attributes a ha⟩
      exact ⟨(hgrounded.annotated hinit (Scopes.grounded_empty _) hwhole).imp hreal,
        hcompilable.receiverDeclares hsigned hinit⟩
  | method m =>
    have hm : m ∈ c.methods := mem_filterMap.mpr ⟨_, hf, rfl⟩
    have hbody := (hcompilable.typed c hc).methods m hm
    have htypes := (hsigned c (mem_append_right _ hc)).formalTypes m hm
    have hwhole : Typing.Whole m.body := ⟨hentire, hfilled.methods m hm⟩
    exact ⟨(hgrounded.annotated hbody ((Scopes.grounded_empty _).formalScopes htypes)
        hwhole).imp hreal, hcompilable.receiverDeclares hsigned hbody⟩

def distantSources : List (Text × Text) :=
  [("main.cl", "class Main inherits B {
  x : Object <- case self of m : Main => new C; o : A => o; esac;
  main() : Object { f(let y : Int in y) }; };"),
   ("a.cl", "class B inherits A { }; class C inherits A { };
class A { f(x : Int) : SELF_TYPE { self }; };")]

def callsOnSelf : Expr → Bool
  | .dispatch mark receiver none method _ =>
    mark.type == Name.selfType && receiver.type == Name.selfType && method == "f"
  | _ => false

theorem Analysis.static_types_real_distant : ∃ o t n d,
    Analysis.fresh.run (distantSources.flatMap fun source =>
      (Grammar.parse source.1 source.2).classes) = .ok o ∧
    o.analysis.diagnostics = [] ∧ ClassTable.build o.program = .ok t ∧
    n ∈ t.nodes ∧ n.name = "Main" ∧ d ∈ t.chain n ∧ d.decl.declaresMethod "f" = true := by
  have hcheck : (acceptedBy distantSources fun o =>
        o.program.any fun c => c.name == "Main" && c.features.any fun f => callsOnSelf f.expr) =
          true := by decide +kernel
  simp only [acceptedBy_iff, Bool.and_eq_true, any_eq_true, beq_iff_eq] at hcheck
  rcases hcheck with ⟨o, hrun, hclean, c, hc, hname, f, hf, hcall⟩
  rcases Analysis.static_types_real _ o hrun hclean with ⟨t, hbuild, hreal⟩
  have hhere := (Expr.everywhere_iff.mp (hreal c hc f hf).2).1
  unfold callsOnSelf at hcall
  split at hcall
  · rename_i mark receiver method args hexpr
    simp only [Bool.and_eq_true, beq_iff_eq] at hcall
    rcases hcall with ⟨⟨_, htype⟩, rfl⟩
    rw [hexpr] at hhere
    rcases hhere with ⟨n, hn, hnode, d, hd, hdeclares⟩
    rw [htype, Typing.resolve_selfType, hname] at hnode
    exact ⟨o, t, n, d, hrun, hclean, hbuild, hn, hnode, hd, hdeclares⟩
  · cases hcall

end CoolCompiler
