import CoolCompiler.Proofs.Emit.Generator
import CoolCompiler.Proofs.Typing.Positions

/-!
# Callers and callees

A call goes through the dispatch table of the receiver, whose class is known only as one below the
static class.  Whatever method it leads to has as many formals as there are actuals, since methods
of one name have one signature along every chain.
-/

namespace CoolCompiler

open List Symbols

namespace ClassTable

def Implements (t : ClassTable) (n : ClassNode) (f : Name) (m : Method) : Prop :=
  ∃ e d, n.entry? f = some e ∧ t.find? e.impl = some d ∧ m ∈ d.decl.methods ∧ m.name = f

/-- The static class of the receiver of a call in `current`: the one named at the call, or the one
that the type of the receiver stands for. -/
inductive Receives (t : ClassTable) (current : Name) : Name → Option Name → Name → Prop where
  | typed {type : Name} (notSelfType : type ≠ Name.selfType) : Receives t current type none type
  | selfTyped {c : Name} (below : t.isSubclass c current = true) :
      Receives t current Name.selfType none c
  | static {type c : Name} : Receives t current type (some c) c

/-- If the expression is a call, every class below a static class of the receiver has the method,
with as many formals as there are actuals and the signature that is seen from the static class. -/
def CallAgrees (t : ClassTable) (current : Name) : Expr → Prop
  | .dispatch _ receiver target f args =>
    ∀ c, t.Receives current receiver.type target c →
      ∃ n ∈ t.nodes, n.name = c ∧ ∃ seen, t.Implements n f seen ∧
        ∀ sub ∈ t.nodes, t.isSubclass sub.name c = true →
          (∃ m, t.Implements sub f m) ∧
          ∀ m, t.Implements sub f m → m.formals.length = args.length ∧
            m.formals.map Formal.type = seen.formals.map Formal.type ∧
            m.returns = seen.returns
  | _ => True

namespace Built

variable {user : List Class} {parents : List (Option Nat)} {t : ClassTable} {n : ClassNode}

theorem implements_iff (h : Built user parents t) (hn : n ∈ t.nodes) {f : Name} {m : Method} :
    t.Implements n f m ↔
      ∃ d, (t.chain n).find? (fun a => a.decl.declaresMethod f) = some d ∧
        m ∈ d.decl.methods ∧ m.name = f := by
  have himpl := h.implOf_dispatch hn f
  constructor
  · rintro ⟨e, d, he, hd, hm⟩
    have hfound : n.dispatch.find? (fun x => x.name == f) = some e := he
    rw [implOf, hfound, Option.map_some] at himpl
    obtain ⟨nearest, hnearest, hname⟩ := Option.map_eq_some_iff.mp himpl.symm
    have hnode := mem_nodes_of_mem_chain t (mem_of_find?_eq_some hnearest)
    rw [h.find?_eq_some_iff.mpr ⟨hnode, hname⟩] at hd
    rw [Option.some.inj hd] at hnearest
    exact ⟨d, hnearest, hm⟩
  · rintro ⟨d, hd, hm⟩
    rw [hd, Option.map_some, implOf] at himpl
    obtain ⟨e, he, hname⟩ := Option.map_eq_some_iff.mp himpl
    have hdn := mem_nodes_of_mem_chain t (mem_of_find?_eq_some hd)
    exact ⟨e, d, he, h.find?_eq_some_iff.mpr ⟨hdn, hname.symm⟩, hm⟩

theorem exists_implements (h : Built user parents t) (hn : n ∈ t.nodes) {a : ClassNode}
    (ha : a ∈ t.chain n) {f : Name} {m : Method} (hm : t.Implements a f m) :
    ∃ m', t.Implements n f m' := by
  obtain ⟨d, hd, hdm, hname⟩ := (h.implements_iff (mem_nodes_of_mem_chain t ha)).mp hm
  have hchain := (h.chain_suffix hn ha).subset (mem_of_find?_eq_some hd)
  have hdeclares : d.decl.declaresMethod f = true :=
    any_eq_true.mpr ⟨m, hdm, beq_iff_eq.mpr hname⟩
  have hsome : ((t.chain n).find? (fun a => a.decl.declaresMethod f)).isSome = true :=
    find?_isSome.mpr ⟨d, hchain, hdeclares⟩
  obtain ⟨d', hd'⟩ := Option.isSome_iff_exists.mp hsome
  have hnearest : d'.decl.declaresMethod f = true :=
    find?_some (p := fun a : ClassNode => a.decl.declaresMethod f) hd'
  obtain ⟨m', hm', hname'⟩ := any_eq_true.mp hnearest
  exact ⟨m', (h.implements_iff hn).mpr ⟨d', hd', hm', by simpa using hname'⟩⟩

end Built

end ClassTable

namespace Emit
namespace Compilable

open Typing ClassTable

variable {q : Program} {s : Symbols} {parents : List (Option Nat)} {t : ClassTable}
  {n : ClassNode}

/-!
# Methods in the symbols and in the tables
-/

theorem findSome?_method (h : Compilable q s parents t)
    (hsigned : ∀ c ∈ Class.builtin ++ q, Signed s c) {line : List ClassNode}
    (hline : ∀ d ∈ line, d ∈ t.nodes) (f : Name) :
    (line.find? (fun a => a.decl.declaresMethod f) = none ∧
      ((line.map ClassNode.name).findSome? fun a =>
        (s.classes.find? a).bind fun k => k.methods.find? f) = none) ∨
    ∃ d m builtin, line.find? (fun a => a.decl.declaresMethod f) = some d ∧
      m ∈ d.decl.methods ∧ m.name = f ∧
      ((line.map ClassNode.name).findSome? fun a =>
        (s.classes.find? a).bind fun k => k.methods.find? f) =
          some (MethodSymbol.ofMethod d.name builtin m) := by
  induction line with
  | nil => exact .inl ⟨rfl, rfl⟩
  | cons d line ih =>
    rw [forall_mem_cons] at hline
    rw [List.find?_cons, map_cons, findSome?_cons]
    obtain ⟨k, hk, hmethods, _⟩ := (hsigned _ (h.decl_mem hline.1)).records
    have hk' : s.classes.find? d.name = some k := hk
    cases hdeclares : d.decl.declaresMethod f with
    | true =>
      obtain ⟨m, hm, hname⟩ := any_eq_true.mp hdeclares
      rw [beq_iff_eq] at hname
      obtain ⟨builtin, hfound⟩ := hmethods m hm
      rw [hname] at hfound
      refine .inr ⟨d, m, builtin, rfl, hm, hname, ?_⟩
      rw [hk', Option.bind_some, hfound]
      rfl
    | false =>
      have hnone : k.methods.find? f = none := by
        obtain ⟨k', hk'', hknown, _⟩ := h.knows hline.1
        rw [show s.classes.find? d.decl.name = some k from hk] at hk''
        cases hk''
        cases hfind : k.methods.find? f with
        | none => rfl
        | some found =>
          rcases (hknown f).mp (Dictionary.has_eq_true_iff.mpr ⟨found, hfind⟩) with
            ⟨m, hm, hname⟩
          have hyes : d.decl.declaresMethod f = true :=
            any_eq_true.mpr ⟨m, hm, by simp [hname]⟩
          rw [hdeclares] at hyes
          cases hyes
      rw [hk', Option.bind_some, hnone]
      exact ih hline.2

variable {f : Name} {m m' : Method}

variable (h : Compilable q s parents t)
include h

variable (hsigned : ∀ c ∈ Class.builtin ++ q, Signed s c)
include hsigned

theorem method?_iff_implements (hn : n ∈ t.nodes) :
    (∀ found, s.method? n.name f = some found →
      ∃ m, t.Implements n f m ∧ found.signature = m.signature) ∧
    ∀ m, t.Implements n f m → ∃ found, s.method? n.name f = some found ∧
      found.signature = m.signature := by
  have hline : ∀ d ∈ t.chain n, d ∈ t.nodes := fun d hd => Built.mem_nodes_of_mem_chain t hd
  rw [method?, h.ancestors_eq hn]
  rcases h.findSome?_method hsigned hline f with ⟨hnone, hmethod⟩ |
    ⟨d, m, builtin, hd, hm, hname, hmethod⟩
  · constructor
    · intro found hfound
      rw [hmethod] at hfound
      cases hfound
    · intro m himpl
      obtain ⟨d, hd, _⟩ := (h.built.implements_iff hn).mp himpl
      rw [hnone] at hd
      cases hd
  · constructor
    · intro found hfound
      rw [hmethod] at hfound
      cases hfound
      exact ⟨m, (h.built.implements_iff hn).mpr ⟨d, hd, hm, hname⟩, rfl⟩
    · intro m' himpl
      obtain ⟨d', hd', hm', hname'⟩ := (h.built.implements_iff hn).mp himpl
      rw [hd] at hd'
      cases hd'
      have hdistinct := (hsigned _ (h.decl_mem (hline d (mem_of_find?_eq_some hd)))).distinct
      have hsame : m = m' := inj_on_of_nodup_map hdistinct hm hm' (hname.trans hname'.symm)
      rw [← hsame]
      exact ⟨_, hmethod, rfl⟩

theorem implements_unique (hn : n ∈ t.nodes) (hm : t.Implements n f m) (hm' : t.Implements n f m') :
    m.signature = m'.signature := by
  have hmethod := (h.method?_iff_implements hsigned hn (f := f)).2
  obtain ⟨found, hfound, hsignature⟩ := hmethod m hm
  obtain ⟨found', hfound', hsignature'⟩ := hmethod m' hm'
  rw [hfound] at hfound'
  cases hfound'
  rw [← hsignature, hsignature']

theorem signature_parent (hn : n ∈ t.nodes) {p : ClassNode} (hp : t.parentOf? n = some p)
    (hm : t.Implements n f m) (hm' : t.Implements p f m') : m.signature = m'.signature := by
  rcases h.built.parentOf?_cases hn with ⟨_, hnone⟩ | ⟨_, p', hpn, hp', hpname⟩
  · rw [hp] at hnone
    cases hnone
  · rw [hp] at hp'
    cases hp'
    have himpl := (h.built.implements_iff hn).mp hm
    rw [h.built.chain_cons hn, hp, Option.map_some, Option.getD_some, List.find?_cons] at himpl
    cases hdeclares : n.decl.declaresMethod f with
    | true =>
      -- A declaration of its own was compared with what the parent has.
      rw [hdeclares] at himpl
      obtain ⟨d, hd, hmem, hname⟩ := himpl
      cases hd
      obtain ⟨found, hfound, hsignature⟩ := (h.method?_iff_implements hsigned hpn).2 m' hm'
      rw [hpname, ← hname] at hfound
      rw [← hsignature]
      exact ((hsigned _ (h.decl_mem hn)).overrides m hmem found hfound).symm
    | false =>
      rw [hdeclares] at himpl
      exact h.implements_unique hsigned hpn ((h.built.implements_iff hpn).mpr himpl) hm'

theorem signature_eq (hn : n ∈ t.nodes) {a : ClassNode} (ha : a ∈ t.chain n)
    (hm : t.Implements n f m) (hm' : t.Implements a f m') : m.signature = m'.signature := by
  induction hlength : (t.chain n).length using Nat.strongRecOn generalizing n m with
  | _ length ih =>
    have hcons := h.built.chain_cons hn
    rcases h.built.parentOf?_cases hn with ⟨_, hp⟩ | ⟨_, p, hpn, hp, _⟩
    · rw [hcons, hp, Option.map_none, Option.getD_none, mem_singleton] at ha
      subst ha
      exact h.implements_unique hsigned hn hm hm'
    · rw [hp, Option.map_some, Option.getD_some] at hcons
      rw [hcons] at ha
      cases ha with
      | head => exact h.implements_unique hsigned hn hm hm'
      | tail _ ha =>
        obtain ⟨mp, hmp⟩ := h.built.exists_implements hpn ha hm'
        have hlt : (t.chain p).length < length := by
          rw [← hlength, hcons]
          exact Nat.lt_succ_self _
        rw [h.signature_parent hsigned hn hp hm hmp]
        exact ih _ hlt hpn ha hmp rfl

/-!
# Calls
-/

omit hsigned in
theorem isSubclass_of_receives {current type c : Name} {target : Option Name}
    (hreceives : t.Receives current type target c) {owner : ClassNode} (howner : owner ∈ t.nodes)
    (hname : owner.name = target.getD (resolve type current)) :
    t.isSubclass c owner.name = true := by
  have hself : t.isSubclass owner.name owner.name = true :=
    (h.built.isSubclass_iff howner).mpr ⟨owner, h.built.mem_chain_self howner, rfl⟩
  cases hreceives with
  | typed notSelfType =>
    have hresolve : owner.name = type := by
      rw [hname, Option.getD_none, resolve, if_neg notSelfType]
    rwa [hresolve] at hself ⊢
  | selfTyped below =>
    have hresolve : owner.name = current := by
      rw [hname, Option.getD_none, resolve, if_pos rfl]
    rwa [hresolve]
  | static =>
    have hresolve : owner.name = c := hname
    rwa [hresolve] at hself ⊢

omit hsigned in
theorem exists_node_of_isSubclass {c d : Name} (hsub : t.isSubclass c d = true) :
    ∃ n ∈ t.nodes, n.name = c ∧ ∃ a ∈ t.chain n, a.name = d := by
  cases hfind : t.find? c with
  | none => simp [isSubclass, distance?, hfind] at hsub
  | some n =>
    obtain ⟨hn, hname⟩ := h.built.find?_eq_some_iff.mp hfind
    rw [← hname] at hsub
    exact ⟨n, hn, hname, (h.built.isSubclass_iff hn).mp hsub⟩

theorem callAgrees_of_calls {current : Name} {mark : Mark} {receiver : Expr} {target : Option Name}
    {args : List Expr} {result : Name} (hcalls : Calls ⟨s, current⟩ receiver.type
      (target.getD (resolve receiver.type current)) f (args.map Expr.type) result) :
    t.CallAgrees current (.dispatch mark receiver target f args) := by
  obtain ⟨found, hfound, hactuals, _⟩ := hcalls
  have hlength : found.formals.length = args.length := by
    rw [← hactuals.length_eq, length_map]
  obtain ⟨entry, hentry⟩ := h.exists_method hfound
  have howner : ∃ owner ∈ t.nodes,
      owner.name = target.getD (resolve receiver.type current) := by
    obtain ⟨owner, hfind, -⟩ := method_eq_ok_iff.mp hentry
    exact ⟨owner, h.built.find?_eq_some_iff.mp hfind⟩
  obtain ⟨owner, howner, hname⟩ := howner
  rw [← hname] at hfound
  obtain ⟨m0, hm0, hsignature⟩ := (h.method?_iff_implements hsigned howner).1 found hfound
  -- Every class below that of the check implements the method with the signature found.
  have hall : ∀ sub ∈ t.nodes, owner ∈ t.chain sub → (∃ m, t.Implements sub f m) ∧
      ∀ m, t.Implements sub f m → m.signature = found.signature := by
    intro sub hsub hmem
    refine ⟨h.built.exists_implements hsub hmem hm0, ?_⟩
    intro m hm
    rw [hsignature]
    exact h.signature_eq hsigned hsub hmem hm hm0
  intro c hreceives
  have hbelow := h.isSubclass_of_receives hreceives howner hname
  obtain ⟨n, hn, hnc, a, ha, haname⟩ := h.exists_node_of_isSubclass hbelow
  have hao : a = owner := h.built.eq_of_name_eq (Built.mem_nodes_of_mem_chain t ha) howner haname
  rw [hao] at ha
  obtain ⟨seen, hseen⟩ := (hall n hn ha).1
  refine ⟨n, hn, hnc, seen, hseen, ?_⟩
  intro sub hsub hsubc
  obtain ⟨b, hb, hbname⟩ := (h.built.isSubclass_iff hsub).mp hsubc
  have hbn : b = n :=
    h.built.eq_of_name_eq (Built.mem_nodes_of_mem_chain t hb) hn (hbname.trans hnc.symm)
  have hchain : owner ∈ t.chain sub := (h.built.chain_suffix hsub hb).subset (hbn ▸ ha)
  refine ⟨(hall sub hsub hchain).1, ?_⟩
  intro m hm
  have hsame := (hall sub hsub hchain).2 m hm
  have hformals : m.formals.map Formal.type = found.formals.map Formal.type :=
    congrArg Prod.fst hsame
  have hseenSame := (hall n hn ha).2 seen hseen
  refine ⟨?_, hformals.trans (congrArg Prod.fst hseenSame).symm,
    (congrArg Prod.snd hsame).trans (congrArg Prod.snd hseenSame).symm⟩
  rw [← hlength, ← length_map Formal.type, hformals, length_map]

end Compilable
end Emit

namespace Typing

theorem Checked.everywhere {ctx : Context} {P : Expr → Prop}
    (hP : ∀ Γ e, Checked ctx Γ e → P e) {Γ : Scopes} {e : Expr} (h : Checked ctx Γ e) :
    e.Everywhere P := by
  have here := hP _ _ h
  refine .intro here ?_
  clear here
  induction h with
  | omitted _ | int _ | string _ | bool _ | object _ | new _ _ => simp [Expr.parts]
  | assign value _ _ _ _ ih | negate value _ _ ih | complement value _ _ ih | isVoid value _ ih =>
    simp only [Expr.parts, mem_singleton, forall_eq]
    exact .intro (hP _ _ value) ih
  | dispatch receiver actuals _ ih ihs | static receiver actuals _ _ _ _ ih ihs =>
    intro a ha
    simp only [Expr.parts, mem_append, mem_singleton] at ha
    rcases ha with ha | rfl
    · exact .intro (hP _ _ (actuals a ha)) (ihs a ha)
    · exact .intro (hP _ _ receiver) ih
  | binary left right _ ihl ihr =>
    intro a ha
    simp only [Expr.parts, mem_cons, not_mem_nil, or_false] at ha
    rcases ha with rfl | rfl
    · exact .intro (hP _ _ left) ihl
    · exact .intro (hP _ _ right) ihr
  | cond test _ thenBranch elseBranch _ ihc iht ihf =>
    intro a ha
    simp only [Expr.parts, mem_cons, not_mem_nil, or_false] at ha
    rcases ha with rfl | rfl | rfl
    · exact .intro (hP _ _ test) ihc
    · exact .intro (hP _ _ thenBranch) iht
    · exact .intro (hP _ _ elseBranch) ihf
  | loop test _ body _ ihc ihb =>
    intro a ha
    simp only [Expr.parts, mem_cons, not_mem_nil, or_false] at ha
    rcases ha with rfl | rfl
    · exact .intro (hP _ _ test) ihc
    · exact .intro (hP _ _ body) ihb
  | block items _ ihs => exact fun a ha => .intro (hP _ _ (items a ha)) (ihs a ha)
  | body inside _ ih =>
    simp only [Expr.parts, map_nil, nil_append, mem_singleton, forall_eq]
    exact .intro (hP _ _ inside) ih
  | binding _ _ init _ _ ihinit ihinside =>
    -- The other parts of a let are those of the let without its first binding.
    intro a ha
    simp only [Expr.parts, map_cons, cons_append, mem_cons] at ha
    rcases ha with rfl | ha
    · exact .intro (hP _ _ init) ihinit
    · exact ihinside a ha
  | typeCase scrutinee _ _ _ branches _ ih ihs =>
    intro a ha
    simp only [Expr.parts, mem_cons, mem_map] at ha
    rcases ha with rfl | ⟨b, hb, rfl⟩
    · exact .intro (hP _ _ scrutinee) ih
    · exact .intro (hP _ _ (branches b hb)) (ihs b hb)

end Typing

theorem Emit.Compilable.callAgrees {q : Program} {s : Symbols} {parents : List (Option Nat)}
    {t : ClassTable} (h : Emit.Compilable q s parents t)
    (hsigned : ∀ c ∈ Class.builtin ++ q, Typing.Signed s c) {current : Name} {Γ : Scopes}
    {e : Expr} (he : Typing.Checked ⟨s, current⟩ Γ e) : e.Everywhere (t.CallAgrees current) := by
  refine he.everywhere ?_
  intro Γ e he
  cases he with
  | dispatch receiver actuals call =>
    apply h.callAgrees_of_calls hsigned
    exact call
  | static receiver actuals notSelfType isType fits call =>
    apply h.callAgrees_of_calls hsigned
    exact call
  | _ => trivial

namespace Emit.Compilable

open Typing ClassTable

variable {q : Program} {s : Symbols} {parents : List (Option Nat)} {t : ClassTable}
  {n : ClassNode}

theorem checked_feature (h : Compilable q s parents t) {c : Class} (hc : c ∈ q)
    {feature : Feature} (hfeature : feature ∈ c.features) :
    feature.expr.isOmitted = true ∨ ∃ Γ, Checked ⟨s, c.name⟩ Γ feature.expr := by
  cases feature with
  | attr a =>
    have ha : a ∈ c.attributes := mem_filterMap.mpr ⟨_, hfeature, rfl⟩
    exact ((h.typed c hc).attributes a ha).imp_right fun hchecked => ⟨_, hchecked⟩
  | method m =>
    have hm : m ∈ c.methods := mem_filterMap.mpr ⟨_, hfeature, rfl⟩
    exact .inr ⟨_, (h.typed c hc).methods m hm⟩

theorem callAgrees_at (h : Compilable q s parents t)
    (hsigned : ∀ c ∈ Class.builtin ++ q, Signed s c) {c : Class} (hc : c ∈ q) {feature : Feature}
    (hfeature : feature ∈ c.features) {path : List Nat} {e : Expr}
    (he : feature.expr.at? path = some e) (hwritten : e.isOmitted = false) :
    t.CallAgrees c.name e := by
  rcases h.checked_feature hc hfeature with homitted | ⟨Γ, hchecked⟩
  · rw [Expr.not_omitted_of_at? he hwritten] at homitted
    cases homitted
  · exact (h.callAgrees hsigned hchecked).at? he

theorem length_args_le (h : Compilable q s parents t) (hsmall : ∀ n ∈ t.nodes, ¬ TooLarge n)
    (hn : n ∈ t.nodes) {mark : Mark} {receiver : Expr} {f : Name} {args : List Expr}
    (hcall : t.CallAgrees n.name (.dispatch mark receiver none f args)) : args.length ≤ 61 := by
  have hself : ∀ {c : ClassNode}, c ∈ t.nodes → t.isSubclass c.name c.name = true :=
    fun hc => (h.built.isSubclass_iff hc).mpr ⟨_, h.built.mem_chain_self hc, rfl⟩
  have hreceives : t.Receives n.name receiver.type none
      (resolve receiver.type n.name) := by
    by_cases htype : receiver.type = Name.selfType
    · rw [resolve, if_pos htype, htype]
      exact .selfTyped (hself hn)
    · rw [resolve, if_neg htype]
      exact .typed htype
  obtain ⟨c, hc, hname, seen, hseen, hall⟩ := hcall _ hreceives
  have hlength := ((hall c hc (hname ▸ hself hc)).2 seen hseen).1
  obtain ⟨e, d, -, hd, hmem, -⟩ := hseen
  have hframe : ¬ FrameTooLarge seen.body.slots seen.formals.length := fun hlarge =>
    hsmall d (mem_of_find?_eq_some hd) (.inr (.inr ⟨seen, hmem, hlarge⟩))
  unfold FrameTooLarge at hframe
  omega

end Emit.Compilable

/-!
# Accepted programs
-/

/-- Of a program that was read from any sources and accepted by a fresh analysis, every
call has as many actuals as the method has formals in each class that the receiver can be
of, and those methods have one signature. -/
theorem Analysis.calls_agree (sources : List (Text × Text)) (o : Analysis.Outcome)
    (haccepted : Analysis.fresh.run
      (sources.flatMap fun source => (Grammar.parse source.1 source.2).classes) = .ok o)
    (hclean : o.analysis.diagnostics = []) :
    ∃ t, ClassTable.build o.program = .ok t ∧
      ∀ c ∈ o.program, ∀ f ∈ c.features, f.expr.Everywhere (t.CallAgrees c.name) := by
  rcases Analysis.exists_compilable haccepted hclean with
    ⟨parents, t, hcompilable, hbuild, -, hsigned, -⟩
  refine ⟨t, hbuild, ?_⟩
  intro c hc f hf
  rcases hcompilable.checked_feature hc hf with homitted | ⟨Γ, hchecked⟩
  · exact .of_omitted homitted fun _ => trivial
  · exact hcompilable.callAgrees hsigned hchecked

def overriddenSources : List (Text × Text) :=
  [("b.cl", "class B inherits A { f(y : Int, z : Bool) : Int { y }; };"),
   ("main.cl", "class Main { main() : Object { (new A).f(1, true) }; };
class A { f(a : Int, b : Bool) : Int { 0 }; };")]

def callsOverridden : Expr → Bool
  | .dispatch _ receiver none method args =>
    receiver.type == "A" && method == "f" && args.length == 2
  | _ => false

theorem Analysis.calls_agree_overridden : ∃ o t n m,
    Analysis.fresh.run (overriddenSources.flatMap fun source =>
      (Grammar.parse source.1 source.2).classes) = .ok o ∧
    o.analysis.diagnostics = [] ∧ ClassTable.build o.program = .ok t ∧
    n ∈ t.nodes ∧ n.name = "B" ∧ t.isSubclass n.name "A" = true ∧ t.Implements n "f" m ∧
    m.formals.length = 2 := by
  have hcheck : (acceptedBy overriddenSources fun o =>
        (o.program.any fun c => c.features.any fun f => callsOverridden f.expr) &&
        passes (ClassTable.build o.program) fun t =>
          t.nodes.any fun n => n.name == "B" && t.isSubclass n.name "A") = true := by
    decide +kernel
  simp only [acceptedBy_iff, passes_iff, Bool.and_eq_true, any_eq_true,
    beq_iff_eq] at hcheck
  rcases hcheck with ⟨o, hrun, hclean, ⟨c, hc, f, hf, hcall⟩, t, hbuild, n, hn, hname, hsub⟩
  rcases Analysis.calls_agree _ o hrun hclean with ⟨t', hbuild', hagree⟩
  rw [hbuild] at hbuild'
  cases hbuild'
  have hhere := (Expr.everywhere_iff.mp (hagree c hc f hf)).1
  unfold callsOverridden at hcall
  split at hcall
  · rename_i mark receiver method args hexpr
    simp only [Bool.and_eq_true, beq_iff_eq] at hcall
    rcases hcall with ⟨⟨htype, rfl⟩, hargs⟩
    rw [hexpr] at hhere
    have hreceives : t.Receives c.name receiver.type none "A" := by
      rw [htype]
      exact .typed (by decide)
    rcases hhere "A" hreceives with ⟨_, _, _, seen, _, hall⟩
    rcases hall n hn hsub with ⟨⟨m, hm⟩, hsame⟩
    exact ⟨o, t, n, m, hrun, hclean, hbuild, hn, hname, hsub, hm, (hsame m hm).1.trans hargs⟩
  · cases hcall

end CoolCompiler
