import CoolCompiler.Proofs.Emit.Members
import CoolCompiler.Proofs.Typing.Narrowing

/-!
# Inherited methods

The body of a method can be checked again in every class below the one that declares it.
-/

namespace CoolCompiler

open List

namespace Emit
namespace Compilable

open Typing ClassTable

variable {q : Program} {s : Symbols} {parents : List (Option Nat)} {t : ClassTable}

theorem exists_chain (h : Compilable q s parents t) {x y : Name} (hy : y ∈ s.ancestors x)
    (hclass : y ∈ classNames q) :
    ∃ n ∈ t.nodes, ∃ a ∈ t.chain n, n.name = x ∧ a.name = y := by
  obtain ⟨n, hn, rfl⟩ := h.exists_node (h.collected.graph.mem_classNames_of_ancestor hy hclass)
  rw [h.ancestors_eq hn] at hy
  obtain ⟨a, ha, rfl⟩ := mem_map.mp hy
  exact ⟨n, hn, a, ha, rfl, rfl⟩

theorem coherent (h : Compilable q s parents t)
    (hsigned : ∀ c ∈ Class.builtin ++ q, Signed s c) : Coherent s where
  rest := fun hline => h.collected.graph.ancestors_of_append hline
  root := h.collected.graph.ancestors_root
  inheritable := fun hy => h.collected.graph.inheritable_of_ancestor hy
  methods := by
    intro x y f m hy hm
    obtain ⟨n, hn, a, ha, rfl, rfl⟩ := h.exists_chain hy (h.mem_classNames_of_found hm)
    have han := Built.mem_nodes_of_mem_chain t ha
    obtain ⟨above, habove, hsignature⟩ := (h.method?_iff_implements hsigned han).1 m hm
    obtain ⟨own, hown⟩ := h.built.exists_implements hn ha habove
    obtain ⟨m', hm', hsignature'⟩ := (h.method?_iff_implements hsigned hn).2 own hown
    refine ⟨m', hm', ?_⟩
    rw [hsignature, hsignature', h.signature_eq hsigned hn ha hown habove]
  attributes := by
    intro x y v a hy hfound
    obtain ⟨n, hn, above, habove, rfl, rfl⟩ := h.exists_chain hy (h.mem_classNames_of_found hfound)
    have hnode := Built.mem_nodes_of_mem_chain t habove
    obtain ⟨d, hd, b, hb, rfl, rfl⟩ := h.attribute?_declared hsigned hnode hfound
    have hchain := (h.built.chain_suffix hn habove).subset hd
    obtain ⟨slot, hslot, hname, htype, _⟩ := h.built.exists_slot hn hchain hb
    have hsame := h.attribute?_eq_slot? hsigned hn b.name
    rw [← hname, h.slot?_eq hn hslot, hname, Option.map_some] at hsame
    obtain ⟨a', ha', heq⟩ := Option.map_eq_some_iff.mp hsame
    exact ⟨a', ha', (congrArg Prod.snd heq).trans htype⟩

theorem below (h : Compilable q s parents t) (hsigned : ∀ c ∈ Class.builtin ++ q, Signed s c)
    {c : Class} (hc : c ∈ q) {d : Name} (hd : c.name ∈ s.ancestors d) : Below s c.name d where
  toCoherent := h.coherent hsigned
  above := hd
  rooted := h.collected.graph.root_mem_ancestors (mem_append_right _ hc)
  notSelfType := by
    rintro rfl
    refine h.collected.graph.selfType_not_mem (h.collected.graph.mem_classNames_of_ancestor hd ?_)
    exact mem_map_of_mem (mem_append_right _ hc)
  notPrimitive := by
    rw [Bool.eq_false_iff]
    intro hprimitive
    have hbasic : Name.isBasic d = true := by
      simp only [isPrimitive, Bool.or_eq_true, beq_iff_eq] at hprimitive
      rcases hprimitive with (rfl | rfl) | rfl <;> rfl
    have huser := h.collected.graph.isBasic_of_ancestor hbasic hd
    rw [h.collected.graph.notBasic hc] at huser
    cases huser

end Compilable
end Emit

/-!
# Accepted programs
-/

/-- In a program that was read from any sources and accepted by a fresh analysis, the body of
every method is checked again in any class below its own: nothing is found, and its type there
conforms to the type it has in its own class, and is `SELF_TYPE` just if that one is. -/
theorem Analysis.inherited_bodies_narrow (sources : List (Text × Text)) (o : Analysis.Outcome)
    (haccepted : Analysis.fresh.run
      (sources.flatMap fun source => (Grammar.parse source.1 source.2).classes) = .ok o)
    (hclean : o.analysis.diagnostics = []) :
    ∀ c ∈ sources.flatMap fun source => (Grammar.parse source.1 source.2).classes,
      ∀ m ∈ c.methods, ∃ body,
        Typing.infer ⟨o.analysis.symbols, c.name⟩ (Typing.formalScopes Scopes.empty m.formals)
          m.body = .ok (body, []) ∧
        ∀ d, c.name ∈ o.analysis.symbols.ancestors d → ∃ body',
          Typing.infer ⟨o.analysis.symbols, d⟩ (Typing.formalScopes Scopes.empty m.formals) body =
            .ok (body', []) ∧
          o.analysis.symbols.conforms body'.type body.type d = true ∧
          (body'.type = Name.selfType ↔ body.type = Name.selfType) := by
  have hnamed := Grammar.named_of_complete (Grammar.complete_of_sources sources)
  have hsource := Typing.run_signed hnamed haccepted hclean
  rcases Analysis.exists_compilable haccepted hclean with
    ⟨parents, t, hcompilable, -, hprogram, hsigned, -⟩
  intro c hc m hm
  rcases hprogram.exists_result c hc with ⟨c', hc', hchecked⟩
  rcases hchecked.exists_body m hm with ⟨body, hinfer, hfits⟩
  refine ⟨body, hinfer, ?_⟩
  intro d hd
  rw [← hchecked.name] at hd
  have hbelow := hcompilable.below hsigned hc' hd
  rw [hchecked.name] at hbelow
  rcases hbelow.retypes (Typing.infer_checked hinfer) with ⟨body', hinfer', hnarrow⟩
  have hreturns := (hsource c (mem_append_right _ hc)).returns m hm
  exact ⟨body', hinfer', hnarrow.conforms_self (hfits hreturns), hnarrow.selfType⟩

def narrowedSource : Text × Text :=
  ("pick.cl", "class A { pick(b : Bool) : A { if b then self else new B fi }; };
class B inherits A { }; class Main { main() : Object { (new B).pick(true) }; };")

theorem Analysis.inherited_bodies_narrow_pick : ∃ o c m body body',
    Analysis.fresh.run ([narrowedSource].flatMap fun source =>
      (Grammar.parse source.1 source.2).classes) = .ok o ∧
    o.analysis.diagnostics = [] ∧
    c ∈ ([narrowedSource].flatMap fun source => (Grammar.parse source.1 source.2).classes) ∧
    m ∈ c.methods ∧ c.name ∈ o.analysis.symbols.ancestors "B" ∧
    Typing.infer ⟨o.analysis.symbols, c.name⟩ (Typing.formalScopes Scopes.empty m.formals) m.body =
      .ok (body, []) ∧
    Typing.infer ⟨o.analysis.symbols, "B"⟩ (Typing.formalScopes Scopes.empty m.formals) body =
      .ok (body', []) ∧
    body.type = "A" ∧ body'.type = "B" ∧
    o.analysis.symbols.conforms body'.type body.type "B" = true := by
  have hcheck : (acceptedBy [narrowedSource] fun o =>
        ([narrowedSource].flatMap fun source =>
            (Grammar.parse source.1 source.2).classes).any fun c => c.methods.any fun m =>
          (o.analysis.symbols.ancestors "B").contains c.name &&
          passes (Typing.infer ⟨o.analysis.symbols, c.name⟩
            (Typing.formalScopes Scopes.empty m.formals) m.body) fun found =>
              found.1.type == ("A" : Name) &&
              passes (Typing.infer ⟨o.analysis.symbols, "B"⟩
                (Typing.formalScopes Scopes.empty m.formals) found.1) fun again =>
                  again.1.type == ("B" : Name)) = true := by decide +kernel
  simp only [acceptedBy_iff, passes_iff, Bool.and_eq_true, any_eq_true,
    contains_iff_mem, beq_iff_eq] at hcheck
  rcases hcheck with ⟨o, hrun, hclean, c, hc, m, hm, hbelow, found, hfound, htype, again, hagain,
    htype'⟩
  rcases Analysis.inherited_bodies_narrow _ o hrun hclean c hc m hm with ⟨body, hbody, hnarrow⟩
  rw [hbody] at hfound
  cases hfound
  rcases hnarrow "B" hbelow with ⟨body', hbody', hconforms, _⟩
  rw [hbody'] at hagain
  cases hagain
  exact ⟨o, c, m, body, body', hrun, hclean, hc, hm, hbelow, hbody, hbody', htype, htype',
    hconforms⟩

end CoolCompiler
