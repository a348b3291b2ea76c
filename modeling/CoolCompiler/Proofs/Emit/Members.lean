import CoolCompiler.Proofs.Emit.Calls

/-!
# Members of classes

The type checker looks a feature up along the ancestors of a class, and the object model has it in
the tables of the class.  Both find the same features, with the same owners and types.
-/

namespace CoolCompiler

open List

namespace Emit
namespace Compilable

open Typing ClassTable

variable {q : Program} {s : Symbols} {parents : List (Option Nat)} {t : ClassTable}
  {n : ClassNode}

theorem method?_owner_eq (h : Compilable q s parents t)
    (hsigned : ∀ c ∈ Class.builtin ++ q, Signed s c) (hn : n ∈ t.nodes) (f : Name) :
    (s.method? n.name f).map MethodSymbol.owner = (n.entry? f).map DispatchEntry.impl := by
  have hentry : (n.entry? f).map DispatchEntry.impl =
      ((t.chain n).find? fun a => a.decl.declaresMethod f).map ClassNode.name :=
    h.built.implOf_dispatch hn f
  rw [hentry, Symbols.method?, h.ancestors_eq hn]
  rcases h.findSome?_method hsigned (fun _ => Built.mem_nodes_of_mem_chain t) f with
    ⟨hnone, hmethod⟩ | ⟨d, m, builtin, hd, _, _, hmethod⟩
  · rw [hnone, hmethod]
    rfl
  · rw [hd, hmethod]
    rfl

/-!
# Attributes
-/

theorem attribute?_declared (h : Compilable q s parents t)
    (hsigned : ∀ c ∈ Class.builtin ++ q, Signed s c) (hn : n ∈ t.nodes) {x : Name}
    {found : AttributeSymbol} (hfound : s.attribute? n.name x = some found) :
    ∃ d ∈ t.chain n, ∃ a ∈ d.decl.attributes, a.name = x ∧
      found = AttributeSymbol.ofAttribute d.name a := by
  obtain ⟨d, hd, k, hk, hlook⟩ := h.exists_declaring hn hfound
  have hdn := Built.mem_nodes_of_mem_chain t hd
  obtain ⟨k', hk', _, hattributes⟩ := h.knows hdn
  obtain ⟨k'', hk'', _, hrecorded⟩ := (hsigned _ (h.decl_mem hdn)).records
  rw [show s.classes.find? d.decl.name = some k from hk] at hk' hk''
  cases hk'
  cases hk''
  obtain ⟨a, ha, hname⟩ := (hattributes x).mp (Dictionary.has_eq_true_iff.mpr ⟨found, hlook⟩)
  refine ⟨d, hd, a, ha, hname, ?_⟩
  have hrecord := hrecorded a ha
  rw [hname, hlook] at hrecord
  exact Option.some.inj hrecord

theorem exists_attribute?_of_slot? (h : Compilable q s parents t) (hn : n ∈ t.nodes) {x : Name}
    {slot : Slot} (hslot : n.slot? x = some slot) :
    ∃ found, s.attribute? n.name x = some found := by
  have hname : slot.name = x := by simpa using find?_some hslot
  rcases h.built.mem_layout hn (mem_of_find?_eq_some hslot) with
    ⟨d, hd, _, a, ha, haname, _⟩
  obtain ⟨k, hk, _, hattributes⟩ := h.knows (Built.mem_nodes_of_mem_chain t hd)
  rcases Dictionary.has_eq_true_iff.mp ((hattributes x).mpr ⟨a, ha, haname.symm.trans hname⟩) with
    ⟨found, hfound⟩
  rw [← Option.isSome_iff_exists, Symbols.attribute?, findSome?_isSome_iff]
  refine ⟨d.name, ?_, ?_⟩
  · rw [h.ancestors_eq hn]
    exact mem_map_of_mem hd
  · rw [show s.classes.find? d.name = some k from hk, Option.bind_some, hfound]
    rfl

/-- No name is declared twice along a chain, so the slot under a name is that of the
declaration found first. -/
theorem attribute?_eq_slot? (h : Compilable q s parents t)
    (hsigned : ∀ c ∈ Class.builtin ++ q, Signed s c) (hn : n ∈ t.nodes) (x : Name) :
    (s.attribute? n.name x).map (fun a => (a.owner, a.type)) =
      (n.slot? x).map (fun slot => (slot.owner, slot.type)) := by
  cases hfound : s.attribute? n.name x with
  | none =>
    cases hslot : n.slot? x with
    | none => rfl
    | some slot =>
      obtain ⟨found, hsome⟩ := h.exists_attribute?_of_slot? hn hslot
      rw [hfound] at hsome
      cases hsome
  | some found =>
    obtain ⟨d, hd, a, ha, hname, rfl⟩ := h.attribute?_declared hsigned hn hfound
    obtain ⟨slot, hslot, hsname, htype, howner⟩ := h.built.exists_slot hn hd ha
    have hplace := h.slot?_eq hn hslot
    rw [hsname, hname] at hplace
    rw [hplace, Option.map_some, Option.map_some, htype, howner]
    rfl

end Compilable
end Emit

/-!
# Accepted programs
-/

/-- Of a program that was read from any sources and accepted by a fresh analysis, every class
has the same features for the type checker and in the class table: a method leads to the
class that the type checker finds it in, and an attribute has the same owner and type. -/
theorem Analysis.members_agree (sources : List (Text × Text)) (o : Analysis.Outcome)
    (haccepted : Analysis.fresh.run
      (sources.flatMap fun source => (Grammar.parse source.1 source.2).classes) = .ok o)
    (hclean : o.analysis.diagnostics = []) :
    ∃ t, ClassTable.build o.program = .ok t ∧ ∀ c ∈ Typing.classNames o.program, ∀ x,
      ((∃ f, o.analysis.symbols.method? c x = some f) ↔ ∃ e, t.method c x = .ok e) ∧
      (∀ f e, o.analysis.symbols.method? c x = some f → t.method c x = .ok e → f.owner = e.impl) ∧
      ∃ n, t.find? c = some n ∧
        ((∃ a, o.analysis.symbols.attribute? c x = some a) ↔ ∃ slot, n.slot? x = some slot) ∧
        ∀ a slot, o.analysis.symbols.attribute? c x = some a → n.slot? x = some slot →
          a.owner = slot.owner ∧ a.type = slot.type := by
  rcases Analysis.exists_compilable haccepted hclean with
    ⟨parents, t, hcompilable, hbuild, -, hsigned, -⟩
  refine ⟨t, hbuild, ?_⟩
  intro c hc x
  rcases hcompilable.exists_node hc with ⟨n, hn, rfl⟩
  have hfind := hcompilable.built.find?_eq_some_iff.mpr ⟨hn, rfl⟩
  have hentry : ∀ e, t.method n.name x = .ok e ↔ n.entry? x = some e := by
    intro e
    rw [ClassTable.method, hfind]
    cases hx : n.entry? x with
    | none => simp [hx]
    | some e' => simp [hx]
  have hmethod := hcompilable.method?_owner_eq hsigned hn x
  have hattribute := hcompilable.attribute?_eq_slot? hsigned hn x
  refine ⟨?_, ?_, n, hfind, ?_, ?_⟩
  · simp only [hentry, ← Option.isSome_iff_exists]
    rw [← Option.isSome_map (f := MethodSymbol.owner), hmethod, Option.isSome_map]
  · intro f e hf he
    rw [hf, (hentry e).mp he] at hmethod
    exact Option.some.inj hmethod
  · simp only [← Option.isSome_iff_exists]
    rw [← Option.isSome_map (f := fun a : AttributeSymbol => (a.owner, a.type)), hattribute,
      Option.isSome_map]
  · intro a slot ha hslot
    rw [ha, hslot] at hattribute
    exact Prod.mk.inj (Option.some.inj hattribute)

def memberSources : List (Text × Text) :=
  [("main.cl", "class Main { main() : Object { new B }; };
class B inherits A { w : String; f() : Int { v }; };"),
   ("a.cl", "class A { v : Int <- 1; f() : Int { 0 }; g() : SELF_TYPE { self }; };")]

theorem Analysis.members_agree_inherited : ∃ o t n f e a slot,
    Analysis.fresh.run (memberSources.flatMap fun source =>
      (Grammar.parse source.1 source.2).classes) = .ok o ∧
    o.analysis.diagnostics = [] ∧ ClassTable.build o.program = .ok t ∧ t.find? "B" = some n ∧
    o.analysis.symbols.method? "B" "f" = some f ∧ t.method "B" "f" = .ok e ∧ f.owner = "B" ∧
    e.impl = "B" ∧ o.analysis.symbols.attribute? "B" "v" = some a ∧ n.slot? "v" = some slot ∧
    slot.owner = "A" ∧ slot.type = Name.int := by
  have hcheck : (acceptedBy memberSources fun o =>
        (Typing.classNames o.program).contains "B" &&
        (o.analysis.symbols.method? "B" "f").any (fun f => f.owner == ("B" : Name)) &&
        (o.analysis.symbols.attribute? "B" "v").any fun a =>
          a.owner == ("A" : Name) && a.type == Name.int) = true := by decide +kernel
  simp only [acceptedBy_iff, Bool.and_eq_true, Option.any_eq_true, beq_iff_eq,
    contains_iff_mem] at hcheck
  rcases hcheck with ⟨o, hrun, hclean, ⟨hclass, f, hf, hfowner⟩, a, ha, haowner, hatype⟩
  rcases Analysis.members_agree _ o hrun hclean with ⟨t, hbuild, hagree⟩
  rcases hagree "B" hclass "f" with ⟨hmethod, hsame, _⟩
  rcases hmethod.mp ⟨f, hf⟩ with ⟨e, he⟩
  rcases hagree "B" hclass "v" with ⟨_, _, n, hn, hattribute, hplace⟩
  rcases hattribute.mp ⟨a, ha⟩ with ⟨slot, hslot⟩
  rcases hplace a slot ha hslot with ⟨howner, htype⟩
  exact ⟨o, t, n, f, e, a, slot, hrun, hclean, hbuild, hn, hf, he, hfowner,
    (hsame f e hf he).symm.trans hfowner, ha, hslot, howner.symm.trans haowner,
    htype.symm.trans hatype⟩

end CoolCompiler
