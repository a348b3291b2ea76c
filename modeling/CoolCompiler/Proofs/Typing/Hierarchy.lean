import CoolCompiler.Proofs.Typing.Analysis

/-!
# Two hierarchies

The type checker keeps parents by name and complains about them; the object model keeps classes by
tag in a table that is built or refused.  They accept the same classes, and then conforming is being
below.
-/

namespace CoolCompiler

open List Analysis AnalysisNote Symbols

namespace Typing

theorem cycles_clean {s : Symbols} {cs : List Class}
    (hacyclic : ∀ c ∈ cs, s.inheritance.hasCycle c.name = false) : cycles s cs = [] := by
  rw [cycles, map_eq_nil_iff, filter_eq_nil_iff]
  intro c hc
  rw [hacyclic c hc]
  exact Bool.false_ne_true

end Typing

namespace ClassTable.Built

open Typing

variable {p : List Class} {parents : List (Option Nat)} {t : ClassTable}

/-!
# Classes of a table

A class table is built only of classes that the type checker accepts too.
-/

theorem registers (h : Built p parents t) {c : Class} (hc : c ∈ p) :
    Registers initial c := by
  have hdisjoint := h.distinct
  rw [map_append, nodup_append] at hdisjoint
  have hbasic : Name.isBasic c.name = false := by
    rw [Bool.eq_false_iff, Ne, isBasic_iff]
    exact fun hbuiltin => hdisjoint.2.2 _ hbuiltin _ (mem_map_of_mem hc) rfl
  refine ⟨hbasic, ?_, ?_⟩
  · intro hself
    have hreserved := h.unreserved c (mem_append_right _ hc)
    rw [hself] at hreserved
    cases hreserved
  · rw [has_initial, hbasic]

theorem mem_names_of_parentTag {classes : List Class} {c : Class} {tag : Option Nat}
    (htag : parentTag classes c = .ok tag) (hne : c.name ≠ Name.object) :
    Name.isInheritable c.parentName = true ∧ c.parentName ∈ classes.map Class.name := by
  unfold parentTag at htag
  rw [if_neg hne] at htag
  split at htag
  · cases htag
  · rename_i place hplace
    split at htag
    · rename_i hinherit
      rw [tagOf?, findIdx?_eq_some_iff_getElem] at hplace
      obtain ⟨hlt, hname, _⟩ := hplace
      exact ⟨hinherit, mem_map.mpr ⟨classes[place], getElem_mem hlt, by simpa using hname⟩⟩
    · cases htag

theorem parent_inheritable (h : Built p parents t) {c : Class} (hc : c ∈ p) :
    Name.isInheritable c.parentName = true ∧ c.parentName ∈ classNames p := by
  have hmem : c ∈ Class.builtin ++ p := mem_append_right _ hc
  obtain ⟨tag, hget⟩ := mem_iff_getElem?.mp hmem
  obtain ⟨parent, _, hparent⟩ := linked_getElem? h.linked hget
  refine mem_names_of_parentTag hparent ?_
  intro hobject
  have hbasic := (h.registers hc).notBasic
  rw [hobject] at hbasic
  cases hbasic

theorem classGraph_clean (h : Built p parents t) (hnamed : Named p) :
    (fresh.classGraph p).2.filterMap diagnostic? = [] := by
  have hnodup : (p.map Class.name).Nodup := by
    have hdistinct := h.distinct
    rw [map_append, nodup_append] at hdistinct
    exact hdistinct.2.1
  have hregister := registerAll_clean_iff.mpr ⟨fun c hc => h.registers hc, hnodup⟩
  have hlink : (linkParents (registerAll initial p).1 p).2 = [] := by
    refine linkParents_clean_iff.mpr fun c hc => ?_
    obtain ⟨hinheritable, hmem⟩ := h.parent_inheritable hc
    exact ⟨hinheritable, (graph_initial.has_registerAll hregister _).mpr hmem⟩
  have hparents := graph_initial.parents_linkParents hregister hlink
  rw [classGraph_clean_iff, (registerAll_eq hregister).1]
  refine ⟨hregister, hlink, cycles_clean ?_⟩
  intro c hc
  have hnode : c ∈ t.nodes.map ClassNode.decl := by
    rw [h.map_decl]
    exact mem_append_right _ hc
  obtain ⟨n, hn, rfl⟩ := mem_map.mp hnode
  exact Inheritance.hasCycle_eq_false (h.ancestry hnamed hparents hn)
    (hnamed.nonempty _ hc) (hnamed.notNoClass _ hc)

end ClassTable.Built

namespace Typing

/-!
# Agreement
-/

theorem graph_of_clean {p : Program} (hnamed : Named p)
    (h : (fresh.classGraph p).2.filterMap diagnostic? = []) :
    Graph p (fresh.classGraph p).1 := by
  obtain ⟨hregister, hlink, hcycles⟩ := classGraph_clean_iff.mp h
  have hnew := (registerAll_eq hregister).1
  rw [hnew] at hlink hcycles
  have hsymbols : (fresh.classGraph p).1 =
      (linkParents (registerAll initial p).1 (registerAll initial p).2.1).1 := rfl
  rw [hsymbols, hnew]
  exact graph_of_phases hnamed hregister hlink hcycles

theorem Graph.conforms_eq_isSubclass {p : List Class} {s : Symbols} {parents : List (Option Nat)}
    {t : ClassTable} (h : Graph p s) (hbuilt : ClassTable.Built p parents t)
    {a b : Name} (ha : a ∈ classNames p) (hb : b ∈ classNames p) (current : Name) :
    s.conforms a b current = t.isSubclass a b := by
  have hclass : ∀ x ∈ classNames p, x ≠ Name.selfType := by
    intro x hx hself
    obtain ⟨c, hc, hname⟩ := mem_map.mp hx
    have hreserved := hbuilt.unreserved c hc
    rw [hname, hself] at hreserved
    cases hreserved
  rw [classNames, ← hbuilt.map_name] at ha
  obtain ⟨n, hn, rfl⟩ := mem_map.mp ha
  have hself : n.name ≠ Name.selfType := by
    apply hclass
    rw [classNames, ← hbuilt.map_name]
    exact ha
  rw [Bool.eq_iff_iff, hbuilt.isSubclass_iff hn, conforms, if_neg (hclass b hb),
    resolve, if_neg hself, h.ancestors_eq hbuilt hn, contains_iff_mem,
    mem_map]

/-- The class table of a list of classes is built exactly if its class graph is without fault,
and then a class conforms to another exactly if it is its subclass. -/
theorem hierarchies_agree (p : List Class) (hnamed : Named p) :
    ((∃ t, ClassTable.build p = .ok t) ↔
      (Analysis.fresh.classGraph p).2.filterMap AnalysisNote.diagnostic? = []) ∧
    ∀ t, ClassTable.build p = .ok t → ∀ a ∈ classNames p, ∀ b ∈ classNames p, ∀ current,
      (Analysis.fresh.classGraph p).1.conforms a b current = t.isSubclass a b := by
  refine ⟨⟨?_, ?_⟩, ?_⟩
  · rintro ⟨t, ht⟩
    rcases (ClassTable.build_eq_ok_iff p t).mp ht with ⟨parents, hbuilt⟩
    exact hbuilt.classGraph_clean hnamed
  · intro hclean
    rcases (graph_of_clean hnamed hclean).exists_built with ⟨parents, t, hbuilt⟩
    exact ⟨t, (ClassTable.build_eq_ok_iff p t).mpr ⟨parents, hbuilt⟩⟩
  · intro t ht a ha b hb current
    rcases (ClassTable.build_eq_ok_iff p t).mp ht with ⟨parents, hbuilt⟩
    have hgraph := graph_of_clean hnamed (hbuilt.classGraph_clean hnamed)
    exact hgraph.conforms_eq_isSubclass hbuilt ha hb current

def forwardClasses : List Class :=
  [⟨1, "B", some "A", [], "forward.cl"⟩, ⟨2, "A", some Name.inputOutput, [], "forward.cl"⟩]

def knottedClasses : List Class :=
  [⟨1, "A", some "B", [], "knotted.cl"⟩, ⟨2, "B", some "A", [], "knotted.cl"⟩]

theorem hierarchies_agree_forward :
    Named forwardClasses ∧ Named knottedClasses ∧
    (∃ t, ClassTable.build forwardClasses = .ok t ∧ t.isSubclass "B" Name.inputOutput = true ∧
      t.isSubclass "A" "B" = false) ∧
    (Analysis.fresh.classGraph knottedClasses).2.filterMap AnalysisNote.diagnostic? ≠ [] ∧
    ∀ t, ClassTable.build knottedClasses ≠ .ok t := by
  have hforward : Named forwardClasses := ⟨by decide, by decide, by decide⟩
  have hknotted : Named knottedClasses := ⟨by decide, by decide, by decide⟩
  have hclean : (Analysis.fresh.classGraph forwardClasses).2.filterMap
      AnalysisNote.diagnostic? = [] := by
    decide +kernel
  have hfault : (Analysis.fresh.classGraph knottedClasses).2.filterMap
      AnalysisNote.diagnostic? ≠ [] := by
    decide +kernel
  rcases hierarchies_agree forwardClasses hforward with ⟨hbuilds, hsame⟩
  rcases hbuilds.mpr hclean with ⟨t, ht⟩
  refine ⟨hforward, hknotted, ⟨t, ht, ?_, ?_⟩, hfault, ?_⟩
  · rw [← hsame t ht "B" (by decide) Name.inputOutput (by decide) Name.object]
    decide +kernel
  · rw [← hsame t ht "A" (by decide) "B" (by decide) Name.object]
    decide +kernel
  · exact fun t ht => hfault ((hierarchies_agree knottedClasses hknotted).1.mp ⟨t, ht⟩)

end Typing
end CoolCompiler
