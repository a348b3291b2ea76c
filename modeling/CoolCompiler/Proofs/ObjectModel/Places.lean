import CoolCompiler.Proofs.ObjectModel.Layout
import CoolCompiler.Proofs.Passes

/-!
# Places of attributes

A class keeps the slots of its parent and puts its own after them.  So code for a class finds its
attributes in the objects of every class below.
-/

namespace CoolCompiler.ClassTable

open List

def inheritedSlots (t : ClassTable) (n : ClassNode) : List Slot :=
  ((t.parentOf? n).map ClassNode.layout).getD []

theorem slot?_of_isPrefix {a n : ClassNode} (h : a.layout <+: n.layout) {name : Name} {slot : Slot}
    (hslot : a.slot? name = some slot) : n.slot? name = some slot := by
  obtain ⟨rest, hrest⟩ := h
  have hfind : a.layout.find? (fun s => s.name == name) = some slot := hslot
  rw [ClassNode.slot?, ← hrest, find?_append, hfind]
  rfl

namespace Built

variable {user : List Class} {parents : List (Option Nat)} {t : ClassTable} {n : ClassNode}

theorem layout_eq_append (h : Built user parents t) (hn : n ∈ t.nodes) :
    n.layout = t.inheritedSlots n ++ declaredSlots (t.inheritedSlots n).length n.decl := by
  have hcons := h.chain_cons hn
  rw [h.layout_eq hn, hcons, inheritedSlots]
  cases hp : t.parentOf? n with
  | none => exact layoutOf_snoc [] n.decl
  | some p =>
    rw [Option.map_some, Option.getD_some, Option.map_some, Option.getD_some, map_cons,
      reverse_cons, layoutOf_snoc, h.layout_eq (mem_of_parentOf? hp)]

theorem owner_of_mem_inherited (h : Built user parents t) (hn : n ∈ t.nodes) {slot : Slot}
    (hslot : slot ∈ t.inheritedSlots n) : slot.owner ≠ n.name := by
  rw [inheritedSlots] at hslot
  cases hp : t.parentOf? n with
  | none =>
    rw [hp] at hslot
    cases hslot
  | some p =>
    rw [hp] at hslot
    obtain ⟨_, _, _, hother⟩ := h.layout_child hn hp
    exact hother slot hslot

theorem ownSlots_eq (h : Built user parents t) (hn : n ∈ t.nodes) :
    n.ownSlots = declaredSlots (t.inheritedSlots n).length n.decl := by
  have hinherited : (t.inheritedSlots n).filter (fun s => s.owner == n.name) = [] := by
    rw [filter_eq_nil_iff]
    intro slot hslot
    simpa using h.owner_of_mem_inherited hn hslot
  have hdeclared : (declaredSlots (t.inheritedSlots n).length n.decl).filter
      (fun s => s.owner == n.name) = declaredSlots (t.inheritedSlots n).length n.decl := by
    rw [filter_eq_self]
    intro slot hslot
    obtain ⟨i, _, rfl⟩ := mem_mapIdx.mp hslot
    exact beq_self_eq_true n.name
  rw [ClassNode.ownSlots, h.layout_eq_append hn, filter_append, hinherited, hdeclared,
    nil_append]

end Built

/-- In every class table that is built, the slots of a class are those of its parent, unchanged,
and then those of its own attributes in the order of their declaration.  They stand one word
after the other behind the header and fill the object.  So every class has the attributes of the
classes above it where these have them. -/
theorem layouts_compatible (user : List Class) (t : ClassTable) (hbuild : build user = .ok t) :
    t.nodes.map ClassNode.decl = Class.builtin ++ user ∧
    ∀ n ∈ t.nodes,
      (n.name ≠ Name.object →
        ∃ p ∈ t.nodes, t.parentOf? n = some p ∧ p.name = n.decl.parentName) ∧
      n.layout = t.inheritedSlots n ++ declaredSlots (t.inheritedSlots n).length n.decl ∧
      n.ownSlots = declaredSlots (t.inheritedSlots n).length n.decl ∧
      (∀ i slot, n.layout[i]? = some slot → slot.offset = 6 + 2 * i) ∧
      n.objectSize = 6 + 2 * n.layout.length ∧
      ∀ a ∈ t.nodes, t.isSubclass n.name a.name = true →
        a.layout <+: n.layout ∧
        ∀ name slot, a.slot? name = some slot → n.slot? name = some slot := by
  rcases (build_eq_ok_iff user t).mp hbuild with ⟨parents, h⟩
  refine ⟨h.map_decl, fun n hn => ⟨?_, h.layout_eq_append hn, h.ownSlots_eq hn, ?_,
    h.objectSize_eq hn, ?_⟩⟩
  · intro hroot
    rcases h.parentOf?_cases hn with ⟨hobject, _⟩ | ⟨_, hparent⟩
    · exact absurd hobject hroot
    · exact hparent
  · exact fun i slot hslot => h.getElem?_layout hn hslot
  · intro a ha hsub
    rcases (h.isSubclass_iff hn).mp hsub with ⟨d, hd, hname⟩
    have hsame : d = a := h.eq_of_name_eq (Built.mem_nodes_of_mem_chain t hd) ha hname
    have habove : a.layout <+: n.layout := hsame ▸ h.layout_isPrefix hn hd
    exact ⟨habove, fun name slot hslot => slot?_of_isPrefix habove hslot⟩

def linedClasses : List Class :=
  let attr (name type : Name) : Feature := .attr ⟨1, name, type, .omitted ⟨[], 1, []⟩⟩
  [⟨1, "C", some "B", [attr "y" Name.bool, attr "z" Name.int], "lined.cl"⟩,
   ⟨2, "A", none, [attr "x" Name.int, attr "y" Name.string], "lined.cl"⟩,
   ⟨3, "B", some "A", [attr "w" "A"], "lined.cl"⟩]

theorem layouts_compatible_lined :
    ∃ t a c slot, build linedClasses = .ok t ∧ a ∈ t.nodes ∧ c ∈ t.nodes ∧
      t.isSubclass c.name a.name = true ∧ c.layout.length = 5 ∧ a.slot? "y" = some slot ∧
      a.layout <+: c.layout ∧ c.slot? "y" = some slot ∧
      c.ownSlots = declaredSlots 3 c.decl ∧ c.objectSize = 6 + 2 * c.layout.length := by
  have hcheck : (passes (build linedClasses) fun t =>
      (t.find? "A").any fun a => (t.find? "C").any fun c =>
        t.isSubclass c.name a.name && (c.layout.length == 5 &&
          ((t.inheritedSlots c).length == 3 && (a.slot? "y").isSome))) = true := by
    decide +kernel
  simp only [passes_iff, Option.any_eq_true, Bool.and_eq_true, beq_iff_eq,
    Option.isSome_iff_exists] at hcheck
  rcases hcheck with ⟨t, hbuild, a, ha, c, hc, hsub, hlength, hinherited, slot, hslot⟩
  have ha' := mem_of_find?_eq_some ha
  have hc' := mem_of_find?_eq_some hc
  rcases (layouts_compatible _ t hbuild).2 c hc' with ⟨_, _, hown, _, hsize, habove⟩
  rcases habove a ha' hsub with ⟨habove, hslots⟩
  rw [hinherited] at hown
  exact ⟨t, a, c, slot, hbuild, ha', hc', hsub, hlength, hslot, habove, hslots "y" slot hslot,
    hown, hsize⟩

end CoolCompiler.ClassTable
