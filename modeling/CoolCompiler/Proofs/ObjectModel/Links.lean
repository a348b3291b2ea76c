import CoolCompiler.Proofs.Dictionary
import CoolCompiler.Proofs.ObjectModel.Ascent

/-!
# Linked class tables

Tables in which classes know their parents and children.  Layouts and dispatch tables may be missing
and classes may lie on a cycle.  Going down from the root meets the classes from which the root is
reached, each of them once.  So the number of classes that are met tells whether all of them reach
the root.
-/

namespace CoolCompiler

open List

namespace ClassNode

/-- A node without what is filled in going down from the root. -/
def bare (n : ClassNode) : ClassNode := { n with layout := [], objectSize := 0, dispatch := [] }

end ClassNode

namespace ClassTable

theorem parentTag_eq_none_iff (classes : List Class) (c : Class) :
    parentTag classes c = .ok none ↔ c.name = Name.object := by
  unfold parentTag
  split
  · simp [*]
  · rename_i hname
    split
    · simp [hname]
    · split <;> simp [hname]

variable {parents : List (Option Nat)} {classes : List Class}

theorem linked_getElem? (hlinked : classes.map (parentTag classes) = parents.map .ok) {tag : Nat}
    {c : Class} (hc : classes[tag]? = some c) :
    ∃ parent, parents[tag]? = some parent ∧ parentTag classes c = .ok parent := by
  have hget := congrArg (fun l => l[tag]?) hlinked
  simp only [getElem?_map, hc, Option.map_some] at hget
  cases hp : parents[tag]? with
  | none =>
    rw [hp] at hget
    cases hget
  | some parent =>
    rw [hp] at hget
    exact ⟨parent, rfl, Option.some.inj hget⟩

/-- Classes, the root first, under parents that they may have, and the table `t` of their nodes. -/
structure Linked (classes : List Class) (parents : List (Option Nat)) (t : ClassTable) :
    Prop where
  first : classes[0]?.map Class.name = some Name.object
  unreserved : ∀ c ∈ classes, isReserved c.name = false
  distinct : (classes.map Class.name).Nodup
  linked : classes.map (parentTag classes) = parents.map .ok
  bare : t.nodes.map ClassNode.bare = (link classes parents).nodes

namespace Linked

variable {t : ClassTable} {n p : ClassNode} {depth tag : Nat} {line : List Nat}

variable (h : Linked classes parents t)
include h

/-!
# Nodes
-/

theorem length_parents : parents.length = classes.length := by
  have hlen := congrArg List.length h.linked
  rw [length_map, length_map] at hlen
  exact hlen.symm

theorem size_eq : t.size = parents.length := by
  have hlen := congrArg List.length h.bare
  rw [length_map, link, length_mapIdx, ← h.length_parents] at hlen
  exact hlen

theorem bare_eq (hn : t.nodes[tag]? = some n) :
    ∃ c, classes[tag]? = some c ∧ n.bare = linkNode parents tag c := by
  have hget := congrArg (fun l => l[tag]?) h.bare
  simp only [getElem?_map, hn, Option.map_some, link, getElem?_mapIdx] at hget
  obtain ⟨c, hc, hbare⟩ := Option.map_eq_some_iff.mp hget.symm
  exact ⟨c, hc, hbare.symm⟩

theorem tag_of_getElem? (hn : t.nodes[tag]? = some n) : n.tag = tag := by
  obtain ⟨c, _, hbare⟩ := h.bare_eq hn
  exact congrArg ClassNode.tag hbare

theorem getElem?_tag (hn : n ∈ t.nodes) : t.nodes[n.tag]? = some n := by
  obtain ⟨tag, htag⟩ := getElem?_of_mem hn
  rw [h.tag_of_getElem? htag, htag]

theorem getElem?_decl (hn : n ∈ t.nodes) : classes[n.tag]? = some n.decl := by
  obtain ⟨c, hc, hbare⟩ := h.bare_eq (h.getElem?_tag hn)
  have hdecl : n.decl = c := congrArg ClassNode.decl hbare
  rw [hc, hdecl]

theorem children_eq (hn : n ∈ t.nodes) : n.children = childrenOf parents n.tag := by
  obtain ⟨_, _, hbare⟩ := h.bare_eq (h.getElem?_tag hn)
  exact congrArg ClassNode.children hbare

theorem tag_lt (hn : n ∈ t.nodes) : n.tag < parents.length := by
  rw [← h.size_eq]
  exact (List.getElem?_eq_some_iff.mp (h.getElem?_tag hn)).1

theorem getElem?_parents (hn : n ∈ t.nodes) : parents[n.tag]? = some n.parent := by
  obtain ⟨_, _, hbare⟩ := h.bare_eq (h.getElem?_tag hn)
  have hget := getElem?_eq_getElem (h.tag_lt hn)
  have hparent : n.parent = (parents[n.tag]?).join := congrArg ClassNode.parent hbare
  rw [hparent, hget]
  rfl

theorem map_eq_of_getElem? {α : Type} {f : ClassNode → α} {l : List α}
    (hlength : l.length = parents.length) (hget : ∀ n ∈ t.nodes, l[n.tag]? = some (f n)) :
    t.nodes.map f = l := by
  apply ext_getElem?
  intro tag
  cases hn : t.nodes[tag]? with
  | none =>
    have hle : l.length ≤ tag := by
      rw [hlength, ← h.size_eq]
      exact List.getElem?_eq_none_iff.mp hn
    rw [getElem?_map, hn, getElem?_eq_none hle]
    rfl
  | some n =>
    rw [getElem?_map, hn, ← h.tag_of_getElem? hn, hget n (mem_of_getElem? hn)]
    rfl

theorem map_parent : t.nodes.map ClassNode.parent = parents :=
  h.map_eq_of_getElem? rfl fun _ hn => h.getElem?_parents hn

theorem map_decl : t.nodes.map ClassNode.decl = classes :=
  h.map_eq_of_getElem? h.length_parents.symm fun _ hn => h.getElem?_decl hn

theorem map_name : t.nodes.map ClassNode.name = classes.map Class.name := by
  rw [← h.map_decl, map_map]
  rfl

theorem nodup_names : (t.nodes.map ClassNode.name).Nodup := h.map_name ▸ h.distinct

theorem eq_of_name_eq {a b : ClassNode} (ha : a ∈ t.nodes) (hb : b ∈ t.nodes)
    (hname : a.name = b.name) : a = b := inj_on_of_nodup_map h.nodup_names ha hb hname

theorem find?_eq_some_iff {c : Name} : t.find? c = some n ↔ n ∈ t.nodes ∧ n.name = c := by
  constructor
  · intro hfind
    exact ⟨mem_of_find?_eq_some hfind, by simpa using find?_some hfind⟩
  · rintro ⟨hn, rfl⟩
    exact find?_key_eq h.nodup_names hn

theorem chain_eq {line : List Nat} (hline : Ascent parents n.tag line) :
    t.chain n = line.filterMap (fun tag => t.nodes[tag]?) := by
  have hle := hline.length_le
  rw [← h.size_eq] at hle
  rw [chain, h.map_parent, hline.upwards_eq (by omega)]

theorem isSubclass_iff (hn : n ∈ t.nodes) {c : Name} :
    t.isSubclass n.name c = true ↔ ∃ a ∈ t.chain n, a.name = c := by
  rw [isSubclass, distance?, h.find?_eq_some_iff.mpr ⟨hn, rfl⟩, findIdx?_isSome,
    any_eq_true]
  simp

theorem getElem?_root : parents[0]? = some none := by
  obtain ⟨c, hc, hname⟩ := Option.map_eq_some_iff.mp h.first
  obtain ⟨parent, hparent, htag⟩ := linked_getElem? h.linked hc
  rw [(parentTag_eq_none_iff _ c).mpr hname] at htag
  rw [hparent, ← Except.ok.inj htag]

theorem root_tag (hroot : parents[tag]? = some none) : tag = 0 := by
  have hlt : tag < classes.length := by
    rw [← h.length_parents]
    exact (List.getElem?_eq_some_iff.mp hroot).1
  obtain ⟨parent, hparent, htag⟩ := linked_getElem? h.linked (getElem?_eq_getElem hlt)
  rw [hroot] at hparent
  cases hparent
  have hname := (parentTag_eq_none_iff _ _).mp htag
  have hnames : (classes.map Class.name)[tag]? = (classes.map Class.name)[0]? := by
    rw [getElem?_map, getElem?_map, h.first, getElem?_eq_getElem hlt, Option.map_some, hname]
  exact (getElem?_inj (by rwa [length_map]) h.distinct).mp hnames

theorem mem_children_iff {child : Nat} (hp : p ∈ t.nodes) :
    child ∈ p.children ↔ parents[child]? = some (some p.tag) := by
  rw [h.children_eq hp, childrenOf, mem_filter, mem_range, beq_iff_eq]
  constructor
  · exact fun hchild => hchild.2
  · exact fun hparent => ⟨(List.getElem?_eq_some_iff.mp hparent).1, hparent⟩

theorem nodup_children (hn : n ∈ t.nodes) : n.children.Nodup := by
  rw [h.children_eq hn]
  exact nodup_range.filter _

/-!
# Going down
-/

omit h in
theorem mem_below_succ : n ∈ t.below (depth + 1) tag ↔
    ∃ p, t.nodes[tag]? = some p ∧ (n = p ∨ ∃ child ∈ p.children, n ∈ t.below depth child) := by
  rw [below]
  cases t.nodes[tag]? <;> simp

omit h in
theorem child_mem_below {c : ClassNode} {child : Nat} (hp : p ∈ t.below depth tag)
    (hchild : child ∈ p.children) (hc : t.nodes[child]? = some c) :
    c ∈ t.below (depth + 1) tag := by
  induction depth generalizing tag with
  | zero => simp [below] at hp
  | succ depth ih =>
    obtain ⟨m, hm, rfl | ⟨x, hx, hbelow⟩⟩ := mem_below_succ.mp hp
    · refine mem_below_succ.mpr ⟨p, hm, .inr ⟨child, hchild, ?_⟩⟩
      exact mem_below_succ.mpr ⟨c, hc, .inl rfl⟩
    · exact mem_below_succ.mpr ⟨m, hm, .inr ⟨x, hx, ih hbelow⟩⟩

omit h in
theorem below_subset (hp : p ∈ t.below depth tag) : p ∈ t.nodes := by
  induction depth generalizing tag with
  | zero => simp [below] at hp
  | succ depth ih =>
    obtain ⟨m, hm, rfl | ⟨x, _, hbelow⟩⟩ := mem_below_succ.mp hp
    · exact mem_of_getElem? hm
    · exact ih hbelow

/-- The way up from a class that is met leads through the class from which one went down. -/
theorem exists_ascent_of_mem_below (hline : Ascent parents tag line) (hn : n ∈ t.below depth tag) :
    ∃ up, Ascent parents n.tag up ∧ line <:+ up := by
  induction depth generalizing tag line with
  | zero => simp [below] at hn
  | succ depth ih =>
    obtain ⟨p, hp, hn⟩ := mem_below_succ.mp hn
    have htag := h.tag_of_getElem? hp
    rcases hn with rfl | ⟨child, hchild, hbelow⟩
    · exact ⟨line, by rwa [htag], suffix_refl line⟩
    · have hparent := (h.mem_children_iff (mem_of_getElem? hp)).mp hchild
      rw [htag] at hparent
      obtain ⟨up, hup, hsuffix⟩ := ih (.step hparent hline) hbelow
      exact ⟨up, hup, (suffix_cons child line).trans hsuffix⟩

theorem mem_below_of_ascent (hline : Ascent parents tag line) (hle : line.length ≤ depth)
    (hn : t.nodes[tag]? = some n) : n ∈ t.below depth 0 := by
  induction hline generalizing depth n with
  | root hroot =>
    obtain ⟨depth, rfl⟩ := Nat.exists_eq_add_of_le' hle
    rw [h.root_tag hroot] at hn
    exact mem_below_succ.mpr ⟨n, hn, .inl rfl⟩
  | step hparent hrest ih =>
    obtain ⟨depth, rfl⟩ := Nat.exists_eq_add_of_le' (Nat.le_of_add_left_le hle)
    have hlt := Ascent.lt_length hrest hrest.mem_self
    rw [← h.size_eq] at hlt
    have hp := getElem?_eq_getElem hlt
    refine child_mem_below (ih (Nat.le_of_succ_le_succ hle) hp) ?_ hn
    rw [h.mem_children_iff (getElem_mem hlt), h.tag_of_getElem? hp, hparent]

theorem nodup_below (hline : Ascent parents tag line) : (t.below depth tag).Nodup := by
  induction depth generalizing tag line with
  | zero => exact nodup_nil
  | succ depth ih =>
    rw [below]
    cases hp : t.nodes[tag]? with
    | none => exact nodup_nil
    | some p =>
      have hmem := mem_of_getElem? hp
      have htag := h.tag_of_getElem? hp
      have hstep : ∀ child ∈ p.children, Ascent parents child (child :: line) := by
        intro child hchild
        refine .step ((h.mem_children_iff hmem).mp hchild) ?_
        rwa [htag]
      refine nodup_cons.mpr ⟨?_, nodup_flatMap.mpr ⟨fun child hchild => ih (hstep child hchild),
        ?_⟩⟩
      · intro hself
        obtain ⟨child, hchild, hbelow⟩ := mem_flatMap.mp hself
        obtain ⟨up, hup, hsuffix⟩ := h.exists_ascent_of_mem_below (hstep child hchild) hbelow
        rw [htag] at hup
        have hlength := hsuffix.length_le
        rw [hup.unique hline, length_cons] at hlength
        omega
      · refine (h.nodup_children hmem).imp_of_mem ?_
        intro child child' hchild hchild' hne n hn hn'
        obtain ⟨up, hup, hsuffix⟩ := h.exists_ascent_of_mem_below (hstep child hchild) hn
        obtain ⟨up', hup', hsuffix'⟩ := h.exists_ascent_of_mem_below (hstep child' hchild') hn'
        rw [hup'.unique hup] at hsuffix'
        have heq := (suffix_of_suffix_length_le hsuffix hsuffix' (Nat.le_refl _)).eq_of_length rfl
        exact hne (List.cons.inj heq).1

theorem nodup_preorder : t.preorder.Nodup := h.nodup_below (.root h.getElem?_root)

theorem mem_preorder_iff_ascent :
    n ∈ t.preorder ↔ n ∈ t.nodes ∧ ∃ line, Ascent parents n.tag line := by
  constructor
  · intro hn
    obtain ⟨up, hup, _⟩ := h.exists_ascent_of_mem_below (.root h.getElem?_root) hn
    exact ⟨below_subset hn, up, hup⟩
  · rintro ⟨hn, line, hline⟩
    have hlength := Ascent.length_le hline
    rw [← h.size_eq] at hlength
    exact h.mem_below_of_ascent hline hlength (h.getElem?_tag hn)

/-!
# Counting

Whether every class is met decides whether every class has the root above it.
-/

theorem isSubclass_object_iff (hn : n ∈ t.nodes) :
    t.isSubclass n.name Name.object = true ↔ ∃ line, Ascent parents n.tag line := by
  have hroot : ∀ a ∈ t.nodes, (parents[a.tag]? = some none ↔ a.name = Name.object) := by
    intro a ha
    obtain ⟨parent, hparent, htag⟩ := linked_getElem? h.linked (h.getElem?_decl ha)
    rw [ClassNode.name, ← parentTag_eq_none_iff classes, hparent, htag,
      Option.some.injEq, Except.ok.injEq]
  rw [h.isSubclass_iff hn]
  constructor
  · rintro ⟨a, ha, hname⟩
    obtain ⟨x, hx, hget⟩ := mem_filterMap.mp ha
    rw [h.map_parent] at hx
    refine Ascent.of_upwards hx ?_
    rw [← h.tag_of_getElem? hget]
    exact (hroot a (mem_of_getElem? hget)).mpr hname
  · rintro ⟨line, hline⟩
    obtain ⟨x, hx, hnone⟩ := hline.exists_root
    have hlt := hline.lt_length hx
    rw [← h.size_eq] at hlt
    have hget := getElem?_eq_getElem hlt
    rw [h.chain_eq hline]
    refine ⟨_, mem_filterMap.mpr ⟨x, hx, hget⟩, (hroot _ (getElem_mem hlt)).mp ?_⟩
    rwa [h.tag_of_getElem? hget]

/-- The count of the classes that are met decides what climbing from each of them would. -/
theorem length_preorder_iff :
    t.preorder.length = t.size ↔ ∀ n ∈ t.nodes, t.isSubclass n.name Name.object = true := by
  have hsub : t.preorder <+~ t.nodes := h.nodup_preorder.subperm fun n hn => below_subset hn
  constructor
  · intro hlength n hn
    have hperm := hsub.perm_of_length_le (Nat.le_of_eq hlength.symm)
    rw [h.isSubclass_object_iff hn]
    exact (h.mem_preorder_iff_ascent.mp (hperm.mem_iff.mpr hn)).2
  · intro hall
    have hnodup : t.nodes.Nodup := .of_map ClassNode.name h.nodup_names
    have hsub' : t.nodes <+~ t.preorder := by
      refine hnodup.subperm fun n hn => ?_
      exact h.mem_preorder_iff_ascent.mpr ⟨hn, (h.isSubclass_object_iff hn).mp (hall n hn)⟩
    exact Nat.le_antisymm hsub.length_le hsub'.length_le

theorem unreachable?_eq_find? :
    t.unreachable? = t.nodes.find? (fun n => !t.isSubclass n.name Name.object) := by
  rw [unreachable?]
  split
  · rename_i hlength
    have hall := h.length_preorder_iff.mp hlength
    rw [eq_comm, find?_eq_none]
    intro n hn
    rw [hall n hn]
    exact Bool.false_ne_true
  · rfl

theorem unreachable?_eq_none_iff :
    t.unreachable? = none ↔ ∀ tag, tag < parents.length → ∃ line, Ascent parents tag line := by
  rw [h.unreachable?_eq_find?, find?_eq_none]
  constructor
  · intro hall tag htag
    rw [← h.size_eq] at htag
    have hn := getElem_mem htag
    have hsub := hall _ hn
    rw [← h.tag_of_getElem? (getElem?_eq_getElem htag), ← h.isSubclass_object_iff hn]
    simpa using hsub
  · intro hrooted n hn
    rw [(h.isSubclass_object_iff hn).mpr (hrooted n.tag (h.tag_lt hn))]
    exact Bool.false_ne_true

end Linked

end ClassTable
end CoolCompiler
