import CoolCompiler.Proofs.Emit.Routine
import CoolCompiler.Proofs.ObjectModel.Dispatch
import CoolCompiler.Proofs.ObjectModel.Layout
import CoolCompiler.Proofs.Typing.Analysis

/-!
# Scenes of accepted programs

The class table and the constants of an accepted program have all that its code refers to.
-/

namespace CoolCompiler.Emit

open List ClassTable Typing

/-- The classes that an analysis has returned, with their class table. -/
structure Compilable (q : Program) (s : Symbols) (parents : List (Option Nat)) (t : ClassTable) :
    Prop where
  collected : Collected q s q
  typed : ∀ c ∈ q, ClassTyped s c
  filled : ∀ c ∈ q, ClassFilled c
  built : Built q parents t

namespace Compilable

variable {q : Program} {s : Symbols} {parents : List (Option Nat)} {t : ClassTable}
  {n : ClassNode}

variable (h : Compilable q s parents t)
include h

section Node

variable (hn : n ∈ t.nodes)
include hn

theorem decl_mem : n.decl ∈ Class.builtin ++ q := by
  rw [← h.built.map_decl]
  exact mem_map_of_mem hn

theorem decl_cases :
    n.isBasic = true ∧ n.decl ∈ Class.builtin ∨ n.isBasic = false ∧ n.decl ∈ q := by
  rcases mem_append.mp (h.decl_mem hn) with hbuiltin | hq
  · exact .inl ⟨(isBasic_iff _).mpr (mem_map_of_mem hbuiltin), hbuiltin⟩
  · exact .inr ⟨h.collected.graph.notBasic hq, hq⟩

theorem knows : Knows s n.decl := by
  rcases h.decl_cases hn with ⟨_, hbuiltin⟩ | ⟨_, hq⟩
  · exact h.collected.builtin _ hbuiltin
  · exact h.collected.known _ hq

omit hn in
theorem exists_node {x : Name} (hx : x ∈ classNames q) : ∃ n ∈ t.nodes, n.name = x := by
  rw [classNames, ← h.built.map_name] at hx
  exact mem_map.mp hx

theorem ancestors_eq : s.ancestors n.name = (t.chain n).map ClassNode.name :=
  h.collected.graph.ancestors_eq h.built hn

/-!
# Features
-/

omit hn in
theorem mem_classNames_of_found {c : Name} {α : Type} {look : ClassSymbol → Option α} {found : α}
    (hfound : ((s.ancestors c).findSome? fun a => (s.classes.find? a).bind look) = some found) :
    c ∈ classNames q := by
  obtain ⟨a, ha, hlook⟩ := exists_of_findSome?_eq_some hfound
  obtain ⟨k, hk, _⟩ := Option.bind_eq_some_iff.mp hlook
  refine h.collected.graph.mem_classNames_of_ancestor ha ?_
  rw [← h.collected.graph.classes]
  exact Dictionary.has_eq_true_iff.mpr ⟨k, hk⟩

theorem exists_declaring {α : Type} {look : ClassSymbol → Option α} {found : α}
    (hfound : ((s.ancestors n.name).findSome? fun a => (s.classes.find? a).bind look) =
      some found) :
    ∃ d ∈ t.chain n, ∃ k, s.classes.find? d.name = some k ∧ look k = some found := by
  obtain ⟨a, ha, hlook⟩ := exists_of_findSome?_eq_some hfound
  rw [h.ancestors_eq hn] at ha
  obtain ⟨d, hd, rfl⟩ := mem_map.mp ha
  obtain ⟨k, hk, hfound⟩ := Option.bind_eq_some_iff.mp hlook
  exact ⟨d, hd, k, hk, hfound⟩

omit hn in
theorem exists_method {c f : Name} {m : MethodSymbol} (hm : s.method? c f = some m) :
    ∃ e, t.method c f = .ok e := by
  obtain ⟨n, hn, rfl⟩ := h.exists_node (h.mem_classNames_of_found hm)
  obtain ⟨d, hd, k, hk, hfound⟩ := h.exists_declaring hn hm
  obtain ⟨k', hk', hmethods, _⟩ := h.knows (Built.mem_nodes_of_mem_chain t hd)
  rw [ClassNode.name, hk'] at hk
  cases hk
  obtain ⟨method, hmem, hname⟩ := (hmethods f).mp (Dictionary.has_eq_true_iff.mpr ⟨m, hfound⟩)
  have hentry := (h.built.entry?_isSome_iff hn f).mpr
    ⟨d, hd, by simpa [Class.declaresMethod] using ⟨method, hmem, hname⟩⟩
  obtain ⟨e, he⟩ := Option.isSome_iff_exists.mp hentry
  refine ⟨e, ?_⟩
  rw [ClassTable.method, h.built.find?_eq_some_iff.mpr ⟨hn, rfl⟩]
  simp [he]

theorem exists_attribute {x : Name} {a : AttributeSymbol} (ha : s.attribute? n.name x = some a) :
    ∃ slot, n.slot? x = some slot := by
  obtain ⟨d, hd, k, hk, hfound⟩ := h.exists_declaring hn ha
  obtain ⟨k', hk', _, hattributes⟩ := h.knows (Built.mem_nodes_of_mem_chain t hd)
  rw [ClassNode.name, hk'] at hk
  cases hk
  obtain ⟨b, hb, hname⟩ := (hattributes x).mp (Dictionary.has_eq_true_iff.mpr ⟨a, hfound⟩)
  obtain ⟨slot, hslot, hsname, _⟩ := h.built.exists_slot hn hd hb
  rw [← Option.isSome_iff_exists, ClassNode.slot?, find?_isSome]
  exact ⟨slot, hslot, by simp [hsname, hname]⟩

theorem serves (pool : Pool) :
    Serves ⟨t, pool.collect t⟩ ⟨s, n.name⟩ n where
  current := rfl
  classes := by
    intro c hc
    obtain ⟨k, hk, hname⟩ := h.exists_node ((h.collected.graph.classes c).mp hc)
    exact ⟨k, h.built.find?_eq_some_iff.mpr ⟨hk, hname⟩⟩
  methods := fun c f m hm => h.exists_method hm
  attributes := fun x a ha => h.exists_attribute hn ha
  offsets := fun slot hslot => h.built.offset_add_le hn hslot
  int := by
    have hmem : Name.int ∈ classNames q := by simp [classNames, Class.builtin]
    obtain ⟨k, hk, hname⟩ := h.exists_node hmem
    exact ⟨k, h.built.find?_eq_some_iff.mpr ⟨hk, hname⟩⟩
  zero := pool.zero_interned
  emptyString := pool.empty_interned

/-!
# Attributes
-/

theorem attributes_of_basic (hbasic : n.decl ∈ Class.builtin) {p : ClassNode}
    (hp : t.parentOf? n = some p) : ∀ e ∈ t.chain p, e.decl.attributes = [] := by
  rcases h.built.parentOf?_cases hn with ⟨_, hnone⟩ | ⟨hne, p', hmem, hp', hname⟩
  · rw [hp] at hnone
    cases hnone
  · rw [hp] at hp'
    cases hp'
    have hobject : p.name = Name.object :=
      hname.trans (Graph.parentName_builtin _ hbasic hne)
    rcases h.built.parentOf?_cases hmem with ⟨_, hnone⟩ | ⟨hne', _⟩
    · intro e he
      rw [h.built.chain_cons hmem, hnone] at he
      have hbuiltin : p.decl ∈ Class.builtin := by
        rcases h.decl_cases hmem with ⟨_, hbuiltin⟩ | ⟨hnot, _⟩
        · exact hbuiltin
        · rw [ClassNode.isBasic, hobject] at hnot
          cases hnot
      have hnothing : ∀ c ∈ Class.builtin, c.name = Name.object → c.attributes = [] := by
        decide
      rw [mem_singleton.mp he]
      exact hnothing _ hbuiltin hobject
    · exact absurd hobject hne'

theorem nodup_attributes : (n.decl.attributes.map Attribute.name).Nodup := by
  rcases h.decl_cases hn with ⟨_, hbuiltin⟩ | ⟨_, hq⟩
  · have hall : ∀ c ∈ Class.builtin, (c.attributes.map Attribute.name).Nodup := by decide
    exact hall _ hbuiltin
  · exact (h.collected.attributed _ hq).distinct

theorem attribute_ne {p e : ClassNode} (hp : t.parentOf? n = some p) (he : e ∈ t.chain p)
    {a b : Attribute} (ha : a ∈ n.decl.attributes) (hb : b ∈ e.decl.attributes) :
    b.name ≠ a.name := by
  rcases h.decl_cases hn with ⟨_, hbuiltin⟩ | ⟨_, hq⟩
  · rw [h.attributes_of_basic hn hbuiltin hp e he] at hb
    cases hb
  · rcases h.built.parentOf?_cases hn with ⟨_, hnone⟩ | ⟨_, p', hmem, hp', hname⟩
    · rw [hp] at hnone
      cases hnone
    · rw [hp] at hp'
      cases hp'
      refine (h.collected.attributed _ hq).own a ha e.decl
        (h.decl_mem (Built.mem_nodes_of_mem_chain t he)) ?_ b hb
      have hancestors := h.ancestors_eq hmem
      rw [Symbols.ancestors, hname] at hancestors
      rw [hancestors]
      exact mem_map_of_mem he

theorem nodup_layout : (n.layout.map Slot.name).Nodup := by
  have hnode : ∀ d ∈ t.chain n, d ∈ t.nodes := fun d hd =>
    Built.mem_nodes_of_mem_chain t hd
  exact h.built.nodup_layout hn (fun d hd => h.nodup_attributes (hnode d hd))
    fun d hd p hp e he a ha b hb => h.attribute_ne (hnode d hd) hp he ha hb

theorem slot?_eq {slot : Slot} (hslot : slot ∈ n.layout) : n.slot? slot.name = some slot :=
  find?_key_eq (h.nodup_layout hn) hslot

theorem exists_attribute_of_owner {slot : Slot} (hslot : slot ∈ n.layout)
    (howner : slot.owner = n.name) :
    ∃ a ∈ n.decl.attributes, slot.name = a.name ∧ slot.type = a.type := by
  obtain ⟨d, hd, hdname, hattribute⟩ := h.built.mem_layout hn hslot
  have hdn : d = n := h.built.eq_of_name_eq (Built.mem_nodes_of_mem_chain t hd) hn
    (hdname.symm.trans howner)
  rwa [hdn] at hattribute

end Node

omit h in
theorem mem_storedSlots_iff {slot : Slot} : slot ∈ storedSlots n ↔
    slot ∈ n.layout ∧ slot.owner = n.name ∧ slot.type ≠ Name.primSlot := by
  simp [storedSlots, ClassNode.ownSlots, Slot.isPrim, and_comm, and_left_comm]

theorem type_ne_primSlot {c : Class} (hc : c ∈ q) {a : Attribute} (ha : a ∈ c.attributes) :
    a.type ≠ Name.primSlot := by
  rcases (h.collected.attributed c hc).isType a ha with htype | htype
  · rw [htype]
    decide
  · exact (h.collected.graph.of_mem_classNames htype).2.2

end Compilable

theorem initOf_eq {c : Class} (hnodup : (c.attributes.map Attribute.name).Nodup) {a : Attribute}
    (ha : a ∈ c.attributes) : initOf c a.name = a.init := by
  have hreverse : (c.attributes.reverse.map Attribute.name).Nodup := by
    rwa [map_reverse, nodup_reverse]
  rw [initOf, find?_key_eq hreverse (mem_reverse.mpr ha)]
  rfl

theorem omitted_of_builtin : ∀ c ∈ Class.builtin, ∀ a ∈ c.attributes, ∃ m, a.init = .omitted m := by
  have hall : ∀ c ∈ Class.builtin, ∀ a ∈ c.attributes, a.init.isOmitted = true := by decide
  intro c hc a ha
  have homitted := hall c hc a ha
  cases hinit : a.init with
  | omitted m => exact ⟨m, rfl⟩
  | _ =>
    rw [hinit] at homitted
    cases homitted

namespace Compilable

variable {q : Program} {s : Symbols} {parents : List (Option Nat)} {t : ClassTable}
  {n : ClassNode}

/-!
# Initialisation
-/

theorem initialises (h : Compilable q s parents t) (hn : n ∈ t.nodes) (pool : Pool) :
    Initialises ⟨t, pool.collect t⟩ ⟨s, n.name⟩ n := by
  have hdeclared : ∀ slot ∈ storedSlots n, ∃ a ∈ n.decl.attributes,
      initOf n.decl slot.name = a.init := by
    intro slot hslot
    obtain ⟨hlayout, howner, _⟩ := mem_storedSlots_iff.mp hslot
    obtain ⟨a, ha, hname, _⟩ := h.exists_attribute_of_owner hn hlayout howner
    exact ⟨a, ha, by rw [hname, initOf_eq (h.nodup_attributes hn) ha]⟩
  have hplaced : ∀ slot ∈ storedSlots n, ∃ found, n.slot? slot.name = some found :=
    fun slot hslot => ⟨slot, h.slot?_eq hn (mem_storedSlots_iff.mp hslot).1⟩
  rcases h.decl_cases hn with ⟨_, hbuiltin⟩ | ⟨huser, hq⟩
  · have homitted := omitted_of_builtin n.decl hbuiltin
    refine ⟨?_, ?_, ?_, hdeclared, ?_, hplaced⟩ <;> intro a ha <;>
      rcases homitted a ha with ⟨m, hm⟩ <;> rw [hm]
    · exact .inl rfl
    · intro l hl
      simp [Expr.literals] at hl
    · exact .intro trivial (by simp [Expr.parts])
    · exact .inl (by simp [Expr.slots])
  · refine ⟨?_, ?_, (h.filled _ hq).attributes, hdeclared, ?_, hplaced⟩
    · intro a ha
      rcases (h.typed _ hq).attributes a ha with homitted | hchecked
      · exact .inl homitted
      · exact .inr ⟨pool.file_interned hn huser, hchecked⟩
    · intro a ha l hl
      obtain ⟨f, hf, hattribute⟩ := mem_filterMap.mp ha
      refine pool.literal_interned hn huser hf ?_
      cases f with
      | attr b =>
        cases hattribute
        exact hl
      | method m => cases hattribute
    · intro a ha
      rcases h.built.exists_slot hn (h.built.mem_chain_self hn) ha with
        ⟨slot, hslot, hname, htype, howner⟩
      refine .inr ⟨slot, mem_storedSlots_iff.mpr ⟨hslot, howner, ?_⟩, ?_⟩
      · rw [htype]
        exact h.type_ne_primSlot hq ha
      · rw [hname, initOf_eq (h.nodup_attributes hn) ha]

theorem layout_length_of_basic (h : Compilable q s parents t) (hn : n ∈ t.nodes)
    (hbuiltin : n.decl ∈ Class.builtin) : n.layout.length ≤ 2 := by
  have hown : n.layout.length = n.decl.attributes.length := by
    rw [← length_map Slot.name, h.built.map_name_layout hn, h.built.chain_cons hn]
    cases hp : t.parentOf? n with
    | none => simp
    | some p =>
      have hnothing := h.attributes_of_basic hn hbuiltin hp
      have hempty : (t.chain p).reverse.flatMap
          (fun d => d.decl.attributes.map Attribute.name) = [] := by
        rw [flatMap_eq_nil_iff]
        intro e he
        rw [hnothing e (mem_reverse.mp he), map_nil]
      simp [hempty]
  have hall : ∀ c ∈ Class.builtin, c.attributes.length ≤ 2 := by decide
  rw [hown]
  exact hall _ hbuiltin

theorem exists_far_slot (h : Compilable q s parents t) (hn : n ∈ t.nodes)
    (hlarge : 128 < n.objectSize) :
    ∃ d ∈ t.nodes, d.isBasic = false ∧ ∃ slot ∈ storedSlots d, slot.offset = 128 := by
  have hlength : 61 < n.layout.length := by
    rw [h.built.objectSize_eq hn] at hlarge
    simp only [headerSize, wordSize] at hlarge
    omega
  have hget := getElem?_eq_getElem hlength
  have hslot := getElem_mem hlength
  obtain ⟨d, hd, howner, a, ha, hname, htype⟩ := h.built.mem_layout hn hslot
  have hdnode := Built.mem_nodes_of_mem_chain t hd
  -- The slot is one of its owner's, since names are distinct in the longer layout.
  rcases h.built.exists_slot hdnode (h.built.mem_chain_self hdnode) ha with
    ⟨slot, hown, hsname, _, _⟩
  have hsame : slot = n.layout[61] :=
    inj_on_of_nodup_map (h.nodup_layout hn) ((h.built.layout_isPrefix hn hd).subset hown) hslot
      (hsname.trans hname.symm)
  have hoffset : slot.offset = 128 := by
    rw [hsame]
    exact h.built.getElem?_layout hn hget
  rcases h.decl_cases hdnode with ⟨_, hbuiltin⟩ | ⟨huser, hq⟩
  · have hsize := h.built.offset_add_le hdnode hown
    have hfew := h.layout_length_of_basic hdnode hbuiltin
    rw [h.built.objectSize_eq hdnode] at hsize
    simp only [headerSize, wordSize, hoffset] at hsize
    omega
  · refine ⟨d, hdnode, huser, slot, mem_storedSlots_iff.mpr ⟨hown, ?_, ?_⟩, hoffset⟩
    · rw [hsame, howner]
    · rw [hsame, htype]
      exact h.type_ne_primSlot hq ha

end Compilable

end CoolCompiler.Emit
