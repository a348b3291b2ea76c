import CoolCompiler.Proofs.ObjectModel.Build
import Mathlib.Data.List.Induction

/-!
# Layouts

The slots of a class are those of the classes on its chain, from the root down, so its layout begins
with those of the classes above.
-/

namespace CoolCompiler.ClassTable

open List

def ownedAttributes (line : List Class) : List (Name × Attribute) :=
  line.flatMap (fun c => c.attributes.map (fun a => (c.name, a)))

def slotAt (i : Nat) (owned : Name × Attribute) : Slot :=
  ⟨owned.2.name, owned.2.type, owned.1, headerSize + wordSize * i⟩

/-- The layout of the class whose lineage, from the root down, is given. -/
def layoutOf (line : List Class) : List Slot := (ownedAttributes line).mapIdx slotAt

theorem getElem?_layoutOf (line : List Class) (i : Nat) :
    (layoutOf line)[i]? = ((ownedAttributes line)[i]?).map (slotAt i) := by
  rw [layoutOf, getElem?_mapIdx]

theorem layoutOf_isPrefix {line other : List Class} (h : line <+: other) :
    layoutOf line <+: layoutOf other := by
  obtain ⟨rest, rfl⟩ := h
  rw [layoutOf, layoutOf, ownedAttributes, ownedAttributes, flatMap_append, mapIdx_append]
  exact prefix_append _ _

/-- The slots of the attributes that a class declares, in the order of their declaration, after
a number of others. -/
def declaredSlots (others : Nat) (c : Class) : List Slot :=
  c.attributes.mapIdx fun i a => ⟨a.name, a.type, c.name, headerSize + wordSize * (others + i)⟩

theorem layoutOf_snoc (line : List Class) (c : Class) :
    layoutOf (line ++ [c]) = layoutOf line ++ declaredSlots (layoutOf line).length c := by
  have howned : ownedAttributes (line ++ [c]) =
      ownedAttributes line ++ c.attributes.map fun a => (c.name, a) := by
    simp [ownedAttributes]
  have hlength : (layoutOf line).length = (ownedAttributes line).length := by
    rw [layoutOf, length_mapIdx]
  rw [hlength, layoutOf, layoutOf, howned, mapIdx_append]
  congr 1
  apply ext_getElem?
  intro i
  rw [declaredSlots, getElem?_mapIdx, getElem?_mapIdx, getElem?_map, Option.map_map,
    Nat.add_comm i]
  rfl

/-!
# Running offsets

Going down a line, every attribute is put at the offset that is next, which stays one word for each
slot behind the header.
-/

theorem foldl_add (owner : Name) (l : Layout) (attributes : List Attribute) :
    attributes.foldl (Layout.add owner) l =
      ⟨l.slots ++ attributes.mapIdx fun i a => ⟨a.name, a.type, owner, l.next + wordSize * i⟩,
        l.next + wordSize * attributes.length⟩ := by
  induction attributes generalizing l with
  | nil => simp
  | cons a attributes ih =>
    rw [foldl_cons, ih]
    simp [Layout.add, mapIdx_cons, Nat.mul_add, Nat.add_assoc, Nat.add_comm, Nat.add_left_comm]

theorem foldl_extend (line : List Class) :
    line.foldl Layout.extend ⟨[], headerSize⟩ =
      ⟨layoutOf line, headerSize + wordSize * (layoutOf line).length⟩ := by
  induction line using List.reverseRecOn with
  | nil => rfl
  | append_singleton line c ih =>
    rw [foldl_append, ih, foldl_cons, foldl_nil, Layout.extend, foldl_add, layoutOf_snoc]
    simp [declaredSlots, Nat.mul_add, Nat.add_assoc]

theorem mem_of_parentOf? {t : ClassTable} {n p : ClassNode} (hp : t.parentOf? n = some p) :
    p ∈ t.nodes := by
  obtain ⟨tag, _, htag⟩ := Option.bind_eq_some_iff.mp hp
  exact mem_of_getElem? htag

theorem mem_ownedAttributes_iff {line : List Class} {owner : Name} {a : Attribute} :
    (owner, a) ∈ ownedAttributes line ↔ ∃ c ∈ line, c.name = owner ∧ a ∈ c.attributes := by
  simp only [ownedAttributes, mem_flatMap, mem_map, Prod.mk.injEq]
  constructor
  · rintro ⟨c, hc, b, hb, hname, rfl⟩
    exact ⟨c, hc, hname, hb⟩
  · rintro ⟨c, hc, hname, ha⟩
    exact ⟨c, hc, a, ha, hname, rfl⟩

namespace Built

variable {user : List Class} {parents : List (Option Nat)} {t : ClassTable} {n : ClassNode}

variable {p : ClassNode} {slot : Slot}

variable (h : Built user parents t) (hn : n ∈ t.nodes)
include h hn

theorem handed_extend :
    handed Layout.extend ⟨[], headerSize⟩ (Class.builtin ++ user) parents n.tag =
      let slots := layoutOf ((t.chain n).map ClassNode.decl).reverse
      ⟨slots, headerSize + wordSize * slots.length⟩ := by
  rw [handed, h.lineage_eq hn, foldl_extend]

theorem layout_eq : n.layout = layoutOf ((t.chain n).map ClassNode.decl).reverse := by
  rw [(h.filled hn).1, h.handed_extend hn]

theorem objectSize_eq : n.objectSize = headerSize + wordSize * n.layout.length := by
  rw [(h.filled hn).2.1, h.layout_eq hn, h.handed_extend hn]

theorem layout_isPrefix {d : ClassNode} (hd : d ∈ t.chain n) : d.layout <+: n.layout := by
  have hsuffix := (h.chain_suffix hn hd).map ClassNode.decl
  rw [h.layout_eq hn, h.layout_eq (mem_nodes_of_mem_chain t hd)]
  exact layoutOf_isPrefix (hsuffix.reverse)

theorem getElem?_layout {i : Nat} (hslot : n.layout[i]? = some slot) :
    slot.offset = headerSize + wordSize * i := by
  rw [h.layout_eq hn, getElem?_layoutOf, Option.map_eq_some_iff] at hslot
  obtain ⟨owned, _, rfl⟩ := hslot
  rfl

theorem offset_add_le (hslot : slot ∈ n.layout) : slot.offset + wordSize ≤ n.objectSize := by
  obtain ⟨i, hi⟩ := getElem?_of_mem hslot
  have hlt := (List.getElem?_eq_some_iff.mp hi).1
  rw [h.getElem?_layout hn hi, h.objectSize_eq hn]
  simp only [wordSize]
  omega

theorem mem_layout (hslot : slot ∈ n.layout) :
    ∃ d ∈ t.chain n, slot.owner = d.name ∧
      ∃ a ∈ d.decl.attributes, slot.name = a.name ∧ slot.type = a.type := by
  obtain ⟨i, hi⟩ := getElem?_of_mem hslot
  rw [h.layout_eq hn, getElem?_layoutOf, Option.map_eq_some_iff] at hi
  obtain ⟨⟨owner, a⟩, howned, rfl⟩ := hi
  obtain ⟨c, hc, hname, ha⟩ := mem_ownedAttributes_iff.mp (mem_of_getElem? howned)
  rw [mem_reverse, mem_map] at hc
  obtain ⟨d, hd, rfl⟩ := hc
  exact ⟨d, hd, hname.symm, a, ha, rfl, rfl⟩

theorem exists_slot {d : ClassNode} (hd : d ∈ t.chain n) {a : Attribute}
    (ha : a ∈ d.decl.attributes) :
    ∃ slot ∈ n.layout, slot.name = a.name ∧ slot.type = a.type ∧ slot.owner = d.name := by
  have howned : (d.name, a) ∈ ownedAttributes ((t.chain n).map ClassNode.decl).reverse :=
    mem_ownedAttributes_iff.mpr
      ⟨d.decl, mem_reverse.mpr (mem_map_of_mem hd), rfl, ha⟩
  obtain ⟨i, hi⟩ := getElem?_of_mem howned
  refine ⟨slotAt i (d.name, a), ?_, rfl, rfl, rfl⟩
  rw [h.layout_eq hn]
  refine mem_of_getElem? (i := i) ?_
  rw [getElem?_layoutOf, hi]
  rfl

theorem map_name_layout :
    n.layout.map Slot.name =
      (t.chain n).reverse.flatMap (fun d => d.decl.attributes.map Attribute.name) := by
  have hnames : n.layout.map Slot.name =
      (ownedAttributes ((t.chain n).map ClassNode.decl).reverse).map (fun p => p.2.name) := by
    apply ext_getElem?
    intro i
    rw [getElem?_map, h.layout_eq hn, getElem?_layoutOf, getElem?_map, Option.map_map]
    rfl
  rw [hnames, ownedAttributes, ← map_reverse, flatMap_map, map_flatMap]
  simp only [map_map, Function.comp_def]

theorem pairwise_chain {R : ClassNode → ClassNode → Prop}
    (hR : ∀ d ∈ t.chain n, ∀ p, t.parentOf? d = some p → ∀ e ∈ t.chain p, R d e) :
    (t.chain n).Pairwise R := by
  induction hlength : (t.chain n).length using Nat.strongRecOn generalizing n with
  | _ length ih =>
    have hcons := h.chain_cons hn
    cases hp : t.parentOf? n with
    | none =>
      rw [hcons, hp]
      exact pairwise_singleton R n
    | some p =>
      rw [hp, Option.map_some, Option.getD_some] at hcons
      have hmem := mem_of_parentOf? hp
      have hsub : ∀ d ∈ t.chain p, d ∈ t.chain n := by
        intro d hd
        rw [hcons]
        exact mem_cons_of_mem n hd
      rw [hcons, pairwise_cons]
      refine ⟨hR n (h.mem_chain_self hn) p hp, ?_⟩
      refine ih (t.chain p).length ?_ hmem (fun d hd => hR d (hsub d hd)) rfl
      rw [← hlength, hcons, length_cons]
      exact Nat.lt_succ_self _

theorem chain_of_parentOf? (hp : t.parentOf? n = some p) : t.chain n = n :: t.chain p := by
  rw [h.chain_cons hn, hp]
  rfl

theorem not_mem_chain_parent (hp : t.parentOf? n = some p) : n ∉ t.chain p := by
  intro hn'
  have hlength := (h.chain_suffix (mem_of_parentOf? hp) hn').length_le
  rw [h.chain_of_parentOf? hn hp, length_cons] at hlength
  omega

theorem layout_child (hp : t.parentOf? n = some p) :
    ∃ own, n.layout = p.layout ++ own ∧
      (∀ slot ∈ own, slot.owner = n.name) ∧ ∀ slot ∈ p.layout, slot.owner ≠ n.name := by
  have hmem := mem_of_parentOf? hp
  refine ⟨declaredSlots p.layout.length n.decl, ?_, ?_, ?_⟩
  · rw [h.layout_eq hn, h.layout_eq hmem, h.chain_of_parentOf? hn hp, map_cons,
      reverse_cons, layoutOf_snoc]
  · intro slot hslot
    obtain ⟨i, _, rfl⟩ := mem_mapIdx.mp hslot
    rfl
  · intro slot hslot hname
    obtain ⟨d, hd, hdname, _⟩ := h.mem_layout hmem hslot
    have hdn : d = n := h.eq_of_name_eq (mem_nodes_of_mem_chain t hd) hn (hdname.symm.trans hname)
    exact h.not_mem_chain_parent hn hp (hdn ▸ hd)

theorem pairwise_offset : n.layout.Pairwise fun a b => a.offset + wordSize ≤ b.offset := by
  rw [pairwise_iff_getElem]
  intro i j hi hj hlt
  rw [h.getElem?_layout hn (getElem?_eq_getElem hi),
    h.getElem?_layout hn (getElem?_eq_getElem hj)]
  have hmul : wordSize * (i + 1) ≤ wordSize * j := Nat.mul_le_mul_left _ hlt
  rw [Nat.mul_add] at hmul
  omega

theorem nodup_layout (hdistinct : ∀ d ∈ t.chain n, (d.decl.attributes.map Attribute.name).Nodup)
    (hown : ∀ d ∈ t.chain n, ∀ p, t.parentOf? d = some p → ∀ e ∈ t.chain p,
      ∀ a ∈ d.decl.attributes, ∀ b ∈ e.decl.attributes, b.name ≠ a.name) :
    (n.layout.map Slot.name).Nodup := by
  rw [h.map_name_layout hn, nodup_flatMap]
  refine ⟨fun d hd => hdistinct d (mem_reverse.mp hd), ?_⟩
  rw [pairwise_reverse]
  refine h.pairwise_chain hn ?_
  intro d hd p hp e he x hx hx'
  obtain ⟨b, hb, rfl⟩ := mem_map.mp hx
  obtain ⟨a, ha, hname⟩ := mem_map.mp hx'
  exact hown d hd p hp e he a ha b hb hname.symm

end Built

theorem objectSize_of_build {user : List Class} {t : ClassTable} (hbuild : build user = .ok t)
    {n : ClassNode} (hn : n ∈ t.nodes) :
    n.objectSize = headerSize + wordSize * n.layout.length := by
  obtain ⟨parents, h⟩ := (build_eq_ok_iff user t).mp hbuild
  exact h.objectSize_eq hn

end CoolCompiler.ClassTable
