import CoolCompiler.Proofs.ObjectModel.Build
import CoolCompiler.Proofs.Passes

/-!
# Matching a case

Selecting a branch climbs the rows of the inheritance tree by their deltas to the tag of a branch,
or to the root.  The climb ends, and the branch is for the nearest class above the start.
-/

namespace CoolCompiler

open List

theorem findSome?_eq_some_iff_getElem? {α β : Type} {f : α → Option β} {l : List α} {b : β} :
    l.findSome? f = some b ↔
      ∃ (d : Nat) (a : α), l[d]? = some a ∧ f a = some b ∧
        ∀ j, j < d → ∀ x, l[j]? = some x → f x = none := by
  rw [findSome?_eq_some_iff]
  constructor
  · rintro ⟨front, a, back, rfl, ha, hfront⟩
    refine ⟨front.length, a, by simp, ha, fun j hj x hx => hfront x ?_⟩
    rw [getElem?_append_left hj] at hx
    exact mem_of_getElem? hx
  · rintro ⟨d, a, hd, ha, hbefore⟩
    obtain ⟨hlt, rfl⟩ := List.getElem?_eq_some_iff.mp hd
    refine ⟨l.take d, l[d], l.drop (d + 1), ?_, ha, fun x hx => ?_⟩
    · rw [← drop_eq_getElem_cons, take_append_drop]
    · obtain ⟨j, hj, rfl⟩ := mem_take_iff_getElem.mp hx
      exact hbefore j (by omega) _ (getElem?_eq_getElem _)

namespace ClassTable

/-!
# Distances
-/

/-- So many parent links lead from one class up to another, each from a class to the parent
that it names. -/
inductive Links (classes : List Class) : Nat → Name → Name → Prop where
  | here {c : Class} : c ∈ classes → Links classes 0 c.name c.name
  | up {c : Class} {super : Name} {d : Nat} :
      c ∈ classes → Links classes d c.parentName super → Links classes (d + 1) c.name super

namespace Built

variable {user : List Class} {parents : List (Option Nat)} {t : ClassTable} {n a : ClassNode}
  {d : Nat} {c : Name}

variable (h : Built user parents t)
include h

theorem map_tag_chain {line : List Nat} (hline : Ascent parents n.tag line) :
    (t.chain n).map ClassNode.tag = line := by
  have htag : ∀ x ∈ line, (t.nodes[x]?.map ClassNode.tag) = some x := by
    intro x hx
    have hlt := hline.lt_length hx
    rw [← h.size_eq] at hlt
    have hget := getElem?_eq_getElem hlt
    rw [hget, Option.map_some, h.tag_of_getElem? hget]
  rw [h.chain_eq hline, map_filterMap, filterMap_congr htag]
  exact filterMap_some

theorem nodup_chain (hn : n ∈ t.nodes) : (t.chain n).Nodup := by
  obtain ⟨line, hline⟩ := h.exists_ascent hn
  apply List.Nodup.of_map ClassNode.tag
  rw [h.map_tag_chain hline]
  exact hline.nodup

theorem distance?_eq_some_iff (hn : n ∈ t.nodes) :
    t.distance? n.name c = some d ↔ ∃ a, (t.chain n)[d]? = some a ∧ a.name = c := by
  rw [distance?, h.find?_eq_some_iff.mpr ⟨hn, rfl⟩]
  simp only [findIdx?_eq_some_iff_getElem, beq_iff_eq]
  constructor
  · rintro ⟨hlt, hname, _⟩
    exact ⟨_, getElem?_eq_getElem hlt, hname⟩
  · rintro ⟨a, hget, rfl⟩
    obtain ⟨hlt, ha⟩ := List.getElem?_eq_some_iff.mp hget
    refine ⟨hlt, by rw [ha], ?_⟩
    intro j hj hname
    have hmem : ∀ {k : Nat} (hk : k < (t.chain n).length), (t.chain n)[k] ∈ t.nodes :=
      fun hk => mem_nodes_of_mem_chain t (getElem_mem hk)
    have hsame := h.eq_of_name_eq (hmem (Nat.lt_trans hj hlt)) (hmem hlt) (by rw [hname, ha])
    exact absurd ((List.Nodup.getElem_inj_iff (h.nodup_chain hn)).mp hsame) (Nat.ne_of_lt hj)

theorem distance?_eq_some_iff_of_mem (hn : n ∈ t.nodes) (ha : a ∈ t.nodes) :
    t.distance? n.name a.name = some d ↔ (t.chain n)[d]? = some a := by
  rw [h.distance?_eq_some_iff hn]
  constructor
  · rintro ⟨a', hget, hname⟩
    have hmem := mem_nodes_of_mem_chain t (mem_of_getElem? hget)
    rwa [h.eq_of_name_eq hmem ha hname] at hget
  · exact fun hget => ⟨a, hget, rfl⟩

theorem mem_classes (hn : n ∈ t.nodes) : n.decl ∈ Class.builtin ++ user := by
  rw [← h.map_decl]
  exact mem_map_of_mem hn

theorem exists_node {decl : Class} (hdecl : decl ∈ Class.builtin ++ user) :
    ∃ n ∈ t.nodes, n.decl = decl := by
  rw [← h.map_decl] at hdecl
  exact mem_map.mp hdecl

theorem parentName_root (hn : n ∈ t.nodes) (hroot : n.name = Name.object) :
    n.decl.parentName = Name.noClass := by
  have hobject : Class.builtin.head (by decide) ∈ Class.builtin ++ user :=
    mem_append_left _ (head_mem _)
  obtain ⟨root, hmem, hdecl⟩ := h.exists_node hobject
  have hname : root.name = Name.object := by
    rw [ClassNode.name, hdecl]
    rfl
  rw [h.eq_of_name_eq hn hmem (hroot.trans hname.symm), hdecl]
  rfl

theorem links_of_chain (hn : n ∈ t.nodes) (ha : (t.chain n)[d]? = some a) :
    Links (Class.builtin ++ user) d n.name a.name := by
  induction d generalizing n with
  | zero =>
    rw [h.chain_cons hn] at ha
    cases ha
    exact .here (h.mem_classes hn)
  | succ d ih =>
    rw [h.chain_cons hn, getElem?_cons_succ] at ha
    rcases h.parentOf?_cases hn with ⟨_, hnone⟩ | ⟨_, p, hp, hparent, hname⟩
    · rw [hnone] at ha
      simp at ha
    · rw [hparent] at ha
      have hrest := ih hp ha
      rw [hname] at hrest
      exact .up (h.mem_classes hn) hrest

theorem chain_of_links {sub super : Name} (hlinks : Links (Class.builtin ++ user) d sub super) :
    ∃ n ∈ t.nodes, n.name = sub ∧ ∃ a, (t.chain n)[d]? = some a ∧ a.name = super := by
  induction hlinks with
  | here hc =>
    obtain ⟨n, hn, rfl⟩ := h.exists_node hc
    refine ⟨n, hn, rfl, n, ?_, rfl⟩
    rw [h.chain_cons hn]
    rfl
  | up hc _ ih =>
    obtain ⟨n, hn, rfl⟩ := h.exists_node hc
    obtain ⟨p, hp, hname, a, ha, hsuper⟩ := ih
    refine ⟨n, hn, rfl, a, ?_, hsuper⟩
    rw [h.chain_cons hn, getElem?_cons_succ]
    rcases h.parentOf?_cases hn with ⟨hroot, _⟩ | ⟨_, q, hq, hparent, hqname⟩
    · -- The parent that the root names is reserved, so no class leads on from it.
      have hfree := h.unreserved _ (h.mem_classes hp)
      change isReserved p.name = false at hfree
      rw [hname, h.parentName_root hn hroot] at hfree
      cases hfree
    · rw [hparent, h.eq_of_name_eq hq hp (hqname.trans hname.symm)]
      exact ha

theorem distance?_eq_some_iff_links {sub super : Name} :
    t.distance? sub super = some d ↔ Links (Class.builtin ++ user) d sub super := by
  constructor
  · intro hdistance
    have hfind : ∃ n, t.find? sub = some n := by
      rw [distance?] at hdistance
      split at hdistance
      · cases hdistance
      · exact ⟨_, by assumption⟩
    obtain ⟨n, hfind⟩ := hfind
    obtain ⟨hn, rfl⟩ := h.find?_eq_some_iff.mp hfind
    obtain ⟨a, ha, rfl⟩ := (h.distance?_eq_some_iff hn).mp hdistance
    exact h.links_of_chain hn ha
  · intro hlinks
    obtain ⟨n, hn, rfl, hchain⟩ := h.chain_of_links hlinks
    exact (h.distance?_eq_some_iff hn).mpr hchain

end Built

/-!
# Walks

The climb as a loop without bound.  Every row that it looks at is one of the table.
-/

/-- The walk up from a place of an inheritance tree that looks at so many rows, with the
branch that it finds. -/
inductive Walk (rows : List TreeRow) (branches : List Int) : Nat → Int → Option Nat → Prop where
  | found {k : Nat} {row : TreeRow} {i : Nat} :
      rows[k]? = some row → branches.idxOf? (row.tag : Int) = some i →
      Walk rows branches 1 (k * rowSize) (some i)
  | ended {k : Nat} {row : TreeRow} :
      rows[k]? = some row → branches.idxOf? (row.tag : Int) = none → row.delta = 0 →
      Walk rows branches 1 (k * rowSize) none
  | up {k : Nat} {row : TreeRow} {steps : Nat} {r : Option Nat} :
      rows[k]? = some row → branches.idxOf? (row.tag : Int) = none → row.delta ≠ 0 →
      Walk rows branches steps (k * rowSize + row.delta) r →
      Walk rows branches (steps + 1) (k * rowSize) r

variable {rows : List TreeRow} {branches : List Int}

theorem climbTree_row {row : TreeRow} {tag : Nat} (h : rows[tag]? = some row)
    (branches : List Int) (steps : Nat) :
    climbTree rows branches (steps + 1) (tag * 4) =
      (branches.idxOf? (row.tag : Int)).or
        (if row.delta = 0 then none
        else climbTree rows branches steps (tag * 4 + row.delta)) := by
  have hplace : ((tag : Int) * 4 / (rowSize : Int)).toNat = tag := by
    show ((tag : Int) * 4 / 4).toNat = tag
    omega
  rw [climbTree, hplace, h]
  cases hfind : branches.idxOf? (row.tag : Int) <;> simp only [hfind, Option.or]

theorem Walk.climbTree_eq {steps bound : Nat} {place : Int} {r : Option Nat}
    (h : Walk rows branches steps place r) (hbound : steps ≤ bound) :
    climbTree rows branches bound place = r := by
  induction h generalizing bound with
  | found hrow hfind =>
    cases bound with
    | zero => cases hbound
    | succ bound =>
      have hclimb := climbTree_row hrow branches bound
      rw [hfind] at hclimb
      exact hclimb
  | ended hrow hfind hdelta =>
    cases bound with
    | zero => cases hbound
    | succ bound =>
      have hclimb := climbTree_row hrow branches bound
      rw [hfind, if_pos hdelta] at hclimb
      exact hclimb
  | up hrow hfind hdelta _ ih =>
    cases bound with
    | zero => cases hbound
    | succ bound =>
      have hclimb := climbTree_row hrow branches bound
      rw [hfind, if_neg hdelta] at hclimb
      exact hclimb.trans (ih (Nat.le_of_succ_le_succ hbound))

namespace Built

variable {user : List Class} {parents : List (Option Nat)} {t : ClassTable} {n : ClassNode}

theorem exists_walk (h : Built user parents t) (branches : List Int) {tag : Nat} {line : List Nat}
    (hline : Ascent parents tag line) :
    ∃ steps, steps ≤ line.length ∧ Walk t.tree branches steps (tag * rowSize)
      (line.findSome? fun x : Nat => branches.idxOf? (x : Int)) := by
  induction hline with
  | @root tag hp =>
    have hrow := h.getElem?_tree hp
    refine ⟨1, Nat.le_refl 1, ?_⟩
    rw [findSome?_singleton]
    cases hfind : branches.idxOf? (tag : Int) with
    | some i => exact .found hrow hfind
    | none => exact .ended hrow hfind rfl
  | @step tag parent line hp hrest ih =>
    have hrow := h.getElem?_tree hp
    rw [findSome?_cons]
    cases hfind : branches.idxOf? (tag : Int) with
    | some i => exact ⟨1, Nat.succ_le_succ (Nat.zero_le _), .found hrow hfind⟩
    | none =>
      obtain ⟨steps, hsteps, hwalk⟩ := ih
      -- A delta of zero would make the class its own parent.
      have hne : parent ≠ tag := by
        rintro rfl
        exact (nodup_cons.mp (Climb.step hp hrest).nodup).1 hrest.mem_self
      have hdelta : ((parent : Int) - tag) * 4 ≠ 0 := by omega
      have hup : (tag : Int) * rowSize + ((parent : Int) - tag) * 4 = parent * rowSize := by
        show (tag : Int) * 4 + ((parent : Int) - tag) * 4 = parent * 4
        omega
      rw [← hup] at hwalk
      exact ⟨steps + 1, Nat.succ_le_succ hsteps, .up hrow hfind hdelta hwalk⟩

theorem exists_walk_matchCase (h : Built user parents t) (hn : n ∈ t.nodes)
    (branches : List Int) :
    t.matchCase n.tag branches = (t.chain n).findSome? (fun a => branches.idxOf? (a.tag : Int)) ∧
      ∃ steps, Walk t.tree branches steps (n.tag * rowSize) (t.matchCase n.tag branches) := by
  obtain ⟨line, hline⟩ := h.exists_ascent hn
  obtain ⟨steps, hsteps, hwalk⟩ := h.exists_walk branches hline
  have hlt := h.tag_lt hn
  have hbound : steps ≤ t.size := by
    rw [h.size_eq]
    exact Nat.le_trans hsteps hline.length_le
  rw [← h.size_eq] at hlt
  have hmatch : t.matchCase n.tag branches =
      line.findSome? fun x : Nat => branches.idxOf? (x : Int) := by
    rw [matchCase, if_pos ⟨Int.natCast_nonneg _, Int.ofNat_lt.mpr hlt⟩]
    exact hwalk.climbTree_eq hbound
  refine ⟨?_, steps, hmatch ▸ hwalk⟩
  rw [hmatch, ← h.map_tag_chain hline, findSome?_map]
  rfl

theorem exists_walk_iff (h : Built user parents t) (hn : n ∈ t.nodes) {r : Option Nat} :
    (∃ steps, Walk t.tree branches steps (n.tag * rowSize) r) ↔
      t.matchCase n.tag branches = r := by
  obtain ⟨steps, hwalk⟩ := (h.exists_walk_matchCase hn branches).2
  constructor
  · rintro ⟨steps', hwalk'⟩
    have hfirst := hwalk.climbTree_eq (Nat.le_add_right steps steps')
    exact hfirst.symm.trans (hwalk'.climbTree_eq (Nat.le_add_left steps' steps))
  · rintro rfl
    exact ⟨steps, hwalk⟩

end Built

/-!
# The branch that is selected
-/

theorem idxOf?_eq_some_iff_getElem? {x : Int} {i : Nat} :
    branches.idxOf? x = some i ↔
      branches[i]? = some x ∧ ∀ j, j < i → branches[j]? ≠ some x := by
  rw [idxOf?_eq_some_iff]
  constructor
  · rintro ⟨hlt, hi, hbefore⟩
    refine ⟨List.getElem?_eq_some_iff.mpr ⟨hlt, hi⟩, ?_⟩
    intro j hj hget
    exact hbefore j hj (List.getElem?_eq_some_iff.mp hget).2
  · rintro ⟨hget, hbefore⟩
    obtain ⟨hlt, hi⟩ := List.getElem?_eq_some_iff.mp hget
    refine ⟨hlt, hi, ?_⟩
    intro j hj hj'
    exact hbefore j hj (List.getElem?_eq_some_iff.mpr ⟨Nat.lt_trans hj hlt, hj'⟩)

/-- The branch of a case is that of the most specific class.  Distances count parent links.  From
the row of every class the walk for any branches ends with what `matchCase` returns: the first
branch with the tag of a class above, such that no branch has the tag of one less far up, or none
if there is no such class. -/
theorem matchCase_most_specific {user : List Class} {t : ClassTable} (hbuild : build user = .ok t) :
    (∀ sub super d,
      t.distance? sub super = some d ↔ Links (Class.builtin ++ user) d sub super) ∧
    ∀ n ∈ t.nodes, ∀ branches : List Int,
      (∀ r, (∃ steps, Walk t.tree branches steps (n.tag * rowSize) r) ↔
        t.matchCase n.tag branches = r) ∧
      (∀ i, t.matchCase n.tag branches = some i ↔
        ∃ a ∈ t.nodes, ∃ d, t.distance? n.name a.name = some d ∧
          branches[i]? = some (a.tag : Int) ∧ (∀ j, j < i → branches[j]? ≠ some (a.tag : Int)) ∧
          ∀ b ∈ t.nodes, (b.tag : Int) ∈ branches →
            ∀ d', t.distance? n.name b.name = some d' → d ≤ d') ∧
      (t.matchCase n.tag branches = none ↔
        ∀ a ∈ t.nodes, (a.tag : Int) ∈ branches → t.distance? n.name a.name = none) := by
  rcases (build_eq_ok_iff user t).mp hbuild with ⟨parents, h⟩
  refine ⟨fun sub super d => h.distance?_eq_some_iff_links, ?_⟩
  intro n hn branches
  have hmatch := (h.exists_walk_matchCase hn branches).1
  refine ⟨fun r => h.exists_walk_iff hn, ?_, ?_⟩
  · intro i
    rw [hmatch, findSome?_eq_some_iff_getElem?]
    constructor
    · rintro ⟨d, a, ha, hi, hbefore⟩
      have hmem := Built.mem_nodes_of_mem_chain t (mem_of_getElem? ha)
      rcases idxOf?_eq_some_iff_getElem?.mp hi with ⟨hget, hfirst⟩
      refine ⟨a, hmem, d, (h.distance?_eq_some_iff_of_mem hn hmem).mpr ha, hget, hfirst, ?_⟩
      intro b hb hbranch d' hd'
      by_contra hlt
      have hnone := hbefore d' (by omega) b ((h.distance?_eq_some_iff_of_mem hn hb).mp hd')
      exact idxOf?_eq_none_iff.mp hnone hbranch
    · rintro ⟨a, hmem, d, hd, hget, hfirst, hleast⟩
      refine ⟨d, a, (h.distance?_eq_some_iff_of_mem hn hmem).mp hd,
        idxOf?_eq_some_iff_getElem?.mpr ⟨hget, hfirst⟩, ?_⟩
      intro j hj x hx
      have hxmem := Built.mem_nodes_of_mem_chain t (mem_of_getElem? hx)
      rw [idxOf?_eq_none_iff]
      intro hbranch
      have hle := hleast x hxmem hbranch j ((h.distance?_eq_some_iff_of_mem hn hxmem).mpr hx)
      omega
  · rw [hmatch, findSome?_eq_none_iff]
    constructor
    · intro hnone a ha hbranch
      rw [Option.eq_none_iff_forall_ne_some]
      intro d hd
      have hchain := mem_of_getElem? ((h.distance?_eq_some_iff_of_mem hn ha).mp hd)
      exact idxOf?_eq_none_iff.mp (hnone a hchain) hbranch
    · intro hnone a ha
      rw [idxOf?_eq_none_iff]
      intro hbranch
      have hmem := Built.mem_nodes_of_mem_chain t ha
      rcases getElem?_of_mem ha with ⟨d, hd⟩
      have hsome := (h.distance?_eq_some_iff_of_mem hn hmem).mpr hd
      rw [hnone a hmem hbranch] at hsome
      cases hsome

def nestedClasses : List Class :=
  [⟨1, "B", some "A", [], "nested.cl"⟩, ⟨2, "A", none, [], "nested.cl"⟩,
   ⟨3, "C", some "B", [], "nested.cl"⟩]

theorem matchCase_most_specific_nested :
    ∃ t c a, build nestedClasses = .ok t ∧ t.find? "C" = some c ∧ t.find? "A" = some a ∧
      t.matchCase c.tag [0, a.tag, 99, a.tag, 2] = some 1 ∧
      Links (Class.builtin ++ nestedClasses) 2 "C" "A" ∧
      ∃ steps, Walk t.tree [0, a.tag, 99, a.tag, 2] steps (c.tag * rowSize) (some 1) := by
  have hcheck : (passes (build nestedClasses) fun t =>
      (t.find? "C").any fun c => (t.find? "A").any fun a =>
        t.distance? "C" "A" == some 2 &&
          t.matchCase c.tag [0, a.tag, 99, a.tag, 2] == some 1) = true := by
    decide +kernel
  simp only [passes_iff, Option.any_eq_true, Bool.and_eq_true, beq_iff_eq] at hcheck
  rcases hcheck with ⟨t, hbuild, c, hc, a, ha, hdistance, hmatch⟩
  have hspecific := matchCase_most_specific hbuild
  have hwalk := (hspecific.2 c (mem_of_find?_eq_some hc) [0, a.tag, 99, a.tag, 2]).1
  exact ⟨t, c, a, hbuild, hc, ha, hmatch, (hspecific.1 _ _ _).mp hdistance,
    (hwalk _).mpr hmatch⟩

end ClassTable
end CoolCompiler
