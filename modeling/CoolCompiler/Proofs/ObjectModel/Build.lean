import CoolCompiler.Proofs.ObjectModel.Links

/-!
# Class tables that were built

Building a class table succeeds exactly when the names of classes are distinct and not reserved,
every class but the root has a parent it may have, and the root is reached from every class.  Going
down from the root then fills in every node, with what the classes on the way down to it make of
what is handed to them.
-/

namespace CoolCompiler.ClassTable

open List

def lineage (classes : List Class) (parents : List (Option Nat)) (tag : Nat) : List Class :=
  (upwards parents (classes.length + 1) tag).filterMap (fun t => classes[t]?)

def assemble (classes : List Class) (parents : List (Option Nat)) : ClassTable :=
  ⟨buildDispatchTables (buildLayouts (link classes parents).nodes)⟩

/-- The table `t` of the classes `user`, whose parents by tag are `parents`. -/
structure Built (user : List Class) (parents : List (Option Nat)) (t : ClassTable) : Prop
    extends Linked (Class.builtin ++ user) parents t where
  rooted : ∀ tag, tag < parents.length → ∃ line, Ascent parents tag line
  assembled : t = assemble (Class.builtin ++ user) parents

/-!
# The checks of a build

Each check is read as a statement about all classes.
-/

theorem nameFault?_eq_none_iff (seen : List Name) (classes : List Class) :
    nameFault? seen classes = none ↔
      (∀ c ∈ classes, isReserved c.name = false) ∧ (classes.map Class.name).Nodup ∧
        ∀ c ∈ classes, c.name ∉ seen := by
  induction classes generalizing seen with
  | nil => simp [nameFault?]
  | cons c cs ih =>
    cases hr : isReserved c.name with
    | true => simp [nameFault?, hr]
    | false =>
      by_cases hs : c.name ∈ seen
      · simp [nameFault?, hr, hs]
      · simp only [nameFault?, hr, Bool.false_eq_true, if_false, hs, ih, mem_cons,
          map_cons, nodup_cons, mem_map]
        constructor
        · rintro ⟨hres, hnodup, hseen⟩
          refine ⟨?_, ⟨?_, hnodup⟩, ?_⟩
          · rintro d (rfl | hd)
            · exact hr
            · exact hres d hd
          · rintro ⟨d, hd, hname⟩
            exact hseen d hd (Or.inl hname)
          · rintro d (rfl | hd)
            · exact hs
            · exact fun hmem => hseen d hd (Or.inr hmem)
        · rintro ⟨hres, ⟨hfresh, hnodup⟩, hseen⟩
          refine ⟨fun d hd => hres d (Or.inr hd), hnodup, ?_⟩
          rintro d hd (hname | hmem)
          · exact hfresh ⟨d, hd, hname⟩
          · exact hseen d (Or.inr hd) hmem

theorem mapM_eq_ok_iff {α β ε : Type} (f : α → Except ε β) (l : List α) (r : List β) :
    l.mapM f = .ok r ↔ l.map f = r.map .ok := by
  induction l generalizing r with
  | nil => cases r <;> simp [pure, Except.pure]
  | cons a l ih =>
    rw [mapM_cons, map_cons]
    cases f a with
    | error e => cases r <;> simp [bind, Except.bind]
    | ok b =>
      cases r with
      | nil => cases l.mapM f <;> simp [bind, Except.bind, pure, Except.pure]
      | cons b' r =>
        rw [map_cons, List.cons.injEq, ← ih r]
        cases l.mapM f <;> simp [bind, Except.bind, pure, Except.pure]

/-!
# Going down

At every moment some nodes are filled in and the others are not.  Going down from a class adds the
nodes of the classes below it to those that are.
-/

/-- The nodes with those at some tags filled in. -/
def partly (filled : ClassNode → ClassNode) (done : List Nat) (nodes : List ClassNode) :
    List ClassNode :=
  nodes.map fun n => if done.contains n.tag then filled n else n

section Descent

variable {σ : Type} (enter : σ → Class → σ) (fill : σ → ClassNode → ClassNode) (start : σ)

/-- What the classes from the root down to one make of what the root is handed. -/
def handed (classes : List Class) (parents : List (Option Nat)) (tag : Nat) : σ :=
  (lineage classes parents tag).reverse.foldl enter start

def filledNode (classes : List Class) (parents : List (Option Nat)) (n : ClassNode) : ClassNode :=
  fill (handed enter start classes parents n.tag) n

end Descent

namespace Linked

variable {classes : List Class} {parents : List (Option Nat)} {t : ClassTable} {n : ClassNode}
  {tag : Nat} {line : List Nat}

variable (h : Linked classes parents t)
include h

theorem lineage_eq_filterMap (hline : Ascent parents tag line) :
    lineage classes parents tag =
      line.filterMap fun x => classes[x]? := by
  have hle := hline.length_le
  rw [h.length_parents] at hle
  rw [lineage, hline.upwards_eq (by omega)]

theorem set_partly (filled : ClassNode → ClassNode) (done : List Nat)
    (hn : t.nodes[tag]? = some n) :
    (partly filled done t.nodes).set tag (filled n) = partly filled (done ++ [tag]) t.nodes := by
  apply ext_getElem?
  intro i
  rw [partly, partly, getElem?_set, length_map, getElem?_map, getElem?_map]
  by_cases hi : tag = i
  · subst hi
    have hlt := (List.getElem?_eq_some_iff.mp hn).1
    have htag := h.tag_of_getElem? hn
    rw [if_pos rfl, if_pos hlt, hn, Option.map_some, if_pos (by simp [htag])]
  · rw [if_neg hi]
    cases hm : t.nodes[i]? with
    | none => rfl
    | some m =>
      have htag : m.tag ≠ tag := by
        rw [h.tag_of_getElem? hm]
        exact fun heq => hi heq.symm
      simp [htag]

omit h in
theorem foldl_partly {depth : Nat} {filled : ClassNode → ClassNode}
    {step : List ClassNode → Nat → List ClassNode} (children done : List Nat)
    (hstep : ∀ child ∈ children, ∀ done, step (partly filled done t.nodes) child =
      partly filled (done ++ (t.below depth child).map ClassNode.tag) t.nodes) :
    children.foldl step (partly filled done t.nodes) =
      partly filled (done ++ (children.flatMap (t.below depth)).map ClassNode.tag) t.nodes := by
  induction children generalizing done with
  | nil => simp
  | cons child children ih =>
    rw [foldl_cons, hstep child mem_cons_self,
      ih _ fun d hd => hstep d (mem_cons_of_mem child hd), flatMap_cons, map_append, append_assoc]

section Descent

variable {σ : Type} (enter : σ → Class → σ) (fill : σ → ClassNode → ClassNode) (start : σ)

theorem handed_child {child : Nat} {c : Class} (hline : Ascent parents tag line)
    (hparent : parents[child]? = some (some tag)) (hc : classes[child]? = some c) :
    handed enter start classes parents child =
      enter (handed enter start classes parents tag) c := by
  rw [handed, handed, h.lineage_eq_filterMap hline, h.lineage_eq_filterMap (.step hparent hline),
    filterMap_cons_some hc, reverse_cons, foldl_append]
  rfl

theorem handed_root {c : Class} (hc : classes[0]? = some c) :
    handed enter start classes parents 0 = enter start c := by
  rw [handed, h.lineage_eq_filterMap (.root h.getElem?_root), filterMap_cons_some hc]
  rfl

variable (hbare : ∀ s n, (fill s n).bare = n.bare)
  (hover : ∀ s s' n, fill s (fill s' n) = fill s n)
include hbare hover

omit h in
/-- Filled in or not, a node is that of the same class with the same children. -/
theorem getElem?_partly (f : ClassNode → σ) (done : List Nat) (hn : t.nodes[tag]? = some n) :
    ∃ m, (partly (fun n => fill (f n) n) done t.nodes)[tag]? = some m ∧ m.bare = n.bare ∧
      ∀ s, fill s m = fill s n := by
  rw [partly, getElem?_map, hn, Option.map_some]
  refine ⟨_, rfl, ?_⟩
  split
  · exact ⟨hbare _ n, fun s => hover s _ n⟩
  · exact ⟨rfl, fun _ => rfl⟩

theorem descend_partly (depth : Nat) (inherited : σ) (hline : Ascent parents tag line)
    (hin : ∀ c, classes[tag]? = some c →
      enter inherited c = handed enter start classes parents tag)
    (done : List Nat) :
    descend enter fill depth inherited
        (partly (filledNode enter fill start classes parents) done t.nodes) tag =
      partly (filledNode enter fill start classes parents)
        (done ++ (t.below depth tag).map ClassNode.tag) t.nodes := by
  induction depth generalizing tag line inherited done with
  | zero => simp [descend, below]
  | succ depth ih =>
    rw [descend, below]
    cases hn : t.nodes[tag]? with
    | none => simp [partly, hn]
    | some n =>
      have hmem := mem_of_getElem? hn
      have htag := h.tag_of_getElem? hn
      have hown := hin n.decl (htag ▸ h.getElem?_decl hmem)
      obtain ⟨m, hm, hsame, hfill⟩ := getElem?_partly fill hbare hover
        (fun n => handed enter start classes parents n.tag) done hn
      have hdecl : m.decl = n.decl := by injection hsame
      have hchildren : m.children = n.children := by injection hsame
      have hnode : fill (enter inherited n.decl) n =
          filledNode enter fill start classes parents n := by
        rw [hown, filledNode, htag]
      unfold filledNode at *
      simp only [hm, hdecl, hchildren, hfill, hnode]
      rw [h.set_partly _ done hn, foldl_partly, map_cons, htag, append_assoc, singleton_append]
      intro child hchild done
      have hparent := (h.mem_children_iff hmem).mp hchild
      rw [htag] at hparent
      refine ih _ (.step hparent hline) ?_ done
      intro c hc
      rw [h.handed_child enter start hline hparent hc, hown]

/-- Going down from the root fills in every node, if all classes have the root above them. -/
theorem descend_root (hrooted : ∀ tag, tag < parents.length → ∃ line, Ascent parents tag line) :
    descend enter fill t.nodes.length start t.nodes 0 =
      t.nodes.map (filledNode enter fill start classes parents) := by
  have hdescend := h.descend_partly enter fill start hbare hover t.nodes.length start
    (.root h.getElem?_root) (fun c hc => (h.handed_root enter start hc).symm) []
  have hnone : partly (filledNode enter fill start classes parents) [] t.nodes =
      t.nodes := by
    simp [partly]
  rw [hnone] at hdescend
  rw [hdescend, partly, nil_append]
  apply map_congr_left
  intro n hn
  have hmem : n ∈ t.preorder := h.mem_preorder_iff_ascent.mpr ⟨hn, hrooted n.tag (h.tag_lt hn)⟩
  exact if_pos (contains_iff_mem.mpr (mem_map_of_mem hmem))

omit hover in
theorem map_filled (f : ClassNode → σ) :
    Linked classes parents ⟨t.nodes.map fun n => fill (f n) n⟩ := by
  refine ⟨h.first, h.unreserved, h.distinct, h.linked, ?_⟩
  rw [map_map, ← h.bare]
  exact map_congr_left fun n _ => hbare (f n) n

end Descent
end Linked

/-!
# Success
-/

theorem linked_link {classes : List Class} {parents : List (Option Nat)}
    (hfirst : classes[0]?.map Class.name = some Name.object)
    (hunreserved : ∀ c ∈ classes, isReserved c.name = false)
    (hdistinct : (classes.map Class.name).Nodup)
    (hlinked : classes.map (parentTag classes) = parents.map .ok) :
    Linked classes parents (link classes parents) := by
  refine ⟨hfirst, hunreserved, hdistinct, hlinked, ?_⟩
  apply ext_getElem?
  intro tag
  rw [getElem?_map, link, getElem?_mapIdx, Option.map_map]
  rfl

variable {user : List Class} {parents : List (Option Nat)} {t : ClassTable} {n : ClassNode}

/-- The nodes of a table with all that is filled in. -/
def filledNodes (classes : List Class) (parents : List (Option Nat)) : List ClassNode :=
  ((link classes parents).nodes.map
    (filledNode Layout.extend Layout.fill ⟨[], headerSize⟩ classes parents)).map
    (filledNode defineAll fillDispatch [] classes parents)

theorem Linked.assemble_eq {classes : List Class}
    (h : Linked classes parents (link classes parents))
    (hrooted : ∀ tag, tag < parents.length → ∃ line, Ascent parents tag line) :
    assemble classes parents = ⟨filledNodes classes parents⟩ := by
  have hlayouts := h.descend_root Layout.extend Layout.fill ⟨[], headerSize⟩ (fun _ _ => rfl)
    (fun _ _ _ => rfl) hrooted
  have h' := h.map_filled Layout.fill (fun _ _ => rfl) fun n =>
    handed Layout.extend ⟨[], headerSize⟩ classes parents n.tag
  rw [assemble, buildLayouts, hlayouts, buildDispatchTables]
  exact congrArg ClassTable.mk
    (h'.descend_root defineAll fillDispatch [] (fun _ _ => rfl) (fun _ _ _ => rfl) hrooted)

theorem Linked.built (h : Linked (Class.builtin ++ user) parents
      (link (Class.builtin ++ user) parents))
    (hrooted : ∀ tag, tag < parents.length → ∃ line, Ascent parents tag line) :
    Built user parents (assemble (Class.builtin ++ user) parents) := by
  refine ⟨⟨rfl, h.unreserved, h.distinct, h.linked, ?_⟩, hrooted, rfl⟩
  rw [h.assemble_eq hrooted, filledNodes, map_map, map_map]
  exact (map_congr_left fun n _ => rfl).trans h.bare

theorem build_eq_ok_iff (user : List Class) (t : ClassTable) :
    build user = .ok t ↔ ∃ parents, Built user parents t := by
  have hunfold : build user = .ok t ↔
      nameFault? [] (Class.builtin ++ user) = none ∧
        ∃ parents, (Class.builtin ++ user).mapM (parentTag (Class.builtin ++ user)) = .ok parents ∧
          (link (Class.builtin ++ user) parents).unreachable? = none ∧
            assemble (Class.builtin ++ user) parents = t := by
    dsimp only [build]
    generalize Class.builtin ++ user = classes
    cases nameFault? [] classes with
    | some fault => simp
    | none =>
      cases classes.mapM (parentTag classes) with
      | error fault => simp
      | ok parents =>
        cases hu : (link classes parents).unreachable? with
        | some n => simp [hu]
        | none => simp [hu, assemble]
  rw [hunfold, nameFault?_eq_none_iff]
  constructor
  · rintro ⟨⟨hres, hnodup, _⟩, parents, hm, hu, rfl⟩
    have h := linked_link rfl hres hnodup ((mapM_eq_ok_iff _ _ _).mp hm)
    exact ⟨parents, h.built (h.unreachable?_eq_none_iff.mp hu)⟩
  · rintro ⟨parents, h⟩
    have hlink := linked_link rfl h.unreserved h.distinct h.linked
    exact ⟨⟨h.unreserved, h.distinct, by simp⟩, parents, (mapM_eq_ok_iff _ _ _).mpr h.linked,
      hlink.unreachable?_eq_none_iff.mpr h.rooted, h.assembled.symm⟩

/-!
# What a build depends on

Whether a table is built, and with which parents, hangs on the names of classes and parents only.
-/

def heading (c : Class) : Name × Name := (c.name, c.parentName)

def tagIn (names : List Name) (head : Name × Name) : Except Fault (Option Nat) :=
  if head.1 = Name.object then .ok none
  else
    match names.findIdx? (fun c => c == head.2) with
    | none => .error (.internal head.1 (.undefinedParent head.2))
    | some tag =>
      if Name.isInheritable head.2 then .ok (some tag)
      else .error (.internal head.1 (.cannotInherit head.2))

theorem map_parentTag_eq {classes others : List Class}
    (hsame : classes.map heading = others.map heading) :
    classes.map (parentTag classes) = others.map (parentTag others) := by
  have hnames : classes.map Class.name = others.map Class.name := by
    simpa [heading, Function.comp_def] using congrArg (List.map Prod.fst) hsame
  have htag : ∀ classes : List Class,
      parentTag classes = tagIn (classes.map Class.name) ∘ heading := by
    intro classes
    funext c
    simp only [tagIn, Function.comp, heading, parentTag, tagOf?, findIdx?_map]
    rfl
  rw [htag classes, htag others, ← map_map, ← map_map, hsame, hnames]

theorem Built.of_heading {others : List Class} (h : Built user parents t)
    (hsame : others.map heading = user.map heading) :
    Built others parents (assemble (Class.builtin ++ others) parents) := by
  have hall : (Class.builtin ++ others).map heading = (Class.builtin ++ user).map heading := by
    rw [map_append, map_append, hsame]
  have hnames :
      (Class.builtin ++ others).map Class.name = (Class.builtin ++ user).map Class.name := by
    simpa [heading, Function.comp_def] using congrArg (List.map Prod.fst) hall
  refine (linked_link rfl ?_ ?_ ?_).built h.rooted
  · intro c hc
    have hmem : c.name ∈ (Class.builtin ++ user).map Class.name := by
      rw [← hnames]
      exact mem_map_of_mem hc
    obtain ⟨d, hd, hname⟩ := mem_map.mp hmem
    rw [← hname]
    exact h.unreserved d hd
  · rw [hnames]
    exact h.distinct
  · rw [map_parentTag_eq hall]
    exact h.linked

/-!
# Nodes

What the node of a class holds comes from the classes on the way up from it.
-/

namespace Built

variable (h : Built user parents t)
include h

theorem filled (hn : n ∈ t.nodes) :
    n.layout = (handed Layout.extend ⟨[], headerSize⟩ (Class.builtin ++ user) parents n.tag).slots ∧
    n.objectSize =
      (handed Layout.extend ⟨[], headerSize⟩ (Class.builtin ++ user) parents n.tag).next ∧
    n.dispatch = handed defineAll [] (Class.builtin ++ user) parents n.tag := by
  have hassemble := (linked_link rfl h.unreserved h.distinct h.linked).assemble_eq h.rooted
  rw [h.assembled, hassemble, filledNodes, map_map] at hn
  obtain ⟨m, _, rfl⟩ := mem_map.mp hn
  exact ⟨rfl, rfl, rfl⟩

theorem exists_ascent (hn : n ∈ t.nodes) : ∃ line, Ascent parents n.tag line :=
  h.rooted n.tag (h.tag_lt hn)

theorem mem_preorder_iff : n ∈ t.preorder ↔ n ∈ t.nodes := by
  rw [h.mem_preorder_iff_ascent]
  exact ⟨fun hn => hn.1, fun hn => ⟨hn, h.exists_ascent hn⟩⟩

theorem lineage_eq (hn : n ∈ t.nodes) :
    lineage (Class.builtin ++ user) parents n.tag = (t.chain n).map ClassNode.decl := by
  obtain ⟨line, hline⟩ := h.exists_ascent hn
  rw [h.lineage_eq_filterMap hline, h.chain_eq hline, map_filterMap, ← h.map_decl]
  simp only [getElem?_map]

/-!
# Chains of nodes
-/

theorem chain_cons (hn : n ∈ t.nodes) : t.chain n = n :: ((t.parentOf? n).map t.chain).getD [] := by
  obtain ⟨line, hline⟩ := h.exists_ascent hn
  have htag := h.getElem?_tag hn
  have hparent := h.getElem?_parents hn
  rw [h.chain_eq hline]
  cases hline with
  | root hp =>
    have hnone : n.parent = none := by
      rw [hparent] at hp
      exact Option.some.inj hp
    simp [htag, parentOf?, hnone]
  | @step _ parent line hp hrest =>
    have hsome : n.parent = some parent := by
      rw [hparent] at hp
      exact Option.some.inj hp
    have hlt : parent < t.nodes.length := by
      have hlt := Ascent.lt_length hrest hrest.mem_self
      rwa [← h.size_eq] at hlt
    have hget := getElem?_eq_getElem hlt
    have hptag : (t.nodes[parent]).tag = parent := h.tag_of_getElem? hget
    have hchain := h.chain_eq (n := t.nodes[parent]) (hptag.symm ▸ hrest)
    simp [htag, parentOf?, hsome, hget, hchain]

theorem parentOf?_cases (hn : n ∈ t.nodes) :
    n.name = Name.object ∧ t.parentOf? n = none ∨
      n.name ≠ Name.object ∧
        ∃ p ∈ t.nodes, t.parentOf? n = some p ∧ p.name = n.decl.parentName := by
  obtain ⟨parent, hget, htag⟩ := linked_getElem? h.linked (h.getElem?_decl hn)
  have hparent : n.parent = parent := by
    rw [h.getElem?_parents hn] at hget
    exact Option.some.inj hget
  unfold parentTag at htag
  split at htag
  · rename_i hname
    cases htag
    exact .inl ⟨hname, by rw [parentOf?, hparent]; rfl⟩
  · rename_i hname
    refine .inr ⟨hname, ?_⟩
    split at htag
    · cases htag
    · rename_i tag hfind
      split at htag
      · cases htag
        rw [tagOf?, findIdx?_eq_some_iff_getElem] at hfind
        obtain ⟨hlt, hfound, _⟩ := hfind
        have hlt' := hlt
        rw [← h.length_parents, ← h.size_eq] at hlt'
        have hp := getElem?_eq_getElem hlt'
        have hdecl := h.getElem?_decl (getElem_mem hlt')
        rw [h.tag_of_getElem? hp, getElem?_eq_getElem hlt] at hdecl
        refine ⟨_, getElem_mem hlt', ?_, ?_⟩
        · rw [parentOf?, hparent]
          exact hp
        · rw [ClassNode.name, ← Option.some.inj hdecl]
          exact beq_iff_eq.mp hfound
      · cases htag

theorem mem_chain_self (hn : n ∈ t.nodes) : n ∈ t.chain n := by
  rw [h.chain_cons hn]
  exact mem_cons_self

omit h in
theorem mem_nodes_of_mem_chain (t : ClassTable) {a : ClassNode} (ha : a ∈ t.chain n) :
    a ∈ t.nodes := by
  obtain ⟨tag, _, htag⟩ := mem_filterMap.mp ha
  exact mem_of_getElem? htag

theorem chain_suffix (hn : n ∈ t.nodes) {a : ClassNode} (ha : a ∈ t.chain n) :
    t.chain a <:+ t.chain n := by
  obtain ⟨line, hline⟩ := h.exists_ascent hn
  rw [h.chain_eq hline] at ha
  obtain ⟨tag, htag, hget⟩ := mem_filterMap.mp ha
  obtain ⟨rest, hrest, hsuffix⟩ := hline.suffix_of_mem htag
  rw [← h.tag_of_getElem? hget] at hrest
  rw [h.chain_eq hline, h.chain_eq hrest]
  exact hsuffix.filterMap _

theorem getElem?_tree {tag : Nat} {parent : Option Nat} (hp : parents[tag]? = some parent) :
    t.tree[tag]? = some ⟨tag, (parent.map fun (p : Nat) => ((p : Int) - tag) * 4).getD 0⟩ := by
  have hlt := (List.getElem?_eq_some_iff.mp hp).1
  rw [← h.size_eq] at hlt
  have hget := getElem?_eq_getElem hlt
  have htag := h.tag_of_getElem? hget
  have hparent := h.getElem?_parents (mem_of_getElem? hget)
  rw [htag, hp] at hparent
  rw [tree, getElem?_map, hget, Option.map_some, rowOf, htag, ← Option.some.inj hparent]
  cases parent <;> rfl

end Built

end CoolCompiler.ClassTable
