import CoolCompiler.Proofs.ObjectModel.Build
import CoolCompiler.Proofs.Passes

/-!
# Dispatch tables

A class and those below it have the methods that they share at the same place of their dispatch
tables, and an entry leads to the nearest class that declares the method.  So a call can go through
the table of the receiver at a place known from the static type.
-/

namespace CoolCompiler

open List

namespace Class

def declaresMethod (c : Class) (m : Name) : Bool :=
  c.methods.any (fun d => d.name == m)

end Class

namespace ClassTable

/-!
# Places

Putting methods into a table moves no entry, so its name and place are kept by all that is done
later.
-/

def placing (e : DispatchEntry) : Name × Nat := (e.name, e.offset)

structure WellPlaced (table : List DispatchEntry) : Prop where
  distinct : (table.map DispatchEntry.name).Nodup
  offset : ∀ i e, table[i]? = some e → e.offset = wordSize * i

def implOf (table : List DispatchEntry) (m : Name) : Option Name :=
  (table.find? (fun e => e.name == m)).map DispatchEntry.impl

variable {other table : List DispatchEntry} {m : Name}

section Define

variable (impl : Name)

theorem define_of_mem (hm : table.any (fun e => e.name == m)) :
    define impl table m =
      table.map (fun e => if e.name = m then { e with impl := impl } else e) := by
  rw [define, if_pos hm]

theorem define_of_not_mem (hm : ¬ table.any (fun e => e.name == m)) :
    define impl table m = table ++ [⟨m, impl, impl, wordSize * table.length⟩] := by
  rw [define, if_neg hm]

theorem placing_define_of_mem (hm : table.any (fun e => e.name == m)) :
    (define impl table m).map placing = table.map placing := by
  rw [define_of_mem impl hm, map_map]
  apply map_congr_left
  intro e _
  simp only [Function.comp, placing]
  split <;> rfl

theorem placing_prefix_define (table : List DispatchEntry) (m : Name) :
    table.map placing <+: (define impl table m).map placing := by
  by_cases hm : table.any (fun e => e.name == m)
  · exact ⟨[], by rw [append_nil, placing_define_of_mem impl hm]⟩
  · rw [define_of_not_mem impl hm, map_append]
    exact prefix_append _ _

theorem wellPlaced_iff_placing (hsame : table.map placing = other.map placing)
    (h : WellPlaced table) : WellPlaced other := by
  constructor
  · have hnames : table.map DispatchEntry.name = other.map DispatchEntry.name := by
      simpa [placing, Function.comp_def] using congrArg (List.map Prod.fst) hsame
    rw [← hnames]
    exact h.distinct
  · intro i e he
    have hget := congrArg (fun l => l[i]?) hsame
    simp only [getElem?_map, he, Option.map_some] at hget
    obtain ⟨d, hd, hplace⟩ := Option.map_eq_some_iff.mp hget
    rw [← h.offset i d hd]
    exact (congrArg Prod.snd hplace).symm

theorem wellPlaced_define (h : WellPlaced table) (m : Name) : WellPlaced (define impl table m) := by
  by_cases hm : table.any (fun e => e.name == m)
  · exact wellPlaced_iff_placing (placing_define_of_mem impl hm).symm h
  · rw [define_of_not_mem impl hm]
    constructor
    · rw [map_append, nodup_append]
      refine ⟨h.distinct, nodup_singleton _, ?_⟩
      intro x hx y hy hxy
      obtain ⟨e, he, rfl⟩ := mem_map.mp hx
      rw [map_singleton, mem_singleton] at hy
      apply hm
      rw [any_eq_true]
      exact ⟨e, he, by simp [hxy, hy]⟩
    · intro i e he
      rcases Nat.lt_trichotomy i table.length with hlt | heq | hgt
      · rw [getElem?_append_left hlt] at he
        exact h.offset i e he
      · subst heq
        rw [getElem?_concat_length] at he
        cases he
        rfl
      · rw [getElem?_eq_none (by rw [length_append]; exact hgt)] at he
        cases he

theorem implOf_define (table : List DispatchEntry) (m x : Name) :
    implOf (define impl table m) x = if x = m then some impl else implOf table x := by
  by_cases hm : table.any (fun e => e.name == m)
  · rw [define_of_mem impl hm, implOf, find?_map]
    have hname : (fun e : DispatchEntry => e.name == x) ∘
        (fun e => if e.name = m then { e with impl := impl } else e) =
          fun e => e.name == x := by
      funext e
      simp only [Function.comp]
      split <;> rfl
    rw [hname]
    cases hfind : table.find? (fun e => e.name == x) with
    | none =>
      have hx : x ≠ m := by
        rintro rfl
        obtain ⟨e, he, hen⟩ := any_eq_true.mp hm
        exact find?_eq_none.mp hfind e he hen
      simp [implOf, hfind, hx]
    | some e =>
      have hen : e.name = x := by simpa using find?_some hfind
      by_cases hx : x = m
      · simp [hen, hx]
      · simp [implOf, hfind, hen, hx]
  · rw [define_of_not_mem impl hm, implOf, find?_append]
    by_cases hx : x = m
    · subst hx
      have hnone : table.find? (fun e => e.name == x) = none := by
        rw [find?_eq_none]
        intro e he hen
        exact hm (any_eq_true.mpr ⟨e, he, hen⟩)
      simp [hnone]
    · have hne : ¬ m = x := fun hmx => hx hmx.symm
      simp [implOf, hx, hne]

/-!
# Whole lines

A dispatch table is made going down a line of classes.  Each lemma about a method gives one about a
class and one about the line.
-/

theorem placing_clone (owner : Name) (table : List DispatchEntry) :
    (clone owner table).map placing = table.map placing := by
  rw [clone, map_map]
  rfl

theorem implOf_clone (owner : Name) (table : List DispatchEntry) (x : Name) :
    implOf (clone owner table) x = implOf table x := by
  rw [clone, implOf, find?_map, Option.map_map]
  rfl

theorem foldl_define_placing (table : List DispatchEntry) (methods : List Name) :
    table.map placing <+: (methods.foldl (define impl) table).map placing := by
  induction methods generalizing table with
  | nil => exact prefix_refl _
  | cons m ms ih => exact (placing_prefix_define impl table m).trans (ih _)

theorem foldl_define_wellPlaced (h : WellPlaced table) (methods : List Name) :
    WellPlaced (methods.foldl (define impl) table) := by
  induction methods generalizing table with
  | nil => exact h
  | cons m ms ih => exact ih (wellPlaced_define impl h m)

theorem implOf_foldl_define (table : List DispatchEntry) (methods : List Name) (x : Name) :
    implOf (methods.foldl (define impl) table) x =
      if x ∈ methods then some impl else implOf table x := by
  induction methods generalizing table with
  | nil => simp
  | cons m ms ih =>
    rw [foldl_cons, ih, implOf_define]
    by_cases hx : x = m <;> by_cases hms : x ∈ ms <;> simp [hx, hms]

theorem foldl_define_owner (h : ∀ e ∈ table, e.owner = impl) (methods : List Name) :
    ∀ e ∈ methods.foldl (define impl) table, e.owner = impl := by
  induction methods generalizing table with
  | nil => exact h
  | cons m ms ih =>
    apply ih
    intro e he
    by_cases hm : table.any (fun e => e.name == m)
    · rw [define_of_mem impl hm] at he
      obtain ⟨d, hd, rfl⟩ := mem_map.mp he
      split <;> exact h d hd
    · rw [define_of_not_mem impl hm, mem_append, mem_singleton] at he
      rcases he with he | rfl
      · exact h e he
      · rfl

end Define

theorem implOf_defineAll (table : List DispatchEntry) (c : Class) (x : Name) :
    implOf (defineAll table c) x =
      if c.declaresMethod x then some c.name else implOf table x := by
  rw [defineAll, implOf_foldl_define, implOf_clone]
  simp [Class.declaresMethod]

theorem placing_prefix_defineAll (table : List DispatchEntry) (c : Class) :
    table.map placing <+: (defineAll table c).map placing := by
  rw [← placing_clone c.name]
  exact foldl_define_placing c.name _ _

theorem wellPlaced_defineAll (h : WellPlaced table) (c : Class) : WellPlaced (defineAll table c) :=
  foldl_define_wellPlaced c.name (wellPlaced_iff_placing (placing_clone c.name table).symm h) _

theorem owner_of_mem_defineAll (table : List DispatchEntry) (c : Class) {e : DispatchEntry}
    (he : e ∈ defineAll table c) : e.owner = c.name := by
  refine foldl_define_owner c.name ?_ _ e he
  intro d hd
  obtain ⟨_, _, rfl⟩ := mem_map.mp hd
  rfl

theorem placing_prefix_line (table : List DispatchEntry) (line : List Class) :
    table.map placing <+: (line.foldl defineAll table).map placing := by
  induction line generalizing table with
  | nil => exact prefix_refl _
  | cons c cs ih => exact (placing_prefix_defineAll table c).trans (ih _)

theorem wellPlaced_line (h : WellPlaced table) (line : List Class) :
    WellPlaced (line.foldl defineAll table) := by
  induction line generalizing table with
  | nil => exact h
  | cons c cs ih => exact ih (wellPlaced_defineAll h c)

theorem implOf_line (chain : List Class) (x : Name) :
    implOf (chain.reverse.foldl defineAll []) x =
      (chain.find? (fun c => c.declaresMethod x)).map Class.name := by
  induction chain with
  | nil => rfl
  | cons c cs ih =>
    rw [reverse_cons, foldl_append, foldl_cons, foldl_nil,
      implOf_defineAll, ih, List.find?_cons]
    cases c.declaresMethod x <;> rfl

/-!
# Tables of nodes
-/

theorem offset_eq_of_isPrefix (hother : WellPlaced other)
    (hpre : table.map placing <+: other.map placing) {e : DispatchEntry}
    (he : table.find? (fun d => d.name == m) = some e) :
    ∃ e', other.find? (fun d => d.name == m) = some e' ∧ e'.offset = e.offset := by
  have hname : e.name = m := by simpa using find?_some he
  have hmem : placing e ∈ other.map placing :=
    hpre.subset (mem_map_of_mem (mem_of_find?_eq_some he))
  obtain ⟨d, hd, hplace⟩ := mem_map.mp hmem
  have hdname : d.name = m := (congrArg Prod.fst hplace).trans hname
  cases hfind : other.find? (fun d => d.name == m) with
  | none =>
    have hno := find?_eq_none.mp hfind d hd
    simp [hdname] at hno
  | some e' =>
    have he'name : e'.name = m := by simpa using find?_some hfind
    have hsame : e' = d :=
      inj_on_of_nodup_map hother.distinct (mem_of_find?_eq_some hfind) hd
        (he'name.trans hdname.symm)
    rw [hsame]
    exact ⟨d, rfl, congrArg Prod.snd hplace⟩

theorem method_eq_ok_iff {t : ClassTable} {c : Name} {e : DispatchEntry} :
    t.method c m = .ok e ↔ ∃ n, t.find? c = some n ∧ n.entry? m = some e := by
  unfold ClassTable.method
  cases t.find? c with
  | none => simp
  | some n => cases hentry : n.entry? m <;> simp [hentry]

namespace Built

variable {user : List Class} {parents : List (Option Nat)} {t : ClassTable} {n : ClassNode}

section Entries

variable (h : Built user parents t)
include h

theorem dispatch_eq (hn : n ∈ t.nodes) :
    n.dispatch = ((t.chain n).map ClassNode.decl).reverse.foldl defineAll [] := by
  rw [(h.filled hn).2.2, handed, h.lineage_eq hn]

theorem wellPlaced_dispatch (hn : n ∈ t.nodes) : WellPlaced n.dispatch := by
  have hempty : WellPlaced [] := ⟨nodup_nil, by simp⟩
  rw [h.dispatch_eq hn]
  exact wellPlaced_line hempty _

theorem owner_of_mem_dispatch (hn : n ∈ t.nodes) {e : DispatchEntry} (he : e ∈ n.dispatch) :
    e.owner = n.name := by
  rw [h.dispatch_eq hn, h.chain_cons hn, map_cons, reverse_cons, foldl_append] at he
  exact owner_of_mem_defineAll _ n.decl he

theorem implOf_dispatch (hn : n ∈ t.nodes) (m : Name) :
    implOf n.dispatch m =
      ((t.chain n).find? (fun a => a.decl.declaresMethod m)).map ClassNode.name := by
  rw [h.dispatch_eq hn, implOf_line, find?_map, Option.map_map]
  rfl

theorem entry?_isSome_iff (hn : n ∈ t.nodes) (m : Name) :
    (n.entry? m).isSome ↔ ∃ a ∈ t.chain n, a.decl.declaresMethod m := by
  have himpl := congrArg Option.isSome (h.implOf_dispatch hn m)
  rw [implOf, Option.isSome_map, Option.isSome_map] at himpl
  rw [ClassNode.entry?, himpl, find?_isSome]

theorem offset_eq_of_mem_chain (hn : n ∈ t.nodes) {a : ClassNode} (ha : a ∈ t.chain n) {m : Name}
    {e : DispatchEntry} (he : a.entry? m = some e) :
    ∃ e', n.entry? m = some e' ∧ e'.offset = e.offset := by
  have hanode := mem_nodes_of_mem_chain t ha
  refine offset_eq_of_isPrefix (h.wellPlaced_dispatch hn) ?_ he
  obtain ⟨front, hfront⟩ := h.chain_suffix hn ha
  rw [h.dispatch_eq hn, h.dispatch_eq hanode, ← hfront, map_append, reverse_append, foldl_append]
  exact placing_prefix_line _ _

theorem exists_entry_below (hn : n ∈ t.nodes) {c : ClassNode} (hc : c ∈ t.nodes)
    (hbelow : t.isSubclass n.name c.name = true) {m : Name} {e : DispatchEntry}
    (he : c.entry? m = some e) :
    ∃ (k : Nat) (e' : DispatchEntry) (nearest : ClassNode), n.dispatch[k]? = some e' ∧
      e.offset = wordSize * k ∧
      (t.chain n).find? (fun a => a.decl.declaresMethod m) = some nearest ∧
      e'.label = nearest.methodLabel m := by
  obtain ⟨a, ha, hname⟩ := (h.isSubclass_iff hn).mp hbelow
  rw [h.eq_of_name_eq (mem_nodes_of_mem_chain t ha) hc hname] at ha
  obtain ⟨e', he', hoffset⟩ := h.offset_eq_of_mem_chain hn ha he
  have hfound : n.dispatch.find? (fun d => d.name == m) = some e' := he'
  have hename : e'.name = m := by simpa using find?_some hfound
  have himpl := h.implOf_dispatch hn m
  rw [implOf, hfound, Option.map_some] at himpl
  obtain ⟨nearest, hnearest, hnearestName⟩ := Option.map_eq_some_iff.mp himpl.symm
  obtain ⟨k, hk⟩ := getElem?_of_mem (mem_of_find?_eq_some hfound)
  refine ⟨k, e', nearest, hk, ?_, hnearest, ?_⟩
  · rw [← hoffset, (h.wellPlaced_dispatch hn).offset k e' hk]
  · rw [DispatchEntry.label, ClassNode.methodLabel, hename, hnearestName]

end Entries

theorem getElem?_append_cons_of_ne {α : Type} (front back : List α) (x y : α) {i : Nat}
    (hi : i ≠ front.length) : (front ++ x :: back)[i]? = (front ++ y :: back)[i]? := by
  rcases Nat.lt_or_gt_of_ne hi with hlt | hgt
  · rw [getElem?_append_left hlt, getElem?_append_left hlt]
  · obtain ⟨j, rfl⟩ := Nat.exists_eq_add_of_lt hgt
    simp [getElem?_append_right, Nat.add_assoc]

/-!
A table is made from the declarations on the chain of its class, so declarations
elsewhere do not show in it.
-/

theorem dispatch_eq_of_not_mem_chain {before after : List Class} {d : Class}
    {features : List Feature} {t' : ClassTable}
    (h : Built (before ++ d :: after) parents t)
    (h' : Built (before ++ { d with features := features } :: after) parents t')
    (hn : n ∈ t.nodes) (hchain : d ∉ (t.chain n).map ClassNode.decl) :
    ∃ n' ∈ t'.nodes, n'.name = n.name ∧ n'.dispatch = n.dispatch := by
  let place := Class.builtin.length + before.length
  have hplace : (Class.builtin ++ (before ++ d :: after))[place]? = some d := by
    simp [place]
  have helse : ∀ i, i ≠ place →
      (Class.builtin ++ (before ++ { d with features := features } :: after))[i]? =
        (Class.builtin ++ (before ++ d :: after))[i]? := by
    intro i hi
    rw [← append_assoc, ← append_assoc]
    apply getElem?_append_cons_of_ne
    rwa [length_append]
  -- The way up from `n` keeps clear of the class that differs.
  have hline : lineage (Class.builtin ++ (before ++ { d with features := features } :: after))
      parents n.tag = lineage (Class.builtin ++ (before ++ d :: after)) parents n.tag := by
    have hlen : (before ++ { d with features := features } :: after).length =
        (before ++ d :: after).length := by simp
    rw [lineage, lineage, length_append, hlen, ← length_append]
    apply filterMap_congr
    intro x hx
    apply helse
    rintro rfl
    apply hchain
    rw [← h.lineage_eq hn, lineage, mem_filterMap]
    exact ⟨place, hx, hplace⟩
  have hne : n.tag ≠ place := by
    intro heq
    have hdecl := h.getElem?_decl hn
    rw [heq, hplace] at hdecl
    apply hchain
    rw [Option.some.inj hdecl]
    exact mem_map_of_mem (h.mem_chain_self hn)
  have hlt := h.tag_lt hn
  rw [← h'.size_eq] at hlt
  have hget := getElem?_eq_getElem hlt
  have htag := h'.tag_of_getElem? hget
  have hmem := getElem_mem hlt
  refine ⟨_, hmem, ?_, ?_⟩
  · have hdecl := h'.getElem?_decl hmem
    rw [htag, helse _ hne, h.getElem?_decl hn] at hdecl
    rw [ClassNode.name, ← Option.some.inj hdecl]
    rfl
  · rw [(h'.filled hmem).2.2, (h.filled hn).2.2, handed, handed, htag, hline]

end Built

/-!
# Soundness

The tables of a program within themselves, along a chain and between chains.
-/

/-- In a dispatch table the names are distinct, the entries follow one another, and it has exactly
the methods declared on the chain of its class, those of the classes above at the same places.  An
entry leads to the nearest class that declares the method.  Other declarations in a class change
no table but those of the class and of the classes below it. -/
theorem dispatch_tables_sound (user : List Class) (t : ClassTable) (hbuild : build user = .ok t) :
    (∀ n ∈ t.nodes,
      (n.dispatch.map DispatchEntry.name).Nodup ∧
      (∀ i e, n.dispatch[i]? = some e → e.offset = 2 * i ∧ e.owner = n.name) ∧
      ∀ m, (n.entry? m).isSome ↔ ∃ a ∈ t.chain n, a.decl.declaresMethod m) ∧
    (∀ s ∈ t.nodes, ∀ c ∈ t.nodes, t.isSubclass s.name c.name = true →
      ∀ m e, c.entry? m = some e →
        ∃ e' nearest, s.entry? m = some e' ∧ e'.offset = e.offset ∧ e'.owner = s.name ∧
          (t.chain s).find? (fun a => a.decl.declaresMethod m) = some nearest ∧
          e'.impl = nearest.name) ∧
    (∀ before d after features, user = before ++ d :: after →
      ∃ t', build (before ++ { d with features := features } :: after) = .ok t' ∧
        ∀ n ∈ t.nodes, t.isSubclass n.name d.name = false →
          ∃ n' ∈ t'.nodes, n'.name = n.name ∧ n'.dispatch = n.dispatch) := by
  rcases (build_eq_ok_iff user t).mp hbuild with ⟨parents, h⟩
  refine ⟨?_, ?_, ?_⟩
  · intro n hn
    have hplaced := h.wellPlaced_dispatch hn
    refine ⟨hplaced.distinct, ?_, h.entry?_isSome_iff hn⟩
    intro i e he
    exact ⟨hplaced.offset i e he, h.owner_of_mem_dispatch hn (mem_of_getElem? he)⟩
  · intro s hs c hc hsub m e he
    rcases (h.isSubclass_iff hs).mp hsub with ⟨a, ha, hname⟩
    have hac : a = c := h.eq_of_name_eq (Built.mem_nodes_of_mem_chain t ha) hc hname
    subst hac
    rcases h.offset_eq_of_mem_chain hs ha he with ⟨e', he', hoffset⟩
    have himpl := h.implOf_dispatch hs m
    have hfound : s.dispatch.find? (fun d => d.name == m) = some e' := he'
    rw [implOf, hfound, Option.map_some] at himpl
    rcases Option.map_eq_some_iff.mp himpl.symm with ⟨nearest, hnearest, hnearestName⟩
    have howner := h.owner_of_mem_dispatch hs (mem_of_find?_eq_some hfound)
    exact ⟨e', nearest, he', hoffset, howner, hnearest, hnearestName.symm⟩
  · rintro before d after features rfl
    have hsame : (before ++ { d with features := features } :: after).map heading =
        (before ++ d :: after).map heading := by
      simp only [map_append, map_cons]
      rfl
    have h' := h.of_heading hsame
    refine ⟨_, (build_eq_ok_iff _ _).mpr ⟨parents, h'⟩, ?_⟩
    intro n hn hsub
    apply h.dispatch_eq_of_not_mem_chain h' hn
    intro hmem
    rcases mem_map.mp hmem with ⟨a, ha, hdecl⟩
    have hyes := (h.isSubclass_iff hn).mpr ⟨a, ha, congrArg Class.name hdecl⟩
    rw [hsub] at hyes
    cases hyes

def overridingClasses : List Class :=
  let method (name : Name) : Feature := .method ⟨1, name, [], Name.int, .int ⟨"1", 1, []⟩ 1⟩
  [⟨1, "B", some "A", [method "h", method "g"], "overriding.cl"⟩,
   ⟨2, "A", none, [method "f", method "g"], "overriding.cl"⟩,
   ⟨3, "C", some "A", [method "g"], "overriding.cl"⟩]

theorem dispatch_tables_sound_overriding :
    ∃ t a b e, build overridingClasses = .ok t ∧ a ∈ t.nodes ∧ b ∈ t.nodes ∧
      t.isSubclass b.name a.name = true ∧ a.entry? "g" = some e ∧ e.impl = a.name ∧
      ∃ e' nearest, b.entry? "g" = some e' ∧ e'.offset = e.offset ∧ e'.owner = b.name ∧
        (t.chain b).find? (fun a => a.decl.declaresMethod "g") = some nearest ∧
        e'.impl = nearest.name := by
  have hcheck : (passes (build overridingClasses) fun t =>
      (t.find? "A").any fun a => (t.find? "B").any fun b =>
        t.isSubclass b.name a.name && (a.entry? "g").any fun e => e.impl == a.name) = true := by
    decide +kernel
  simp only [passes_iff, Option.any_eq_true, Bool.and_eq_true, beq_iff_eq] at hcheck
  rcases hcheck with ⟨t, hbuild, a, ha, b, hb, hsub, e, he, himpl⟩
  have ha' := mem_of_find?_eq_some ha
  have hb' := mem_of_find?_eq_some hb
  exact ⟨t, a, b, e, hbuild, ha', hb', hsub, he, himpl,
    (dispatch_tables_sound _ t hbuild).2.1 b hb' a ha' hsub "g" e he⟩

end ClassTable
end CoolCompiler
