import CoolCompiler.Proofs.Emit.LabelRuns
import CoolCompiler.Proofs.Value.Constants

/-!
# Reading the object model

Who reads labelled data finds the header of a prototype, the methods of a dispatch table and the
tables that are indexed by tag.  So the assembly of a program tells its object model, whether its
dispatch tables are in line or in a file.
-/

namespace CoolCompiler

open List ClassTable

def Line.isData : Line → Bool
  | .word _ | .number _ | .string _ => true
  | _ => false

def dataAt (x : Name) : List Line → List Line
  | [] => []
  | l :: ls => if l = .label x then ls.takeWhile Line.isData else dataAt x ls

def Line.text? : Line → Option Text
  | .string s => some s
  | _ => none

def textAt (x : Name) (ls : List Line) : Option Text := (dataAt x ls).findSome? Line.text?

def referredText (ls : List Line) : Line → Option Text
  | .word a => textAt a.label ls
  | _ => none

/-- Labelled data that tells the object model of a class table; `size` is what it says about
the sizes of objects. -/
structure Describes (t : ClassTable) (size : ClassNode → Nat) (ls : List Line) : Prop where
  headers : ∀ n ∈ t.nodes, [.number n.tag, .number (size n)] <+: dataAt n.prototypeLabel ls
  methods : ∀ n ∈ t.nodes,
    dataAt n.dispatchLabel ls = n.dispatch.map fun e => .word ⟨e.label, 0⟩
  objects : dataAt Emit.classObjectTable ls =
    t.nodes.flatMap fun n => [.word ⟨n.prototypeLabel, 0⟩, .word ⟨n.initLabel, 0⟩]
  names : (dataAt Emit.classNameTable ls).map (referredText ls) =
    t.nodes.map fun n => some n.name
  tree : dataAt Emit.inheritanceTree ls =
    t.tree.flatMap fun row => [.number row.tag, .number row.delta]

section Reading

variable {x : Name} {front data ls rest : List Line}

theorem dataAt_append (h : x ∉ labelDefs front) : dataAt x (front ++ ls) = dataAt x ls := by
  rw [Emit.mem_labelDefs] at h
  induction front with
  | nil => rfl
  | cons l front ih =>
    rw [mem_cons, not_or] at h
    rw [cons_append, dataAt, if_neg (Ne.symm h.1), ih h.2]

theorem textAt_append (h : x ∉ labelDefs front) : textAt x (front ++ ls) = textAt x ls := by
  rw [textAt, dataAt_append h, textAt]

theorem takeWhile_data (hdata : ∀ l ∈ data, l.isData = true) :
    (data ++ rest).takeWhile Line.isData = data ++ rest.takeWhile Line.isData :=
  takeWhile_append_of_pos hdata

theorem dataAt_label (hdata : ∀ l ∈ data, l.isData = true)
    (hrest : rest.takeWhile Line.isData = []) : dataAt x (.label x :: (data ++ rest)) = data := by
  rw [dataAt, if_pos rfl, takeWhile_data hdata, hrest, append_nil]

theorem prefix_dataAt (hdata : ∀ l ∈ data, l.isData = true) :
    data <+: dataAt x (.label x :: (data ++ rest)) := by
  rw [dataAt, if_pos rfl, takeWhile_data hdata]
  exact prefix_append _ _

theorem labelDefs_data (hdata : ∀ l ∈ data, l.isData = true) : labelDefs data = [] := by
  rw [eq_nil_iff_forall_not_mem]
  intro x hx
  exact absurd (hdata _ (Emit.mem_labelDefs.mp hx)) Bool.false_ne_true

theorem dataAt_flatMap {α : Type} {f : α → List Line} (rest : List Line) {as : List α} {a : α}
    (ha : a ∈ as)
    (hothers : ∀ b ∈ as, b ≠ a → x ∉ labelDefs (f b)) :
    ∃ post : List α, dataAt x (as.flatMap f ++ rest) =
      dataAt x (f a ++ (post.flatMap f ++ rest)) := by
  induction as with
  | nil => cases ha
  | cons b as ih =>
    rw [forall_mem_cons] at hothers
    by_cases hb : b = a
    · refine ⟨as, ?_⟩
      rw [hb, flatMap_cons, append_assoc]
    · have ha' : a ∈ as := (mem_cons.mp ha).resolve_left (Ne.symm hb)
      rw [flatMap_cons, append_assoc, dataAt_append (hothers.1 hb)]
      exact ih ha' hothers.2

theorem takeWhile_flatMap {α : Type} {f : α → List Line} {as : List α}
    (hf : ∀ a, (f a).head?.any Line.isData = false ∧ f a ≠ [])
    (hrest : rest.takeWhile Line.isData = []) :
    (as.flatMap f ++ rest).takeWhile Line.isData = [] := by
  cases as with
  | nil => exact hrest
  | cons a as =>
    obtain ⟨hhead, hne⟩ := hf a
    rw [flatMap_cons]
    cases hfa : f a with
    | nil => exact absurd hfa hne
    | cons l ls =>
      rw [hfa] at hhead
      exact takeWhile_cons_of_neg (by simpa using hhead)

end Reading

/-!
# Labels of different kinds
-/

theorem suffixed_ne {s s' : Text} (hle : s'.length ≤ s.length) (hnot : ¬ s' <:+ s)
    (c d : Name) : c ++ s ≠ d ++ s' := by
  intro heq
  have hsuffix : s' <:+ c ++ s := heq ▸ suffix_append d s'
  exact hnot (suffix_of_suffix_length_le hsuffix (suffix_append c s) hle)

namespace Emit

/-- Labels of constants end in a digit and those of tags in the last letter of `tag`. -/
def endsAsConstant (x : Name) : Bool :=
  x.getLast?.any fun b => decide (b.toNat ≤ 57) || b == 103

theorem endsAsConstant_append (c : Name) {s : Text} (hs : s ≠ []) :
    endsAsConstant (c ++ s) = endsAsConstant s := by
  rw [endsAsConstant, getLast?_append_of_ne_nil _ hs, endsAsConstant]

theorem endsAsConstant_numbered (w : Text) (i : Nat) :
    endsAsConstant (w ++ Text.decimal i) = true := by
  have hne : Text.decimal i ≠ [] := by simp [Text.decimal, Nat.toDigits_ne_nil]
  rw [endsAsConstant_append w hne, endsAsConstant, getLast?_eq_getLast_of_ne_nil hne]
  simp [(Text.digit_of_mem_decimal (getLast_mem hne)).2]

@[simp] theorem endsAsConstant_prototypeLabel (n : ClassNode) :
    endsAsConstant n.prototypeLabel = false := endsAsConstant_append _ (by decide)

@[simp] theorem endsAsConstant_dispatchLabel (n : ClassNode) :
    endsAsConstant n.dispatchLabel = false := endsAsConstant_append _ (by decide)

theorem prototypeLabel_ne_dispatchLabel (n m : ClassNode) : n.prototypeLabel ≠ m.dispatchLabel :=
  suffixed_ne (by decide) (by decide) _ _

def tagTables : List Name := [classObjectTable, classNameTable, inheritanceTree]

theorem suffixed_not_table (c : Name) {s : Text} (hs : ∀ x ∈ tagTables, ¬ s <:+ x) :
    c ++ s ∉ tagTables := fun h => hs _ h (suffix_append c s)

theorem prototypeLabel_not_table (n : ClassNode) : n.prototypeLabel ∉ tagTables :=
  suffixed_not_table _ (by decide)

theorem dispatchLabel_not_table (n : ClassNode) : n.dispatchLabel ∉ tagTables :=
  suffixed_not_table _ (by decide)

theorem not_table_of_endsAsConstant {x : Name} (h : endsAsConstant x = true) :
    x ∉ tagTables := by
  have htables : ∀ y ∈ tagTables, endsAsConstant y = false := by decide
  exact fun hx => Bool.false_ne_true ((htables x hx).symm.trans h)

/-!
# Sections of the assembly
-/

section Sections

variable {σ : Type} {sc : Scene} {s s' : σ} {ls : List Line} {u : Unit} {n : ClassNode}

theorem yields_tagWord {label c : Name} (h : Yields (tagWord sc label c) s ls u s') :
    ∃ tag : Nat, ls = [.label label, .number tag] := by
  rw [tagWord] at h
  obtain ⟨_, n, _, _, hclass, hlines, rfl⟩ := yields_bind.mp h
  obtain ⟨_, rfl, rfl⟩ := yields_basicClass.mp hclass
  exact ⟨n.tag, (yields_lines.mp hlines).1⟩

theorem label_of_rows {α : Type} {f : α → List Line} {label : α → Name}
    (hdefs : ∀ a, labelDefs (f a) = [label a]) {as : List α} {x : Name}
    (hx : x ∈ labelDefs (as.flatMap f)) : ∃ a, x = label a := by
  rw [labelDefs_flatMap] at hx
  obtain ⟨a, _, hx⟩ := mem_flatMap.mp hx
  rw [hdefs, mem_singleton] at hx
  exact ⟨a, hx⟩

theorem endsAsConstant_of_rows {α : Type} {f : α → List Line} (w : Text) (id : α → Nat)
    (hdefs : ∀ a, labelDefs (f a) = [w ++ Text.decimal (id a)]) (as : List α) :
    ∀ x ∈ labelDefs (as.flatMap f), endsAsConstant x = true := by
  intro x hx
  obtain ⟨a, rfl⟩ := label_of_rows hdefs hx
  exact endsAsConstant_numbered w (id a)

theorem textAt_stringRows (sc : Scene) (n : ClassNode) {es : List (Entry Text)}
    (hnodup : (es.map Entry.id).Nodup) {e : Entry Text} (he : e ∈ es) (rest : List Line) :
    textAt (stringLabel e.id) (es.flatMap (stringRow sc n) ++ rest) = some e.value := by
  induction es with
  | nil => cases he
  | cons first es ih =>
    rw [map_cons, nodup_cons] at hnodup
    rw [flatMap_cons, append_assoc]
    rcases mem_cons.mp he with rfl | he
    · simp [textAt, dataAt, stringRow, stringObject, staticObject]
      rfl
    · have hother : stringLabel e.id ∉ labelDefs (stringRow sc n first) := by
        rw [stringRow, stringObject, labelDefs_staticObject, mem_cons, not_or]
        refine ⟨fun heq => hnodup.1 ?_, not_mem_nil⟩
        rw [← Text.decimal_injective (append_cancel_left heq)]
        exact mem_map_of_mem he
      rw [textAt_append hother]
      exact ih hnodup.2 he

structure Opening (sc : Scene) (ls : List Line) : Prop where
  labels : ∀ x ∈ labelDefs ls, endsAsConstant x = true
  noData : ∀ rest, (ls ++ rest).takeWhile Line.isData = []
  texts : ∀ e ∈ sc.pool.strings.entries, ∀ rest,
    textAt (stringLabel e.id) (ls ++ rest) = some e.value

def tagLines (int bool string : Nat) : List Line :=
  [.label "_int_tag", .number int, .label "_bool_tag", .number bool, .label "_string_tag",
    .number string]

theorem sections_of_beforeTables {tables : Option Text}
    (h : Yields (beforeTables sc tables) s ls u s') :
    ∃ int bool string constantLines k, ∃ s1 s2 : σ,
      Yields (constants sc) s1 constantLines () s2 ∧ sc.pool.ints.find? 0 = some k ∧
      ls = header tables ++ (tagLines int bool string ++ (constantLines ++
        sc.table.nodes.flatMap (prototype ⟨intLabel k, 0⟩))) := by
  rw [beforeTables] at h
  obtain ⟨_, htags, rfl⟩ := yields_lines_bind.mp h
  obtain ⟨_, _, _, _, hint, htags1, rfl⟩ := yields_bind.mp htags
  obtain ⟨int, rfl⟩ := yields_tagWord hint
  obtain ⟨_, _, _, _, hbool, htags2, rfl⟩ := yields_bind.mp htags1
  obtain ⟨bool, rfl⟩ := yields_tagWord hbool
  obtain ⟨_, _, _, _, hstring, hdata, rfl⟩ := yields_bind.mp htags2
  obtain ⟨string, rfl⟩ := yields_tagWord hstring
  obtain ⟨constantLines, _, s2, _, hconstants, hprototypes, rfl⟩ := yields_bind.mp hdata
  obtain ⟨k, hk, rfl⟩ := yields_prototypes hprototypes
  exact ⟨int, bool, string, constantLines, k, _, s2, hconstants, hk, rfl⟩

theorem yields_beforeTables {tables : Option Text}
    (h : Yields (beforeTables sc tables) s ls u s') :
    ∃ opening zero, Opening sc opening ∧
      ls = opening ++ sc.table.nodes.flatMap (prototype zero) := by
  rcases sections_of_beforeTables h with
    ⟨int, bool, string, constantLines, k, s1, s2, hconstants, -, rfl⟩
  rcases yields_constants hconstants with
    ⟨stringNode, intNode, boolNode, -, -, -, -, rfl⟩
  refine ⟨header tables ++ (tagLines int bool string ++
    (sc.pool.strings.entries.flatMap (stringRow sc stringNode) ++
      (sc.pool.ints.entries.flatMap (fun e => intObject intNode e.id e.value) ++
        (boolObject boolNode false ++ boolObject boolNode true)))), ⟨intLabel k, 0⟩,
    ⟨?_, ?_, ?_⟩, ?_⟩
  · simp only [labelDefs_append, labelDefs_header, forall_mem_append]
    refine ⟨by simp, ?_, endsAsConstant_of_rows "str_const" Entry.id (fun _ => rfl) _,
      endsAsConstant_of_rows "int_const" Entry.id (fun _ => rfl) _, ?_, ?_⟩
    · show ∀ x ∈ (["_int_tag", "_bool_tag", "_string_tag"] : List Name), endsAsConstant x = true
      decide
    all_goals exact forall_mem_singleton.mpr (by decide)
  · exact fun _ => rfl
  · intro e he rest
    have hfront : stringLabel e.id ∉ labelDefs (header tables ++ tagLines int bool string) := by
      rw [labelDefs_append, labelDefs_header]
      have hheads : ∀ y ∈ (["_int_tag", "_bool_tag", "_string_tag"] : List Name),
          y.headD 0 = 95 := by decide
      intro hmem
      exact absurd (hheads _ hmem) (by rw [headD_stringLabel]; decide)
    have hnodup : (sc.pool.strings.entries.map Entry.id).Nodup :=
      sc.pool.strings.ids ▸ nodup_range
    have htext := textAt_stringRows sc stringNode hnodup he
      (sc.pool.ints.entries.flatMap (fun e => intObject intNode e.id e.value) ++
        (boolObject boolNode false ++ boolObject boolNode true) ++ rest)
    refine Eq.trans ?_ ((textAt_append hfront).trans htext)
    simp only [append_assoc]
  · simp only [append_assoc]

theorem yields_nameWords {ns : List ClassNode} (h : Yields (nameWords sc ns) s ls u s') :
    ls = ns.map (fun n => .word ⟨stringLabel ((sc.pool.strings.find? n.name).getD 0), 0⟩) ∧
      ∀ n ∈ ns, (sc.pool.strings.find? n.name).isSome := by
  induction ns generalizing s ls with
  | nil =>
    obtain ⟨rfl, _, _⟩ := yields_done.mp h
    simp
  | cons n ns ih =>
    rw [nameWords] at h
    obtain ⟨_, name, _, _, hname, hwritten, rfl⟩ := yields_bind.mp h
    obtain ⟨k, hk, rfl, rfl, rfl⟩ := yields_stringConst.mp hname
    obtain ⟨rest, hrest, rfl⟩ := yields_lines_bind.mp hwritten
    obtain ⟨rfl, hall⟩ := ih hrest
    rw [forall_mem_cons, hk]
    exact ⟨by simp [hk], rfl, hall⟩

theorem yields_classTables (h : Yields (classTables sc) s ls u s') :
    ls = objectTable sc.table ++ (.label classNameTable ::
      (sc.table.nodes.map (fun n =>
        .word ⟨stringLabel ((sc.pool.strings.find? n.name).getD 0), 0⟩) ++ treeTable sc.table)) ∧
    ∀ n ∈ sc.table.nodes, (sc.pool.strings.find? n.name).isSome := by
  rw [classTables] at h
  obtain ⟨_, htables, rfl⟩ := yields_lines_bind.mp h
  obtain ⟨_, _, _, _, hnames, htree, rfl⟩ := yields_bind.mp htables
  rw [nameTable] at hnames
  obtain ⟨_, hwords, rfl⟩ := yields_lines_bind.mp hnames
  obtain ⟨rfl, hall⟩ := yields_nameWords hwords
  obtain ⟨rfl, _⟩ := yields_lines.mp htree
  exact ⟨rfl, hall⟩

end Sections

/-!
# The whole assembly
-/

def prototypeSize (n : ClassNode) : Nat :=
  if n.name = Name.string then stringSize [] else n.objectSize

theorem prototype_eq (zero : Address) (n : ClassNode) :
    ∃ contents, prototype zero n = [.number eyeCatcher] ++ .label n.prototypeLabel ::
      ([.number n.tag, .number (prototypeSize n)] ++ contents) := by
  unfold prototype prototypeSize
  split
  · exact ⟨_, rfl⟩
  · exact ⟨_, rfl⟩

section Program

variable {user : List Class} {parents : List (Option Nat)} {t : ClassTable} {pool : Pool}
  (h : Built user parents t)
include h

theorem prototype_header {front rest : List Line} {zero : Address} {n : ClassNode}
    (hn : n ∈ t.nodes) (hfront : n.prototypeLabel ∉ labelDefs front) :
    [.number n.tag, .number (prototypeSize n)] <+:
      dataAt n.prototypeLabel (front ++ (t.nodes.flatMap (prototype zero) ++ rest)) := by
  have hothers : ∀ m ∈ t.nodes, m ≠ n → n.prototypeLabel ∉ labelDefs (prototype zero m) := by
    intro m hm hne hmem
    rw [labelDefs_prototype, mem_singleton] at hmem
    exact hne (h.eq_of_name_eq hm hn (append_cancel_right hmem).symm)
  obtain ⟨post, hpost⟩ := dataAt_flatMap rest hn hothers
  obtain ⟨contents, hblock⟩ := prototype_eq zero n
  have heye : n.prototypeLabel ∉ labelDefs [.number eyeCatcher] := not_mem_nil
  rw [dataAt_append hfront, hpost, hblock, append_assoc, dataAt_append heye,
    cons_append, append_assoc]
  exact prefix_dataAt (by simp [Line.isData])

theorem dispatchTable_methods {front rest : List Line} {n : ClassNode} (hn : n ∈ t.nodes)
    (hfront : n.dispatchLabel ∉ labelDefs front) (hrest : rest.takeWhile Line.isData = []) :
    dataAt n.dispatchLabel (front ++ (dispatchTables t ++ rest)) =
      n.dispatch.map fun e => .word ⟨e.label, 0⟩ := by
  have hothers : ∀ m ∈ t.preorder, m ≠ n → n.dispatchLabel ∉ labelDefs (dispatchTable m) := by
    intro m hm hne hmem
    rw [labelDefs_dispatchTable, mem_singleton] at hmem
    exact hne (h.eq_of_name_eq (h.mem_preorder_iff.mp hm) hn (append_cancel_right hmem).symm)
  obtain ⟨post, hpost⟩ := dataAt_flatMap rest (h.mem_preorder_iff.mpr hn) hothers
  rw [dataAt_append hfront, dispatchTables, hpost, dispatchTable, cons_append]
  refine dataAt_label (by simp [Line.isData]) (takeWhile_flatMap (fun m => ?_) hrest)
  exact ⟨rfl, cons_ne_nil _ _⟩

omit h in
theorem dataAt_tables {words rest : List Line} (hwords : ∀ l ∈ words, l.isData = true)
    (hrest : rest.takeWhile Line.isData = []) :
    dataAt classObjectTable (objectTable t ++ (.label classNameTable ::
        (words ++ (treeTable t ++ rest)))) =
      (t.nodes.flatMap fun n => [.word ⟨n.prototypeLabel, 0⟩, .word ⟨n.initLabel, 0⟩]) ∧
    dataAt classNameTable (objectTable t ++ (.label classNameTable ::
      (words ++ (treeTable t ++ rest)))) = words ∧
    dataAt inheritanceTree (objectTable t ++ (.label classNameTable ::
        (words ++ (treeTable t ++ rest)))) =
      t.tree.flatMap fun row => [.number row.tag, .number row.delta] := by
  have hpairs : ∀ {α : Type} {xs : List α} {a b : α → Line},
      (∀ x, (a x).isData = true ∧ (b x).isData = true) →
      ∀ l ∈ xs.flatMap (fun x => [a x, b x]), l.isData = true := by
    intro α xs a b hboth l hl
    obtain ⟨x, _, hl⟩ := mem_flatMap.mp hl
    rw [mem_cons, mem_singleton] at hl
    rcases hl with rfl | rfl
    · exact (hboth x).1
    · exact (hboth x).2
  refine ⟨?_, ?_, ?_⟩
  · exact dataAt_label (hpairs fun _ => ⟨rfl, rfl⟩) rfl
  · have hskip : classNameTable ∉ labelDefs (objectTable t) := by
      rw [labelDefs_objectTable]
      decide
    rw [dataAt_append hskip]
    exact dataAt_label hwords rfl
  · have hskip : inheritanceTree ∉
        labelDefs (objectTable t ++ (.label classNameTable :: words)) := by
      rw [labelDefs_append, labelDefs_objectTable, labelDefs_label, labelDefs_data hwords]
      decide
    have hrows : dataAt inheritanceTree (treeTable t ++ rest) =
        t.tree.flatMap fun row => [.number row.tag, .number row.delta] :=
      dataAt_label (hpairs fun _ => ⟨rfl, rfl⟩) hrest
    refine Eq.trans ?_ ((dataAt_append hskip).trans hrows)
    rw [append_assoc, cons_append]

inductive TablesAt (t : ClassTable) : List Line → List Line → Prop where
  | between : TablesAt t [] (dispatchTables t)
  | first : TablesAt t (dispatchTables t) []

section Placement

variable {opening before between rest : List Line} {zero : Address} {n : ClassNode}
  (hopening : Opening ⟨t, pool⟩ opening) (hplace : TablesAt t before between)

omit h in
include hplace in
theorem TablesAt.labels {x : Name} (hx : x ∈ labelDefs before ∨ x ∈ labelDefs between) :
    ∃ n : ClassNode, x = n.dispatchLabel := by
  cases hplace with
  | between => exact label_of_rows labelDefs_dispatchTable (hx.resolve_left not_mem_nil)
  | first => exact label_of_rows labelDefs_dispatchTable (hx.resolve_right not_mem_nil)

omit h in
include hopening hplace in
theorem not_table_of_sections {x : Name} (hx : x ∈ labelDefs (before ++ (opening ++
    (t.nodes.flatMap (prototype zero) ++ between)))) : x ∉ tagTables := by
  simp only [labelDefs_append, mem_append] at hx
  rcases hx with hx | hx | hx | hx
  · obtain ⟨n, rfl⟩ := hplace.labels (.inl hx)
    exact dispatchLabel_not_table n
  · exact not_table_of_endsAsConstant (hopening.labels x hx)
  · obtain ⟨n, rfl⟩ := label_of_rows (labelDefs_prototype zero) hx
    exact prototypeLabel_not_table n
  · obtain ⟨n, rfl⟩ := hplace.labels (.inr hx)
    exact dispatchLabel_not_table n

omit h in
include hopening hplace in
theorem dataAt_sections {x : Name} (hx : x ∈ tagTables) (ls : List Line) :
    dataAt x (before ++ (opening ++ (t.nodes.flatMap (prototype zero) ++ (between ++ ls)))) =
      dataAt x ls := by
  have hnot : x ∉ labelDefs (before ++ (opening ++ (t.nodes.flatMap (prototype zero) ++
      between))) := fun hmem => not_table_of_sections hopening hplace hmem hx
  refine Eq.trans ?_ (dataAt_append hnot)
  simp only [append_assoc]

include hopening hplace in
theorem header_of_sections (hn : n ∈ t.nodes) : [.number n.tag, .number (prototypeSize n)] <+:
    dataAt n.prototypeLabel
      (before ++ (opening ++ (t.nodes.flatMap (prototype zero) ++ rest))) := by
  have hfront : n.prototypeLabel ∉ labelDefs (before ++ opening) := by
    rw [labelDefs_append, mem_append]
    rintro (hx | hx)
    · obtain ⟨m, hm⟩ := hplace.labels (.inl hx)
      exact prototypeLabel_ne_dispatchLabel n m hm
    · simpa using hopening.labels _ hx
  rw [← append_assoc before]
  exact prototype_header h hn hfront

include hopening hplace in
theorem methods_of_sections (hn : n ∈ t.nodes) (hrest : rest.takeWhile Line.isData = []) :
    dataAt n.dispatchLabel (before ++ (opening ++ (t.nodes.flatMap (prototype zero) ++
      (between ++ rest)))) = n.dispatch.map fun e => .word ⟨e.label, 0⟩ := by
  cases hplace with
  | between =>
    have hfront : n.dispatchLabel ∉ labelDefs (opening ++ t.nodes.flatMap (prototype zero)) := by
      rw [labelDefs_append, mem_append]
      rintro (hx | hx)
      · simpa using hopening.labels _ hx
      · obtain ⟨m, hm⟩ := label_of_rows (labelDefs_prototype zero) hx
        exact prototypeLabel_ne_dispatchLabel m n hm.symm
    rw [nil_append, ← append_assoc opening]
    exact dispatchTable_methods h hn hfront hrest
  | first =>
    have hnone : n.dispatchLabel ∉ labelDefs [] := not_mem_nil
    exact dispatchTable_methods h hn hnone (hopening.noData _)

omit h in
include hopening hplace in
theorem text_of_sections {k : Nat} {text : Text} (hk : pool.strings.find? text = some k)
    (ls : List Line) : textAt (stringLabel k) (before ++ (opening ++ ls)) = some text := by
  have hfront : stringLabel k ∉ labelDefs before := by
    intro hx
    obtain ⟨m, hm⟩ := hplace.labels (.inl hx)
    have hends : endsAsConstant (stringLabel k) = true := endsAsConstant_numbered "str_const" k
    simp [hm] at hends
  rw [textAt_append hfront]
  exact hopening.texts ⟨k, text⟩ (Numbering.mem_entries_of_find? hk) ls

include hopening hplace in
theorem describes_sections (hnames : ∀ n ∈ t.nodes, (pool.strings.find? n.name).isSome)
    (hrest : rest.takeWhile Line.isData = []) :
    Describes t prototypeSize (before ++ (opening ++ (t.nodes.flatMap (prototype zero) ++
      (between ++ (objectTable t ++ (.label classNameTable ::
        (t.nodes.map (fun n =>
          .word ⟨stringLabel ((pool.strings.find? n.name).getD 0), 0⟩) ++
            (treeTable t ++ rest)))))))) := by
  have hwords : ∀ l ∈ t.nodes.map (fun n => Line.word
      ⟨stringLabel ((pool.strings.find? n.name).getD 0), 0⟩), l.isData = true := by
    intro l hl
    obtain ⟨n, _, rfl⟩ := mem_map.mp hl
    rfl
  obtain ⟨hobjects, hwordsAt, htree⟩ := dataAt_tables (t := t) hwords hrest
  constructor
  · exact fun n hn => header_of_sections h hopening hplace hn
  · exact fun n hn => methods_of_sections h hopening hplace hn rfl
  · rw [dataAt_sections hopening hplace (by decide), hobjects]
  · rw [dataAt_sections hopening hplace (by decide), hwordsAt, map_map]
    refine map_congr_left fun n hn => ?_
    obtain ⟨k, hk⟩ := Option.isSome_iff_exists.mp (hnames n hn)
    simp only [Function.comp_apply, hk, Option.getD_some, referredText]
    exact text_of_sections hopening hplace hk _
  · rw [dataAt_sections hopening hplace (by decide), htree]

end Placement
end Program

/-!
# Runs
-/

theorem lines_bind {σ α β : Type} {x : Emit σ α} {f : α → Emit σ β} {s s' : σ} {ls : List Line}
    {a : α} (h : Yields x s ls a s') : ((x >>= f) s).lines = ls ++ (f a s').lines := by
  obtain ⟨rfl, rfl, houtcome⟩ := h
  simp only [Bind.bind, andThen, houtcome]

theorem takeWhile_routines {user : List Class} {parents : List (Option Nat)} {t : ClassTable}
    (h : Built user parents t) (pool : Pool) (labels : Nat) :
    ((initRoutines ⟨t, pool⟩ >>= fun _ => allMethods ⟨t, pool⟩) labels).lines.takeWhile
      Line.isData = [] := by
  have hroot : t.preorder ≠ [] := by
    have hsize : t.nodes ≠ [] := by
      intro hnil
      have hlength := congrArg List.length h.map_decl
      rw [hnil] at hlength
      simp [Class.builtin] at hlength
    obtain ⟨n, hn⟩ := exists_mem_of_ne_nil _ hsize
    exact ne_nil_of_mem (h.mem_preorder_iff.mpr hn)
  obtain ⟨n, ns, hpreorder⟩ := exists_cons_of_ne_nil hroot
  have hfirst : ∃ rest, (initRoutine ⟨t, pool⟩ n labels).lines = .label n.initLabel :: rest := by
    rw [initRoutine, lines_bind (yields_lines (u := ()).mpr ⟨rfl, rfl⟩)]
    exact ⟨_, rfl⟩
  obtain ⟨rest, hfirst⟩ := hfirst
  have hbind : ∀ {α β : Type} (x : Emit Nat α) (f : α → Emit Nat β),
      (x labels).lines.head? = some (.label n.initLabel) →
        ((x >>= f) labels).lines.head? = some (.label n.initLabel) := by
    intro α β x f hx
    rcases bind_cases x f labels with ⟨hlines, _⟩ | ⟨a, hlines, _⟩
    · rw [hlines, hx]
    · rw [hlines, head?_append, hx]
      rfl
  have hhead : ((initRoutines ⟨t, pool⟩ >>= fun _ => allMethods ⟨t, pool⟩) labels).lines.head? =
      some (.label n.initLabel) := by
    refine hbind _ _ ?_
    rw [initRoutines, hpreorder, forClasses]
    exact hbind _ _ (by rw [hfirst]; rfl)
  cases hlines : ((initRoutines ⟨t, pool⟩ >>= fun _ => allMethods ⟨t, pool⟩) labels).lines with
  | nil => rfl
  | cons l ls =>
    rw [hlines] at hhead
    cases hhead
    rfl

theorem lines_afterTables {user : List Class} {parents : List (Option Nat)} {t : ClassTable}
    (h : Built user parents t) (pool : Pool) (labels : Nat) :
    ∃ rest, (afterTables ⟨t, pool.collect t⟩ labels).lines =
        objectTable t ++ (.label classNameTable :: (t.nodes.map (fun n => .word
          ⟨stringLabel (((pool.collect t).strings.find? n.name).getD 0), 0⟩) ++
            (treeTable t ++ rest))) ∧
      rest.takeWhile Line.isData = [] ∧
      ∀ n ∈ t.nodes, ((pool.collect t).strings.find? n.name).isSome := by
  have hsucceeds : Succeeds (classTables ⟨t, pool.collect t⟩) := classTables_succeeds
  obtain ⟨ls, u, labels', hclass, -⟩ := (hsucceeds labels).exists_yields
  obtain ⟨rfl, hnames⟩ := yields_classTables hclass
  refine ⟨_, ?_, takeWhile_routines h (pool.collect t) labels', hnames⟩
  rw [afterTables, lines_bind hclass]
  simp only [append_assoc, cons_append]

end Emit

def Generated.listing (r : Generated) : List Line := r.tables ++ r.assembly

namespace Generator

open Emit

theorem assembly_finish {g : Generator} {sink : Sink} (hsink : sink.Unlimited)
    (tables : List Line) (opening : Nat) (notes : List EmitNote) (e : Emitted Nat Unit) :
    (g.finish sink tables opening notes e).assembly = e.lines ∧
      (g.finish sink tables opening notes e).tables = tables := by
  have hall := (Sink.writeAll_of_not_failed (Sink.unlimited_writeAll hsink e.lines).2).2
  rcases finish_account (r := g.finish sink tables opening notes e) rfl with
    ⟨-, htables, hassembly, -⟩
  exact ⟨hassembly.trans hall, htables⟩

theorem run_describes {user : List Class} {t : ClassTable}
    (hbuild : build user = .ok t) {g : Generator} (hpool : g.pool.LengthsInterned)
    {sink : Sink} (hsink : sink.Unlimited) {tableSink : Option Sink}
    (htables : ∀ ts ∈ tableSink, ts.Unlimited) :
    Describes t prototypeSize (g.run user sink tableSink).listing := by
  obtain ⟨parents, h⟩ := (build_eq_ok_iff user t).mp hbuild
  have hbefore : ∀ file, ∃ opening zero labels,
      Opening ⟨t, g.pool.collect t⟩ opening ∧
      Yields (beforeTables ⟨t, g.pool.collect t⟩ file) g.labels
        (opening ++ t.nodes.flatMap (prototype zero)) () labels := by
    intro file
    rcases (beforeTables_succeeds h hpool file g.labels).exists_yields with
      ⟨ls, u, labels, hyields, -⟩
    obtain ⟨opening, zero, hopening, rfl⟩ := yields_beforeTables hyields
    exact ⟨opening, zero, labels, hopening, hyields⟩
  unfold run
  rw [hbuild]
  simp only
  cases tableSink with
  | none =>
    obtain ⟨opening, zero, labels, hopening, hyields⟩ := hbefore none
    obtain ⟨rest, hafter, hrest, hnames⟩ := lines_afterTables h g.pool labels
    have hlines : (inlineProgram ⟨t, g.pool.collect t⟩ g.labels).lines =
        opening ++ t.nodes.flatMap (prototype zero) ++
          (dispatchTables t ++ (afterTables ⟨t, g.pool.collect t⟩ labels).lines) := by
      rw [inlineProgram, lines_bind hyields, lines_bind (yields_lines (u := ()).mpr ⟨rfl, rfl⟩)]
    rw [Generated.listing, (assembly_finish hsink ..).1, (assembly_finish hsink ..).2, hlines,
      hafter, append_assoc]
    exact describes_sections h hopening .between hnames hrest
  | some ts =>
    obtain ⟨opening, zero, labels, hopening, hyields⟩ := hbefore (some g.tableFile)
    obtain ⟨rest, hafter, hrest, hnames⟩ := lines_afterTables h g.pool labels
    have hlines : (splitProgram ⟨t, g.pool.collect t⟩ g.tableFile g.labels).lines =
        opening ++ t.nodes.flatMap (prototype zero) ++
          (afterTables ⟨t, g.pool.collect t⟩ labels).lines := by
      rw [splitProgram, lines_bind hyields]
    have htaken := Sink.unlimited_writeAll (htables ts rfl) (dispatchTables t)
    have hwritten := (Sink.writeAll_of_not_failed htaken.2).2
    simp only [hyields.outcome]
    rw [if_neg (by simp [htaken.2]), Generated.listing, (assembly_finish hsink ..).1,
      (assembly_finish hsink ..).2, hlines, hafter, hwritten, append_assoc]
    exact describes_sections h hopening .first hnames hrest

end Generator
end CoolCompiler
